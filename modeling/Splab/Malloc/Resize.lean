import Splab.Malloc.Realloc

namespace Splab.Malloc

/-- What a client sees of `mm_realloc(p, m)` with `m` taking `n` units: the other
blocks are untouched, and `r` starts with the bytes of the old block. -/
structure Resized (pre : List Seg) (s : Seg) (post : List Seg) (n r : Nat) (h h' : Heap) : Prop where
  steady : Steady (pre ++ post) h h'
  copied : ∀ i, i + 8 < 8 * s.size → i + 8 < 8 * n → h'.bytes (r + i) = h.bytes (s.addr + 8 + i)

/-- How far `mm_realloc` moves the break. -/
def reallocGrowth (pre : List Seg) (s : Seg) (post : List Seg) (n : Nat) : Nat :=
  if n ≤ (absorb n s post).1.size then 0
  else if (absorb n s post).2 = [] then growth (n - (absorb n s post).1.size)
  else mallocGrowth (pre ++ s :: post) n

section Counts
variable {segs post : List Seg} {s : Seg} {e u n : Nat}

theorem freeCount_spare : freeCount (s.spare n) ≤ 1 := by
  refine List.countP_le_length.trans ?_
  unfold Seg.spare
  split <;> simp

theorem freeCount_freshSpare : freeCount (freshSpare e u) ≤ 1 := by
  unfold freshSpare
  split
  · exact freeCount_spare
  · exact Nat.zero_le 1

/-- An extension adds up to two free segments, the new one and what `mm_sbrk` has split off. -/
theorem freeCount_extended : freeCount (Policy.extended e post u) ≤ freeCount post + 2 := by
  have spare := @freeCount_freshSpare e u
  rw [Policy.extended, freeCount_free rfl, freeCount_append]
  omega

theorem freeCount_malloc {a b : Nat} (tiles : Tiles a segs b) :
    freeCount (Policy.malloc e segs n).1 ≤ freeCount segs + 1 := by
  unfold Policy.malloc
  cases found : bestFit segs n with
  | none =>
    have spare := @freeCount_freshSpare e n
    rw [Option.bind_none, freeCount_alloc fresh_alloc, freeCount_append]
    omega
  | some k =>
    obtain ⟨pre, s, post, rfl, free, _, rfl, located⟩ := tiles.chosen found
    have spare := @freeCount_spare s n
    rw [found] at located
    rw [located, freeCount_free free]
    simp only
    rw [freeCount_alloc rfl, freeCount_append, freeCount_append, freeCount_append]
    omega

end Counts

section Cases
variable {h h' : Heap} {pre post : List Seg} {s z : Seg} {n u ptr osize limit : Nat}

theorem resized_in_place (steady : Steady (pre ++ z :: post) h h') (addr : z.addr = s.addr) (alloc : z.alloc = true)
    (big : min n s.size ≤ z.size) : Resized pre s post n (s.addr + mmHeaderSize) h h' := by
  refine ⟨steady.sublist fun f => mem_around, fun i old new => steady.bytes _ ?_⟩
  unfold mmHeaderSize
  exact ⟨z, by simp, alloc, by omega, by omega⟩

/-- The heap is extended behind the block, which then takes in the new segment. -/
theorem Rep.runs_reallocExtend (rep : Rep h (pre ++ s :: post)) (alloc : s.alloc = true) (one : 1 ≤ u)
    (room : h.memBrk + growth u ≤ h.memMaxAddr) (deep : Deep limit (freeCount (pre ++ post) + 2)) :
    Runs (do
      let next ← mmSbrkUpto limit (8 * u)
      setAlloc next false
      mmInsertUpto limit next
      mmReallocExpandUpto limit s.addr n
      return ptr) h fun r h' => r = ptr ∧
        Rep h' (pre ++ (absorb n s (Policy.extended h.last post u)).1 ::
          (absorb n s (Policy.extended h.last post u)).2) ∧
        Steady (pre ++ s :: post) h h' := by
  have spare := @freeCount_freshSpare h.last u
  have extended := @freeCount_extended post h.last u
  rw [freeCount_append] at deep
  rw [runs_bind]
  refine (rep.runs_mmSbrkUpto one room (deep.mono ?_)).mono ?_
  · rw [freeCount_alloc alloc, freeCount_append]
    omega
  rintro _ h1 ⟨rfl, held1, steady1⟩
  obtain ⟨held2, steady2⟩ := held1.setAlloc (b := false)
  have inside := held1.gap.headerIn
  rw [fresh_addr] at inside held2 steady2
  rw [runs_bind, runs_setAlloc inside, runs_bind]
  refine (held2.runs_file rfl (deep.mono ?_)).mono ?_
  · rw [freeCount_append, freeCount_alloc alloc, freeCount_append]
    omega
  rintro _ h3 ⟨rep3, steady3⟩
  have whole : Rep h3 (pre ++ s :: Policy.extended h.last post u) := by
    simpa [Policy.extended] using rep3
  rw [runs_bind]
  refine (((rep_iff_held alloc).mp whole).runs_mmReallocExpand alloc (deep.mono ?_)).mono ?_
  · rw [freeCount_append]
    omega
  rintro _ h4 ⟨rep4, steady4⟩
  rw [runs_pure]
  refine ⟨rfl, rep4, ((steady1.trans (steady2.sublist ?_)).trans (steady3.sublist ?_)).trans (steady4.sublist ?_)⟩
  · exact fun f mem => List.mem_append_left _ mem
  · exact fun f mem => List.mem_append_left _ mem
  · intro f mem
    simp only [Policy.extended, List.mem_append, List.mem_cons] at mem ⊢
    tauto

theorem mem_of_ne {xs pre' post' : List Seg} {x : Seg} (eq : xs = pre' ++ s :: post') (mem : x ∈ xs) (ne : x ≠ s) :
    x ∈ pre' ++ post' := by
  subst eq
  simpa [ne] using mem

/-- The block moves: a new one is allocated, the payload copied and the old one freed. -/
theorem Rep.runs_reallocMove (rep : Rep h (pre ++ s :: post)) (alloc : s.alloc = true)
    (units : unitsFor osize = n) (more : s.size < n)
    (room : h.memBrk + mallocGrowth (pre ++ s :: post) n ≤ h.memMaxAddr)
    (deep : Deep limit (freeCount (pre ++ post) + 2)) :
    Runs (do
      let new ← mmMallocUpto limit osize
      let _ ← mmMemcpy new (s.addr + mmHeaderSize) (8 * (← getSize s.addr) - mmHeaderSize)
      mmFreeUpto limit (s.addr + mmHeaderSize)
      return new) h fun r h' =>
        Rep h' (Policy.free (Policy.malloc h.last (pre ++ s :: post) n).1 (s.addr + mmHeaderSize)) ∧
        r = (Policy.malloc h.last (pre ++ s :: post) n).2 ∧ Resized pre s post n r h h' := by
  have gap := chain_iff_gap.mp rep.chain
  have place := gap.bounds
  have tiles := rep.chain.tiles
  subst units
  rw [runs_bind]
  rw [← freeCount_alloc alloc] at deep
  refine (rep.runs_mmMallocUpto (noSliver_of_two (by omega)) room (deep.mono (Nat.le_add_right _ 2))).mono ?_
  rintro new h1 ⟨rep1, ptr, steady1⟩
  generalize unitsFor osize = n at *
  have few := freeCount_malloc (e := h.last) (n := n) tiles
  obtain ⟨z, addr, big, after⟩ := Policy.malloc_allocated (e := h.last) (n := n) tiles
  rw [← ptr] at addr
  rw [← ptr]
  generalize (Policy.malloc h.last (pre ++ s :: post) n).1 = result at *
  have inAfter : ∀ x ∈ pre ++ s :: post, x.alloc = true → x ∈ result := fun x mem isAlloc =>
    (mem_allocated.mp (after.mem_iff.mpr (List.mem_cons_of_mem _ (mem_allocated.mpr ⟨mem, isAlloc⟩)))).1
  obtain ⟨zIn, kind⟩ := mem_allocated.mp (after.mem_iff.mpr List.mem_cons_self)
  have nodup : (z :: allocated (pre ++ s :: post)).Nodup := after.nodup_iff.mp (rep1.chain.tiles.nodup.filter _)
  have zNew : ∀ x ∈ pre ++ s :: post, x.alloc = true → x ≠ z := fun x mem isAlloc eq =>
    nodup.notMem (eq ▸ mem_allocated.mpr ⟨mem, isAlloc⟩)
  have sNew := zNew s (by simp) alloc
  obtain ⟨pre1, post1, rfl⟩ := List.append_of_mem (inAfter s (by simp) alloc)
  have gap1 := chain_iff_gap.mp rep1.chain
  have zOther : z ∈ pre1 ++ post1 := mem_of_ne rfl zIn sNew.symm
  have zPlace := gap1.focus zIn
  have sPlace := gap1.bounds
  have apart := gap1.tiles.disjoint zIn (show s ∈ pre1 ++ s :: post1 by simp)
  replace apart := apart.resolve_left sNew.symm
  unfold Seg.stop at apart
  rw [← addr, runs_bind, runs_getSize gap1.headerIn, gap1.header.size, runs_bind]
  unfold mmHeaderSize
  rw [runs_mmMemcpy (by omega) (by unfold Heap.Within; omega) (by unfold Heap.Within; omega), runs_bind]
  have changed : ∀ b, ¬(z.addr + 8 ≤ b ∧ b < z.addr + 8 * s.size) →
      (h1.copy (z.addr + 8) (s.addr + 8) (8 * s.size - 8)).bytes b = h1.bytes b := fun b off => by
    simp only [Heap.copy]
    exact if_neg (by omega)
  have rep2 : Rep (h1.copy (z.addr + 8) (s.addr + 8) (8 * s.size - 8)) (pre1 ++ s :: post1) :=
    rep1.write rfl rfl rfl fun b off => changed b fun inside => off ⟨z, zIn, kind, inside.1, by omega⟩
  rw [freeCount_alloc alloc] at few
  refine (rep2.runs_mmFreeUpto alloc (deep.mono (few.trans (Nat.le_succ _)))).mono ?_
  rintro _ h3 ⟨rep3, steady3⟩
  rw [runs_pure]
  have freed : Policy.free (pre1 ++ s :: post1) (s.addr + mmHeaderSize) = Policy.release pre1 s post1 := by
    unfold Policy.free
    rw [Nat.add_sub_cancel, gap1.tiles.locate]
  refine ⟨by rw [← freed] at rep3; exact rep3, rfl, ?_, ?_⟩
  · refine ⟨steady3.start.trans steady1.start, steady3.maxAddr.trans steady1.maxAddr,
      steady3.errno.trans steady1.errno, ?_, ?_⟩
    · exact steady1.recorded.trans (show Recorded h1 h3 from steady3.recorded)
    rintro b ⟨x, mem, isAlloc, low, high⟩
    have old := mem_around (s := s) mem
    have stays : x ∈ pre1 ++ post1 :=
      mem_of_ne rfl (inAfter x old isAlloc) fun eq => tiles.notMem (eq ▸ mem)
    have off := (gap1.tiles.disjoint (inAfter x old isAlloc) zIn).resolve_left (zNew x old isAlloc)
    unfold Seg.stop at off
    rw [steady3.bytes b ⟨x, stays, isAlloc, low, high⟩, changed b (by omega),
      steady1.bytes b ⟨x, old, isAlloc, low, high⟩]
  · intro i old _
    rw [steady3.bytes _ ⟨z, zOther, kind, by omega, by omega⟩]
    have copied : (h1.copy (z.addr + 8) (s.addr + 8) (8 * s.size - 8)).bytes (z.addr + 8 + i) =
        h1.bytes (s.addr + 8 + i) := by
      simp only [Heap.copy]
      rw [if_pos (by omega), show s.addr + 8 + (z.addr + 8 + i - (z.addr + 8)) = s.addr + 8 + i by omega]
    rw [copied, steady1.bytes _ ⟨s, by simp, alloc, by omega, by omega⟩]

/-- The test that `mm_realloc` makes between its loops: only the sentinel has size 0. -/
theorem Gap.runs_atEnd {p sum : Nat} {gone rest : List Seg} {Q : Bool → Heap → Prop} (gap : Gap h pre s p post)
    (split : post = gone ++ rest) :
    Runs (both (pure (decide (sum < n))) (do return (← getSize (headAddr h.last rest)) == 0)) h Q ↔
      Q (decide (sum < n ∧ rest = [])) h := by
  unfold both
  rw [runs_bind, runs_pure]
  by_cases less : sum < n
  · rw [if_pos (by simpa using less), runs_bind]
    cases rest with
    | nil =>
      have inside : h.HeaderIn h.last := by
        have := gap.bounds
        have := gap.last_eq
        unfold Heap.HeaderIn Heap.Within
        omega
      have size : (h.node h.last).size = 0 := by
        obtain ⟨q, header⟩ := gap.back.header (s := sentinel h.last) (by simp)
        exact header.size
      rw [headAddr, List.head?_nil, Option.map_none, Option.getD_none, runs_getSize inside, runs_pure, size]
      simp [less]
    | cons x rest =>
      have mem : x ∈ pre ++ s :: post := by simp [split]
      obtain ⟨q, header⟩ := gap.exists_header mem
      have bounds := gap.focus mem
      have inside : h.HeaderIn x.addr := by
        unfold Heap.HeaderIn Heap.Within
        omega
      have sized : x.size ≠ 0 := by omega
      rw [headAddr, List.head?_cons, Option.map_some, Option.getD_some, runs_getSize inside, runs_pure, header.size,
        beq_false_of_ne sized]
      simp
  · rw [if_neg (by simpa using less), runs_pure]
    simp [less]

theorem Gap.backHeader (gap : Gap h pre s p post) : backHeader (s.addr + mmHeaderSize) = s.addr := by
  have place := gap.bounds
  have short := gap.node_lt
  unfold mmHeaderSize
  rw [backHeader_eq (by omega) (by omega)]
  rfl

/-- The case that `mm_realloc` chooses for a block that is too small: the first loop has
seen what the second one would take in. -/
theorem Rep.mmReallocUpto_eq (rep : Rep h (pre ++ s :: post)) (positive : osize ≠ 0)
    (more : s.size < unitsFor osize) : mmReallocUpto limit (s.addr + mmHeaderSize) osize h =
      (if (absorb (unitsFor osize) s post).1.size < unitsFor osize ∧ (absorb (unitsFor osize) s post).2 = [] then do
        let next ← mmSbrkUpto limit ((unitsFor osize - (absorb (unitsFor osize) s post).1.size) * 8 % 2 ^ 32)
        setAlloc next false
        mmInsertUpto limit next
        mmReallocExpandUpto limit s.addr (unitsFor osize)
        return s.addr + mmHeaderSize
      else if (absorb (unitsFor osize) s post).1.size < unitsFor osize then do
        let new ← mmMallocUpto limit osize
        let _ ← mmMemcpy new (s.addr + mmHeaderSize) (8 * (← getSize s.addr) - mmHeaderSize)
        mmFreeUpto limit (s.addr + mmHeaderSize)
        return new
      else do
        mmReallocExpandUpto limit s.addr (unitsFor osize)
        return s.addr + mmHeaderSize) h := by
  have gap := chain_iff_gap.mp rep.chain
  have place := gap.bounds
  have short := gap.node_lt
  have last := gap.last_eq
  have nonzero : s.addr + mmHeaderSize ≠ 0 := by omega
  obtain ⟨m, _, start, _, tail⟩ := tiles_append.mp gap.tiles
  obtain ⟨gone, split, _, _⟩ := absorb_eq (unitsFor osize) s post
  unfold Seg.stop at tail
  have inside : ∀ x, s.addr + 8 * s.size ≤ x → x ≤ h.last → h.HeaderIn x := fun x low high => by
    unfold Heap.HeaderIn Heap.Within
    omega
  unfold mmReallocUpto
  rw [if_neg nonzero, if_neg positive]
  simp only [gap.backHeader]
  rw [bind_of_runs ((runs_getSize gap.headerIn).mpr ⟨rfl, rfl⟩), gap.header.size, if_neg (by omega),
    bind_of_runs (gap.runs_next.mpr ⟨rfl, rfl⟩), bind_of_runs ((runs_getSize gap.headerIn).mpr ⟨rfl, rfl⟩),
    gap.header.size,
    bind_of_runs ((runs_mmReallocSum tail gap.back inside (by omega) gap.post_short).mpr ⟨rfl, rfl⟩)]
  simp only
  rw [bind_of_runs ((gap.runs_atEnd split).mpr ⟨rfl, rfl⟩)]
  simp only [decide_eq_true_eq]

theorem Rep.mmRealloc_eq (rep : Rep h (pre ++ s :: post)) (positive : osize ≠ 0) (more : s.size < unitsFor osize) :
    mmRealloc (s.addr + mmHeaderSize) osize h =
      (if (absorb (unitsFor osize) s post).1.size < unitsFor osize ∧ (absorb (unitsFor osize) s post).2 = [] then do
        let next ← mmSbrk ((unitsFor osize - (absorb (unitsFor osize) s post).1.size) * 8 % 2 ^ 32)
        setAlloc next false
        mmInsert next
        mmReallocExpand s.addr (unitsFor osize)
        return s.addr + mmHeaderSize
      else if (absorb (unitsFor osize) s post).1.size < unitsFor osize then do
        let new ← mmMalloc osize
        let _ ← mmMemcpy new (s.addr + mmHeaderSize) (8 * (← getSize s.addr) - mmHeaderSize)
        mmFree (s.addr + mmHeaderSize)
        return new
      else do
        mmReallocExpand s.addr (unitsFor osize)
        return s.addr + mmHeaderSize) h := by
  rw [← mmReallocUpto_depthLimit, ← mmReallocExpandUpto_depthLimit]
  exact rep.mmReallocUpto_eq positive more

/-- `mm_realloc` of a block, in all of its cases. Two nodes may be filed before the first one is taken out. -/
theorem Rep.runs_mmReallocUpto (rep : Rep h (pre ++ s :: post)) (alloc : s.alloc = true) (positive : osize ≠ 0)
    (units : unitsFor osize = n) (two : 2 ≤ n) (room : h.memBrk + reallocGrowth pre s post n ≤ h.memMaxAddr)
    (deep : Deep limit (freeCount (pre ++ post) + 2)) :
    Runs (mmReallocUpto limit (s.addr + mmHeaderSize) osize) h fun r h' =>
      Rep h' (Policy.realloc h.last (pre ++ s :: post) (s.addr + mmHeaderSize) n).1 ∧
      r = (Policy.realloc h.last (pre ++ s :: post) (s.addr + mmHeaderSize) n).2 ∧
      Resized pre s post n r h h' := by
  have held := (rep_iff_held alloc).mp rep
  have gap := held.gap
  have place := gap.bounds
  have small : n < 2 ^ 29 := units ▸ unitsFor_lt
  unfold Policy.realloc
  rw [Nat.add_sub_cancel, rep.chain.tiles.locate]
  simp only
  by_cases shrink : n ≤ s.size
  · have nonzero : s.addr + mmHeaderSize ≠ 0 := by omega
    unfold mmReallocUpto
    rw [if_neg nonzero, if_neg positive]
    simp only [gap.backHeader, units]
    rw [runs_bind, runs_getSize gap.headerIn, gap.header.size, if_pos shrink, if_pos shrink, runs_bind]
    refine (held.runs_mmFragNodeUpto (fun _ => two) (deep.mono (Nat.le_add_right _ 2))).mono ?_
    rintro _ h1 ⟨rfl, held1, steady1⟩
    rw [runs_pure]
    have kind : (s.front n).alloc = true := by rw [Seg.front_alloc, alloc]
    refine ⟨(rep_iff_held kind).mpr (by rw [Seg.front_addr]; exact held1), rfl,
      resized_in_place steady1 Seg.front_addr kind ?_⟩
    have := (Seg.front_size shrink).1
    omega
  have eq := @Rep.mmReallocUpto_eq _ _ _ _ _ limit rep positive (units.symm ▸ Nat.lt_of_not_le shrink)
  rw [units] at eq
  rw [if_neg shrink, Runs, eq]
  have sizes : s.size ≤ (absorb n s post).1.size := by
    obtain ⟨gone, _, _, big⟩ := absorb_eq n s post
    rw [big]
    exact Nat.le_add_right _ _
  unfold reallocGrowth at room
  by_cases enough : n ≤ (absorb n s post).1.size
  · rw [if_pos enough, if_neg fun less => Nat.not_lt.mpr enough less.1, if_neg (Nat.not_lt.mpr enough), ← Runs,
      runs_bind]
    refine (held.runs_mmReallocExpand alloc (deep.mono (Nat.le_add_right _ 2))).mono ?_
    rintro _ h1 ⟨rep1, steady1⟩
    rw [runs_pure]
    exact ⟨rep1, rfl, resized_in_place steady1 rfl alloc (by omega)⟩
  have less : (absorb n s post).1.size < n := by omega
  rw [if_neg enough] at room ⊢
  by_cases ends : (absorb n s post).2 = []
  · rw [if_pos ends] at room
    have bytes : (n - (absorb n s post).1.size) * 8 % 2 ^ 32 = 8 * (n - (absorb n s post).1.size) := by omega
    rw [if_pos ⟨less, ends⟩, if_pos ends, bytes]
    refine (rep.runs_reallocExtend alloc (by omega) room deep).mono ?_
    rintro _ h1 ⟨rfl, rep1, steady1⟩
    exact ⟨rep1, rfl, resized_in_place steady1 rfl alloc (by omega)⟩
  · rw [if_neg ends] at room
    rw [if_neg fun both => ends both.2, if_pos less, if_neg ends]
    exact rep.runs_reallocMove alloc units (by omega) room deep

theorem Rep.runs_mmRealloc (rep : Rep h (pre ++ s :: post)) (alloc : s.alloc = true) (positive : osize ≠ 0)
    (units : unitsFor osize = n) (two : 2 ≤ n) (room : h.memBrk + reallocGrowth pre s post n ≤ h.memMaxAddr) :
    Runs (mmRealloc (s.addr + mmHeaderSize) osize) h fun r h' =>
      Rep h' (Policy.realloc h.last (pre ++ s :: post) (s.addr + mmHeaderSize) n).1 ∧
      r = (Policy.realloc h.last (pre ++ s :: post) (s.addr + mmHeaderSize) n).2 ∧
      Resized pre s post n r h h' := by
  rw [← mmReallocUpto_depthLimit]
  exact rep.runs_mmReallocUpto alloc positive units two room (chain_iff_gap.mp rep.chain).deep

end Cases

end Splab.Malloc
