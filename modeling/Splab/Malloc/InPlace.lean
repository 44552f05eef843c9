import Splab.Malloc.BestFit

namespace Splab.Malloc

section Prefixes
variable {segs gone rest front other : List Seg} {s : Seg} {n : Nat}

theorem freeRun_append (free : ∀ q ∈ gone, q.alloc = false) : freeRun (gone ++ rest) = gone ++ freeRun rest :=
  List.takeWhile_append_of_pos fun q mem => by simp [free q mem]

theorem total_le (before : front <+: gone) : total front ≤ total gone := by
  obtain ⟨back, rfl⟩ := before
  rw [total_append]
  exact Nat.le_add_right _ _

/-- The free segments behind `s` suffice exactly when the loop of `mm_realloc` finds enough. -/
theorem le_absorb_iff : n ≤ (absorb n s segs).1.size ↔ n ≤ s.size + total (freeRun segs) := by
  obtain ⟨gone, split, free, big, _, short⟩ := absorb_spec n s segs
  constructor
  · intro enough
    have run : freeRun segs = gone ++ freeRun (absorb n s segs).2 := by
      rw [← freeRun_append free, ← split]
    rw [big] at enough
    rw [run, total_append]
    simp only at enough
    omega
  · intro enough
    by_contra less
    have all := short (by omega)
    rw [big, all] at less
    exact less enough

/-- If they do not suffice, it stops at the sentinel exactly when all of the segments behind `s` are free. -/
theorem absorb_ends_iff (less : (absorb n s segs).1.size < n) : (absorb n s segs).2 = [] ↔ freeRun segs = segs := by
  obtain ⟨gone, split, _, _, _, short⟩ := absorb_spec n s segs
  rw [← short less]
  constructor
  · intro ends
    rw [ends, List.append_nil] at split
    exact split.symm
  · intro all
    rw [all] at split
    simpa using split

/-- A list has only one shortest prefix that brings `s` to `n` units. -/
theorem shortest_unique (beforeGone : gone <+: segs) (beforeOther : other <+: segs)
    (enough : n ≤ s.size + total gone) (enough' : n ≤ s.size + total other)
    (shortest : ∀ front, front <+: gone → front ≠ gone → s.size + total front < n)
    (shortest' : ∀ front, front <+: other → front ≠ other → s.size + total front < n) : gone = other := by
  by_contra ne
  rcases List.prefix_or_prefix_of_prefix beforeGone beforeOther with inner | inner
  · have := shortest' gone inner ne
    omega
  · have := shortest other inner (Ne.symm ne)
    omega

theorem Tiles.release_covers {pre post : List Seg} {a e : Nat} (tiles : Tiles a (pre ++ s :: post) e) :
    ∃ z ∈ Policy.release pre s post, z.alloc = false ∧ z.addr ≤ s.addr ∧ s.stop ≤ z.stop := by
  have stop := tiles.mergePrev_stop
  have low : (mergePrev pre s).2.addr ≤ s.addr := by
    rcases List.eq_nil_or_concat' pre with rfl | ⟨front, x, rfl⟩
    · exact Nat.le_refl _
    · cases kind : x.alloc with
      | true =>
        rw [mergePrev_alloc kind]
      | false =>
        have next := tiles.last_stop
        rw [mergePrev_free kind]
        unfold Seg.stop at next
        simp only
        omega
  unfold Policy.release
  generalize mergePrev pre s = merged at *
  refine ⟨{ (mergeNext merged.2 post).1 with alloc := false }, by simp, rfl, ?_⟩
  unfold Seg.stop at *
  cases post with
  | nil =>
    rw [mergeNext_nil]
    exact ⟨low, stop.ge⟩
  | cons q post =>
    cases kind : q.alloc with
    | true =>
      rw [mergeNext_alloc kind]
      exact ⟨low, stop.ge⟩
    | false =>
      rw [mergeNext_free kind]
      simp only
      omega

/-- The block that `mm_malloc` allocates is another one than the block at `s`, whose segment
is free after `mm_free`. -/
theorem Tiles.moves {pre post : List Seg} {a b : Nat} (tiles : Tiles a (pre ++ s :: post) b) (alloc : s.alloc = true)
    (clean : NoSliver (pre ++ s :: post) n) : (Policy.malloc b (pre ++ s :: post) n).2 ≠ s.addr + mmHeaderSize ∧
      ∃ z ∈ Policy.free (Policy.malloc b (pre ++ s :: post) n).1 (s.addr + mmHeaderSize),
        z.alloc = false ∧ z.addr ≤ s.addr ∧ s.stop ≤ z.stop := by
  obtain ⟨z, addr, _, perm⟩ := Policy.malloc_allocated (e := b) (n := n) tiles
  obtain ⟨e', tiled⟩ := Policy.malloc_tiles tiles clean
  rw [← addr]
  generalize (Policy.malloc b (pre ++ s :: post) n).1 = result at *
  have old : s ∈ allocated (pre ++ s :: post) := mem_allocated.mpr ⟨by simp, alloc⟩
  have inside : s ∈ result := (mem_allocated.mp (perm.mem_iff.mpr (List.mem_cons_of_mem _ old))).1
  have zIn : z ∈ result := (mem_allocated.mp (perm.mem_iff.mpr List.mem_cons_self)).1
  have other : z ≠ s := fun same => by
    have nodup : (z :: allocated (pre ++ s :: post)).Nodup := perm.nodup_iff.mp (tiled.nodup.filter _)
    exact nodup.notMem (same.symm ▸ old)
  constructor
  · have far := (tiled.disjoint zIn inside).resolve_left other
    have bigZ := (tiled.bounds zIn).2.2
    have bigS := (tiled.bounds inside).2.2
    unfold Seg.stop at far
    omega
  · obtain ⟨pre1, post1, rfl⟩ := List.append_of_mem inside
    rw [tiled.free]
    exact tiled.release_covers

end Prefixes

/-- How often `mm_realloc` calls `mem_sbrk` for a block that is too small. -/
def reallocSbrks (pre : List Seg) (s : Seg) (post : List Seg) (n : Nat) : Nat :=
  if n ≤ (absorb n s post).1.size then 0
  else if (absorb n s post).2 = [] then 1
  else if bestFit (pre ++ s :: post) n = none then 1 else 0

theorem Rep.sbrks_mmRealloc {h h' : Heap} {pre post : List Seg} {s : Seg} {size r : Nat}
    (rep : Rep h (pre ++ s :: post))
    (positive : size ≠ 0) (more : s.size < unitsFor size) (run : mmRealloc (s.addr + mmHeaderSize) size h = .ok r h') :
    h'.sbrks.length = h.sbrks.length + reallocSbrks pre s post (unitsFor size) := by
  rw [rep.mmRealloc_eq positive more] at run
  unfold reallocSbrks
  by_cases enough : unitsFor size ≤ (absorb (unitsFor size) s post).1.size
  · rw [if_neg fun less => Nat.not_lt.mpr enough less.1, if_neg (Nat.not_lt.mpr enough)] at run
    rw [if_pos enough]
    exact (Local.grows (local_mmReallocExpand.bind fun _ => keeps_pure)).ok run
  have less : (absorb (unitsFor size) s post).1.size < unitsFor size := by omega
  rw [if_neg enough]
  by_cases ends : (absorb (unitsFor size) s post).2 = []
  · rw [if_pos ⟨less, ends⟩] at run
    rw [if_pos ends]
    exact (grows_mmSbrk.bind fun _ => Local.grows (local_setAlloc.bind fun _ => local_mmInsert.bind fun _ =>
      local_mmReallocExpand.bind fun _ => keeps_pure)).ok run
  · rw [if_neg fun both => ends both.2, if_pos less] at run
    rw [if_neg ends]
    obtain ⟨new, mid, first, rest⟩ := bind_eq_ok.mp run
    have later : Local (do
        let _ ← mmMemcpy new (s.addr + mmHeaderSize) (8 * (← getSize s.addr) - mmHeaderSize)
        mmFree (s.addr + mmHeaderSize)
        return new) := by
      unfold mmMemcpy
      exact local_getSize.bind fun _ => (local_mmMemcpyLoop.bind fun _ => keeps_pure).bind fun _ =>
        local_mmFree.bind fun _ => keeps_pure
    have same := congrArg List.length (later.ok rest).sbrks
    split
    · next miss => rw [same, rep.sbrks_of_miss miss first]
    · next hit => rw [same, rep.sbrks_of_hit hit first, Nat.add_zero]

/-- `gone` is the shortest prefix of the list that brings `s` to `n` units. -/
structure ShortestPrefix (gone segs : List Seg) (s : Seg) (n : Nat) : Prop where
  before : gone <+: segs
  enough : n ≤ s.size + total gone
  shortest : ∀ front, front <+: gone → front ≠ gone → s.size + total front < n

/-- The block at `s` has taken in the segments `gone` of those behind it, which were `post` and the new ones
`added`. The list goes on with `rest`, and the tree has lost exactly the segments `gone`. -/
structure TakenIn (pre : List Seg) (s : Seg) (gone rest added : List Seg) (h h' : Heap) : Prop where
  free : ∀ q ∈ gone, q.alloc = false
  segments : h'.segments = pre ++ { s with size := s.size + total gone } :: rest
  tree : (h.freeTree.toList ++ added.map Seg.key).Perm (gone.map Seg.key ++ h'.freeTree.toList)

/-- What `mm_realloc(p, n)` with `n` taking `need` units did from `h` when it returned `r` in `h'`. The block
had the segment `s`, with the segments `pre` before and `post` behind it. -/
structure Enlarged (pre : List Seg) (s : Seg) (post : List Seg) (need : Nat) (h : Heap) (r : Nat)
    (h' : Heap) : Prop where
  stays : r = s.addr + mmHeaderSize ↔ need ≤ s.size + total (freeRun post) ∨ freeRun post = post
  fits : need ≤ s.size + total (freeRun post) → h'.sbrks.length = h.sbrks.length ∧
    ∃ gone rest, post = gone ++ rest ∧ ShortestPrefix gone (freeRun post) s need ∧ TakenIn pre s gone rest [] h h'
  grows : s.size + total (freeRun post) < need → freeRun post = post → h'.sbrks.length = h.sbrks.length + 1 ∧
    ∃ new rest, new.addr = h.last ∧ (∀ q ∈ new :: rest, q.alloc = false) ∧
      ShortestPrefix (post ++ [new]) (post ++ new :: rest) s need ∧
        TakenIn pre s (post ++ [new]) rest (new :: rest) h h'
  moves : s.size + total (freeRun post) < need → freeRun post ≠ post →
    (h'.sbrks.length = h.sbrks.length + if ∃ q ∈ h.segments, q.alloc = false ∧ need ≤ q.size then 0 else 1) ∧
    ∃ z ∈ h'.segments, z.alloc = false ∧ z.addr ≤ s.addr ∧ s.stop ≤ z.stop

section TakenIn
variable {h h' : Heap} {pre post gone rest added : List Seg} {s : Seg}

theorem Rep.toList_perm (rep : Rep h post) : h.freeTree.toList.Perm ((post.filter fun q => !q.alloc).map Seg.key) := by
  have nodes := rep.wellFormed.nodes
  rwa [rep.segments_eq] at nodes

/-- What the tree has lost can be read off the two segment lists. -/
theorem Rep.takenIn (rep : Rep h (pre ++ s :: post)) (alloc : s.alloc = true)
    (rep' : Rep h' (pre ++ { s with size := s.size + total gone } :: rest)) (split : post ++ added = gone ++ rest)
    (free : ∀ q ∈ gone, q.alloc = false) (freeAdded : ∀ q ∈ added, q.alloc = false) :
    TakenIn pre s gone rest added h h' := by
  refine ⟨free, rep'.segments_eq, ?_⟩
  have all : ∀ {xs : List Seg}, (∀ q ∈ xs, q.alloc = false) → xs.filter (fun q => !q.alloc) = xs := fun free =>
    List.filter_eq_self.mpr fun q mem => by simp [free q mem]
  have before : ((pre ++ s :: post).filter fun q => !q.alloc) ++ added =
      (pre.filter fun q => !q.alloc) ++ (gone ++ rest.filter fun q => !q.alloc) := by
    have joined := congrArg (List.filter fun q => !q.alloc) split
    rw [List.filter_append, List.filter_append, all free, all freeAdded] at joined
    rw [List.filter_append, List.filter_cons_of_neg (by simp [alloc]), List.append_assoc, joined]
  have after : ((pre ++ { s with size := s.size + total gone } :: rest).filter fun q => !q.alloc) =
      (pre.filter fun q => !q.alloc) ++ rest.filter fun q => !q.alloc := by
    rw [List.filter_append, List.filter_cons_of_neg (by simp [alloc])]
  calc h.freeTree.toList ++ added.map Seg.key
      |>.Perm (((pre ++ s :: post).filter fun q => !q.alloc).map Seg.key ++ added.map Seg.key) :=
        rep.toList_perm.append_right _
    _ |>.Perm ((pre.filter fun q => !q.alloc).map Seg.key ++ (gone.map Seg.key ++
        (rest.filter fun q => !q.alloc).map Seg.key)) := by
        rw [← List.map_append, before, List.map_append, List.map_append]
    _ |>.Perm (gone.map Seg.key ++ ((pre.filter fun q => !q.alloc).map Seg.key ++
        (rest.filter fun q => !q.alloc).map Seg.key)) := by
        rw [← List.append_assoc, ← List.append_assoc]
        exact List.perm_append_comm.append_right _
    _ |>.Perm (gone.map Seg.key ++ h'.freeTree.toList) := by
        refine List.Perm.append_left _ ?_
        rw [← List.map_append, ← after]
        exact rep'.toList_perm.symm

end TakenIn

section Enlarge
variable {n r : Nat} {pre post : List Seg} {s : Seg} {w : World} {h h' : Heap} {b : Block}

/-- After an extension the block takes in all of the old free segments and the new one. -/
theorem extended_absorb {e u : Nat} (all : ∀ q ∈ post, q.alloc = false) (lack : s.size + total post + u = n)
    (one : 1 ≤ u) :
    ShortestPrefix (post ++ [{ fresh e u with alloc := false }]) (Policy.extended e post u) s n ∧
      absorb n s (Policy.extended e post u) =
        ({ s with size := s.size + total (post ++ [{ fresh e u with alloc := false }]) }, freshSpare e u) := by
  have more := fresh_size (e := e) (u := u)
  have whole : Policy.extended e post u = (post ++ [{ fresh e u with alloc := false }]) ++ freshSpare e u := by
    simp [Policy.extended]
  have prefix' : ShortestPrefix (post ++ [{ fresh e u with alloc := false }]) (Policy.extended e post u) s n := by
    refine ⟨⟨_, whole.symm⟩, ?_, fun front before ne => ?_⟩
    · simp only [total_append, total_cons, total_nil]
      omega
    · rcases List.prefix_concat_iff.mp before with same | inner
      · exact absurd same ne
      · have := total_le inner
        omega
  refine ⟨prefix', ?_⟩
  obtain ⟨gone, split, free, big, shortest, _⟩ := absorb_spec n s (Policy.extended e post u)
  have enough : n ≤ (absorb n s (Policy.extended e post u)).1.size := by
    rw [le_absorb_iff, whole, freeRun_append fun q mem => ?_, total_append]
    · have := prefix'.enough
      omega
    · rcases List.mem_append.mp mem with mem | mem
      · exact all q mem
      · rw [List.mem_singleton.mp mem]
  rw [big] at enough
  have same := shortest_unique ⟨_, split.symm⟩ prefix'.before enough prefix'.enough shortest prefix'.shortest
  subst same
  exact Prod.ext big (List.append_cancel_left (whole.symm.trans split)).symm

/-- The free segments behind the block suffice. -/
theorem Rep.enlarged_fits (rep : Rep h (pre ++ s :: post)) (alloc : s.alloc = true)
    (enough : n ≤ (absorb n s post).1.size) (rep' : Rep h' (pre ++ (absorb n s post).1 :: (absorb n s post).2))
    (ptr : r = s.addr + mmHeaderSize) (count : h'.sbrks.length = h.sbrks.length) : Enlarged pre s post n h r h' := by
  obtain ⟨gone, split, free, taken, shortest, _⟩ := absorb_spec n s post
  have fits := le_absorb_iff.mp enough
  have before : gone <+: freeRun post :=
    ⟨freeRun (absorb n s post).2, by rw [← freeRun_append free, ← split]⟩
  rw [taken] at enough rep'
  have lost : TakenIn pre s gone (absorb n s post).2 [] h h' :=
    rep.takenIn alloc rep' (by rw [List.append_nil]; exact split) free (by simp)
  refine ⟨iff_of_true ptr (.inl fits), fun _ => ⟨count, gone, _, split, ⟨before, enough, shortest⟩, lost⟩,
    fun less => ?_, fun less => ?_⟩
  · omega
  · omega

/-- They do not suffice, but reach to the end of the heap, which is extended. -/
theorem Rep.enlarged_grows (rep : Rep h (pre ++ s :: post)) (alloc : s.alloc = true)
    (less : (absorb n s post).1.size < n) (ends : (absorb n s post).2 = [])
    (rep' : Rep h' (pre ++ (absorb n s (Policy.extended h.last post (n - (absorb n s post).1.size))).1 ::
      (absorb n s (Policy.extended h.last post (n - (absorb n s post).1.size))).2))
    (ptr : r = s.addr + mmHeaderSize) (count : h'.sbrks.length = h.sbrks.length + 1) :
    Enlarged pre s post n h r h' := by
  have whole := (absorb_ends_iff less).mp ends
  have lack : ¬n ≤ s.size + total (freeRun post) := fun fits => Nat.not_le.mpr less (le_absorb_iff.mpr fits)
  obtain ⟨gone, _, free, taken, _, short⟩ := absorb_spec n s post
  rw [short less, whole] at free taken
  have lack' : s.size + total post + (n - (absorb n s post).1.size) = n := by
    rw [taken] at less ⊢
    simp only at less ⊢
    omega
  obtain ⟨prefix', absorbed⟩ := extended_absorb (e := h.last) free lack' (by omega)
  rw [absorbed] at rep'
  generalize n - (absorb n s post).1.size = u at *
  have freeNew : ∀ q ∈ { fresh h.last u with alloc := false } :: freshSpare h.last u, q.alloc = false := fun q mem => by
    rcases List.mem_cons.mp mem with rfl | mem
    · rfl
    · exact freshSpare_free mem
  have freeGone : ∀ q ∈ post ++ [{ fresh h.last u with alloc := false }], q.alloc = false := fun q mem => by
    rcases List.mem_append.mp mem with mem | mem
    · exact free q mem
    · rw [List.mem_singleton.mp mem]
  have lost := rep.takenIn alloc rep' (by simp) freeGone freeNew
  exact ⟨iff_of_true ptr (.inr whole), fun fits => absurd fits lack,
    fun _ _ => ⟨count, { fresh h.last u with alloc := false }, freshSpare h.last u, fresh_addr, freeNew, prefix', lost⟩,
    fun _ other => absurd whole other⟩

/-- They neither suffice nor reach to the end of the heap: the block moves. -/
theorem Rep.enlarged_moves (rep : Rep h (pre ++ s :: post)) (alloc : s.alloc = true) (two : 2 ≤ n)
    (less : (absorb n s post).1.size < n) (ends : (absorb n s post).2 ≠ [])
    (rep' : Rep h' (Policy.free (Policy.malloc h.last (pre ++ s :: post) n).1 (s.addr + mmHeaderSize)))
    (ptr : r = (Policy.malloc h.last (pre ++ s :: post) n).2)
    (count : h'.sbrks.length = h.sbrks.length + if bestFit (pre ++ s :: post) n = none then 1 else 0) :
    Enlarged pre s post n h r h' := by
  have other : freeRun post ≠ post := fun whole => ends ((absorb_ends_iff less).mpr whole)
  have lack : ¬n ≤ s.size + total (freeRun post) := fun fits => Nat.not_le.mpr less (le_absorb_iff.mpr fits)
  obtain ⟨moved, covered⟩ := rep.chain.tiles.moves alloc (noSliver_of_two two)
  rw [← ptr] at moved
  rw [← rep'.segments_eq] at covered
  refine ⟨iff_of_false moved fun either => either.elim lack other, fun fits => absurd fits lack,
    fun _ whole => absurd whole other, fun _ _ => ⟨?_, covered⟩⟩
  rw [count, rep.segments_eq]
  simp only [← bestFit_ne_none, ne_eq, ite_not]

/-- The block is enlarged where it is when the free segments behind it suffice or reach to the end of the heap;
otherwise it moves. -/
theorem mmRealloc_enlarges (reachable : Reachable w) (mem : b ∈ w.live) (layout : w.heap.segments = pre ++ s :: post)
    (addr : s.addr + mmHeaderSize = b.ptr) (high : n ≤ maxHeap) (more : s.size < unitsFor n)
    (unfailing : Unfailing w [.realloc b.ptr n]) :
    Runs (mmRealloc b.ptr n) w.heap (Enlarged pre s post (unitsFor n) w.heap) := by
  obtain ⟨segs, inv⟩ := reachable.inv
  have rep := inv.rep
  have room := unfailing.room inv (q := .realloc b.ptr n) ⟨.inr ⟨b, mem, rfl⟩, high⟩
  rw [rep.segments_eq] at layout
  subst layout
  have tiles := rep.chain.tiles
  have alloc : s.alloc = true := by
    obtain ⟨pre', s', post', same, alloc', addr', _⟩ := inv.segment mem
    have found := same ▸ tiles.locate
    rw [show s.addr = s'.addr by omega, Tiles.locate (same ▸ tiles)] at found
    cases found
    exact alloc'
  have big := (tiles.bounds (s := s) (by simp)).2.2
  have positive : n ≠ 0 := fun zero => by
    rw [zero, show unitsFor 0 = 1 from rfl] at more
    omega
  rw [demand, if_neg (inv.ptr_ne_zero mem), if_neg positive, ← addr, Nat.add_sub_cancel, tiles.locate] at room
  rw [← addr]
  obtain ⟨r, h', call, rep', ptr, _⟩ := rep.runs_mmRealloc alloc positive rfl (by omega) room
  have count := rep.sbrks_mmRealloc positive more call
  refine ⟨r, h', call, ?_⟩
  generalize unitsFor n = need at *
  rw [Policy.realloc, Nat.add_sub_cancel, tiles.locate] at rep' ptr
  simp only [if_neg (Nat.not_le.mpr more)] at rep' ptr
  unfold reallocSbrks at count
  -- the three branches of the source: the run suffices, it ends at the sentinel, or the block is copied
  by_cases enough : need ≤ (absorb need s post).1.size
  · rw [if_pos enough] at rep' ptr count
    exact rep.enlarged_fits alloc enough rep' ptr count
  have less : (absorb need s post).1.size < need := by omega
  rw [if_neg enough] at rep' ptr count
  by_cases ends : (absorb need s post).2 = []
  · rw [if_pos ends] at rep' ptr count
    exact rep.enlarged_grows alloc less ends rep' ptr count
  · rw [if_neg ends] at rep' ptr count
    exact rep.enlarged_moves alloc (by omega) less ends rep' ptr count

end Enlarge

/-- Two blocks of 15 units, each with a free segment of 3 units behind it. -/
def twoBlocks : World := finalState (performAll [.malloc 100, .malloc 100] (freshWorld 8))

theorem reachable_twoBlocks : Reachable twoBlocks :=
  reachable_of_run (initial_freshWorld (by decide) (by decide) (by decide)) (by decide +kernel) (by decide +kernel)

theorem twoBlocks_segments : twoBlocks.heap.segments =
    [] ++ ⟨32, 15, true⟩ :: [⟨152, 3, false⟩, ⟨176, 15, true⟩, ⟨296, 3, false⟩] := by
  decide +kernel

theorem mmRealloc_enlarges_twoBlocks : Runs (mmRealloc 40 120) twoBlocks.heap
    (Enlarged [] ⟨32, 15, true⟩ [⟨152, 3, false⟩, ⟨176, 15, true⟩, ⟨296, 3, false⟩] 16 twoBlocks.heap) := by
  have live : ∃ b ∈ twoBlocks.live, b.ptr = 40 := by decide +kernel
  obtain ⟨b, mem, ptr⟩ := live
  have runs := mmRealloc_enlarges (n := 120) reachable_twoBlocks mem twoBlocks_segments (by rw [ptr]; rfl)
    (by decide) (by decide) (by rw [ptr]; decide +kernel)
  rwa [ptr] at runs

/-- A block that moves may call `mem_sbrk` as well, in the `mm_malloc` for its new place. -/
theorem mmRealloc_sbrks_moving : ¬∀ (w : World) (b : Block) (n : Nat) (pre post : List Seg) (s : Seg), Reachable w →
    b ∈ w.live → w.heap.segments = pre ++ s :: post → s.addr + mmHeaderSize = b.ptr → n ≤ maxHeap →
    s.size < unitsFor n → Unfailing w [.realloc b.ptr n] → Runs (mmRealloc b.ptr n) w.heap fun _ h' =>
      (h'.sbrks.length ≠ w.heap.sbrks.length ↔
        s.size + total (freeRun post) < unitsFor n ∧ freeRun post = post) := by
  intro always
  have live : ∃ b ∈ twoBlocks.live, b.ptr = 40 := by decide +kernel
  obtain ⟨b, mem, ptr⟩ := live
  have runs := always twoBlocks b 200 _ _ _ reachable_twoBlocks mem twoBlocks_segments (by rw [ptr]; rfl) (by decide)
    (by decide) (by rw [ptr]; decide +kernel)
  rw [ptr] at runs
  obtain ⟨r, h', run, only⟩ := runs
  have called : (finalState (mmRealloc 40 200 twoBlocks.heap)).sbrks.length ≠ twoBlocks.heap.sbrks.length := by
    decide +kernel
  rw [run] at called
  have whole := (only.mp called).2
  revert whole
  decide

end Splab.Malloc
