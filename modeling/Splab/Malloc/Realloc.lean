import Splab.Malloc.Refines

namespace Splab.Malloc

section Loops
variable {h : Heap} {pre post : List Seg} {s : Seg} {p n a e q fuel limit : Nat}

theorem runs_freeBelow {sum size : Nat} {Q : Bool → Heap → Prop} (inside : h.HeaderIn p) :
    Runs (freeBelow p sum size) h Q ↔
      Q (decide ((h.node p).size ≠ 0 ∧ (h.node p).alloc = false ∧ sum < size)) h := by
  unfold freeBelow both
  rw [runs_bind, runs_bind, runs_getSize inside, runs_pure]
  by_cases sized : (h.node p).size = 0
  · simp [sized, runs_pure]
  · rw [if_pos (by simpa using sized), runs_bind, runs_bind, runs_getAlloc inside, runs_pure]
    cases kind : (h.node p).alloc <;> simp [sized, runs_pure]

/-- Where the list `rest` starts, when the sentinel behind it is at `e`. -/
def headAddr (e : Nat) (rest : List Seg) : Nat := (rest.head?.map Seg.addr).getD e

/-- The first loop of `mm_realloc` stops at the first segment that `absorb` leaves. -/
theorem runs_mmReallocSum {Q : Nat × Nat → Heap → Prop} (tiles : Tiles a post e)
    (links : Links h q (post ++ [sentinel e])) (inside : ∀ x, a ≤ x → x ≤ e → h.HeaderIn x) (top : e < 2 ^ 32)
    (deep : post.length < fuel) :
    Runs (mmReallocSum fuel a s.size n) h Q ↔ Q (headAddr e (absorb n s post).2, (absorb n s post).1.size) h := by
  induction post generalizing fuel s a q with
  | nil =>
    obtain ⟨fuel, rfl⟩ : ∃ m, fuel = m + 1 := ⟨fuel - 1, by omega⟩
    obtain rfl : a = e := tiles
    have size : (h.node a).size = 0 := links.1.size
    rw [mmReallocSum, runs_bind, runs_freeBelow (inside a le_rfl le_rfl), size]
    simp [runs_pure, absorb, headAddr]
  | cons x rest ih =>
    obtain ⟨fuel, rfl⟩ : ∃ m, fuel = m + 1 := ⟨fuel - 1, by omega⟩
    have last := tiles.bounds (s := x) List.mem_cons_self
    obtain ⟨rfl, big, back⟩ := tiles
    obtain ⟨header, links⟩ := links
    unfold Seg.stop at last back
    have here := inside x.addr le_rfl (by omega)
    rw [mmReallocSum, runs_bind, runs_freeBelow here, header.size, header.alloc]
    by_cases take : x.alloc = false ∧ s.size < n
    · have nonzero : x.size ≠ 0 := by omega
      rw [if_pos (by simp [take, nonzero]), absorb_take take.1 take.2, runs_bind, runs_getSize here, header.size,
        runs_bind, runs_mmGetNext here header.size (by omega)]
      exact ih (s := { s with size := s.size + x.size }) back links (fun y low high => inside y (by omega) high)
        (Nat.lt_of_succ_lt_succ deep)
    · rw [if_neg (by simp only [decide_eq_true_eq]; tauto), absorb_left take, runs_pure]
      rfl

/-- The second loop of `mm_realloc` takes the same segments into the held one. -/
theorem Held.runs_mmReallocMerge (held : Held h pre s p post) (enough : post.length < fuel)
    (deep : Deep limit (freeCount (pre ++ post))) :
    Runs (mmReallocMergeUpto limit fuel s.addr (s.addr + 8 * s.size) n) h fun _ h' =>
      (∃ q, Held h' pre (absorb n s post).1 q (absorb n s post).2) ∧ Steady (pre ++ s :: post) h h' := by
  induction post generalizing h s p fuel with
  | nil =>
    obtain ⟨fuel, rfl⟩ : ∃ m, fuel = m + 1 := ⟨fuel - 1, by omega⟩
    obtain ⟨y, rest, eq, addr, _⟩ := held.gap.after
    cases eq
    have size : (h.node (s.addr + 8 * s.size)).size = 0 := by
      rw [← addr]
      exact held.gap.back.1.size
    rw [mmReallocMergeUpto, runs_bind, runs_getSize held.gap.headerIn, runs_bind, runs_freeBelow held.gap.nextIn, size]
    simp only [ne_eq, not_true_eq_false, false_and, decide_false, Bool.false_eq_true, if_false, runs_pure]
    exact ⟨⟨p, held⟩, Steady.refl _ _⟩
  | cons x rest ih =>
    obtain ⟨fuel, rfl⟩ : ∃ m, fuel = m + 1 := ⟨fuel - 1, by omega⟩
    obtain ⟨y, back, eq, addr, _⟩ := held.gap.after
    cases eq
    have header : HeaderAt h p x := held.gap.back.1
    have nextIn := held.gap.nextIn
    have place := held.gap.focus (x := x) (by simp)
    rw [← addr] at nextIn ⊢
    rw [mmReallocMergeUpto, runs_bind, runs_getSize held.gap.headerIn, held.gap.header.size, runs_bind,
      runs_freeBelow nextIn, header.size, header.alloc]
    by_cases take : x.alloc = false ∧ s.size < n
    · have nonzero : x.size ≠ 0 := by omega
      have out : x ∉ pre ++ rest := by
        have tiles := held.gap.tiles
        rw [show pre ++ s :: x :: rest = (pre ++ [s]) ++ x :: rest by simp] at tiles
        exact fun mem => tiles.notMem (by simp at mem ⊢; tauto)
      rw [if_pos (by simp [take, nonzero]), runs_bind, absorb_take take.1 take.2]
      rw [freeCount_free take.1] at deep
      refine (runs_mmDelete_gap held.gap held.filed (fun f mem => mem_around mem) take.1 out deep).mono ?_
      rintro _ h1 ⟨gap1, filed1, steady1⟩
      have header1 : HeaderAt h1 p x := gap1.back.1
      have nIn : h1.HeaderIn x.addr := by
        have := gap1.nextIn
        rw [addr]
        exact this
      obtain ⟨held2, steady2⟩ := gap1.absorb filed1
      have apart : Apart s.addr x.addr := by
        have := held.gap.bounds.2.1
        exact .inl (by omega)
      have size2 : ((h1.setSize s.addr (s.size + x.size)).node x.addr).size = x.size := by
        rw [node_setSize_apart apart, header1.size]
      rw [runs_bind, runs_getSize gap1.headerIn, gap1.header.size, runs_bind, runs_getSize nIn, header1.size,
        runs_bind, runs_setSize gap1.headerIn, runs_bind,
        runs_mmGetNext (h := h1.setSize s.addr (s.size + x.size)) nIn size2 (by omega)]
      have again := ih held2 (Nat.lt_of_succ_lt_succ enough) (deep.mono (Nat.le_succ _))
      rw [show s.addr + 8 * (s.size + x.size) = x.addr + 8 * x.size by omega] at again
      refine again.mono ?_
      rintro _ h3 ⟨result, steady3⟩
      refine ⟨result, (steady1.trans steady2).trans (steady3.mono fun b mem => ?_)⟩
      rw [payload_append, payload_cons, payload_cons] at mem
      rw [payload_append, payload_cons]
      rcases mem with early | ⟨alloc, low, high⟩ | ⟨alloc, _⟩ | late
      · exact .inl early
      · exact .inr (.inl ⟨alloc, low, by simp only; omega⟩)
      · rw [take.1] at alloc
        cases alloc
      · exact .inr (.inr late)
    · rw [if_neg (by simp only [decide_eq_true_eq]; tauto), absorb_left take, runs_pure]
      exact ⟨⟨p, held⟩, Steady.refl _ _⟩

theorem Gap.post_short (gap : Gap h pre s p post) : post.length < depthLimit := by
  have room := gap.tiles.length_le
  have limit := gap.arena.limit
  have brk := gap.arena.brk
  rw [List.length_append, List.length_cons] at room
  unfold Heap.last Heap.first mmDataSize mmHeaderSize at room
  unfold depthLimit
  unfold maxHeap at *
  omega

/-- The expand case of `mm_realloc`. -/
theorem Held.runs_mmReallocExpand (held : Held h pre s p post) (alloc : s.alloc = true)
    (deep : Deep limit (freeCount (pre ++ post))) :
    Runs (mmReallocExpandUpto limit s.addr n) h fun _ h' =>
      Rep h' (pre ++ (absorb n s post).1 :: (absorb n s post).2) ∧ Steady (pre ++ s :: post) h h' := by
  unfold mmReallocExpandUpto
  rw [runs_bind, held.gap.runs_next, runs_bind]
  refine (held.runs_mmReallocMerge held.gap.post_short deep).mono ?_
  rintro _ h1 ⟨⟨q, held1⟩, steady1⟩
  obtain ⟨gone, split, free, big⟩ := absorb_eq n s post
  obtain ⟨held2, steady2⟩ := held1.close
  have addr : (absorb n s post).1.addr = s.addr := by rw [big]
  have kind : (absorb n s post).1.alloc = true := by rw [big]; exact alloc
  rw [runs_bind, ← addr, held1.gap.runs_next, runs_setPrev held1.gap.nextIn]
  refine ⟨(rep_iff_held kind).mpr held2, steady1.trans (steady2.mono fun b mem => ?_)⟩
  rw [payload_append, payload_cons] at mem ⊢
  rcases mem with early | ⟨_, low, high⟩ | late
  · exact .inl early
  · refine .inr (.inl ⟨kind, addr ▸ low, ?_⟩)
    rw [big]
    simp only
    omega
  · rw [split, payload_append] at late
    rcases late with ⟨y, mem, alloc, _⟩ | late
    · rw [free y mem] at alloc
      cases alloc
    · exact .inr (.inr late)

end Loops

section Copy
variable {h h' : Heap} {segs pre post : List Seg} {s x : Seg} {p a e : Nat}

theorem Tiles.header_off {b : Nat} (tiles : Tiles a segs e) (mem : x ∈ segs ++ [sentinel e]) (inside : Payload segs b) :
    b < x.addr ∨ x.addr + 8 ≤ b := by
  rcases List.mem_append.mp mem with mem | mem
  · obtain ⟨front, back, rfl⟩ := List.append_of_mem mem
    exact (tiles.payload inside).2.2.1
  · rw [List.mem_singleton.mp mem]
    obtain ⟨y, memY, _, low, high⟩ := inside
    have := tiles.bounds memY
    unfold Seg.stop at this
    exact .inl (by simp only [sentinel]; omega)

/-- Clients may write what they like into their payloads. -/
theorem Rep.write (rep : Rep h segs) (start : h'.memStartBrk = h.memStartBrk) (brk : h'.memBrk = h.memBrk)
    (maxAddr : h'.memMaxAddr = h.memMaxAddr) (bytes : ∀ b, ¬Payload segs b → h'.bytes b = h.bytes b) :
    Rep h' segs := by
  obtain ⟨⟨⟨positive, aligned, limit, top, high⟩, tiles, links⟩, filed⟩ := rep
  have first : h'.first = h.first := congrArg (· + mmDataSize) start
  have last : h'.last = h.last := congrArg (· - mmHeaderSize) brk
  refine ⟨⟨⟨start ▸ positive, start ▸ aligned, ?_, maxAddr ▸ top, ?_⟩, first ▸ last ▸ tiles, ?_⟩, ?_⟩
  · rw [maxAddr, start, limit]
  · rw [maxAddr, brk]
    exact high
  · rw [last]
    refine links.congr fun y mem b low above => bytes b fun inside => ?_
    have := tiles.header_off mem inside
    omega
  · refine filed.congr start brk.ge (fun b low above => bytes b fun inside => ?_)
      fun y mem free b low above => bytes b fun inside => ?_
    · obtain ⟨y, mem, _, from', _⟩ := inside
      have := tiles.bounds mem
      unfold Heap.first mmDataSize at this
      omega
    · obtain ⟨front, back, rfl⟩ := List.append_of_mem mem
      have big := (tiles.bounds mem).2.2
      have := (tiles.payload inside).2.2.2 free
      omega

/-- The heap after `mm_memcpy` between ranges that do not overlap. -/
def Heap.copy (h : Heap) (dst src n : Nat) : Heap :=
  { h with bytes := fun b => if dst ≤ b ∧ b < dst + n then h.bytes (src + (b - dst)) else h.bytes b }

theorem runs_mmMemcpyLoop {dst src i n : Nat} {Q : Unit → Heap → Prop}
    (apart : dst + (i + n) ≤ src ∨ src + (i + n) ≤ dst) (from' : h.Within src (i + n))
    (to' : h.Within dst (i + n)) (done : ∀ b, dst ≤ b → b < dst + i → h.bytes b = h.bytes (src + (b - dst))) :
    Runs (mmMemcpyLoop dst src i n) h Q ↔ Q () (h.copy dst src (i + n)) := by
  unfold Heap.Within at from' to'
  induction n generalizing h i with
  | zero =>
    have same : h.copy dst src (i + 0) = h := by
      have bytes : (h.copy dst src (i + 0)).bytes = h.bytes := by
        funext b
        simp only [Heap.copy, Nat.add_zero]
        split
        · next mem => exact (done b mem.1 mem.2).symm
        · rfl
      simp only [Heap.copy] at bytes ⊢
      rw [bytes]
    rw [mmMemcpyLoop, runs_pure, same]
  | succ n ih =>
    rw [mmMemcpyLoop, runs_bind, runs_loadByte (by unfold Heap.Within; omega), runs_bind,
      runs_storeByte (by unfold Heap.Within; omega)]
    have bytes : ∀ b, b ≠ dst + i → (h.setByte (dst + i) (h.bytes (src + i))).bytes b = h.bytes b :=
      fun b ne => if_neg ne
    rw [ih (by omega) (by exact ⟨by simp only [Heap.setByte]; omega, by simp only [Heap.setByte]; omega⟩)
      (by exact ⟨by simp only [Heap.setByte]; omega, by simp only [Heap.setByte]; omega⟩)]
    · have same : (h.setByte (dst + i) (h.bytes (src + i))).copy dst src (i + 1 + n) =
        h.copy dst src (i + (n + 1)) := by
        have eq : ((h.setByte (dst + i) (h.bytes (src + i))).copy dst src (i + 1 + n)).bytes =
            (h.copy dst src (i + (n + 1))).bytes := by
          funext b
          simp only [Heap.copy]
          by_cases mem : dst ≤ b ∧ b < dst + (i + (n + 1))
          · rw [if_pos (by omega), if_pos mem, bytes _ (by omega)]
          · rw [if_neg (by omega), if_neg mem, bytes _ (by omega)]
        simp only [Heap.copy, Heap.setByte] at eq ⊢
        rw [eq]
      rw [same]
    · intro b low high
      rw [bytes (src + (b - dst)) (by omega)]
      by_cases last : b = dst + i
      · rw [last, show src + (dst + i - dst) = src + i by omega]
        exact if_pos rfl
      · rw [bytes b last]
        exact done b low (by omega)

theorem runs_mmMemcpy {dst src n : Nat} {Q : Nat → Heap → Prop} (apart : dst + n ≤ src ∨ src + n ≤ dst)
    (from' : h.Within src n) (to' : h.Within dst n) :
    Runs (mmMemcpy dst src n) h Q ↔ Q dst (h.copy dst src n) := by
  have whole : 0 + n = n := Nat.zero_add n
  unfold mmMemcpy
  rw [runs_bind, runs_mmMemcpyLoop (by omega) (by rw [whole]; exact from') (by rw [whole]; exact to')
    (fun b low high => by omega), runs_pure, whole]

end Copy

end Splab.Malloc
