import Splab.Malloc.InPlace

namespace Splab.Malloc

section Returns
variable {h : Heap} {segs pre post : List Seg} {s : Seg} {p n size : Nat}

/-- The end of `mm_frag_node` returns also when the first part is too short for a node. -/
theorem Held.fileRest_returns (held : Held h pre s p post) (fits : n + 2 ≤ s.size) :
    Runs (do
      setPrev (← mmGetNext (s.addr + 8 * n)) (s.addr + 8 * n)
      Malloc.setAlloc (s.addr + 8 * n) false
      mmInsert (s.addr + 8 * n)
      return s.addr) (h.splitHeaders s.addr n (s.size - n)) fun r _ => r = s.addr := by
  have bounds := held.gap.bounds
  have short := held.gap.node_lt
  have around := held.gap.tiles.around
  have nextIn : h.HeaderIn (s.addr + 8 * n) := by
    unfold Heap.HeaderIn Heap.Within
    omega
  have header : HeaderAt (h.splitHeaders s.addr n (s.size - n)) s.addr ⟨s.addr + 8 * n, s.size - n, false⟩ :=
    headerAt_splitHeaders (by omega) (by omega)
  have size : ((h.splitHeaders s.addr n (s.size - n)).node (s.addr + 8 * n)).size = s.size - n := header.size
  have addr : s.addr + 8 * n + 8 * (s.size - n) = s.addr + 8 * s.size := by omega
  rw [runs_bind, runs_mmGetNext (by exact nextIn) size (by omega), addr, runs_bind,
    runs_setPrev (by exact held.gap.nextIn), runs_bind, runs_setAlloc (by exact nextIn), runs_bind]
  let h4 := h.splitHeaders s.addr n (s.size - n)
  let h6 := (h4.setPrev (s.addr + 8 * s.size) (s.addr + 8 * n)).setAlloc (s.addr + 8 * n) false
  let Touched (x : Nat) : Prop := s.addr ≤ x ∧ x < s.addr + 8 * s.size + 4
  have linked : Edits (fun x => s.addr + 8 * s.size ≤ x ∧ x < s.addr + 8 * s.size + 4) h4
      (h4.setPrev (s.addr + 8 * s.size) (s.addr + 8 * n)) := edits_setWord fun x low high => ⟨low, high⟩
  have edits : Edits Touched h h6 := by
    refine ((edits_splitHeaders.mono fun x hit => ?_).trans (linked.mono fun x hit => ?_)).trans
      (edits_setAlloc.mono fun x hit => ?_) <;> simp only [Touched, InHeader] at hit ⊢ <;> omega
  have filed : Filed h6 (pre ++ post) := by
    refine held.filed.congr edits.start edits.brk.ge (fun x low high => edits.bytes x fun hit => ?_)
      fun f mem _ x low high => edits.bytes x fun hit => ?_
    · simp only [Touched] at hit
      omega
    · simp only [Touched] at hit
      rcases List.mem_append.mp mem with mem | mem
      · have := around.2.1 f mem
        omega
      · have := around.2.2 f mem
        omega
  obtain ⟨t, idx, keys⟩ := filed
  have header6 : HeaderAt h6 s.addr ⟨s.addr + 8 * n, s.size - n, false⟩ :=
    (header.edits linked fun x hit => by simp only; omega).setAlloc
  have fresh : Fresh h6.nil h6 ⟨s.size - n, s.addr + 8 * n⟩ t := by
    have nil : h6.nil = h.memStartBrk + 4 := congrArg (· + 4) edits.start
    refine ⟨Filed.spread idx keys ?_ fun f inF => ?_, ?_, by simp only; omega, header6.size, header6.null⟩
    · rw [nil]
      exact .inl (by simp only; omega)
    · rcases List.mem_append.mp inF with inF | inF
      · have := around.2.1 f inF
        exact .inr (by simp only; omega)
      · have := around.2.2 f inF
        exact .inl (by simp only; omega)
    · have start : h6.memStartBrk = h.memStartBrk := edits.start
      have brk : h6.memBrk = h.memBrk := edits.brk
      unfold Heap.NodeIn Heap.Within
      simp only [start, brk]
      omega
  have tiles : Tiles h6.first (pre ++ s :: post) h6.last := by
    rw [edits.first, edits.last]
    exact held.gap.tiles
  have deep := Filed.deep (held.gap.arena.edits edits) tiles
    ((List.sublist_append_right [s] post).append_left pre) idx.valid keys
  refine (@runs_mmInsert h6 t ⟨s.size - n, s.addr + 8 * n⟩ idx fresh deep).mono fun _ _ _ => ?_
  exact runs_pure.mpr rfl

/-- `mm_frag_node` returns for every size. -/
theorem Held.mmFragNode_returns (held : Held h pre s p post) : Runs (mmFragNode s.addr n) h fun r _ => r = s.addr := by
  by_cases fits : n + 2 ≤ s.size
  · have bounds := held.gap.bounds
    have small := held.gap.node_lt
    have split : ¬s.size < n + mmNodeSize / 8 := by
      unfold mmNodeSize
      omega
    have nextIn : h.HeaderIn (s.addr + 8 * n) := by
      unfold Heap.HeaderIn Heap.Within
      omega
    have size1 : ((h.setSize s.addr n).node s.addr).size = n := by rw [node_setSize (by omega)]
    unfold mmFragNode
    rw [runs_bind, runs_getSize held.gap.headerIn, held.gap.header.size, if_neg split, runs_bind,
      runs_getSize held.gap.headerIn, held.gap.header.size, runs_bind, runs_setSize held.gap.headerIn, runs_bind,
      runs_mmGetNext (h := h.setSize s.addr n) held.gap.headerIn size1 (by omega), runs_bind,
      runs_mmClearHeader (by exact nextIn), runs_bind, runs_setSize (by exact nextIn), runs_bind,
      runs_setPrev (by exact nextIn)]
    exact held.fileRest_returns fits
  · exact (held.runs_mmFragNode fun more => absurd more fits).mono fun _ _ post => post.1

/-- `mm_sbrk` returns for every size that finds room, 0 included. -/
theorem Rep.mmSbrk_returns (rep : Rep h segs) (room : h.memBrk + growth n ≤ h.memMaxAddr) :
    Runs (mmSbrk (8 * n)) h fun r _ => r = h.last := by
  by_cases zero : n = 0
  · subst zero
    obtain ⟨held, _⟩ := rep.extend (u := 18) (by omega) room
    unfold mmSbrk
    have little : 8 * 0 < mmUnit := by decide
    rw [if_pos little, show mmUnit = 8 * 18 from rfl, show 8 * 18 / 8 = 18 from rfl]
    refine rep.runs_extend (k := fun ptr => mmFragNode ptr ((8 * 0 + mmHeaderSize) / 8)) (by omega) room ?_
    exact held.mmFragNode_returns
  · exact (rep.runs_mmSbrk (by omega) room).mono fun _ _ post => post.1

/-- `mm_malloc` returns a pointer for every size that finds room. -/
theorem Rep.mmMalloc_returns (rep : Rep h segs) (room : h.memBrk + mallocGrowth segs (unitsFor size) ≤ h.memMaxAddr) :
    Runs (mmMalloc size) h fun p _ => p ≠ 0 := by
  have small : unitsFor size < 2 ^ 29 := unitsFor_lt
  rw [Runs, rep.mmMalloc_eq, ← Runs]
  unfold mallocGrowth at room
  cases found : bestFit segs (unitsFor size) with
  | none =>
    rw [if_pos found] at room
    rw [if_pos rfl, show unitsFor size * 8 % 2 ^ 32 = 8 * unitsFor size by omega, runs_bind]
    refine (rep.mmSbrk_returns room).mono fun r _ _ => ?_
    rw [runs_pure]
    exact Nat.succ_ne_zero _
  | some k =>
    obtain ⟨pre, s, post, rfl, free, _, rfl, _⟩ := rep.chain.tiles.chosen found
    rw [if_neg (by simp), foundPtr, runs_bind]
    refine (rep.runs_take free).mono fun _ h1 held => ?_
    rw [runs_bind]
    obtain ⟨r, h2, run, rfl⟩ := held.1.mmFragNode_returns (n := unitsFor size)
    have fixed := local_mmFragNode.ok run
    have inside : h2.HeaderIn s.addr := by
      have bounds := held.1.gap.headerIn
      unfold Heap.HeaderIn Heap.Within at *
      rw [fixed.start, fixed.brk]
      exact bounds
    rw [Seg.key, runs_of_run run, runs_bind, runs_setAlloc inside, runs_pure]
    exact Nat.succ_ne_zero _

end Returns

/-- The payload of the segment that a pointer denotes, in bytes. -/
def payloadAt (h : Heap) (p : Nat) : Nat := 8 * (h.node (backHeader p)).size - mmHeaderSize

/-- A request of `n` bytes gets at least `n` bytes, and `mm_realloc` takes the test `size <= now->size` of its
shrink path only for a block that is large enough. -/
structure SizesFit (w : World) (n : Nat) : Prop where
  malloc : ∀ p h', mmMalloc n w.heap = .ok p h' → p ≠ 0 → n ≤ payloadAt h' p
  realloc : ∀ p, (p = 0 ∨ ∃ b ∈ w.live, b.ptr = p) → ∀ r h', mmRealloc p n w.heap = .ok r h' → r ≠ 0 →
    n ≤ payloadAt h' r
  shrinks : ∀ b ∈ w.live, unitsFor n ≤ (w.heap.node (backHeader b.ptr)).size → n ≤ payloadAt w.heap b.ptr

section SizesFit
variable {base n p r : Nat} {segs : List Seg} {w : World} {h' : Heap} {b : Block} {old : List UInt8}

theorem payloadAt_lt {h : Heap} : payloadAt h p + 16 ≤ 2 ^ 32 := by
  have bits : (h.node (backHeader p)).size < 2 ^ 29 := Nat.mod_lt _ (by decide)
  unfold payloadAt mmHeaderSize
  omega

theorem Inv.payload (inv : Inv base segs w) (mem : b ∈ w.live) : b.data.length ≤ payloadAt w.heap b.ptr := by
  obtain ⟨pre, s, post, rfl, _, addr, fits⟩ := inv.segment mem
  have gap := chain_iff_gap.mp inv.rep.chain
  rw [payloadAt, ← addr, gap.backHeader, gap.header.size]
  omega

theorem Inv.payload_add (inv : Inv base segs ((World.mk h' w.live).add p old n)) : n ≤ payloadAt h' p := by
  have large := inv.payload (b := ⟨p, _⟩) List.mem_cons_self
  simp only [List.length_append, length_read, List.length_take] at large
  change _ ≤ payloadAt h' p at large
  omega

theorem Inv.mmMalloc_fits (inv : Inv base segs w) (low : 1 ≤ n) (high : n + 16 ≤ 2 ^ 32)
    (run : mmMalloc n w.heap = .ok p h') : n ≤ payloadAt h' p := by
  by_cases room : w.heap.memBrk + mallocGrowth segs (unitsFor n) ≤ w.heap.memMaxAddr
  · have clean : NoSliver segs (unitsFor n) := noSliver_of_two (unitsFor_two low high)
    exact ((runs_of_run run).mp (inv.runs_mmMalloc clean high room)).1.payload_add
  · obtain ⟨incr, fault⟩ := inv.rep.exhausts_mmMalloc (Nat.lt_of_not_le room)
    cases fault.symm.trans run

theorem Inv.mmRealloc_fits (inv : Inv base segs w) (mem : b ∈ w.live) (low : 1 ≤ n) (high : n + 16 ≤ 2 ^ 32)
    (run : mmRealloc b.ptr n w.heap = .ok r h') : n ≤ payloadAt h' r := by
  have nonzero := inv.ptr_ne_zero mem
  by_cases room : w.heap.memBrk + demand segs (.realloc b.ptr n) ≤ w.heap.memMaxAddr
  · obtain ⟨r', w', whole, inv', _⟩ := inv.runs_realloc mem low high room
    have same : w' = ((World.mk h' w.live).forget b.ptr).add r (w.contents b.ptr) n ∧ r' = r := by
      obtain ⟨w0, mid, first, whole⟩ := bind_eq_ok.mp whole
      cases first
      obtain ⟨q, mid, second, whole⟩ := bind_eq_ok.mp whole
      simp only [onHeap, run] at second
      cases second
      cases whole
      exact ⟨if_neg fun freed => by omega, rfl⟩
    rw [same.1] at inv'
    exact Inv.payload_add (w := (World.mk h' w.live).forget b.ptr) inv'
  · obtain ⟨pre, s, post, rfl, _, addr, _⟩ := inv.segment mem
    rw [demand, if_neg nonzero, if_neg (by omega), ← addr, Nat.add_sub_cancel, inv.rep.chain.tiles.locate] at room
    obtain ⟨incr, fault⟩ := inv.rep.exhausts_mmRealloc (show n ≠ 0 by omega) (Nat.lt_of_not_le room)
    rw [← addr] at run
    cases fault.symm.trans run

/-- Up to `2 ^ 32 - 16` bytes nothing wraps. -/
theorem Inv.sizesFit (inv : Inv base segs w) (low : 1 ≤ n) (high : n + 16 ≤ 2 ^ 32) : SizesFit w n := by
  refine ⟨fun p h' run _ => inv.mmMalloc_fits low high run, fun p client r h' run _ => ?_, fun b mem shrink => ?_⟩
  · rcases client with null | ⟨b, mem, rfl⟩
    · rw [null, mmRealloc, if_pos rfl] at run
      exact inv.mmMalloc_fits low high run
    · exact inv.mmRealloc_fits mem low high run
  · have units := le_unitsFor high
    unfold payloadAt
    omega

theorem unitsFor_wraps (low : 2 ^ 32 < n + 16) (high : n < 2 ^ 32) : unitsFor n ≤ 1 := by
  unfold unitsFor align mmHeaderSize
  omega

/-- Without clients and without free segments the heap is as `mm_init` left it. -/
theorem Inv.room_of_nil (inv : Inv base segs w) (blocks : w.live = []) (miss : bestFit segs n = none) (small : n ≤ 2) :
    w.heap.memBrk + mmUnit ≤ w.heap.memMaxAddr := by
  have empty : segs = [] := by
    refine List.eq_nil_iff_forall_not_mem.mpr fun s mem => ?_
    have big := (inv.rep.chain.tiles.bounds mem).2.2
    cases kind : s.alloc with
    | true =>
      have held := inv.holds.held
      rw [blocks, List.map_nil, List.nil_perm, List.map_eq_nil_iff] at held
      have := mem_allocated.mpr ⟨mem, kind⟩
      rw [held] at this
      cases this
    | false => exact bestFit_ne_none.mpr ⟨s, mem, kind, by omega⟩ miss
  subst empty
  have ends : w.heap.first = w.heap.last := inv.rep.chain.tiles
  have limit := inv.rep.chain.arena.limit
  unfold Heap.first Heap.last mmDataSize mmHeaderSize at ends
  unfold mmUnit maxHeap at *
  omega

/-- Above it a live block of any size is large enough for the test of `mm_realloc`, and without one there is
always room for the segment that `mm_malloc` makes. -/
theorem Inv.not_sizesFit (inv : Inv base segs w) (low : 2 ^ 32 < n + 16) (high : n < 2 ^ 32) : ¬SizesFit w n := by
  intro fit
  have units := unitsFor_wraps low high
  cases blocks : w.live with
  | cons b rest =>
    have mem : b ∈ w.live := by simp [blocks]
    obtain ⟨pre, s, post, rfl, _, addr, _⟩ := inv.segment mem
    have gap := chain_iff_gap.mp inv.rep.chain
    have large : unitsFor n ≤ (w.heap.node (backHeader b.ptr)).size := by
      have := gap.bounds
      rw [← addr, gap.backHeader, gap.header.size]
      omega
    have big := fit.shrinks b mem large
    have small := @payloadAt_lt b.ptr w.heap
    omega
  | nil =>
    have room : w.heap.memBrk + mallocGrowth segs (unitsFor n) ≤ w.heap.memMaxAddr := by
      unfold mallocGrowth
      split
      · next miss =>
        have little : growth (unitsFor n) = mmUnit := if_pos (by unfold mmUnit; omega)
        rw [little]
        exact inv.room_of_nil blocks miss (by omega)
      · exact inv.rep.chain.arena.brk
    obtain ⟨p, h', run, nonzero⟩ := inv.rep.mmMalloc_returns room
    have big := fit.malloc p h' run nonzero
    have small := @payloadAt_lt p h'
    omega

/-- The size arithmetic is right up to `2 ^ 32 - 16` bytes, and in no state above. -/
theorem sizesFit_iff (reachable : Reachable w) (low : 1 ≤ n) (high : n < 2 ^ 32) : SizesFit w n ↔ n + 16 ≤ 2 ^ 32 := by
  obtain ⟨segs, inv⟩ := reachable.inv
  constructor
  · intro fit
    by_contra large
    exact inv.not_sizesFit (by omega) high fit
  · exact inv.sizesFit low

theorem sizesFit_iff_twoBlocks : SizesFit twoBlocks 100 ↔ 100 + 16 ≤ 2 ^ 32 :=
  sizesFit_iff reachable_twoBlocks (by decide) (by decide)

/-- `mm_realloc(40, 0xFFFFFFF8)` takes the shrink path with a block of 15 units. -/
theorem sizes_wrap : ¬∀ w n, Reachable w → 1 ≤ n → n < 2 ^ 32 → SizesFit w n := by
  intro always
  have live : ∃ b ∈ twoBlocks.live, b.ptr = 40 := by decide +kernel
  obtain ⟨b, mem, ptr⟩ := live
  have fit := (always twoBlocks 0xFFFFFFF8 reachable_twoBlocks (by decide) (by decide)).shrinks b mem
  rw [ptr] at fit
  have wrong : ¬0xFFFFFFF8 ≤ payloadAt twoBlocks.heap 40 := by decide +kernel
  exact wrong (fit (by decide +kernel))

end SizesFit

end Splab.Malloc
