import Splab.Malloc.SegEdits

namespace Splab.Malloc

section Split
variable {h h' : Heap} {pre post F : List Seg} {s : Seg} {p n limit : Nat}

theorem Steady.sublist {kept fewer : List Seg} (steady : Steady kept h h') (sub : ∀ s ∈ fewer, s ∈ kept) :
    Steady fewer h h' :=
  steady.mono fun _ ⟨s, mem, inside⟩ => ⟨s, sub s mem, inside⟩

theorem mem_around {x : Seg} (mem : x ∈ pre ++ post) : x ∈ pre ++ s :: post :=
  (List.sublist_append_right [s] post).append_left pre |>.subset mem

/-- The assignments of `mm_frag_node` that write the headers of the two parts. -/
def Heap.splitHeaders (h : Heap) (a n rest : Nat) : Heap :=
  ((((h.setSize a n).clear (a + 8 * n)).setSize (a + 8 * n) rest).setPrev (a + 8 * n) a)

theorem edits_splitHeaders {a rest : Nat} :
    Edits (fun x => InHeader a x ∨ InHeader (a + 8 * n) x) h (h.splitHeaders a n rest) := by
  have first := (edits_setSize (h := h) (p := a) (v := n)).mono (R := fun x => InHeader a x ∨ InHeader (a + 8 * n) x)
    fun x => Or.inl
  refine first.trans (Edits.mono (P := InHeader (a + 8 * n)) ?_ fun x => Or.inr)
  exact (edits_clear.trans edits_setSize).trans edits_setPrev

theorem HeaderAt.splitHeaders {q rest : Nat} (header : HeaderAt h q s) (two : 2 ≤ n) (small : n < 2 ^ 29) :
    HeaderAt (h.splitHeaders s.addr n rest) q { s with size := n } := by
  refine (header.setSize small).edits (P := InHeader (s.addr + 8 * n)) ?_ fun x mem => ?_
  · exact (edits_clear.trans edits_setSize).trans edits_setPrev
  · unfold InHeader at mem
    simp only
    omega

theorem headerAt_splitHeaders {a rest : Nat} (bound : a < 2 ^ 32) (small : rest < 2 ^ 29) :
    HeaderAt (h.splitHeaders a n rest) a ⟨a + 8 * n, rest, false⟩ := by
  have sized : HeaderAt (((h.setSize a n).clear (a + 8 * n)).setSize (a + 8 * n) rest) 0 ⟨a + 8 * n, rest, false⟩ :=
    headerAt_clear.setSize small
  exact sized.setPrev bound

theorem Gap.split (gap : Gap h pre s p post) (filed : Filed h (pre ++ post)) (two : 2 ≤ n) (fits : n + 2 ≤ s.size) :
    Gap (h.splitHeaders s.addr n (s.size - n)) (pre ++ [{ s with size := n }]) ⟨s.addr + 8 * n, s.size - n, false⟩
        p post ∧
      Filed (h.splitHeaders s.addr n (s.size - n)) (pre ++ post) ∧
      Steady (pre ++ { s with size := n } :: post) h (h.splitHeaders s.addr n (s.size - n)) := by
  have bounds := gap.bounds
  have small := gap.node_lt
  have around := gap.tiles.around
  have inside : ∀ x, InHeader s.addr x ∨ InHeader (s.addr + 8 * n) x → s.addr ≤ x ∧ x < s.addr + 8 * s.size :=
    fun x mem => by
      unfold InHeader at mem
      omega
  have edits : Edits _ h (h.splitHeaders s.addr n (s.size - n)) := edits_splitHeaders
  have here : HeaderAt (h.splitHeaders s.addr n (s.size - n)) (lastAddr 0 pre) { s with size := n } :=
    gap.header.splitHeaders two (by omega)
  have there : HeaderAt (h.splitHeaders s.addr n (s.size - n)) s.addr ⟨s.addr + 8 * n, s.size - n, false⟩ :=
    headerAt_splitHeaders (by omega) (by omega)
  have area : Tiles s.addr (s :: []) (s.addr + 8 * s.size) := tiles_single (by omega)
  have refill : Tiles s.addr ([{ s with size := n }] ++ [⟨s.addr + 8 * n, s.size - n, false⟩])
      (s.addr + 8 * s.size) :=
    ⟨rfl, two, rfl, by simp only; omega, by simp only [Tiles, Seg.stop]; omega⟩
  refine ⟨?_, ?_, ?_⟩
  · exact gap.replace [] edits area refill inside ⟨here, there, trivial⟩
  · exact filed.edits [] gap edits area inside fun f mem => mem
  · refine edits.steady fun x mem hit => ?_
    unfold InHeader at hit
    rw [payload_append, payload_cons] at mem
    rcases mem with ⟨y, mem, _, low, high⟩ | ⟨_, low, high⟩ | ⟨y, mem, _, low, high⟩
    · have := around.2.1 y mem
      omega
    · simp only at low high
      omega
    · have := around.2.2 y mem
      omega

/-- The end of `mm_frag_node`: the second part `r` goes into the list and the tree. -/
theorem Gap.runs_fileRest {r : Seg} (gap : Gap h (pre ++ [s]) r p post) (filed : Filed h (pre ++ post))
    (free : r.alloc = false) (deep : Deep limit (freeCount (pre ++ post))) :
    Runs (do
      setPrev (← mmGetNext r.addr) r.addr
      Malloc.setAlloc r.addr false
      mmInsertUpto limit r.addr
      return s.addr) h fun a h' => a = s.addr ∧ Held h' pre s s.addr (r :: post) ∧
        Steady (pre ++ [s] ++ r :: post) h h' := by
  obtain ⟨gap1, filed1, steady1⟩ := gap.close filed fun f mem => by
    simp only [List.mem_append, List.mem_cons, List.not_mem_nil, or_false] at mem ⊢
    tauto
  have sub : ∀ f ∈ pre ++ post, f ∈ pre ++ [s] ++ post := fun f mem => by
    simp only [List.mem_append, List.mem_cons, List.not_mem_nil, or_false] at mem ⊢
    tauto
  obtain ⟨gap2, filed2, steady2⟩ := gap1.setAlloc (b := false) filed1 sub
  have same : { r with alloc := false } = r := by rw [← free]
  rw [same] at gap2
  rw [runs_bind, gap.runs_next, runs_bind, runs_setPrev gap.nextIn, runs_bind, runs_setAlloc gap1.headerIn,
    runs_bind]
  have out : r ∉ pre ++ post := fun mem => gap2.tiles.notMem (sub r mem)
  have within : ∀ f ∈ pre ++ r :: post, f ∈ pre ++ [s] ++ r :: post := fun f mem => by
    simp only [List.mem_append, List.mem_cons, List.not_mem_nil, or_false] at mem ⊢
    tauto
  refine (runs_mmInsert_gap gap2 filed2 within free out deep).mono ?_
  rintro _ h3 ⟨gap3, filed3, steady3⟩
  rw [runs_pure]
  have chain := chain_iff_gap.mpr gap3
  rw [List.append_assoc, List.singleton_append] at chain
  exact ⟨rfl, ⟨chain_iff_gap.mp chain, filed3⟩, (steady1.trans steady2).trans steady3⟩

/-- `mm_frag_node` keeps at least `n` units of a held segment and files the rest. A part
that is split off in front must have room for a tree node. -/
theorem Held.runs_mmFragNodeUpto (held : Held h pre s p post) (two : n + 2 ≤ s.size → 2 ≤ n)
    (deep : Deep limit (freeCount (pre ++ post))) :
    Runs (mmFragNodeUpto limit s.addr n) h fun r h' => r = s.addr ∧ Held h' pre (s.front n) s.addr (s.spare n ++ post) ∧
      Steady (pre ++ s.front n :: post) h h' := by
  have gap := held.gap
  have bounds := gap.bounds
  have small := gap.node_lt
  unfold mmFragNodeUpto Seg.front Seg.spare
  rw [runs_bind, runs_getSize gap.headerIn, gap.header.size]
  by_cases short : s.size < n + mmNodeSize / 8
  · simp only [short, if_true, List.nil_append]
    rw [runs_bind, gap.runs_next, runs_bind, runs_setPrev gap.nextIn, runs_pure]
    exact ⟨rfl, held.close⟩
  · simp only [short, if_false]
    have fits : n + 2 ≤ s.size := by
      unfold mmNodeSize at short
      omega
    obtain ⟨gap1, filed1, steady1⟩ := gap.split held.filed (two fits) fits
    have nextIn : h.HeaderIn (s.addr + 8 * n) := by
      unfold Heap.HeaderIn Heap.Within
      omega
    have size1 : ((h.setSize s.addr n).node s.addr).size = n := by rw [node_setSize (by omega)]
    rw [runs_bind, runs_getSize gap.headerIn, gap.header.size, runs_bind, runs_setSize gap.headerIn, runs_bind,
      runs_mmGetNext (h := h.setSize s.addr n) gap.headerIn size1 (by omega), runs_bind,
      runs_mmClearHeader (by exact nextIn), runs_bind, runs_setSize (by exact nextIn), runs_bind,
      runs_setPrev (by exact nextIn)]
    refine (gap1.runs_fileRest filed1 rfl deep).mono ?_
    rintro a h2 ⟨rfl, held2, steady2⟩
    refine ⟨rfl, held2, steady1.trans (steady2.sublist fun f mem => ?_)⟩
    simp only [List.mem_append, List.mem_cons, List.not_mem_nil, or_false] at mem ⊢
    tauto

theorem Held.runs_mmFragNode (held : Held h pre s p post) (two : n + 2 ≤ s.size → 2 ≤ n) :
    Runs (mmFragNode s.addr n) h fun r h' => r = s.addr ∧ Held h' pre (s.front n) s.addr (s.spare n ++ post) ∧
      Steady (pre ++ s.front n :: post) h h' :=
  held.runs_mmFragNodeUpto two (held.gap.deep.mono (Nat.le_add_right _ 2))

/-- The end of `mm_free`: the held segment becomes a free one. -/
theorem Held.runs_mmFreeInsert (held : Held h pre s p post) (deep : Deep limit (freeCount (pre ++ post))) :
    Runs (mmFreeInsertUpto limit s.addr) h fun _ h' => Rep h' (pre ++ { s with alloc := false } :: post) ∧
      Steady (pre ++ post) h h' := by
  obtain ⟨held1, steady1⟩ := held.setAlloc (b := false)
  obtain ⟨held2, steady2⟩ := held1.close
  unfold mmFreeInsertUpto
  rw [runs_bind, runs_setAlloc held.gap.headerIn, runs_bind, held1.gap.runs_next, runs_bind,
    runs_setPrev held1.gap.nextIn]
  refine (held2.runs_file rfl deep).mono ?_
  rintro _ h3 ⟨rep, steady3⟩
  exact ⟨rep, ((steady1.sublist fun x => mem_around).trans (steady2.sublist fun x => mem_around)).trans
    (steady3.sublist fun x => mem_around)⟩

end Split

section Extend
variable {h : Heap} {segs : List Seg} {u limit : Nat}

theorem Chain.bounds (chain : Chain h segs) :
    h.memStartBrk + 24 ≤ h.last ∧ h.last + 8 = h.memBrk ∧ h.memBrk < 2 ^ 32 := by
  have ends := chain.tiles.le
  have brk := chain.arena.brk
  have top := chain.arena.top
  unfold Heap.first Heap.last mmDataSize mmHeaderSize at ends
  unfold Heap.last mmHeaderSize
  omega

/-- The heap after `mem_sbrk` and the assignments of `mm_sbrk` to the new headers. -/
def Heap.extend (h : Heap) (u : Nat) : Heap :=
  ((({ h with memBrk := h.memBrk + 8 * u, calls := .memSbrk (8 * u : Nat) :: h.calls }).setSize h.last u).clear
    (h.last + 8 * u)).setAlloc h.last true

/-- Moving the break turns the sentinel into a held segment, with a new sentinel behind it. -/
theorem Rep.extend (rep : Rep h segs) (two : 2 ≤ u) (room : h.memBrk + 8 * u ≤ h.memMaxAddr) :
    Held (h.extend u) segs ⟨h.last, u, true⟩ 0 [] ∧ Steady segs h (h.extend u) := by
  obtain ⟨low, last, high⟩ := rep.chain.bounds
  obtain ⟨arena, tiles, links⟩ := rep.chain
  have top := arena.top
  have limit := arena.limit
  have ends := tiles.le
  let grown : Heap := { h with memBrk := h.memBrk + 8 * u, calls := .memSbrk (8 * u : Nat) :: h.calls }
  let Touched (x : Nat) : Prop := InHeader h.last x ∨ InHeader (h.last + 8 * u) x
  have lower : ∀ x, InHeader h.last x → Touched x := fun x => Or.inl
  have upper : ∀ x, InHeader (h.last + 8 * u) x → Touched x := fun x => Or.inr
  have edits : Edits Touched grown (h.extend u) :=
    ((edits_setSize.mono lower).trans (edits_clear.mono upper)).trans (edits_setAlloc.mono lower)
  have same : ∀ x, ¬Touched x → (h.extend u).bytes x = h.bytes x := edits.bytes
  have above : ∀ x, Touched x → h.last ≤ x := fun x hit => by
    simp only [Touched, InHeader] at hit
    omega
  have newLast : (h.extend u).last = h.last + 8 * u := by
    rw [edits.last]
    simp only [grown, Heap.last, mmHeaderSize] at last ⊢
    omega
  have old := (links_append.mp links).2.1
  have here : HeaderAt (h.extend u) (lastAddr 0 segs) ⟨h.last, u, true⟩ := by
    have kept : HeaderAt grown (lastAddr 0 segs) (sentinel h.last) := old.congr fun _ _ _ => rfl
    have sized : HeaderAt (grown.setSize h.last u) (lastAddr 0 segs) ⟨h.last, u, false⟩ :=
      kept.setSize (by unfold maxHeap at limit; omega)
    refine (sized.edits (edits_clear (p := h.last + 8 * u)) fun x mem => ?_).setAlloc
    unfold InHeader at mem
    simp only
    omega
  have there : HeaderAt (h.extend u) 0 (sentinel (h.last + 8 * u)) := by
    refine (headerAt_clear (p := h.last + 8 * u)).edits (edits_setAlloc (p := h.last) (b := true)) fun x mem => ?_
    unfold InHeader at mem
    simp only
    omega
  have bigger : h.memBrk ≤ (h.extend u).memBrk := by
    rw [edits.brk]
    simp only [grown]
    omega
  refine ⟨⟨⟨⟨arena.positive, arena.aligned, limit, top, edits.brk ▸ room⟩, ?_, ?_, ?_⟩, ?_⟩, ?_⟩
  · rw [newLast, edits.first]
    exact tiles_append.mpr ⟨_, tiles, rfl, two, rfl⟩
  · refine links_append.mpr ⟨(links_append.mp links).1.congr fun y mem x from' to' => same x fun hit => ?_,
      here, trivial⟩
    have := tiles.bounds mem
    have := above x hit
    unfold Seg.stop at *
    omega
  · rw [newLast]
    exact ⟨there, trivial⟩
  · rw [List.append_nil]
    refine rep.filed.congr edits.start bigger (fun x from' to' => same x fun hit => ?_)
      fun y mem _ x from' to' => same x fun hit => ?_
    · have := above x hit
      omega
    · have := tiles.bounds mem
      have := above x hit
      unfold Seg.stop at *
      omega
  · refine ⟨edits.start, edits.maxAddr, edits.errno, .of_cons edits.calls trivial, fun x mem => same x fun hit => ?_⟩
    obtain ⟨y, mem, _, from', to'⟩ := mem
    have := tiles.bounds mem
    have := above x hit
    unfold Seg.stop at *
    omega

theorem backHeader_eq {p : Nat} (low : 8 ≤ p) (high : p < 2 ^ 32) : backHeader p = p - 8 := by
  unfold backHeader mmHeaderSize
  omega

theorem asInt_eq {n : Nat} (small : n < 2 ^ 31) : asInt n = n := by
  unfold asInt
  rw [if_pos (by omega)]
  omega

/-- The statements of `mm_sbrk` that both of its branches begin with. -/
theorem Rep.runs_extend {α : Type} {k : Nat → Mm α} {Q : α → Heap → Prop} (rep : Rep h segs) (two : 2 ≤ u)
    (room : h.memBrk + 8 * u ≤ h.memMaxAddr) (next : Runs (k h.last) (h.extend u) Q) :
    Runs (do
      let ptr := backHeader (← memSbrk (8 * u : Nat))
      setSize ptr u
      mmClearHeader (ptr + 8 * u)
      setAlloc ptr true
      k ptr) h Q := by
  obtain ⟨low, last, high⟩ := rep.chain.bounds
  have back : backHeader h.memBrk = h.last := by
    rw [backHeader_eq (by omega) high]
    rfl
  rw [runs_bind, runs_memSbrk room, back, runs_bind, runs_setSize, runs_bind, runs_mmClearHeader, runs_bind,
    runs_setAlloc]
  · exact next
  · simp only [Heap.HeaderIn, Heap.Within, Heap.clear, Heap.setSize, Heap.setFields, Heap.setWord]
    omega
  · simp only [Heap.HeaderIn, Heap.Within, Heap.setSize, Heap.setFields, Heap.setWord]
    omega
  · simp only [Heap.HeaderIn, Heap.Within]
    omega

/-- `mm_sbrk` with room left adds a segment of at least `u` units at the end of the list. -/
theorem Rep.runs_mmSbrkUpto (rep : Rep h segs) (one : 1 ≤ u) (room : h.memBrk + growth u ≤ h.memMaxAddr)
    (deep : Deep limit (freeCount segs)) :
    Runs (mmSbrkUpto limit (8 * u)) h fun r h' => r = h.last ∧
      Held h' segs (fresh h.last u) h.last (freshSpare h.last u) ∧ Steady segs h h' := by
  unfold mmSbrkUpto fresh freshSpare
  unfold growth at room
  by_cases small : 8 * u < mmUnit
  · simp only [small, if_true] at room ⊢
    obtain ⟨held, steady⟩ := rep.extend (u := 18) (by omega) room
    have units : (8 * u + mmHeaderSize) / 8 = u + 1 := by
      unfold mmHeaderSize
      omega
    rw [units, show mmUnit = 8 * 18 from rfl, show 8 * 18 / 8 = 18 from rfl]
    refine rep.runs_extend (k := fun ptr => mmFragNodeUpto limit ptr (u + 1)) (by omega) room ?_
    refine (held.runs_mmFragNodeUpto (n := u + 1) (fun _ => by omega) (by rwa [List.append_nil])).mono ?_
    rintro r h2 ⟨rfl, held2, steady2⟩
    rw [List.append_nil] at held2
    exact ⟨rfl, held2, steady.trans (steady2.sublist fun f mem => List.mem_append_left _ mem)⟩
  · simp only [small, if_false] at room ⊢
    have two : 2 ≤ u := by
      unfold mmUnit at small
      omega
    obtain ⟨held, steady⟩ := rep.extend two room
    have units : 8 * u / 8 = u := by omega
    have limit := rep.chain.arena.limit
    have bounds := rep.chain.bounds
    rw [units, asInt_eq (by unfold maxHeap at limit; omega)]
    refine rep.runs_extend (k := fun ptr => do
      setPrev (← mmGetNext ptr) ptr
      return ptr) two room ?_
    obtain ⟨held2, steady2⟩ := held.close
    rw [runs_bind, held.gap.runs_next, runs_bind, runs_setPrev held.gap.nextIn, runs_pure]
    exact ⟨rfl, held2, steady.trans (steady2.sublist fun f mem => List.mem_append_left _ mem)⟩

theorem Rep.runs_mmSbrk (rep : Rep h segs) (one : 1 ≤ u) (room : h.memBrk + growth u ≤ h.memMaxAddr) :
    Runs (mmSbrk (8 * u)) h fun r h' => r = h.last ∧
      Held h' segs (fresh h.last u) h.last (freshSpare h.last u) ∧ Steady segs h h' :=
  rep.runs_mmSbrkUpto one room (rep.deep.mono (Nat.le_add_right _ 2))

end Extend

end Splab.Malloc
