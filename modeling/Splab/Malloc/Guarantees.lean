import Splab.Malloc.Sessions

namespace Splab.Malloc

section Layout
variable {a e : Nat} {segs : List Seg} {s : Seg}

theorem Tiles.aligned (tiles : Tiles a segs e) (mem : s ∈ segs) : ∃ k, s.addr = a + 8 * k := by
  induction segs generalizing a with
  | nil => cases mem
  | cons x rest ih =>
    obtain ⟨start, _, tail⟩ := tiles
    rcases List.mem_cons.mp mem with rfl | mem
    · exact ⟨0, start⟩
    · obtain ⟨k, eq⟩ := ih tail mem
      unfold Seg.stop at eq
      exact ⟨x.size + k, by omega⟩

end Layout

/-- The bytes that the allocator uses behind the `MM_Data` area: every header, the
sentinel's included, and the `left` and `right` of every free segment. -/
def AllocatorByte (h : Heap) (x : Nat) : Prop :=
  (∃ s ∈ h.segments, InHeader s.addr x) ∨ InHeader h.last x ∨
    ∃ s ∈ h.segments, s.alloc = false ∧ s.addr + 8 ≤ x ∧ x < s.addr + 16

/-- What a client may rely on for its block. -/
structure BlockSafe (h : Heap) (b : Block) : Prop where
  aligned : 8 ∣ b.ptr - h.memStartBrk
  low : h.memStartBrk + mmDataSize ≤ b.ptr
  high : b.ptr + b.data.length ≤ h.memBrk
  apart : ∀ x, b.ptr ≤ x → x < b.ptr + b.data.length → ¬AllocatorByte h x

/-- The byte ranges of two blocks do not meet. -/
def Block.Disjoint (b c : Block) : Prop := b.ptr + b.data.length ≤ c.ptr ∨ c.ptr + c.data.length ≤ b.ptr

section Inv
variable {base : Nat} {segs : List Seg} {w : World} {b c : Block}

theorem Inv.blockSafe (inv : Inv base segs w) (mem : b ∈ w.live) : BlockSafe w.heap b := by
  obtain ⟨pre, s, post, rfl, alloc, addr, fits⟩ := inv.segment mem
  have tiles := inv.rep.chain.tiles
  have place := (chain_iff_gap.mp inv.rep.chain).bounds
  obtain ⟨k, eq⟩ := tiles.aligned (s := s) (by simp)
  unfold mmHeaderSize at addr fits
  refine ⟨?_, ?_, ?_, fun x low high => ?_⟩
  · unfold Heap.first mmDataSize at eq
    exact ⟨k + 4, by omega⟩
  · unfold mmDataSize
    omega
  · omega
  · have payload : Payload (pre ++ s :: post) x := ⟨s, by simp, alloc, by omega, by omega⟩
    rintro (⟨y, inside, hit⟩ | hit | ⟨y, inside, free, near, far⟩)
    · rw [inv.rep.segments_eq] at inside
      have := tiles.header_off (List.mem_append_left _ inside) payload
      unfold InHeader at hit
      omega
    · have := tiles.header_off (x := sentinel w.heap.last) (by simp) payload
      unfold InHeader at hit
      simp only [sentinel] at this
      omega
    · rw [inv.rep.segments_eq] at inside
      obtain ⟨front, back, eq⟩ := List.append_of_mem inside
      have big := (tiles.bounds inside).2.2
      have := (eq ▸ tiles : Tiles _ (front ++ y :: back) _).payload (eq ▸ payload)
      have := this.2.2.2 free
      omega

theorem Inv.disjoint (inv : Inv base segs w) : w.live.Pairwise Block.Disjoint := by
  have distinct := List.pairwise_map.mp inv.ptr_nodup
  refine distinct.imp_of_mem fun {b c} memB memC ne => ?_
  obtain ⟨s, inS, addrS, fitsS⟩ := inv.holds.fits b memB
  obtain ⟨z, inZ, addrZ, fitsZ⟩ := inv.holds.fits c memC
  have apart := inv.rep.chain.tiles.disjoint (mem_allocated.mp inS).1 (mem_allocated.mp inZ).1
  have other : s ≠ z := fun same => ne (by rw [← addrS, ← addrZ, same])
  have := apart.resolve_left other
  unfold Seg.stop at this
  unfold mmHeaderSize at *
  unfold Block.Disjoint
  omega

theorem Inv.read_eq (inv : Inv base segs w) (mem : b ∈ w.live) : w.heap.read b.ptr b.data.length = b.data := by
  refine List.ext_getElem (by simp) fun i _ inside => ?_
  simp only [Heap.read, List.getElem_map, List.getElem_range]
  exact inv.holds.stored b mem i _ (List.getElem?_eq_getElem inside)

end Inv

section Guarantees
variable {w : World} {reqs : List Request}

/-- The heap is well formed after every run: list, back pointers and tree agree. -/
theorem sessions_wellFormed (initial : Initial w) (legal : Legal w reqs) (unfailing : Unfailing w reqs) :
    Runs (performAll reqs) w fun _ w' => WellFormed w'.heap :=
  (initial.inv.runs_performAll legal.careful unfailing).mono fun _ _ ⟨inv, _⟩ => inv.rep.wellFormed

theorem sessions_wellFormed_sample :
    Runs (performAll sampleRun) (freshWorld 8) fun _ w' => WellFormed w'.heap :=
  sessions_wellFormed (initial_freshWorld (by decide) (by decide) (by decide)) (by decide +kernel)
    (by decide +kernel)

/-- No block overlaps another one or a byte that the allocator uses. -/
theorem sessions_safe (initial : Initial w) (legal : Legal w reqs) (unfailing : Unfailing w reqs) :
    Runs (performAll reqs) w fun _ w' =>
      (∀ b ∈ w'.live, BlockSafe w'.heap b) ∧ w'.live.Pairwise Block.Disjoint :=
  (initial.inv.runs_performAll legal.careful unfailing).mono fun _ _ ⟨inv, _⟩ =>
    ⟨fun _ mem => inv.blockSafe mem, inv.disjoint⟩

theorem sessions_safe_sample : Runs (performAll sampleRun) (freshWorld 8) fun _ w' =>
    (∀ b ∈ w'.live, BlockSafe w'.heap b) ∧ w'.live.Pairwise Block.Disjoint :=
  sessions_safe (initial_freshWorld (by decide) (by decide) (by decide)) (by decide +kernel) (by decide +kernel)

/-- The memory of every block holds what its owner last wrote there. -/
theorem sessions_preserve (initial : Initial w) (legal : Legal w reqs) (unfailing : Unfailing w reqs) :
    Runs (performAll reqs) w fun _ w' => ∀ b ∈ w'.live, w'.heap.read b.ptr b.data.length = b.data :=
  (initial.inv.runs_performAll legal.careful unfailing).mono fun _ _ ⟨inv, _⟩ _ mem => inv.read_eq mem

theorem sessions_preserve_sample : Runs (performAll sampleRun) (freshWorld 8) fun _ w' =>
    ∀ b ∈ w'.live, w'.heap.read b.ptr b.data.length = b.data :=
  sessions_preserve (initial_freshWorld (by decide) (by decide) (by decide)) (by decide +kernel)
    (by decide +kernel)

end Guarantees

end Splab.Malloc
