import Splab.Malloc.Ranges
import Splab.Malloc.Guarantees

namespace Splab.Malloc

/-- What a trace has come to on the policy: the segments, the live ids, and the addresses and sizes of their blocks. -/
structure Replay where
  segs : List Seg
  live : List Nat
  blocks : Nat → Nat
  sizes : Nat → Nat

/-- Before the first request of a trace. -/
def Replay.start : Replay := ⟨[], [], fun _ => 0, fun _ => 0⟩

/-- The call that the request makes, with the addresses that earlier ones returned. -/
def TraceOp.request (op : TraceOp) (blocks : Nat → Nat) : Request :=
  match op.type with
  | .alloc => .malloc (asSize op.size)
  | .realloc => .realloc (blocks op.index) (asSize op.size)
  | .free => .free (blocks op.index)

def Replay.next (base : Nat) (s : Replay) (op : TraceOp) : Replay :=
  let served := serve base s.segs (op.request s.blocks)
  match op.type with
  | .free => { s with segs := served.1, live := op.liveIds s.live }
  | _ =>
    { segs := served.1
      live := op.liveIds s.live
      blocks := Function.update s.blocks op.index served.2
      sizes := Function.update s.sizes op.index (asSize op.size) }

/-- The first address that the heap does not use. -/
def Replay.brk (base : Nat) (s : Replay) : Nat := endAddr base s.segs + mmHeaderSize

/-- The storage has room for what the request asks for. -/
def Replay.Room (base : Nat) (s : Replay) (op : TraceOp) : Prop :=
  s.brk base + demand s.segs (op.request s.blocks) + mmDataSize ≤ base + maxHeap

/-- The block of an id, with its bytes. -/
def Replay.block (s : Replay) (data : Nat → List UInt8) (id : Nat) : Block := ⟨s.blocks id, data id⟩

/-- The heap `h` is what the policy says, and the live blocks hold the given bytes. -/
structure Follows (base : Nat) (s : Replay) (data : Nat → List UInt8) (h : Heap) : Prop where
  inv : Inv base s.segs ⟨h, s.live.map (s.block data)⟩
  nodup : s.live.Nodup
  length : ∀ id ∈ s.live, (data id).length = s.sizes id
  sizes : ∀ id ∈ s.live, 1 ≤ s.sizes id ∧ s.sizes id ≤ maxHeap

/-- The heap can be initialised for a trace. Its bytes may be anything. -/
structure Ready (base : Nat) (h : Heap) : Prop where
  first : h.first = base
  positive : 0 < h.memStartBrk
  aligned : 8 ∣ h.memStartBrk
  limit : h.memMaxAddr = h.memStartBrk + maxHeap
  top : h.memMaxAddr < 2 ^ 32
  errno : h.errno = 0
  recorded : ∀ c ∈ h.calls, c.Fits

section Start
variable {base : Nat} {h : Heap} {s : Replay} {data : Nat → List UInt8}

/-- `mm_init` on a heap that other traces have used. -/
theorem runs_mmInit_again {Q : Nat → Heap → Prop} (limit : h.memMaxAddr = h.memStartBrk + maxHeap) :
    Runs mmInit { h with memBrk := h.memStartBrk } Q ↔ Q 0 { initHeap h.memStartBrk h.bytes with
      errno := h.errno, calls := .memSbrk mmHeaderSize :: .memSbrk mmDataSize :: h.calls } := by
  obtain ⟨bytes, start, brk, last, errno, calls⟩ := h
  obtain rfl : last = start + maxHeap := limit
  unfold mmInit mmMemset setRoot
  rw [runs_bind, runs_memSbrk, runs_bind, runs_bind, runs_mmMemsetLoop, runs_pure, runs_bind, runs_storeWord,
    runs_bind, runs_setColor, runs_bind, runs_setNull, runs_bind, runs_memSbrk, runs_bind, runs_mmClearHeader,
    runs_pure]
  · rfl
  all_goals
    simp only [Heap.HeaderIn, Heap.Within, Heap.setNull, Heap.setColor, Heap.setFields, Heap.setWord,
      mmDataSize, mmHeaderSize, maxHeap]
    omega

/-- What an earlier trace has left in the storage makes no difference to the next one. -/
theorem Ready.runs_mmInit (ready : Ready base h) : Runs mmInit { h with memBrk := h.memStartBrk } fun r h' =>
    r = 0 ∧ Follows base .start data h' ∧ h'.memStartBrk = h.memStartBrk := by
  rw [runs_mmInit_again ready.limit]
  have rep : Rep (initHeap h.memStartBrk h.bytes) [] :=
    initHeap_rep ready.positive ready.aligned (ready.limit ▸ ready.top)
  refine ⟨rfl, ⟨⟨rep.write rfl rfl rfl fun _ _ => rfl, ready.first, ready.errno, fun c mem => ?_, ?_⟩,
    List.nodup_nil, fun id mem => absurd mem List.not_mem_nil, fun id mem => absurd mem List.not_mem_nil⟩, rfl⟩
  · rcases List.mem_cons.mp mem with rfl | mem
    · trivial
    · rcases List.mem_cons.mp mem with rfl | mem
      · trivial
      · exact ready.recorded c mem
  · exact ⟨.nil, by simp [Replay.start], by simp [Replay.start]⟩

theorem Follows.ready (follows : Follows base s data h) : Ready base h where
  first := follows.inv.first
  positive := follows.inv.rep.chain.arena.positive
  aligned := follows.inv.rep.chain.arena.aligned
  limit := follows.inv.rep.chain.arena.limit
  top := follows.inv.rep.chain.arena.limit ▸ follows.inv.rep.chain.arena.top
  errno := follows.inv.errno
  recorded := follows.inv.recorded

end Start

section Calls
variable {w : World} {p n : Nat} {Q : Nat → World → Prop}

theorem runs_perform_realloc : Runs (perform (.realloc p n)) w Q ↔
    Runs (mmRealloc p n) w.heap fun r h => Q r ((World.mk h w.live).resize p n r (w.contents p)) := by
  unfold perform
  rw [runs_bind, runs_get, runs_bind, runs_onHeap]
  refine iff_of_eq (congrArg _ (funext₂ fun r h => ?_))
  rw [runs_bind, runs_modify, runs_pure]

theorem runs_perform_free : Runs (perform (.free p)) w Q ↔
    Runs (mmFree p) w.heap fun _ h => Q 0 ((World.mk h w.live).forget p) := by
  unfold perform
  rw [runs_bind, runs_onHeap]
  refine iff_of_eq (congrArg _ (funext₂ fun r h => ?_))
  rw [runs_bind, runs_modify, runs_pure]

end Calls

section Requests
variable {base : Nat} {h h' : Heap} {s : Replay} {data : Nat → List UInt8} {id p : Nat} {size : Int}
  {segs : List Seg} {bytes : List UInt8} {live : List Nat}

/-- A block that is forgotten takes its id with it. -/
theorem Follows.forget (follows : Follows base s data h) (mem : id ∈ s.live) (h' : Heap) :
    (World.mk h' (s.live.map (s.block data))).forget (s.blocks id) =
      ⟨h', (s.live.erase id).map (s.block data)⟩ := by
  have distinct := follows.inv.ptr_nodup
  rw [List.map_map] at distinct
  rw [World.forget, List.filter_map, follows.nodup.erase_eq_filter]
  refine congrArg (fun live => World.mk h' (live.map (s.block data))) (List.filter_congr fun i inside => ?_)
  rw [Bool.eq_iff_iff]
  simp only [Function.comp_apply, ne_eq, decide_not, Bool.not_eq_true', decide_eq_false_iff_not, bne_iff_ne]
  exact not_congr ⟨List.inj_on_of_nodup_map distinct inside mem, congrArg s.blocks⟩

/-- A block of the size asked for has been handed out to `id`. -/
theorem Follows.assign (follows : Follows base s data h) (sub : live.Sublist s.live) (new : id ∉ live)
    (low : 1 ≤ size) (high : size ≤ maxHeap) (length : bytes.length = asSize size)
    (inv : Inv base segs ⟨h', ⟨p, bytes⟩ :: live.map (s.block data)⟩) :
    Follows base ⟨segs, id :: live, Function.update s.blocks id p, Function.update s.sizes id (asSize size)⟩
      (Function.update data id bytes) h' where
  inv := by
    have others : live.map (s.block data) = live.map fun i =>
        ⟨Function.update s.blocks id p i, Function.update data id bytes i⟩ := by
      refine List.map_congr_left fun i mem => ?_
      have ne : i ≠ id := fun same => new (same ▸ mem)
      rw [Function.update_of_ne ne, Function.update_of_ne ne]
      rfl
    rw [others] at inv
    have here : (⟨Function.update s.blocks id p id, Function.update data id bytes id⟩ : Block) = ⟨p, bytes⟩ := by
      rw [Function.update_self, Function.update_self]
    rw [← here] at inv
    exact inv
  nodup := List.nodup_cons.mpr ⟨new, follows.nodup.sublist sub⟩
  length i mem := by
    rcases eq_or_ne i id with rfl | ne
    · simp only [Function.update_self, length]
    · have old := sub.subset ((List.mem_cons.mp mem).resolve_left ne)
      simp only [Function.update_of_ne ne]
      exact follows.length i old
  sizes i mem := by
    rcases eq_or_ne i id with rfl | ne
    · have fits := asSize_fits low high
      simp only [Function.update_self]
      omega
    · have old := sub.subset ((List.mem_cons.mp mem).resolve_left ne)
      simp only [Function.update_of_ne ne]
      exact follows.sizes i old

theorem Follows.room_iff (follows : Follows base s data h) {op : TraceOp} :
    s.Room base op ↔ h.memBrk + demand s.segs (op.request s.blocks) ≤ h.memMaxAddr := by
  have last := follows.inv.last_eq
  have first := follows.inv.first
  have limit := follows.inv.rep.chain.arena.limit
  have bounds := follows.inv.rep.chain.bounds
  unfold Replay.Room Replay.brk
  unfold Heap.last Heap.first mmHeaderSize mmDataSize at *
  simp only at last first limit bounds
  omega

/-- The bytes of a block that `World.add` hands out. -/
theorem length_added {old : List UInt8} {n : Nat} :
    (old.take n ++ h.read (p + (old.take n).length) (n - (old.take n).length)).length = n := by
  have := List.length_take_le n old
  rw [List.length_append, length_read]
  omega

theorem Follows.runs_malloc (follows : Follows base s data h) (new : id ∉ s.live) (low : 1 ≤ size)
    (high : size ≤ maxHeap) (room : s.Room base ⟨.alloc, id, size⟩) : Runs (mmMalloc (asSize size)) h fun p h' =>
      p = (s.next base ⟨.alloc, id, size⟩).blocks id ∧
        ∃ bytes, Follows base (s.next base ⟨.alloc, id, size⟩) (Function.update data id bytes) h' := by
  have fits := asSize_fits low high
  have small : asSize size + 16 ≤ 2 ^ 32 := maxHeap_small (by omega)
  refine (follows.inv.runs_mmMalloc (noSliver_of_two (unitsFor_two (by omega) small)) small
    (follows.room_iff.mp room)).mono ?_
  rintro p h' ⟨inv, ptr⟩
  subst ptr
  have handed := follows.assign (List.Sublist.refl _) new low high length_added inv
  exact ⟨(Function.update_self id _ s.blocks).symm, _, handed⟩

theorem Follows.runs_realloc (follows : Follows base s data h) (mem : id ∈ s.live) (low : 1 ≤ size)
    (high : size ≤ maxHeap) (room : s.Room base ⟨.realloc, id, size⟩) :
    Runs (mmRealloc (s.blocks id) (asSize size)) h fun p h' =>
      p = (s.next base ⟨.realloc, id, size⟩).blocks id ∧
        ∃ bytes, (data id).take (asSize size) <+: bytes ∧
          Follows base (s.next base ⟨.realloc, id, size⟩) (Function.update data id bytes) h' := by
  have fits := asSize_fits low high
  have positive : asSize size ≠ 0 := by omega
  have small : asSize size + 16 ≤ 2 ^ 32 := maxHeap_small (by omega)
  have inv := follows.inv
  have held : s.block data id ∈ s.live.map (s.block data) := List.mem_map_of_mem mem
  have served : Policy.realloc (endAddr base s.segs) s.segs (s.block data id).ptr (unitsFor (asSize size)) =
      serve base s.segs (.realloc (s.blocks id) (asSize size)) := by
    rw [serve, if_neg (show s.blocks id ≠ 0 from inv.ptr_ne_zero held), if_neg positive]
    rfl
  refine (runs_perform_realloc.mp (inv.runs_realloc held (by omega) small (follows.room_iff.mp room))).mono ?_
  rintro p h' ⟨inv', ptr⟩
  rw [inv.contents held, World.resize, if_neg fun freed => positive freed.2] at inv'
  change Inv base _ (((World.mk h' (s.live.map (s.block data))).forget (s.blocks id)).add _ _ _) at inv'
  rw [follows.forget mem] at inv'
  have handed := follows.assign List.erase_sublist follows.nodup.not_mem_erase low high length_added inv'
  rw [served] at ptr handed
  subst ptr
  exact ⟨(Function.update_self id _ s.blocks).symm, _, List.prefix_append _ _, handed⟩

theorem Follows.runs_free (follows : Follows base s data h) (mem : id ∈ s.live) :
    Runs (mmFree (s.blocks id)) h fun _ h' => Follows base (s.next base ⟨.free, id, size⟩) data h' := by
  have held : s.block data id ∈ s.live.map (s.block data) := List.mem_map_of_mem mem
  refine (runs_perform_free.mp (follows.inv.runs_free held)).mono ?_
  rintro _ h' ⟨inv, _⟩
  change Inv base _ ((World.mk h' (s.live.map (s.block data))).forget (s.blocks id)) at inv
  rw [follows.forget mem] at inv
  exact ⟨inv, follows.nodup.erase _, fun i mem => follows.length i (List.mem_of_mem_erase mem),
    fun i mem => follows.sizes i (List.mem_of_mem_erase mem)⟩

/-- A request that finds no room does not return from `mm_malloc`. -/
theorem Follows.exhausted_malloc (follows : Follows base s data h) (full : ¬s.Room base ⟨.alloc, id, size⟩) :
    ∃ h', mmMalloc (asSize size) h = .error (.segv 0xFFFFFFFB) h' ∧ h'.errno = ENOMEM := by
  rw [follows.room_iff] at full
  obtain ⟨incr, run⟩ := follows.inv.rep.exhausts_mmMalloc (not_le.mp full)
  exact ⟨_, run, rfl⟩

theorem Follows.exhausted_realloc (follows : Follows base s data h) (mem : id ∈ s.live) (low : 1 ≤ size)
    (high : size ≤ maxHeap) (full : ¬s.Room base ⟨.realloc, id, size⟩) :
    ∃ h', mmRealloc (s.blocks id) (asSize size) h = .error (.segv 0xFFFFFFFB) h' ∧ h'.errno = ENOMEM := by
  have fits := asSize_fits low high
  have positive : asSize size ≠ 0 := by omega
  have held : s.block data id ∈ s.live.map (s.block data) := List.mem_map_of_mem mem
  have nonzero : s.blocks id ≠ 0 := follows.inv.ptr_ne_zero held
  have inv := follows.inv
  rw [follows.room_iff, not_le, TraceOp.request, demand, if_neg nonzero, if_neg positive] at full
  obtain ⟨pre, z, post, split, alloc, addr, _⟩ := inv.segment held
  have addr' : z.addr + mmHeaderSize = s.blocks id := addr
  rw [split] at full inv
  rw [← addr', Nat.add_sub_cancel, inv.rep.chain.tiles.locate] at full
  obtain ⟨incr, run⟩ := inv.rep.exhausts_mmRealloc positive full
  rw [addr'] at run
  exact ⟨_, run, rfl⟩

theorem Follows.room_free (follows : Follows base s data h) : s.Room base ⟨.free, id, size⟩ := by
  rw [follows.room_iff]
  exact follows.inv.rep.chain.arena.brk

theorem Follows.placed (follows : Follows base s data h) (mem : id ∈ s.live) :
    8 ∣ s.blocks id ∧ h.memStartBrk + mmDataSize ≤ s.blocks id ∧ s.blocks id + s.sizes id ≤ h.memBrk := by
  have safe := follows.inv.blockSafe (List.mem_map_of_mem mem)
  have low := safe.low
  have high := safe.high
  have length := follows.length id mem
  simp only [Replay.block] at low high
  refine ⟨?_, low, by omega⟩
  have offset := safe.aligned
  simp only [Replay.block] at offset
  have aligned := follows.inv.rep.chain.arena.aligned
  simp only at aligned
  omega

theorem Follows.block_ne_zero (follows : Follows base s data h) (mem : id ∈ s.live) : s.blocks id ≠ 0 := by
  have low := (follows.placed mem).2.1
  unfold mmDataSize at low
  omega

theorem Follows.apart (follows : Follows base s data h) {i j : Nat} (memI : i ∈ s.live) (memJ : j ∈ s.live)
    (ne : i ≠ j) : s.blocks i + s.sizes i ≤ s.blocks j ∨ s.blocks j + s.sizes j ≤ s.blocks i := by
  have symm : Std.Symm fun i j => Block.Disjoint (s.block data i) (s.block data j) := ⟨fun _ _ => Or.symm⟩
  have here := (List.pairwise_map.mp follows.inv.disjoint).forall memI memJ ne
  rw [← follows.length i memI, ← follows.length j memJ]
  exact here

/-- The driver fills a block with one byte. -/
theorem Follows.runs_fill (follows : Follows base s data h) (mem : id ∈ s.live) {c : UInt8} :
    Runs (mmMemsetLoop (s.blocks id) c 0 (s.sizes id)) h fun _ h' =>
      Follows base s (Function.update data id (List.replicate (s.sizes id) c)) h' := by
  obtain ⟨_, low, high⟩ := follows.placed mem
  unfold mmDataSize at low
  rw [runs_mmMemsetLoop (by unfold Heap.Within; omega)]
  have same : ∀ i ∈ s.live, (Function.update data id (List.replicate (s.sizes id) c) i).length = s.sizes i := by
    intro i inside
    rcases eq_or_ne i id with rfl | ne
    · rw [Function.update_self, List.length_replicate]
    · rw [Function.update_of_ne ne, follows.length i inside]
  have inv := follows.inv
  obtain ⟨pre, z, post, split, alloc, addr, fits⟩ := inv.segment (List.mem_map_of_mem mem)
  have length := follows.length id mem
  simp only [Replay.block] at addr fits
  unfold mmHeaderSize at addr fits
  refine ⟨⟨inv.rep.write rfl rfl rfl fun x off => if_neg fun inside => off ?_, inv.first, inv.errno, inv.recorded,
    ?_, fun b inside => ?_, fun b inside j v at' => ?_⟩, follows.nodup, same, follows.sizes⟩
  · exact ⟨z, by simp [split], alloc, by omega, by omega⟩
  · have ptrs : (s.live.map (s.block (Function.update data id (List.replicate (s.sizes id) c)))).map Block.ptr =
        (s.live.map (s.block data)).map Block.ptr := by
      rw [List.map_map, List.map_map]
      rfl
    rw [ptrs]
    exact inv.holds.held
  · obtain ⟨i, memI, rfl⟩ := List.mem_map.mp inside
    obtain ⟨y, inY, addrY, fitsY⟩ := inv.holds.fits _ (List.mem_map_of_mem memI)
    refine ⟨y, inY, addrY, ?_⟩
    simp only [Replay.block, same i memI] at fitsY ⊢
    rwa [← follows.length i memI]
  · obtain ⟨i, memI, rfl⟩ := List.mem_map.mp inside
    have small := (List.getElem?_eq_some_iff.mp at').1
    simp only [Replay.block] at at' small
    rw [same i memI] at small
    change (if s.blocks id + 0 ≤ s.blocks i + j ∧ s.blocks i + j < s.blocks id + 0 + s.sizes id then c else
      h.bytes (s.blocks i + j)) = v
    rcases eq_or_ne i id with rfl | ne
    · rw [Function.update_self, List.getElem?_replicate_of_lt (by simpa using small)] at at'
      rw [if_pos (by omega), Option.some.inj at']
    · have apart := follows.apart memI mem ne
      rw [Function.update_of_ne ne] at at'
      rw [if_neg (by omega)]
      exact inv.holds.stored _ (List.mem_map_of_mem memI) j v at'

end Requests

end Splab.Malloc
