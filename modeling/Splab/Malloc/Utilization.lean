import Splab.Malloc.Verdicts

namespace Splab.Malloc

/-- The bytes of the live payloads. -/
def Replay.bytes (s : Replay) : Nat := (s.live.map s.sizes).sum

/-- The most bytes that were ever live. -/
def Replay.peak (base : Nat) : Replay → List TraceOp → Nat
  | s, [] => s.bytes
  | s, op :: rest => max s.bytes ((s.next base op).peak base rest)

/-- Where the requests lead. -/
def Replay.final (base : Nat) (s : Replay) (ops : List TraceOp) : Replay := ops.foldl (fun s op => s.next base op) s

/-- `mem_heapsize()` -/
def Replay.heapsize (base : Nat) (s : Replay) : Nat := s.brk base + mmDataSize - base

/-- Intervals that lie apart between two bounds are together no longer than the bounds are apart. -/
theorem sum_length_le {ids : List Nat} {lo len : Nat → Nat} {a b : Nat} (nodup : ids.Nodup)
    (inside : ∀ i ∈ ids, a ≤ lo i ∧ lo i + len i ≤ b)
    (apart : ∀ i ∈ ids, ∀ j ∈ ids, i ≠ j → lo i + len i ≤ lo j ∨ lo j + len j ≤ lo i) :
    (ids.map len).sum ≤ b - a := by
  let span (i : Nat) : Finset Nat := Finset.Ico (lo i) (lo i + len i)
  have within : ids.toFinset.biUnion span ⊆ Finset.Ico a b := by
    intro x mem
    obtain ⟨i, memI, memX⟩ := Finset.mem_biUnion.mp mem
    have bounds := inside i (List.mem_toFinset.mp memI)
    rw [Finset.mem_Ico] at memX ⊢
    omega
  have disjoint : ∀ i ∈ ids.toFinset, ∀ j ∈ ids.toFinset, i ≠ j → Disjoint (span i) (span j) := by
    intro i memI j memJ ne
    have far := apart i (List.mem_toFinset.mp memI) j (List.mem_toFinset.mp memJ) ne
    refine Finset.disjoint_left.mpr fun x memX memX' => ?_
    rw [Finset.mem_Ico] at memX memX'
    omega
  have card := Finset.card_le_card within
  rw [Finset.card_biUnion disjoint, Nat.card_Ico] at card
  rw [← List.sum_toFinset len nodup]
  simpa [span] using card

section Heaps
variable {base : Nat} {s : Replay} {data : Nat → List UInt8} {h : Heap}

/-- The live payloads lie apart behind the `MM_Data` area. -/
theorem Follows.bytes_le (follows : Follows base s data h) :
    s.bytes + mmDataSize ≤ h.memBrk - h.memStartBrk := by
  have most : s.bytes ≤ h.memBrk - (h.memStartBrk + mmDataSize) :=
    sum_length_le follows.nodup (fun id mem => (follows.placed mem).2) fun i memI j memJ => follows.apart memI memJ
  have bounds := follows.inv.rep.chain.bounds
  unfold Heap.last mmDataSize at *
  simp only at bounds
  omega

theorem Follows.heapsize (follows : Follows base s data h) : h.memBrk - h.memStartBrk = s.heapsize base := by
  have last := follows.inv.last_eq
  have first := follows.inv.first
  have bounds := follows.inv.rep.chain.bounds
  unfold Replay.heapsize Replay.brk
  unfold Heap.last Heap.first mmHeaderSize mmDataSize at *
  simp only at last first bounds
  omega

end Heaps

/-- The state of the driver between two requests of a measurement. -/
structure Served (base numIds : Nat) (s : Replay) (d : Driver) : Prop where
  follows : ∃ data, Follows base s data d.heap
  small : ∀ id ∈ s.live, id < numIds
  blocks : ∀ id ∈ s.live, d.blocks id = some (s.blocks id)

/-- `eval_mm_util` also knows the sizes, and the heap has had room for all that it has counted. -/
structure Measured (base numIds : Nat) (s : Replay) (max : Nat) (d : Driver) : Prop extends Served base numIds s d where
  blockSizes : ∀ id ∈ s.live, d.blockSizes id = some (s.sizes id)
  most : s.bytes ≤ max
  counted : max + mmDataSize ≤ d.heap.memBrk - d.heap.memStartBrk

section Steps
variable {base numIds id p n : Nat} {s : Replay} {d : Driver} {live live' : List Nat} {size : Int} {op : TraceOp}
  {ops : List TraceOp} {best : Nat} {data : Nat → List UInt8} {h : Heap}

theorem update_stored {f : Nat → Option Nat} {g : Nat → Nat} (stored : ∀ i ∈ live, f i = some (g i))
    (sub : live' ⊆ live) : ∀ i ∈ id :: live', Function.update f id (some n) i = some (Function.update g id n i) := by
  intro i mem
  rcases eq_or_ne i id with rfl | ne
  · rw [Function.update_self, Function.update_self]
  · rw [Function.update_of_ne ne, Function.update_of_ne ne]
    exact stored i (sub ((List.mem_cons.mp mem).resolve_left ne))

/-- A block has been handed out and stored. -/
theorem Served.assign {d' : Driver} (served : Served base numIds s d) (kind : op.type ≠ .free)
    (small : op.index < numIds) (follows : Follows base (s.next base op) data d'.heap)
    (stored : d'.blocks = Function.update d.blocks op.index (some ((s.next base op).blocks op.index))) :
    Served base numIds (s.next base op) d' := by
  obtain ⟨type, id, size⟩ := op
  cases type with
  | alloc =>
    have here : (s.next base ⟨.alloc, id, size⟩).blocks id = (serve base s.segs _).2 := Function.update_self _ _ _
    rw [here] at stored
    refine ⟨⟨data, follows⟩, List.forall_mem_cons.mpr ⟨small, served.small⟩, ?_⟩
    exact stored ▸ update_stored served.blocks (List.Subset.refl _)
  | realloc =>
    have here : (s.next base ⟨.realloc, id, size⟩).blocks id = (serve base s.segs _).2 := Function.update_self _ _ _
    rw [here] at stored
    have others : ∀ i ∈ s.live.erase id, i < numIds := fun i mem => served.small i (List.mem_of_mem_erase mem)
    refine ⟨⟨data, follows⟩, List.forall_mem_cons.mpr ⟨small, others⟩, ?_⟩
    exact stored ▸ update_stored served.blocks List.erase_subset
  | free => exact absurd rfl kind

theorem Served.release (served : Served base numIds s d)
    (follows : Follows base (s.next base ⟨.free, id, size⟩) data h) :
    Served base numIds (s.next base ⟨.free, id, size⟩) { d with heap := h } :=
  ⟨⟨data, follows⟩, fun i mem => served.small i (List.mem_of_mem_erase mem),
    fun i mem => served.blocks i (List.mem_of_mem_erase mem)⟩

/-- One request of `eval_mm_speed`. -/
theorem Served.runs_speedOp (served : Served base numIds s d) (proper : op.Proper numIds s.live)
    (room : s.Room base op) : Runs (speedOp mmPackage numIds op) d fun _ d' =>
      Served base numIds (s.next base op) d' ∧ d'.errors = d.errors := by
  obtain ⟨type, id, size⟩ := op
  obtain ⟨data, follows⟩ := served.follows
  unfold speedOp
  cases type with
  | alloc =>
    obtain ⟨small, new, low, high⟩ : id < numIds ∧ id ∉ s.live ∧ 1 ≤ size ∧ size ≤ maxHeap := proper
    obtain ⟨_, h, call, rfl, bytes, follows⟩ := follows.runs_malloc new low high room
    have called : inPackage (mmPackage.malloc size) d = .ok _ { d with heap := h } := inPackage_run call
    have nonzero := follows.block_ne_zero List.mem_cons_self
    dsimp only
    rw [runs_bind, runs_of_run called, if_neg nonzero]
    exact ⟨(), _, storeBlock_eq_ok.mpr ⟨small, rfl⟩, served.assign OpType.noConfusion small follows rfl, rfl⟩
  | realloc =>
    obtain ⟨mem, low, high⟩ : id ∈ s.live ∧ 1 ≤ size ∧ size ≤ maxHeap := proper
    have small := served.small id mem
    obtain ⟨_, h, call, rfl, bytes, _, follows⟩ := follows.runs_realloc mem low high room
    have called : inPackage (mmPackage.realloc (s.blocks id) size) d = .ok _ { d with heap := h } := inPackage_run call
    have nonzero := follows.block_ne_zero List.mem_cons_self
    dsimp only
    rw [runs_bind, runs_of_run (loadBlock_eq_ok.mpr ⟨small, served.blocks id mem, rfl⟩), runs_bind, runs_of_run called,
      if_neg nonzero]
    exact ⟨(), _, storeBlock_eq_ok.mpr ⟨small, rfl⟩, served.assign OpType.noConfusion small follows rfl, rfl⟩
  | free =>
    have mem : id ∈ s.live := proper
    obtain ⟨_, h, call, follows⟩ : Runs (mmFree (s.blocks id)) d.heap fun _ h' =>
        Follows base (s.next base ⟨.free, id, size⟩) _ h' := follows.runs_free mem
    dsimp only
    rw [runs_bind, runs_of_run (loadBlock_eq_ok.mpr ⟨served.small id mem, served.blocks id mem, rfl⟩)]
    exact ⟨(), _, inPackage_run call, served.release follows, rfl⟩

/-- The update of `max_total_size`. -/
theorem mark_eq {a b : Nat} : (if (a : Int) < b then (b : Int) else a) = (max a b : Nat) := by
  split <;> omega

theorem bytes_alloc (new : id ∉ s.live) : (s.next base ⟨.alloc, id, size⟩).bytes = s.bytes + asSize size := by
  have others : s.live.map (Function.update s.sizes id (asSize size)) = s.live.map s.sizes :=
    List.map_congr_left fun i mem => Function.update_of_ne (ne_of_mem_of_not_mem mem new) _ _
  change ((id :: s.live).map (Function.update s.sizes id (asSize size))).sum = _
  rw [List.map_cons, others, List.sum_cons, Function.update_self, Nat.add_comm]
  rfl

theorem bytes_erase (mem : id ∈ s.live) : s.sizes id + ((s.live.erase id).map s.sizes).sum = s.bytes :=
  List.sum_map_erase s.sizes mem

theorem bytes_realloc (nodup : s.live.Nodup) (mem : id ∈ s.live) :
    (s.next base ⟨.realloc, id, size⟩).bytes + s.sizes id = s.bytes + asSize size := by
  have others : (s.live.erase id).map (Function.update s.sizes id (asSize size)) = (s.live.erase id).map s.sizes :=
    List.map_congr_left fun i mem => Function.update_of_ne (ne_of_mem_of_not_mem mem nodup.not_mem_erase) _ _
  have erased := bytes_erase mem
  change ((id :: s.live.erase id).map (Function.update s.sizes id (asSize size))).sum + _ = _
  rw [List.map_cons, others, List.sum_cons, Function.update_self]
  omega

theorem bytes_free (mem : id ∈ s.live) : s.sizes id + (s.next base ⟨.free, id, size⟩).bytes = s.bytes :=
  bytes_erase mem

/-- The new high water mark. -/
theorem Measured.advance {d' : Driver} (measured : Measured base numIds s best d)
    (served : Served base numIds (s.next base op) d')
    (sizes : ∀ id ∈ (s.next base op).live, d'.blockSizes id = some ((s.next base op).sizes id))
    (grows : d'.heap.memStartBrk = d.heap.memStartBrk ∧ d.heap.memBrk ≤ d'.heap.memBrk) :
    Measured base numIds (s.next base op) (max best (s.next base op).bytes) d' where
  toServed := served
  blockSizes := sizes
  most := le_max_right _ _
  counted := by
    obtain ⟨_, follows⟩ := served.follows
    have bytes := follows.bytes_le
    have counted := measured.counted
    omega

/-- One request of `eval_mm_util`. -/
theorem Measured.runs_utilOp (measured : Measured base numIds s best d) (proper : op.Proper numIds s.live)
    (room : s.Room base op) : Runs (utilOp mmPackage numIds op s.bytes best) d fun r d' =>
      r = (((s.next base op).bytes : Int), ((max best (s.next base op).bytes : Nat) : Int)) ∧
        Measured base numIds (s.next base op) (max best (s.next base op).bytes) d' ∧ d'.errors = d.errors := by
  obtain ⟨type, id, size⟩ := op
  have served := measured.toServed
  obtain ⟨data, follows⟩ := served.follows
  unfold utilOp
  cases type with
  | alloc =>
    obtain ⟨small, new, low, high⟩ : id < numIds ∧ id ∉ s.live ∧ 1 ≤ size ∧ size ≤ maxHeap := proper
    obtain ⟨_, h, call, rfl, bytes, follows⟩ := follows.runs_malloc new low high room
    have called : inPackage (mmPackage.malloc size) d = .ok _ { d with heap := h } := inPackage_run call
    have nonzero := follows.block_ne_zero List.mem_cons_self
    have total : (s.bytes : Int) + size = (s.next base ⟨.alloc, id, size⟩).bytes := by
      rw [bytes_alloc new, asSize_fits low high]
      omega
    dsimp only
    rw [runs_bind, runs_of_run called, if_neg nonzero, runs_bind,
      runs_of_run ((storeBlock_eq_ok (u := ())).mpr ⟨small, rfl⟩), runs_bind,
      runs_of_run ((storeBlockSize_eq_ok (u := ())).mpr ⟨small, rfl⟩), runs_pure, total]
    exact ⟨congrArg _ mark_eq, measured.advance (served.assign OpType.noConfusion small follows rfl)
      (update_stored measured.blockSizes (List.Subset.refl _)) (upward_mmMalloc.ok call), rfl⟩
  | realloc =>
    obtain ⟨mem, low, high⟩ : id ∈ s.live ∧ 1 ≤ size ∧ size ≤ maxHeap := proper
    have small := served.small id mem
    have bounds := follows.sizes id mem
    have old : asInt (s.sizes id) = s.sizes id := asInt_eq (by unfold maxHeap at bounds; omega)
    have total : (s.bytes : Int) + (size - s.sizes id) = (s.next base ⟨.realloc, id, size⟩).bytes := by
      have bytes : (s.next base ⟨.realloc, id, size⟩).bytes + _ = _ := bytes_realloc follows.nodup mem
      have fits := asSize_fits low high
      omega
    obtain ⟨_, h, call, rfl, bytes, _, follows⟩ := follows.runs_realloc mem low high room
    have called : inPackage (mmPackage.realloc (s.blocks id) size) d = .ok _ { d with heap := h } := inPackage_run call
    have nonzero := follows.block_ne_zero List.mem_cons_self
    dsimp only
    rw [runs_bind, runs_of_run (loadBlockSize_eq_ok.mpr ⟨small, measured.blockSizes id mem, rfl⟩), runs_bind,
      runs_of_run (loadBlock_eq_ok.mpr ⟨small, served.blocks id mem, rfl⟩), runs_bind, runs_of_run called,
      if_neg nonzero, runs_bind, runs_of_run ((storeBlock_eq_ok (u := ())).mpr ⟨small, rfl⟩), runs_bind,
      runs_of_run ((storeBlockSize_eq_ok (u := ())).mpr ⟨small, rfl⟩), runs_pure, old, total]
    exact ⟨congrArg _ mark_eq, measured.advance (served.assign OpType.noConfusion small follows rfl)
      (update_stored measured.blockSizes List.erase_subset) (upward_mmRealloc.ok call), rfl⟩
  | free =>
    have mem : id ∈ s.live := proper
    have small := served.small id mem
    have bounds := follows.sizes id mem
    have old : asInt (s.sizes id) = s.sizes id := asInt_eq (by unfold maxHeap at bounds; omega)
    have bytes : _ + (s.next base ⟨.free, id, size⟩).bytes = _ := bytes_free mem
    have most := measured.most
    have total : (s.bytes : Int) - s.sizes id = (s.next base ⟨.free, id, size⟩).bytes := by omega
    obtain ⟨_, h, call, follows⟩ : Runs (mmFree (s.blocks id)) d.heap fun _ h' =>
        Follows base (s.next base ⟨.free, id, size⟩) _ h' := follows.runs_free mem
    have called : inPackage (mmPackage.free (s.blocks id)) d = .ok _ { d with heap := h } := inPackage_run call
    dsimp only
    rw [runs_bind, runs_of_run (loadBlockSize_eq_ok.mpr ⟨small, measured.blockSizes id mem, rfl⟩), runs_bind,
      runs_of_run (loadBlock_eq_ok.mpr ⟨small, served.blocks id mem, rfl⟩), runs_bind, runs_of_run called, runs_pure,
      old, total]
    exact ⟨by rw [max_eq_left (by omega)], measured.advance (served.release follows)
      (fun i mem => measured.blockSizes i (List.mem_of_mem_erase mem)) (upward_mmFree.ok call), rfl⟩

theorem bytes_le_peak : s.bytes ≤ s.peak base ops := by
  cases ops with
  | nil => exact le_rfl
  | cons op rest => exact le_max_left _ _

theorem Measured.runs_utilOps (measured : Measured base numIds s best d) (proper : ProperFrom numIds s.live ops)
    (fits : s.Fits base ops) : Runs (utilOps mmPackage numIds ops s.bytes best) d fun m d' =>
      m = (max best (s.peak base ops) : Nat) ∧
        Measured base numIds (s.final base ops) (max best (s.peak base ops)) d' ∧ d'.errors = d.errors := by
  induction ops generalizing s best d with
  | nil =>
    have most : max best (s.peak base []) = best := max_eq_left measured.most
    rw [utilOps, runs_pure, most]
    exact ⟨rfl, measured, rfl⟩
  | cons op rest ih =>
    obtain ⟨_, mid, run, rfl, measured', errors⟩ := measured.runs_utilOp proper.1 fits.1
    rw [utilOps, runs_bind, runs_of_run run]
    have mark : max (max best (s.next base op).bytes) ((s.next base op).peak base rest) =
        max best (s.peak base (op :: rest)) := by
      have most := measured.most
      have later : (s.next base op).bytes ≤ (s.next base op).peak base rest := bytes_le_peak
      rw [Replay.peak]
      omega
    refine (ih measured' (Replay.next_live ▸ proper.2) fits.2).mono ?_
    rintro m d' ⟨rfl, measured'', errors'⟩
    rw [mark] at measured'' ⊢
    exact ⟨rfl, measured'', errors'.trans errors⟩

theorem Served.runs_speedOps (served : Served base numIds s d) (proper : ProperFrom numIds s.live ops)
    (fits : s.Fits base ops) : Runs (ops.forM (speedOp mmPackage numIds)) d fun _ d' =>
      Served base numIds (s.final base ops) d' ∧ d'.errors = d.errors := by
  induction ops generalizing s d with
  | nil => exact ⟨(), d, rfl, served, rfl⟩
  | cons op rest ih =>
    obtain ⟨_, mid, run, served', errors⟩ := served.runs_speedOp proper.1 fits.1
    change Runs (speedOp mmPackage numIds op >>= fun _ => rest.forM (speedOp mmPackage numIds)) _ _
    rw [runs_bind, runs_of_run run]
    refine (ih served' (Replay.next_live ▸ proper.2) fits.2).mono ?_
    rintro _ d' ⟨served'', errors'⟩
    exact ⟨served'', errors'.trans errors⟩

end Steps

section Traces
variable {base : Nat} {d : Driver} {trace : Trace}

theorem served_start {numIds : Nat} {data : Nat → List UInt8} (follows : Follows base .start data d.heap) :
    Served base numIds .start d :=
  ⟨⟨data, follows⟩, fun _ mem => absurd mem List.not_mem_nil, fun _ mem => absurd mem List.not_mem_nil⟩

theorem measured_start {numIds : Nat} {data : Nat → List UInt8} (follows : Follows base .start data d.heap) :
    Measured base numIds .start 0 d where
  toServed := served_start follows
  blockSizes _ mem := absurd mem List.not_mem_nil
  most := le_rfl
  counted := by
    have counted := follows.bytes_le
    change 0 + mmDataSize ≤ _ at counted
    exact counted

theorem Ready.runs_evalMmUtil (ready : Ready base d.heap) (proper : trace.Proper)
    (fits : Replay.start.Fits base trace.ops) :
    Runs (evalMmUtil mmPackage trace) d fun util d' =>
      util = ((Replay.start.peak base trace.ops : Int), (Replay.start.final base trace.ops).heapsize base) ∧
        Replay.start.peak base trace.ops + mmDataSize ≤ (Replay.start.final base trace.ops).heapsize base ∧
        (Replay.start.final base trace.ops).heapsize base ≤ maxHeap ∧
        (Replay.start.final base trace.ops).heapsize base = d'.heap.memBrk - d'.heap.memStartBrk ∧
        Ready base d'.heap ∧ d'.errors = d.errors := by
  obtain ⟨h, follows, start, init⟩ : ∃ h, Follows base .start (fun _ => []) h ∧ _ := ready.init
  have started : inPackage mmPackage.init { d with heap := { d.heap with memBrk := d.heap.memStartBrk } } =
      .ok 0 { d with heap := h } := inPackage_run init
  have measured : Measured base trace.numIds .start 0 { d with heap := h } := measured_start follows
  obtain ⟨_, d', run, rfl, measured', errors⟩ := measured.runs_utilOps proper fits
  obtain ⟨_, follows'⟩ := measured'.follows
  have heapsize := follows'.heapsize
  have counted := measured'.counted
  have peak : max 0 (Replay.start.peak base trace.ops) = Replay.start.peak base trace.ops := Nat.zero_max _
  have arena := follows'.inv.rep.chain.arena
  have limit := arena.limit
  have brk := arena.brk
  rw [peak, heapsize] at counted
  have reset : inPackage memResetBrk d = .ok () { d with heap := { d.heap with memBrk := d.heap.memStartBrk } } := rfl
  have run : utilOps mmPackage trace.numIds trace.ops 0 0 { d with heap := h } = .ok _ d' := run
  have size : inPackage memHeapsize d' = .ok (d'.heap.memBrk - d'.heap.memStartBrk) d' := rfl
  unfold evalMmUtil
  rw [runs_bind, runs_of_run reset, runs_bind, runs_of_run started, if_neg (by decide), runs_bind, runs_of_run run,
    runs_bind, runs_of_run size, runs_pure, heapsize, peak]
  refine ⟨rfl, counted, ?_, rfl, follows'.ready, errors⟩
  rw [← heapsize]
  simp only at limit brk
  omega

theorem Ready.runs_evalMmSpeed (ready : Ready base d.heap) (proper : trace.Proper)
    (fits : Replay.start.Fits base trace.ops) :
    Runs (evalMmSpeed mmPackage trace) d fun _ d' => Ready base d'.heap ∧ d'.errors = d.errors := by
  obtain ⟨h, follows, start, init⟩ : ∃ h, Follows base .start (fun _ => []) h ∧ _ := ready.init
  have started : inPackage mmPackage.init { d with heap := { d.heap with memBrk := d.heap.memStartBrk } } =
      .ok 0 { d with heap := h } := inPackage_run init
  have served : Served base trace.numIds .start { d with heap := h } := served_start follows
  have reset : inPackage memResetBrk d = .ok () { d with heap := { d.heap with memBrk := d.heap.memStartBrk } } := rfl
  unfold evalMmSpeed
  rw [runs_bind, runs_of_run reset, runs_bind, runs_of_run started, if_neg (by decide)]
  refine (served.runs_speedOps proper fits).mono ?_
  rintro _ d' ⟨⟨⟨_, follows'⟩, _, _⟩, errors⟩
  exact ⟨follows'.ready, errors⟩

theorem Ready.runs_fsecs (ready : Ready base d.heap) (proper : trace.Proper) (fits : Replay.start.Fits base trace.ops)
    (runs : Nat) : Runs (fsecs mmPackage trace runs) d fun _ d' => Ready base d'.heap ∧ d'.errors = d.errors := by
  induction runs generalizing d with
  | zero => exact ⟨(), d, rfl, ready, rfl⟩
  | succ runs ih =>
    obtain ⟨_, mid, run, ready', errors⟩ := ready.runs_evalMmSpeed proper fits
    rw [fsecs, runs_bind, runs_of_run run]
    refine (ih ready').mono ?_
    rintro _ d' ⟨ready'', errors'⟩
    exact ⟨ready'', errors'.trans errors⟩

/-- The peak is the largest number of live bytes at any point of the trace. -/
theorem isGreatest_peak {s : Replay} {ops : List TraceOp} :
    IsGreatest {n | ∃ done, done <+: ops ∧ n = (s.final base done).bytes} (s.peak base ops) := by
  induction ops generalizing s with
  | nil =>
    refine ⟨⟨[], List.prefix_refl [], rfl⟩, ?_⟩
    rintro n ⟨done, part, rfl⟩
    rw [List.prefix_nil.mp part]
    exact le_rfl
  | cons op rest ih =>
    obtain ⟨⟨done, part, at'⟩, above⟩ := ih (s := s.next base op)
    constructor
    · rcases le_total s.bytes ((s.next base op).peak base rest) with less | more
      · exact ⟨op :: done, List.cons_prefix_cons.mpr ⟨rfl, part⟩, (max_eq_right less).trans at'⟩
      · exact ⟨[], List.nil_prefix, max_eq_left more⟩
    · rintro n ⟨done, part, rfl⟩
      cases done with
      | nil => exact le_max_left _ _
      | cons first done =>
        obtain ⟨rfl, rest'⟩ := List.cons_prefix_cons.mp part
        exact le_max_of_le_right (above ⟨done, rest', rfl⟩)

/-- On every proper trace that fits, `eval_mm_util` divides the largest number of bytes that were live at any point by
the final size of the heap, and the result is below 1: at least the `MM_Data` area comes on top. -/
theorem util_peak (ready : Ready base d.heap) (proper : trace.Proper) (fits : Replay.start.Fits base trace.ops) :
    Runs (evalMmUtil mmPackage trace) d fun util d' =>
      (∃ peak : Nat, util.1 = peak ∧
        IsGreatest {n | ∃ done, done <+: trace.ops ∧ n = (Replay.start.final base done).bytes} peak ∧
        peak + mmDataSize ≤ util.2) ∧ util.2 = d'.heap.memBrk - d'.heap.memStartBrk ∧ util.2 ≤ maxHeap := by
  refine (ready.runs_evalMmUtil proper fits).mono ?_
  rintro _ d' ⟨rfl, less, most, size, _, _⟩
  exact ⟨⟨_, rfl, isGreatest_peak, less⟩, size, most⟩

theorem util_peak_sample : Runs (evalMmUtil mmPackage sampleTrace) (driverInit 8 fun _ => 0) fun util d' =>
    (∃ peak : Nat, util.1 = peak ∧
      IsGreatest {n | ∃ done, done <+: sampleTrace.ops ∧ n = (Replay.start.final 32 done).bytes} peak ∧
      peak + mmDataSize ≤ util.2) ∧ util.2 = d'.heap.memBrk - d'.heap.memStartBrk ∧ util.2 ≤ maxHeap :=
  util_peak (ready_driverInit (by decide) (by decide) (by decide)) (show sampleTrace.Proper by decide)
    (Replay.verdict_eq_passed.mp (by decide +kernel)).1

/-- The entry for a trace in `mm_stats`, as it follows from the policy. -/
def Trace.stats (base : Nat) (trace : Trace) : Option (Int × Nat) :=
  if Replay.start.verdict base trace.ops = .passed then
    some (Replay.start.peak base trace.ops, (Replay.start.final base trace.ops).heapsize base)
  else none

theorem Ready.runs_evalTrace (ready : Ready base d.heap) (proper : trace.Proper)
    (served : Replay.start.verdict base trace.ops ≠ .crashed) (runs tracenum : Nat) :
    Runs (evalTrace mmPackage runs tracenum trace) d fun stats d' =>
      stats = trace.stats base ∧ Ready base d'.heap ∧
        d'.errors = d.errors + if stats = none then 1 else 0 := by
  have outcome := Ready.outcome (d := { d with blocks := fun _ => none, blockSizes := fun _ => none }) ready proper
    tracenum
  unfold evalTrace
  rw [runs_bind, runs_modify, runs_bind]
  cases verdict : Replay.start.verdict base trace.ops with
  | passed =>
    rw [verdict] at outcome
    obtain ⟨_, mid, run, rfl, ready', errors⟩ := outcome
    have fits := (Replay.verdict_eq_passed.mp verdict).1
    obtain ⟨_, mid', run', rfl, _, _, _, ready'', errors'⟩ := ready'.runs_evalMmUtil proper fits
    rw [runs_of_run run, if_pos rfl, runs_bind, runs_of_run run', runs_bind]
    refine (ready''.runs_fsecs proper fits runs).mono ?_
    rintro _ d' ⟨ready3, errors''⟩
    rw [runs_pure, Trace.stats, if_pos verdict]
    exact ⟨rfl, ready3, errors''.trans (errors'.trans errors)⟩
  | failed =>
    rw [verdict] at outcome
    obtain ⟨_, mid, run, rfl, ready', errors⟩ := outcome
    rw [runs_of_run run, if_neg (by decide), runs_pure, Trace.stats, if_neg (by rw [verdict]; nofun)]
    exact ⟨rfl, ready', errors⟩
  | crashed => exact absurd verdict served

/-- The driver's loop over the traces: each entry of `mm_stats` follows from its own trace alone, whatever traces are
run before it and however often the timing repeats them, and one error is counted for each trace that fails. -/
theorem traces_independent (ready : Ready base d.heap) {traces : List Trace} (proper : ∀ t ∈ traces, t.Proper)
    (served : ∀ t ∈ traces, Replay.start.verdict base t.ops ≠ .crashed) (runs tracenum : Nat) :
    Runs (evalTraces mmPackage runs tracenum traces) d fun stats d' =>
      stats = traces.map (Trace.stats base) ∧ Ready base d'.heap ∧ d'.errors = d.errors + stats.count none := by
  induction traces generalizing d tracenum with
  | nil => exact ⟨[], d, rfl, rfl, ready, rfl⟩
  | cons trace rest ih =>
    obtain ⟨stats, mid, run, rfl, ready', errors⟩ := ready.runs_evalTrace (proper trace List.mem_cons_self)
      (served trace List.mem_cons_self) runs tracenum
    rw [evalTraces, runs_bind, runs_of_run run, runs_bind]
    refine (ih ready' (fun t mem => proper t (List.mem_cons_of_mem _ mem))
      (fun t mem => served t (List.mem_cons_of_mem _ mem)) (tracenum + 1)).mono ?_
    rintro all d' ⟨rfl, ready'', errors'⟩
    rw [runs_pure, errors', errors]
    refine ⟨rfl, ready'', ?_⟩
    rw [List.count_cons]
    simp only [beq_iff_eq]
    omega

theorem traces_independent_samples : Runs (evalTraces mmPackage 2 0 [sampleTrace, failingTrace, sampleTrace])
    (driverInit 8 fun _ => 0) fun stats d' =>
      stats = [sampleTrace, failingTrace, sampleTrace].map (Trace.stats 32) ∧ Ready 32 d'.heap ∧
        d'.errors = 0 + stats.count none :=
  traces_independent (ready_driverInit (by decide) (by decide) (by decide))
    (show ∀ t ∈ [sampleTrace, failingTrace, sampleTrace], t.Proper by decide) (by decide +kernel) 2 0

end Traces

end Splab.Malloc
