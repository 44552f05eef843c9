import Splab.Malloc.Replays

namespace Splab.Malloc

/-- A reallocation of an id whose low byte does not fit a `char`. -/
def TraceOp.Signed (op : TraceOp) : Prop := op.type = .realloc ∧ 2 ^ 7 ≤ lowByte op.index

instance {op : TraceOp} : Decidable op.Signed := inferInstanceAs (Decidable (_ ∧ _))

instance {base : Nat} {s : Replay} {op : TraceOp} : Decidable (s.Room base op) := inferInstanceAs (Decidable (_ ≤ _))

inductive Verdict
  | passed
  | failed
  | crashed
  deriving DecidableEq

/-- How the test of the driver ends for mm.c: the first request that finds no room crashes it, and the first
reallocation of an id whose low byte is negative as a `char` fails it. -/
def Replay.verdict (base : Nat) : Replay → List TraceOp → Verdict
  | _, [] => .passed
  | s, op :: rest =>
    if ¬s.Room base op then .crashed
    else if op.Signed then .failed
    else (s.next base op).verdict base rest

/-- What the verdict says about a run of the test. -/
def Verdict.Outcome (base : Nat) (x : Driving Bool) (d : Driver) : Verdict → Prop
  | .passed => Runs x d fun ok d' => ok = true ∧ Ready base d'.heap ∧ d'.errors = d.errors
  | .failed => Runs x d fun ok d' => ok = false ∧ Ready base d'.heap ∧ d'.errors = d.errors + 1
  | .crashed => ∃ d', x d = .error (.package (.segv 0xFFFFFFFB)) d' ∧ d'.heap.errno = ENOMEM

/-- The byte that the driver fills the block of an id with. -/
def fillByte (id : Nat) : UInt8 := UInt8.ofNat (lowByte id)

/-- The state of the driver between two requests that mm.c has served. -/
structure Checked (base numIds : Nat) (s : Replay) (d : Driver) : Prop where
  follows : Follows base s (fun id => List.replicate (s.sizes id) (fillByte id)) d.heap
  tracked : Tracked numIds s.live d
  stored : ∀ id ∈ s.live, d.blocks id = some (s.blocks id) ∧ d.blockSizes id = some (s.sizes id)

theorem runs_inPackage {α : Type} {x : Mm α} {d : Driver} {Q : α → Driver → Prop} :
    Runs (inPackage x) d Q ↔ Runs x d.heap fun a h => Q a { d with heap := h } := by
  constructor
  · rintro ⟨a, d', run, post⟩
    obtain ⟨h, made, rfl⟩ := inPackage_eq_ok.mp run
    exact ⟨a, h, made, post⟩
  · rintro ⟨a, h, made, post⟩
    exact ⟨a, _, inPackage_run made, post⟩

theorem inPackage_error {α : Type} {x : Mm α} {d : Driver} {e : Fault} {h : Heap} (run : x d.heap = .error e h) :
    inPackage x d = .error (.package e) { d with heap := h } := by
  unfold inPackage
  rw [run]

section Bytes
variable {d : Driver} {id newp j left : Nat}

/-- The byte that was filled in reads back as another value exactly if it is negative as a `char`. -/
theorem charValue_fillByte : charValue (fillByte id) = lowByte id ↔ lowByte id < 2 ^ 7 := by
  have bound : lowByte id < 256 := Nat.mod_lt id (by decide)
  have byte : (fillByte id).toNat = lowByte id := by
    rw [fillByte, UInt8.toNat_ofNat']
    exact Nat.mod_eq_of_lt bound
  unfold charValue
  rw [byte, Int.bmod_def]
  generalize lowByte id = b at bound
  split <;> omega

/-- The old bytes are found to be preserved if the low byte of the id is not negative as a `char`. -/
theorem runs_preserved (low : d.heap.memStartBrk ≤ newp) (high : newp + j + left ≤ d.heap.memBrk)
    (bytes : ∀ i, j ≤ i → i < j + left → d.heap.bytes (newp + i) = fillByte id) :
    Runs (preserved newp id j left) d fun ok d' => d' = d ∧ (ok = true ↔ left = 0 ∨ lowByte id < 2 ^ 7) := by
  induction left generalizing j with
  | zero =>
    rw [preserved, runs_pure]
    exact ⟨rfl, iff_of_true rfl (.inl rfl)⟩
  | succ left ih =>
    rw [preserved, runs_bind, runs_inPackage, runs_loadByte (by unfold Heap.Within; omega),
      bytes j le_rfl (by omega)]
    by_cases sign : lowByte id < 2 ^ 7
    · rw [if_neg (not_not.mpr (charValue_fillByte.mpr sign))]
      refine (ih (by omega) fun i above below => bytes i (by omega) (by omega)).mono ?_
      rintro ok d' ⟨rfl, passed⟩
      exact ⟨rfl, passed.trans (iff_of_true (.inr sign) (.inr sign))⟩
    · rw [if_pos fun same => sign (charValue_fillByte.mp same), runs_pure]
      exact ⟨rfl, iff_of_false Bool.false_ne_true (by omega)⟩

end Bytes

section Steps
variable {base numIds id k i : Nat} {s s' : Replay} {d d' : Driver} {data data' : Nat → List UInt8} {live : List Nat}
  {size : Int} {op : TraceOp} {ops : List TraceOp} {h : Heap}

theorem Follows.congr (follows : Follows base s data h) (same : ∀ id ∈ s.live, data' id = data id) :
    Follows base s data' h where
  inv := by
    have blocks : s.live.map (s.block data') = s.live.map (s.block data) :=
      List.map_congr_left fun id mem => by rw [Replay.block, same id mem, Replay.block]
    rw [blocks]
    exact follows.inv
  nodup := follows.nodup
  length id mem := by rw [same id mem, follows.length id mem]
  sizes := follows.sizes

/-- mm.c returns payloads that pass all tests of `add_range`. -/
theorem Follows.accepts (follows : Follows base s data d.heap) (live_eq : s.live = id :: live)
    (ranges : d.ranges = live.map d.payload)
    (stored : ∀ i ∈ live, d.blocks i = some (s.blocks i) ∧ d.blockSizes i = some (s.sizes i))
    (fits : s.sizes id = size.toNat) : d.Accepts (s.blocks id) size := by
  have mem : id ∈ s.live := live_eq ▸ List.mem_cons_self
  obtain ⟨aligned, low, high⟩ := follows.placed mem
  have positive := (follows.sizes id mem).1
  refine ⟨by omega, by omega, by omega, by omega, fun r inside => ?_⟩
  rw [ranges] at inside
  obtain ⟨i, memI, rfl⟩ := List.mem_map.mp inside
  have memI' : i ∈ s.live := live_eq ▸ List.mem_cons_of_mem _ memI
  have other : id ≠ i := by
    rintro rfl
    exact (List.nodup_cons.mp (live_eq ▸ follows.nodup)).1 memI
  have apart := follows.apart mem memI' other
  have positiveI := (follows.sizes i memI').1
  obtain ⟨block, blockSize⟩ := stored i memI
  rw [overlaps_eq_false (by omega), Driver.payload, block, blockSize]
  simp only [Range.Clear, Option.getD_some]
  omega

/-- The driver records a block that mm.c has handed out. -/
theorem Checked.place (follows : Follows base s data d.heap) (live_eq : s.live = id :: live)
    (tracked : Tracked numIds live d)
    (stored : ∀ i ∈ live, d.blocks i = some (s.blocks i) ∧ d.blockSizes i = some (s.sizes i))
    (filled : ∀ i ∈ live, data i = List.replicate (s.sizes i) (fillByte i)) (small : id < numIds)
    (low : 1 ≤ size) (high : size ≤ maxHeap) (fits : s.sizes id = asSize size) :
    addRange (s.blocks id) size k i d = .ok true (d.track (s.blocks id) size) ∧
      Runs (record numIds (s.blocks id) id size) (d.track (s.blocks id) size) fun ok d' =>
        ok = true ∧ Checked base numIds s d' ∧ d'.errors = d.errors ∧ d'.printed = d.printed := by
  have mem : id ∈ s.live := live_eq ▸ List.mem_cons_self
  have new : id ∉ live := (List.nodup_cons.mp (live_eq ▸ follows.nodup)).1
  have accepts := follows.accepts live_eq tracked.ranges stored (fits.trans (asSize_fits low high))
  rcases @addRange_run d (s.blocks id) k i size tracked.mapped (by omega) with ⟨_, run⟩ | ⟨refused, _⟩
  · refine ⟨run, ?_⟩
    have fill := follows.runs_fill mem (c := fillByte id)
    rw [fits] at fill
    obtain ⟨_, h, filling, follows'⟩ := fill
    have recorded : record numIds (s.blocks id) id size (d.track (s.blocks id) size) = .ok true
        { d.track (s.blocks id) size with
          heap := h
          blocks := Function.update d.blocks id (some (s.blocks id))
          blockSizes := Function.update d.blockSizes id (some (asSize size)) } := by
      have bytes : fill (s.blocks id) id (asSize size) (d.track (s.blocks id) size) =
          .ok () { d.track (s.blocks id) size with heap := h } := inPackage_run filling
      rw [record, bind_run, bytes]
      simp only
      rw [bind_run, (storeBlock_eq_ok (u := ())).mpr ⟨small, rfl⟩]
      simp only
      rw [bind_run, (storeBlockSize_eq_ok (u := ())).mpr ⟨small, rfl⟩]
      rfl
    have kept := (tracked.accept new small low high run).1 recorded
    rw [runs_of_run recorded]
    refine ⟨rfl, ⟨follows'.congr fun i mem => ?_, live_eq ▸ kept, fun i mem => ?_⟩, rfl, rfl⟩
    · rcases eq_or_ne i id with rfl | ne
      · rw [Function.update_self, fits]
      · rw [Function.update_of_ne ne, filled i ((List.mem_cons.mp (live_eq ▸ mem)).resolve_left ne)]
    · rcases eq_or_ne i id with rfl | ne
      · simp only [Function.update_self, fits, and_self]
      · simp only [Function.update_of_ne ne]
        exact stored i ((List.mem_cons.mp (live_eq ▸ mem)).resolve_left ne)
  · exact absurd accepts refused

/-- What one round of the driver's loop comes to for mm.c. -/
def Round (base numIds : Nat) (s : Replay) (op : TraceOp) (d : Driver) (ok : Bool) (d' : Driver) : Prop :=
  if op.Signed then ok = false ∧ Ready base d'.heap ∧ d'.errors = d.errors + 1
  else ok = true ∧ Checked base numIds (s.next base op) d' ∧ d'.errors = d.errors

theorem Checked.runs_alloc (checked : Checked base numIds s d)
    (proper : TraceOp.Proper ⟨.alloc, id, size⟩ numIds s.live) (room : s.Room base ⟨.alloc, id, size⟩) :
    Runs (validOp mmPackage numIds k i ⟨.alloc, id, size⟩) d (Round base numIds s ⟨.alloc, id, size⟩ d) := by
  obtain ⟨small, new, low, high⟩ := proper
  obtain ⟨p, h, call, ptr, bytes, follows⟩ := checked.follows.runs_malloc new low high room
  have called : inPackage (mmPackage.malloc size) d = .ok p { d with heap := h } := inPackage_run call
  have tracked := checked.tracked.grow (upward_mmMalloc.ok call)
  have nonzero : p ≠ 0 := ptr ▸ follows.block_ne_zero List.mem_cons_self
  have others : ∀ i ∈ s.live, i ≠ id := fun i mem same => new (same ▸ mem)
  have placed := Checked.place (d := { d with heap := h }) (k := k) (i := i) follows rfl tracked (fun i mem => by
    simp only [Replay.next, Function.update_of_ne (others i mem)]
    exact checked.stored i mem) (fun i mem => by
    simp only [Replay.next, Function.update_of_ne (others i mem)]) small low high (Function.update_self _ _ _)
  rw [← ptr] at placed
  obtain ⟨added, _, d', recorded, rfl, checked', errors, _⟩ := placed
  unfold validOp
  dsimp only
  rw [runs_bind, runs_of_run called, if_neg nonzero, runs_bind, runs_of_run added, if_pos rfl]
  refine ⟨true, d', recorded, ?_⟩
  rw [Round, if_neg fun signed => OpType.noConfusion signed.1]
  exact ⟨rfl, checked', errors⟩

/-- The bytes that `mm_realloc` has kept. -/
theorem Follows.kept {bytes : List UInt8} {n m : Nat} {c : UInt8}
    (follows : Follows base s (Function.update data id bytes) h) (mem : id ∈ s.live)
    (copied : (List.replicate n c).take m <+: bytes) {j : Nat} (small : j < n) (small' : j < m) :
    h.bytes (s.blocks id + j) = c := by
  refine follows.inv.holds.stored _ (List.mem_map_of_mem mem) j c ?_
  have inside : j < ((List.replicate n c).take m).length := by
    rw [List.length_take, List.length_replicate]
    omega
  simp only [Replay.block, Function.update_self]
  rw [List.getElem?_eq_getElem (inside.trans_le copied.length_le), ← copied.getElem inside, List.getElem_take,
    List.getElem_replicate]

theorem Checked.runs_free (checked : Checked base numIds s d) (mem : id ∈ s.live) :
    Runs (validOp mmPackage numIds k i ⟨.free, id, size⟩) d (Round base numIds s ⟨.free, id, size⟩ d) := by
  obtain ⟨block, _⟩ := checked.stored id mem
  obtain ⟨removed, tracked⟩ := checked.tracked.remove mem block
  obtain ⟨_, h, call, follows⟩ : Runs (mmFree (s.blocks id)) d.heap fun _ h' =>
      Follows base (s.next base ⟨.free, id, size⟩) _ h' := checked.follows.runs_free mem
  have called : inPackage (mmPackage.free (s.blocks id)) { d with ranges := (s.live.erase id).map d.payload } =
      .ok () { d with heap := h, ranges := (s.live.erase id).map d.payload } := inPackage_run call
  unfold validOp
  dsimp only
  rw [runs_bind, runs_of_run (loadBlock_eq_ok.mpr ⟨checked.tracked.small id mem, block, rfl⟩), runs_bind,
    runs_of_run removed, runs_bind, runs_of_run called, runs_pure, Round,
    if_neg fun signed => OpType.noConfusion signed.1]
  have stored : ∀ i ∈ s.live.erase id, d.blocks i = some (s.blocks i) ∧ d.blockSizes i = some (s.sizes i) :=
    fun i mem => checked.stored i (List.mem_of_mem_erase mem)
  exact ⟨rfl, ⟨follows, tracked.grow (upward_mmFree.ok call), stored⟩, rfl⟩

theorem Checked.runs_realloc (checked : Checked base numIds s d)
    (proper : TraceOp.Proper ⟨.realloc, id, size⟩ numIds s.live) (room : s.Room base ⟨.realloc, id, size⟩) :
    Runs (validOp mmPackage numIds k i ⟨.realloc, id, size⟩) d (Round base numIds s ⟨.realloc, id, size⟩ d) := by
  obtain ⟨mem, low, high⟩ : id ∈ s.live ∧ 1 ≤ size ∧ size ≤ maxHeap := proper
  have small := checked.tracked.small id mem
  obtain ⟨block, blockSize⟩ := checked.stored id mem
  have bounds := checked.follows.sizes id mem
  obtain ⟨p, h, call, ptr, bytes, copied, follows⟩ := checked.follows.runs_realloc mem low high room
  have called : inPackage (mmPackage.realloc (s.blocks id) size) d = .ok p { d with heap := h } := inPackage_run call
  have live : id ∈ (s.next base ⟨.realloc, id, size⟩).live := List.mem_cons_self
  have nonzero : p ≠ 0 := ptr ▸ follows.block_ne_zero live
  obtain ⟨removed, tracked⟩ : removeRange (s.blocks id) { d with heap := h } =
      .ok () { d with heap := h, ranges := (s.live.erase id).map d.payload } ∧ _ :=
    (checked.tracked.grow (upward_mmRealloc.ok call)).remove mem block
  have others : ∀ i ∈ s.live.erase id, i ≠ id := fun i mem same => checked.follows.nodup.not_mem_erase (same ▸ mem)
  have placed := Checked.place (d := { d with heap := h, ranges := (s.live.erase id).map d.payload }) (k := k) (i := i)
    follows rfl tracked (fun i mem => by
      simp only [Replay.next, Function.update_of_ne (others i mem)]
      exact checked.stored i (List.mem_of_mem_erase mem)) (fun i mem => by
      simp only [Replay.next, Function.update_of_ne (others i mem)]) small low high (Function.update_self _ _ _)
  rw [← ptr] at placed
  obtain ⟨added, _, d', recorded, rfl, checked', errors, _⟩ := placed
  have fits := asSize_fits low high
  have old : asInt (s.sizes id) = s.sizes id := asInt_eq (by unfold maxHeap at bounds; omega)
  have left : (if size < asInt (s.sizes id) then size else asInt (s.sizes id)).toNat =
      min (asSize size) (s.sizes id) := by
    rw [old, fits]
    split <;> omega
  have inside := (follows.placed live).2
  have grown : (s.next base ⟨.realloc, id, size⟩).sizes id = asSize size := Function.update_self _ _ _
  have loaded : loadBlockSize numIds id (Driver.track { d with heap := h, ranges := (s.live.erase id).map d.payload }
      p size) = .ok (s.sizes id) _ := loadBlockSize_eq_ok.mpr ⟨small, blockSize, rfl⟩
  have compared : Runs (preserved p id 0 (min (asSize size) (s.sizes id)))
      (Driver.track { d with heap := h, ranges := (s.live.erase id).map d.payload } p size) _ :=
    runs_preserved (by simp only [Driver.track]; omega) (by simp only [Driver.track]; omega) fun j _ below => ptr ▸
      follows.kept live copied (by omega) (by omega)
  obtain ⟨same, _, compare, rfl, passed⟩ := compared
  unfold validOp
  dsimp only
  rw [runs_bind, runs_of_run (loadBlock_eq_ok.mpr ⟨small, block, rfl⟩), runs_bind, runs_of_run called, if_neg nonzero,
    runs_bind, runs_of_run removed, runs_bind, runs_of_run added, if_pos rfl, runs_bind, runs_of_run loaded, left,
    runs_bind, runs_of_run compare]
  by_cases signed : 2 ^ 7 ≤ lowByte id
  · have differ : ¬same = true := by rw [passed]; omega
    rw [if_neg differ, runs_bind]
    refine ⟨(), _, rfl, false, _, rfl, ?_⟩
    rw [Round, if_pos ⟨rfl, signed⟩]
    exact ⟨rfl, follows.ready, rfl⟩
  · rw [if_pos (passed.mpr (.inr (by omega)))]
    refine ⟨true, d', recorded, ?_⟩
    rw [Round, if_neg fun both => signed both.2]
    exact ⟨rfl, checked', errors⟩

theorem Checked.runs_validOp (checked : Checked base numIds s d) (proper : op.Proper numIds s.live)
    (room : s.Room base op) : Runs (validOp mmPackage numIds k i op) d (Round base numIds s op d) := by
  obtain ⟨type, id, size⟩ := op
  cases type with
  | alloc => exact checked.runs_alloc proper room
  | realloc => exact checked.runs_realloc proper room
  | free => exact checked.runs_free proper

/-- A request that finds no room crashes the driver. -/
theorem Checked.crash (checked : Checked base numIds s d) (proper : op.Proper numIds s.live)
    (full : ¬s.Room base op) : ∃ d', validOp mmPackage numIds k i op d = .error (.package (.segv 0xFFFFFFFB)) d' ∧
      d'.heap.errno = ENOMEM := by
  obtain ⟨type, id, size⟩ := op
  cases type with
  | alloc =>
    obtain ⟨h, call, errno⟩ := checked.follows.exhausted_malloc full
    have called : inPackage (mmPackage.malloc size) d = .error _ { d with heap := h } := inPackage_error call
    refine ⟨{ d with heap := h }, ?_, errno⟩
    unfold validOp
    dsimp only
    rw [bind_run, called]
  | realloc =>
    obtain ⟨mem, low, high⟩ : id ∈ s.live ∧ 1 ≤ size ∧ size ≤ maxHeap := proper
    obtain ⟨h, call, errno⟩ := checked.follows.exhausted_realloc mem low high full
    have called : inPackage (mmPackage.realloc (s.blocks id) size) d = .error _ { d with heap := h } :=
      inPackage_error call
    have loaded : loadBlock numIds id d = .ok (s.blocks id) d :=
      loadBlock_eq_ok.mpr ⟨checked.tracked.small id mem, (checked.stored id mem).1, rfl⟩
    refine ⟨{ d with heap := h }, ?_, errno⟩
    unfold validOp
    dsimp only
    rw [bind_run, loaded]
    dsimp only
    rw [bind_run, called]
  | free => exact absurd checked.follows.room_free full

/-- An outcome depends on the run only. -/
theorem Verdict.Outcome.of_eq {v : Verdict} {x y : Driving Bool} (outcome : v.Outcome base y d') (same : x d = y d')
    (errors : d'.errors = d.errors) : v.Outcome base x d := by
  cases v <;> simp only [Outcome, Runs, same, ← errors] at outcome ⊢ <;> exact outcome

theorem Replay.next_live : (s.next base op).live = op.liveIds s.live := by
  obtain ⟨type, id, size⟩ := op
  cases type <;> rfl

theorem Checked.validOps (checked : Checked base numIds s d) (proper : ProperFrom numIds s.live ops) :
    (s.verdict base ops).Outcome base (validOps mmPackage numIds k i ops) d := by
  induction ops generalizing s d i with
  | nil =>
    rw [Replay.verdict, Verdict.Outcome, Malloc.validOps, runs_pure]
    exact ⟨rfl, checked.follows.ready, rfl⟩
  | cons op rest ih =>
    rw [Replay.verdict]
    by_cases room : s.Room base op
    · rw [if_neg (not_not.mpr room)]
      obtain ⟨ok, mid, run, round⟩ := checked.runs_validOp (k := k) (i := i) proper.1 room
      by_cases signed : op.Signed
      · rw [Round, if_pos signed] at round
        obtain ⟨rfl, ready, errors⟩ := round
        rw [if_pos signed, Verdict.Outcome, Malloc.validOps, runs_bind, runs_of_run run]
        exact ⟨false, mid, rfl, rfl, ready, errors⟩
      · rw [Round, if_neg signed] at round
        obtain ⟨rfl, checked', errors⟩ := round
        have later := ih (i := i + 1) checked' (Replay.next_live ▸ proper.2)
        rw [if_neg signed]
        refine later.of_eq ?_ errors
        rw [Malloc.validOps, bind_run, run]
        rfl
    · rw [if_pos room]
      obtain ⟨d', crash, errno⟩ := checked.crash (k := k) (i := i) proper.1 room
      refine ⟨d', ?_, errno⟩
      rw [Malloc.validOps, bind_run, crash]

/-- A trace starts from nothing, whatever the one before it has left in the heap. -/
theorem Ready.init (ready : Ready base h) : ∃ h', Follows base .start data h' ∧ h'.memStartBrk = h.memStartBrk ∧
    mmPackage.init { h with memBrk := h.memStartBrk } = .ok 0 h' := by
  obtain ⟨_, h', run, rfl, follows, start⟩ : Runs mmInit { h with memBrk := h.memStartBrk } fun r h' =>
      r = 0 ∧ Follows base .start data h' ∧ h'.memStartBrk = h.memStartBrk := ready.runs_mmInit
  refine ⟨h', follows, start, ?_⟩
  change (mmInit >>= fun r => pure (r : Int) : Mm Int) _ = _
  rw [bind_run, run]
  rfl

end Steps

/-- On every proper trace the test of the driver ends for mm.c as `Replay.verdict` says. -/
theorem Ready.outcome {base : Nat} {d : Driver} (ready : Ready base d.heap) {trace : Trace} (proper : trace.Proper)
    (tracenum : Nat) :
    (Replay.start.verdict base trace.ops).Outcome base (evalMmValid mmPackage trace tracenum) d := by
  obtain ⟨h, follows, start, init⟩ := ready.init
  have checked : Checked base trace.numIds .start { d with heap := h, ranges := [] } :=
    ⟨follows, Tracked.initial (start ▸ ready.positive), fun id mem => absurd mem List.not_mem_nil⟩
  refine (checked.validOps (k := tracenum) (i := 0) proper).of_eq ?_ rfl
  have reset : inPackage mmPackage.init { d with heap := { d.heap with memBrk := d.heap.memStartBrk }, ranges := [] } =
      .ok 0 { d with heap := h, ranges := [] } := inPackage_run init
  change (inPackage mmPackage.init >>= _) _ = _
  rw [bind_run, reset]
  rfl

/-- Every request finds room. -/
def Replay.Fits (base : Nat) : Replay → List TraceOp → Prop
  | _, [] => True
  | s, op :: rest => s.Room base op ∧ (s.next base op).Fits base rest

theorem Replay.verdict_eq_passed {base : Nat} {s : Replay} {ops : List TraceOp} :
    s.verdict base ops = .passed ↔ s.Fits base ops ∧ ∀ op ∈ ops, ¬op.Signed := by
  induction ops generalizing s with
  | nil => simp [verdict, Fits]
  | cons op rest ih =>
    rw [verdict, Fits, List.forall_mem_cons]
    by_cases room : s.Room base op
    · rw [if_neg (not_not.mpr room)]
      by_cases signed : op.Signed
      · rw [if_pos signed]
        exact iff_of_false nofun fun both => both.2.1 signed
      · rw [if_neg signed, ih]
        exact ⟨fun both => ⟨⟨room, both.1⟩, signed, both.2⟩, fun both => ⟨both.1.2, both.2.2⟩⟩
    · rw [if_pos room]
      exact iff_of_false nofun fun both => room both.1.1

theorem Replay.Fits.not_crashed {base : Nat} {s : Replay} {ops : List TraceOp} (fits : s.Fits base ops) :
    s.verdict base ops ≠ .crashed := by
  induction ops generalizing s with
  | nil => exact nofun
  | cons op rest ih =>
    rw [verdict, if_neg (not_not.mpr fits.1)]
    split
    · exact nofun
    · exact ih fits.2

theorem ready_driverInit {start : Nat} {bytes : Bytes} (positive : 0 < start) (aligned : 8 ∣ start)
    (top : start + maxHeap < 2 ^ 32) : Ready (start + mmDataSize) (driverInit start bytes).heap where
  first := rfl
  positive := positive
  aligned := aligned
  limit := rfl
  top := top
  errno := rfl
  recorded _ mem := absurd mem List.not_mem_nil

/-- On a proper trace that fits, mm.c passes the test of the driver unless the trace reallocates an id whose low byte
is from 128 on. There the driver takes the bytes that mm.c has preserved for lost ones, as it compares a `char` with
the low byte. -/
theorem valid_iff {base : Nat} {d : Driver} (ready : Ready base d.heap) {trace : Trace} (proper : trace.Proper)
    (fits : Replay.start.Fits base trace.ops) (tracenum : Nat) :
    Runs (evalMmValid mmPackage trace tracenum) d fun ok d' =>
      (ok = true ↔ ∀ op ∈ trace.ops, ¬op.Signed) ∧ d'.errors = d.errors + if ok then 0 else 1 := by
  have outcome := ready.outcome proper tracenum
  have decided : Replay.start.verdict base trace.ops = .passed ↔ _ := Replay.verdict_eq_passed
  cases verdict : Replay.start.verdict base trace.ops with
  | passed =>
    rw [verdict] at outcome
    refine Runs.mono outcome ?_
    rintro _ d' ⟨rfl, _, errors⟩
    exact ⟨iff_of_true rfl (decided.mp verdict).2, errors⟩
  | failed =>
    rw [verdict] at outcome decided
    refine Runs.mono outcome ?_
    rintro _ d' ⟨rfl, _, errors⟩
    exact ⟨iff_of_false nofun fun clear => Verdict.noConfusion (decided.mpr ⟨fits, clear⟩), errors⟩
  | crashed => exact absurd verdict fits.not_crashed

theorem valid_iff_failing : Runs (evalMmValid mmPackage failingTrace 0) (driverInit 8 fun _ => 0) fun ok d' =>
    (ok = true ↔ ∀ op ∈ failingTrace.ops, ¬op.Signed) ∧ d'.errors = 0 + if ok then 0 else 1 :=
  valid_iff (ready_driverInit (by decide) (by decide) (by decide)) (show failingTrace.Proper by decide)
    ⟨by decide +kernel, by decide +kernel, trivial⟩ 0

end Splab.Malloc
