import Splab.Malloc.Driver
import Splab.Malloc.Locality

namespace Splab.Malloc

/-- What `add_range` asks for. -/
structure Driver.Accepts (d : Driver) (lo : Nat) (size : Int) : Prop where
  positive : 0 < size
  aligned : lo % 8 = 0
  low : d.heap.memStartBrk ≤ lo
  high : lo + size.toNat ≤ d.heap.memBrk
  free : ∀ p ∈ d.ranges, p.overlaps lo (lo + size.toNat - 1) = false

def Driver.track (d : Driver) (lo : Nat) (size : Int) : Driver :=
  { d with ranges := ⟨lo, lo + size.toNat - 1⟩ :: d.ranges }

/-- The state after an error. -/
def Driver.failed (d : Driver) (text : String) : Driver :=
  { d with errors := d.errors + 1, printed := d.printed ++ [text] }

/-- What the test for overlaps leaves: a newer range is apart from an older one or reaches beyond both of its ends. -/
def Range.Clear (newer older : Range) : Prop :=
  newer.hi < older.lo ∨ older.hi < newer.lo ∨ newer.lo < older.lo ∧ older.hi < newer.hi

/-- The ids that are live after a request, with the one allocated last first. -/
def TraceOp.liveIds (op : TraceOp) (live : List Nat) : List Nat :=
  match op.type with
  | .alloc => op.index :: live
  | .realloc => op.index :: live.erase op.index
  | .free => live.erase op.index

/-- A request that a trace may make when these ids are live. -/
def TraceOp.Proper (op : TraceOp) (numIds : Nat) (live : List Nat) : Prop :=
  match op.type with
  | .alloc => op.index < numIds ∧ op.index ∉ live ∧ 1 ≤ op.size ∧ op.size ≤ maxHeap
  | .realloc => op.index ∈ live ∧ 1 ≤ op.size ∧ op.size ≤ maxHeap
  | .free => op.index ∈ live

instance {numIds : Nat} {live : List Nat} : (op : TraceOp) → Decidable (op.Proper numIds live)
  | ⟨.alloc, _, _⟩ => inferInstanceAs (Decidable (_ ∧ _ ∧ _ ∧ _))
  | ⟨.realloc, _, _⟩ => inferInstanceAs (Decidable (_ ∧ _ ∧ _))
  | ⟨.free, _, _⟩ => inferInstanceAs (Decidable (_ ∈ _))

def ProperFrom (numIds : Nat) : List Nat → List TraceOp → Prop
  | _, [] => True
  | live, op :: rest => op.Proper numIds live ∧ ProperFrom numIds (op.liveIds live) rest

instance decideProperFrom {numIds : Nat} : (live : List Nat) → (ops : List TraceOp) →
    Decidable (ProperFrom numIds live ops)
  | _, [] => .isTrue trivial
  | live, op :: rest => @instDecidableAnd _ _ inferInstance (decideProperFrom (op.liveIds live) rest)

/-- The trace allocates no live id, frees and reallocates live ids only, and asks for sizes from 1 to `MAX_HEAP`. -/
def Trace.Proper (trace : Trace) : Prop := ProperFrom trace.numIds [] trace.ops

instance {trace : Trace} : Decidable trace.Proper := decideProperFrom [] trace.ops

def liveAfter (live : List Nat) (ops : List TraceOp) : List Nat := ops.foldl (fun live op => op.liveIds live) live

/-- The payload of an id, as the arrays of the trace have it. -/
def Driver.payload (d : Driver) (id : Nat) : Range :=
  let p := (d.blocks id).getD 0
  ⟨p, p + (d.blockSizes id).getD 0 - 1⟩

/-- The range list has the payloads of the live ids. -/
structure Tracked (numIds : Nat) (live : List Nat) (d : Driver) : Prop where
  mapped : 0 < d.heap.memStartBrk
  nodup : live.Nodup
  small : ∀ id ∈ live, id < numIds
  assigned : ∀ id ∈ live, d.blocks id ≠ none ∧ d.blockSizes id ≠ none
  ranges : d.ranges = live.map d.payload
  valid : ∀ r ∈ d.ranges, r.lo % 8 = 0 ∧ r.lo ≤ r.hi ∧ d.heap.memStartBrk ≤ r.lo ∧ r.hi < d.heap.memBrk
  clear : d.ranges.Pairwise Range.Clear

/-- A computation that returns has left the start of the heap where it was and has not moved the break downwards. -/
def Upward {α : Type} (x : Mm α) : Prop :=
  Ends (fun h h' => h'.memStartBrk = h.memStartBrk ∧ h.memBrk ≤ h'.memBrk) (fun _ _ _ => True) x

structure Package.Upward (pkg : Package) : Prop where
  init : Malloc.Upward pkg.init
  malloc : ∀ n, Malloc.Upward (pkg.malloc n)
  realloc : ∀ p n, Malloc.Upward (pkg.realloc p n)
  free : ∀ p, Malloc.Upward (pkg.free p)

section Primitives
variable {α : Type} {d d' : Driver} {x : Mm α} {a : α} {numIds index p n lo tracenum opnum : Nat} {size : Int}
  {r : Range}

theorem inPackage_eq_ok : inPackage x d = .ok a d' ↔ ∃ h, x d.heap = .ok a h ∧ d' = { d with heap := h } := by
  unfold inPackage
  cases run : x d.heap with
  | ok b h =>
    simp only [EStateM.Result.ok.injEq]
    exact ⟨fun ⟨same, final⟩ => ⟨h, ⟨same, rfl⟩, final.symm⟩, fun ⟨h', ⟨same, eq⟩, final⟩ => ⟨same, eq ▸ final.symm⟩⟩
  | error e h => simp only [reduceCtorEq, false_and, exists_false]

theorem inPackage_run {h : Heap} (run : x d.heap = .ok a h) : inPackage x d = .ok a { d with heap := h } :=
  inPackage_eq_ok.mpr ⟨h, run, rfl⟩

theorem loadEntry_eq_ok {array : Driver → Nat → Option Nat} :
    loadEntry array numIds index d = .ok n d' ↔ index < numIds ∧ array d index = some n ∧ d' = d := by
  unfold loadEntry
  by_cases small : index < numIds
  · rw [if_pos small, bind_get]
    cases array d index with
    | none => exact iff_of_false (fun run => by cases run) fun both => by cases both.2.1
    | some q =>
      simp only [small, true_and, Option.some.injEq]
      change EStateM.Result.ok q d = .ok n d' ↔ _
      simp only [EStateM.Result.ok.injEq]
      exact and_congr_right fun _ => eq_comm
  · rw [if_neg small]
    exact iff_of_false (fun run => by cases run) fun both => small both.1

theorem storeEntry_eq_ok {store : Driver → Driver} {u : Unit} :
    storeEntry store numIds index d = .ok u d' ↔ index < numIds ∧ d' = store d := by
  unfold storeEntry
  by_cases small : index < numIds
  · rw [if_pos small]
    exact ⟨fun run => ⟨small, by cases run; rfl⟩, fun both => by rw [both.2]; rfl⟩
  · rw [if_neg small]
    exact iff_of_false (fun run => by cases run) fun both => small both.1

theorem loadBlock_eq_ok : loadBlock numIds index d = .ok p d' ↔ index < numIds ∧ d.blocks index = some p ∧ d' = d :=
  loadEntry_eq_ok

theorem loadBlockSize_eq_ok :
    loadBlockSize numIds index d = .ok n d' ↔ index < numIds ∧ d.blockSizes index = some n ∧ d' = d :=
  loadEntry_eq_ok

theorem storeBlock_eq_ok {u : Unit} : storeBlock numIds index p d = .ok u d' ↔
    index < numIds ∧ d' = { d with blocks := Function.update d.blocks index (some p) } :=
  storeEntry_eq_ok

theorem storeBlockSize_eq_ok {u : Unit} : storeBlockSize numIds index n d = .ok u d' ↔
    index < numIds ∧ d' = { d with blockSizes := Function.update d.blockSizes index (some n) } :=
  storeEntry_eq_ok

/-- `add_range` keeps the range of an acceptable payload, and otherwise reports one error. -/
theorem addRange_run (mapped : 0 < d.heap.memStartBrk) (positive : 0 < size) :
    (d.Accepts lo size ∧ addRange lo size tracenum opnum d = .ok true (d.track lo size)) ∨
      ¬d.Accepts lo size ∧ ∃ text, addRange lo size tracenum opnum d = .ok false (d.failed text) := by
  unfold addRange
  rw [if_neg (not_le.mpr positive)]
  by_cases aligned : lo % 8 = 0
  · rw [if_neg (not_not.mpr aligned)]
    change _ ∧ (if lo < d.heap.memStartBrk ∨ d.heap.memBrk - 1 < lo ∨ lo + size.toNat - 1 < d.heap.memStartBrk ∨
        d.heap.memBrk - 1 < lo + size.toNat - 1 then _ else _ : Driving Bool) d = _ ∨
      _ ∧ ∃ text, (if lo < d.heap.memStartBrk ∨ d.heap.memBrk - 1 < lo ∨ lo + size.toNat - 1 < d.heap.memStartBrk ∨
        d.heap.memBrk - 1 < lo + size.toNat - 1 then _ else _ : Driving Bool) d = _
    by_cases outside : lo < d.heap.memStartBrk ∨ d.heap.memBrk - 1 < lo ∨ lo + size.toNat - 1 < d.heap.memStartBrk ∨
      d.heap.memBrk - 1 < lo + size.toNat - 1
    · rw [if_pos outside]
      refine .inr ⟨fun accepts => ?_, _, rfl⟩
      have low := accepts.low
      have high := accepts.high
      omega
    · rw [if_neg outside, bind_get]
      cases found : d.ranges.find? (·.overlaps lo (lo + size.toNat - 1)) with
      | none =>
        refine .inl ⟨⟨positive, aligned, by omega, by omega, fun p mem => ?_⟩, rfl⟩
        exact Bool.eq_false_iff.mpr (List.find?_eq_none.mp found p mem)
      | some p =>
        refine .inr ⟨fun accepts => ?_, _, rfl⟩
        have hit := List.find?_some found
        rw [accepts.free p (List.mem_of_find?_eq_some found)] at hit
        cases hit
  · rw [if_pos aligned]
    exact .inr ⟨fun accepts => aligned accepts.aligned, _, rfl⟩

theorem overlaps_eq_false (positive : 0 < n) :
    r.overlaps lo (lo + n - 1) = false ↔ Range.Clear ⟨lo, lo + n - 1⟩ r := by
  simp only [Range.overlaps, Range.Clear, Bool.or_eq_false_iff, Bool.and_eq_false_iff, decide_eq_false_iff_not]
  omega

end Primitives

section Tracking
variable {d d' : Driver} {numIds index p tracenum opnum : Nat} {live : List Nat} {size : Int} {msg : String} {r : Range}
  {pkg : Package} {op : TraceOp} {ops : List TraceOp} {h : Heap}

/-- Two ranges of the list never begin at the same address. -/
theorem Range.Clear.lo_ne {newer older : Range} (clear : newer.Clear older) (ordered : newer.lo ≤ newer.hi)
    (ordered' : older.lo ≤ older.hi) : newer.lo ≠ older.lo := by
  unfold Range.Clear at clear
  omega

/-- `remove_range` takes out the range of exactly one id. -/
theorem eraseP_payload {payload : Nat → Range} (nodup : live.Nodup) (mem : index ∈ live)
    (distinct : ∀ id ∈ live, id ≠ index → (payload id).lo ≠ (payload index).lo) :
    (live.map payload).eraseP (·.lo = (payload index).lo) = (live.erase index).map payload := by
  induction live with
  | nil => cases mem
  | cons id rest ih =>
    obtain ⟨outside, nodup⟩ := List.nodup_cons.mp nodup
    rcases eq_or_ne id index with rfl | ne
    · rw [List.map_cons, List.eraseP_cons_of_pos (by simp), List.erase_cons_head]
    · have other := distinct id List.mem_cons_self ne
      rw [List.map_cons, List.eraseP_cons_of_neg (by simpa using other), List.erase_cons_tail (by simpa using ne),
        List.map_cons, ih nodup ((List.mem_cons.mp mem).resolve_left ne.symm)
          fun id mem => distinct id (List.mem_cons_of_mem _ mem)]

theorem Tracked.distinct (tracked : Tracked numIds live d) (mem : index ∈ live) :
    ∀ id ∈ live, id ≠ index → (d.payload id).lo ≠ (d.payload index).lo := by
  have clear := tracked.clear
  have valid := tracked.valid
  rw [tracked.ranges, List.pairwise_map] at clear
  rw [tracked.ranges] at valid
  have ordered : ∀ id ∈ live, (d.payload id).lo ≤ (d.payload id).hi :=
    fun id mem => (valid _ (List.mem_map_of_mem mem)).2.1
  have both : live.Pairwise fun a b => (d.payload a).lo ≠ (d.payload b).lo :=
    clear.imp_of_mem fun memA memB clear => clear.lo_ne (ordered _ memA) (ordered _ memB)
  have nodup : (live.map fun id => (d.payload id).lo).Nodup := List.pairwise_map.mpr both
  exact fun id mem' ne same => ne (List.inj_on_of_nodup_map nodup mem' mem same)

/-- The heap may grow under the range list. -/
theorem Tracked.grow (tracked : Tracked numIds live d)
    (grows : h.memStartBrk = d.heap.memStartBrk ∧ d.heap.memBrk ≤ h.memBrk) :
    Tracked numIds live { d with heap := h } where
  mapped := tracked.mapped.trans_eq grows.1.symm
  nodup := tracked.nodup
  small := tracked.small
  assigned := tracked.assigned
  ranges := tracked.ranges
  valid r mem := by
    obtain ⟨aligned, ordered, low, high⟩ := tracked.valid r mem
    exact ⟨aligned, ordered, grows.1.trans_le low, high.trans_le grows.2⟩
  clear := tracked.clear

theorem Tracked.remove (tracked : Tracked numIds live d) (mem : index ∈ live) (block : d.blocks index = some p) :
    removeRange p d = .ok () { d with ranges := (live.erase index).map d.payload } ∧
      Tracked numIds (live.erase index) { d with ranges := (live.erase index).map d.payload } := by
  have lo : (d.payload index).lo = p := by rw [Driver.payload, block]; rfl
  have erased := eraseP_payload tracked.nodup mem (tracked.distinct mem)
  have sub : ((live.erase index).map d.payload).Sublist d.ranges := by
    rw [tracked.ranges]
    exact (List.erase_sublist).map _
  refine ⟨?_, tracked.mapped, tracked.nodup.erase _, fun id mem => tracked.small id (List.mem_of_mem_erase mem),
    fun id mem => tracked.assigned id (List.mem_of_mem_erase mem), rfl, fun r mem => tracked.valid r (sub.subset mem),
    tracked.clear.sublist sub⟩
  rw [← erased, ← tracked.ranges, lo]
  rfl

/-- The payload that `add_range` has accepted becomes that of an id that is not live. -/
theorem Tracked.add (tracked : Tracked numIds live d) (new : index ∉ live) (small : index < numIds)
    (accepts : d.Accepts p size) (fits : asSize size = size.toNat) (same : h.memStartBrk = d.heap.memStartBrk)
    (brk : h.memBrk = d.heap.memBrk) :
    Tracked numIds (index :: live)
      { d.track p size with
        heap := h
        blocks := Function.update d.blocks index (some p)
        blockSizes := Function.update d.blockSizes index (some (asSize size)) } := by
  have positive := accepts.positive
  have payload : ∀ id ∈ live, Driver.payload
      { d.track p size with
        heap := h
        blocks := Function.update d.blocks index (some p)
        blockSizes := Function.update d.blockSizes index (some (asSize size)) } id = d.payload id := by
    intro id mem
    have ne : id ≠ index := fun same => new (same ▸ mem)
    simp only [Driver.payload, Function.update_of_ne ne]
  refine ⟨tracked.mapped.trans_eq same.symm, List.nodup_cons.mpr ⟨new, tracked.nodup⟩, ?_, ?_, ?_, ?_, ?_⟩
  · exact fun id mem => (List.mem_cons.mp mem).elim (fun eq => eq ▸ small) (tracked.small id)
  · intro id mem
    rcases eq_or_ne id index with rfl | ne
    · simp
    · simp only [Function.update_of_ne ne]
      exact tracked.assigned id ((List.mem_cons.mp mem).resolve_left ne)
  · rw [List.map_cons, List.map_congr_left payload, ← tracked.ranges]
    simp only [Driver.track, Driver.payload, Function.update_self, Option.getD_some, fits]
  · intro r mem
    rcases List.mem_cons.mp mem with rfl | mem
    · have low := accepts.low
      have high := accepts.high
      refine ⟨accepts.aligned, ?_, same.trans_le low, ?_⟩
      · simp only
        omega
      · simp only [brk]
        omega
    · obtain ⟨aligned, ordered, low, high⟩ := tracked.valid r mem
      exact ⟨aligned, ordered, same.trans_le low, high.trans_eq brk.symm⟩
  · refine List.pairwise_cons.mpr ⟨fun r mem => ?_, tracked.clear⟩
    exact (overlaps_eq_false (by omega)).mp (accepts.free r mem)

theorem asSize_fits (low : 1 ≤ size) (high : size ≤ maxHeap) : asSize size = size.toNat := by
  unfold maxHeap at high
  unfold asSize
  omega

theorem preserved_keeps {newp j left : Nat} {b : Bool} (run : preserved newp index j left d = .ok b d') : d' = d := by
  induction left generalizing j with
  | zero =>
    cases run
    rfl
  | succ left ih =>
    obtain ⟨byte, mid, load, rest⟩ := bind_eq_ok.mp run
    obtain ⟨h', loaded, rfl⟩ := inPackage_eq_ok.mp load
    have same : h' = d.heap := by
      obtain ⟨g, _, here, load⟩ := bind_eq_ok.mp loaded
      cases here
      split at load
      · cases load
        rfl
      · cases load
    subst same
    split at rest
    · cases rest
      rfl
    · exact ih rest

/-- What the driver does with a payload that has passed the tests. -/
def record (numIds p index : Nat) (size : Int) : Driving Bool := do
  fill p index (asSize size)
  storeBlock numIds index p
  storeBlockSize numIds index (asSize size)
  return true

theorem Tracked.accept (tracked : Tracked numIds live d) (new : index ∉ live) (small : index < numIds)
    (low : 1 ≤ size) (high : size ≤ maxHeap) {mid : Driver}
    (add : addRange p size tracenum opnum d = .ok true mid) :
    (record numIds p index size mid = .ok true d' → Tracked numIds (index :: live) d') ∧
      d.Accepts p size ∧ mid = d.track p size := by
  rcases @addRange_run d p tracenum opnum size tracked.mapped (by omega) with ⟨accepts, kept⟩ | ⟨_, _, other⟩
  · cases add.symm.trans kept
    refine ⟨fun store => ?_, accepts, rfl⟩
    obtain ⟨_, _, call, store⟩ := bind_eq_ok.mp store
    obtain ⟨h', filled, rfl⟩ := inPackage_eq_ok.mp call
    obtain ⟨_, _, block, store'⟩ := bind_eq_ok.mp store
    obtain ⟨_, rfl⟩ := storeBlock_eq_ok.mp block
    obtain ⟨_, _, blockSize, store''⟩ := bind_eq_ok.mp store'
    obtain ⟨_, rfl⟩ := storeBlockSize_eq_ok.mp blockSize
    cases store''
    have fixed := local_mmMemsetLoop.ok filled
    exact tracked.add new small accepts (asSize_fits low high) fixed.start fixed.brk
  · cases add.symm.trans other

/-- A request that passes all tests keeps the range list in step with the live ids. -/
theorem Tracked.validOp (tracked : Tracked numIds live d) (upward : pkg.Upward) (proper : op.Proper numIds live)
    {i : Nat} (run : validOp pkg numIds tracenum i op d = .ok true d') : Tracked numIds (op.liveIds live) d' := by
  obtain ⟨type, index, size⟩ := op
  cases type with
  | alloc =>
    obtain ⟨small, new, low, high⟩ := proper
    obtain ⟨p, _, call, run⟩ := bind_eq_ok.mp run
    obtain ⟨h, made, rfl⟩ := inPackage_eq_ok.mp call
    have tracked := tracked.grow ((upward.malloc size).ok made)
    split at run
    · cases run
    · obtain ⟨added, mid, add, run⟩ := bind_eq_ok.mp run
      cases added with
      | false => cases run
      | true => exact (tracked.accept new small low high add).1 run
  | realloc =>
    obtain ⟨mem, low, high⟩ := proper
    obtain ⟨oldp, _, load, rest⟩ := bind_eq_ok.mp run
    obtain ⟨small, block, rfl⟩ := loadBlock_eq_ok.mp load
    obtain ⟨newp, _, call, rest⟩ := bind_eq_ok.mp rest
    obtain ⟨h, made, rfl⟩ := inPackage_eq_ok.mp call
    have tracked := tracked.grow ((upward.realloc oldp size).ok made)
    split at rest
    · cases rest
    · obtain ⟨_, _, remove, rest⟩ := bind_eq_ok.mp rest
      obtain ⟨removed, without⟩ := tracked.remove mem block
      cases remove.symm.trans removed
      obtain ⟨added, mid, add, rest⟩ := bind_eq_ok.mp rest
      cases added with
      | false => cases rest
      | true =>
        obtain ⟨oldsize, _, load', check⟩ := bind_eq_ok.mp rest
        obtain ⟨_, _, rfl⟩ := loadBlockSize_eq_ok.mp load'
        obtain ⟨same, _, kept, store⟩ := bind_eq_ok.mp check
        cases preserved_keeps kept
        cases same with
        | false => cases store
        | true => exact (without.accept (List.Nodup.not_mem_erase tracked.nodup) small low high add).1 store
  | free =>
    obtain ⟨p, _, load, rest⟩ := bind_eq_ok.mp run
    obtain ⟨small, block, rfl⟩ := loadBlock_eq_ok.mp load
    obtain ⟨_, _, remove, rest⟩ := bind_eq_ok.mp rest
    obtain ⟨removed, tracked⟩ := tracked.remove proper block
    cases remove.symm.trans removed
    obtain ⟨_, _, call, rest⟩ := bind_eq_ok.mp rest
    obtain ⟨h, made, rfl⟩ := inPackage_eq_ok.mp call
    cases rest
    exact tracked.grow ((upward.free p).ok made)

/-- The range list is empty before the first request. -/
theorem Tracked.initial (mapped : 0 < h.memStartBrk) :
    Tracked numIds [] { d with heap := h, ranges := [] } where
  mapped := mapped
  nodup := List.nodup_nil
  small _ mem := absurd mem List.not_mem_nil
  assigned _ mem := absurd mem List.not_mem_nil
  ranges := rfl
  valid _ mem := absurd mem List.not_mem_nil
  clear := List.Pairwise.nil

theorem Tracked.validOps (tracked : Tracked numIds live d) (upward : pkg.Upward) {i : Nat}
    (proper : ProperFrom numIds live ops) (run : validOps pkg numIds tracenum i ops d = .ok true d') :
    Tracked numIds (liveAfter live ops) d' := by
  induction ops generalizing i live d with
  | nil =>
    cases run
    exact tracked
  | cons op rest ih =>
    obtain ⟨passed, mid, first, run⟩ := bind_eq_ok.mp run
    cases passed with
    | false => cases run
    | true => exact ih (tracked.validOp upward proper.1 first) proper.2 run

end Tracking

section Upward
variable {ptr size : Nat}

set_option synthInstance.maxSize 8192

def upwardFrame : Frame Fault Heap where
  step h h' := h'.memStartBrk = h.memStartBrk ∧ h.memBrk ≤ h'.memBrk
  fault _ _ _ := True
  refl _ := ⟨rfl, le_rfl⟩
  throws _ _ := trivial
  trans one two := ⟨two.1.trans one.1, one.2.trans two.2⟩
  faults _ _ := trivial

instance : Frame.Wider upwardFrame where
  step fixed := ⟨fixed.start, fixed.brk.ge⟩
  fault _ := trivial

instance keeps_memSbrk {incr : Int} : upwardFrame.Keeps (memSbrk incr) := by
  refine ⟨fun h => ?_⟩
  by_cases full : incr < 0 ∨ (h.memMaxAddr : Int) < h.memBrk + incr
  · rw [memSbrk_failed full]
    exact ⟨rfl, le_rfl⟩
  · rw [memSbrk_moved full]
    exact ⟨rfl, Nat.le_add_right _ _⟩

instance keeps_mmSbrk : upwardFrame.Keeps (mmSbrk size) := by
  unfold mmSbrk
  infer_instance

instance keeps_mmInit : upwardFrame.Keeps mmInit := by
  unfold mmInit
  infer_instance

theorem Upward.of_keeps {α : Type} (x : Mm α) [keeps : upwardFrame.Keeps x] : Upward x := keeps.ends

theorem upward_mmMalloc : Upward (mmMalloc size) := .of_keeps _

theorem upward_mmFree : Upward (mmFree ptr) := .of_keeps _

theorem upward_mmRealloc : Upward (mmRealloc ptr size) := .of_keeps _

/-- Whatever state its heap is in, mm.c never gives memory back. -/
theorem upward_mmPackage : mmPackage.Upward where
  init := (keeps_mmInit.bind fun _ => keeps_pure).ends
  malloc _ := upward_mmMalloc
  realloc _ _ := upward_mmRealloc
  free _ := upward_mmFree

end Upward

/-- A package passes the test of the driver on a proper trace only with payloads that the test has found right: the
range list ends with one payload for each live id, aligned to 8 bytes and inside the heap, and a newer payload is
apart from an older one or strictly encloses it, which is the one overlap that `add_range` does not see. -/
theorem valid_payloads {pkg : Package} (upward : pkg.Upward) {d d' : Driver} (mapped : 0 < d.heap.memStartBrk)
    {trace : Trace} (proper : trace.Proper) {tracenum : Nat}
    (run : evalMmValid pkg trace tracenum d = .ok true d') :
    d'.ranges = (liveAfter [] trace.ops).map d'.payload ∧ (liveAfter [] trace.ops).Nodup ∧
      (∀ r ∈ d'.ranges, r.lo % 8 = 0 ∧ r.lo ≤ r.hi ∧ d'.heap.memStartBrk ≤ r.lo ∧ r.hi < d'.heap.memBrk) ∧
      d'.ranges.Pairwise Range.Clear := by
  obtain ⟨_, _, reset, run⟩ := bind_eq_ok.mp run
  cases reset
  obtain ⟨_, _, cleared, run⟩ := bind_eq_ok.mp run
  cases cleared
  obtain ⟨r, _, call, run⟩ := bind_eq_ok.mp run
  obtain ⟨h, made, rfl⟩ := inPackage_eq_ok.mp call
  split at run
  · cases run
  · have start := (upward.init.ok made).1
    have tracked := Tracked.validOps (Tracked.initial (mapped.trans_eq start.symm)) upward proper run
    exact ⟨tracked.ranges, tracked.nodup, tracked.valid, tracked.clear⟩

theorem valid_payloads_small :
    let trace : Trace := ⟨3, [⟨.alloc, 0, 8⟩, ⟨.alloc, 1, 24⟩, ⟨.alloc, 2, 16⟩, ⟨.realloc, 0, 40⟩, ⟨.free, 1, 0⟩]⟩
    let last := finalState (evalMmValid mmPackage trace 0 (driverInit 8 fun _ => 0))
    last.ranges = [0, 2].map last.payload ∧ [0, 2].Nodup ∧
      (∀ r ∈ last.ranges, r.lo % 8 = 0 ∧ r.lo ≤ r.hi ∧ last.heap.memStartBrk ≤ r.lo ∧ r.hi < last.heap.memBrk) ∧
      last.ranges.Pairwise Range.Clear :=
  valid_payloads upward_mmPackage (show 0 < 8 by decide) (show Trace.Proper ⟨3, [⟨.alloc, 0, 8⟩, ⟨.alloc, 1, 24⟩,
    ⟨.alloc, 2, 16⟩, ⟨.realloc, 0, 40⟩, ⟨.free, 1, 0⟩]⟩ by decide) (run_of_returned (by decide +kernel))

end Splab.Malloc
