import Splab.Lib.Runs

namespace Splab.Malloc

/-- The contents of the simulated address space, byte by byte. Pointers of the
32-bit target are natural numbers below `2 ^ 32`, with 0 for `NULL`. -/
abbrev Bytes := Nat → UInt8

/-- The little-endian 32-bit word at address `a`. -/
def Bytes.word (m : Bytes) (a : Nat) : Nat :=
  (m a).toNat + 2 ^ 8 * (m (a + 1)).toNat + 2 ^ 16 * (m (a + 2)).toNat + 2 ^ 24 * (m (a + 3)).toNat

def Bytes.setWord (m : Bytes) (a v : Nat) : Bytes := fun x =>
  if x = a then UInt8.ofNat v
  else if x = a + 1 then UInt8.ofNat (v / 2 ^ 8)
  else if x = a + 2 then UInt8.ofNat (v / 2 ^ 16)
  else if x = a + 3 then UInt8.ofNat (v / 2 ^ 24)
  else m x

theorem Bytes.word_lt (m : Bytes) (a : Nat) : m.word a < 2 ^ 32 := by
  have b0 := (m a).toNat_lt
  have b1 := (m (a + 1)).toNat_lt
  have b2 := (m (a + 2)).toNat_lt
  have b3 := (m (a + 3)).toNat_lt
  unfold word
  omega

theorem Bytes.word_congr {m m' : Bytes} {a : Nat} (same : ∀ x, a ≤ x → x < a + 4 → m' x = m x) :
    m'.word a = m.word a := by
  unfold word
  rw [same a (by omega) (by omega), same (a + 1) (by omega) (by omega), same (a + 2) (by omega) (by omega),
    same (a + 3) (by omega) (by omega)]

theorem Bytes.setWord_outside {m : Bytes} {a v x : Nat} (out : x < a ∨ a + 4 ≤ x) :
    m.setWord a v x = m x := by
  unfold setWord
  rw [if_neg (by omega), if_neg (by omega), if_neg (by omega), if_neg (by omega)]

theorem Bytes.word_setWord {m : Bytes} {a v : Nat} (bound : v < 2 ^ 32) : (m.setWord a v).word a = v := by
  unfold word setWord
  simp only [if_true, Nat.add_eq_left, OfNat.ofNat_ne_zero, one_ne_zero, if_false,
    Nat.add_right_inj, OfNat.ofNat_ne_one, Nat.reduceEqDiff, UInt8.toNat_ofNat']
  omega

theorem Bytes.word_setWord_apart {m : Bytes} {a b v : Nat} (apart : a + 4 ≤ b ∨ b + 4 ≤ a) :
    (m.setWord a v).word b = m.word b :=
  word_congr fun _ low high => setWord_outside (by omega)

/-- Storing the word that is already there changes nothing. -/
theorem Bytes.setWord_word (m : Bytes) (a : Nat) : m.setWord a (m.word a) = m := by
  funext x
  have b0 := (m a).toNat_lt
  have b1 := (m (a + 1)).toNat_lt
  have b2 := (m (a + 2)).toNat_lt
  have b3 := (m (a + 3)).toNat_lt
  unfold setWord word
  split_ifs <;> first | rfl | (subst x; apply UInt8.toNat_inj.mp; rw [UInt8.toNat_ofNat']; omega)

/-- `MAX_HEAP` of config.h: 20 MB. -/
def maxHeap : Nat := 20 * 2 ^ 20

/-- The error code `ENOMEM`. -/
def ENOMEM : Nat := 12

/-- The calls that are recorded while the code runs. -/
inductive Call
  | memSbrk (incr : Int)
  | mmInsert (new size : Nat)
  deriving DecidableEq, Repr

/-- The state of memlib.c together with the bytes it hands out and `errno`. The
field `calls` is a record of the calls made so far, the newest first; nothing reads it. -/
structure Heap where
  bytes : Bytes
  memStartBrk : Nat
  memBrk : Nat
  memMaxAddr : Nat
  errno : Nat
  calls : List Call

/-- How a run of the C code goes wrong: an access outside the heap, a read of a
local variable that was never assigned, or a recursion deeper than any tree. -/
inductive Fault
  | segv (addr : Nat)
  | unassigned
  | depth
  deriving DecidableEq, Repr

abbrev Mm := EStateM Fault Heap

/-- `mem_init`: the storage starts at `start` and its old contents are arbitrary. -/
def memInit (start : Nat) (bytes : Bytes) : Heap where
  bytes := bytes
  memStartBrk := start
  memBrk := start
  memMaxAddr := start + maxHeap
  errno := 0
  calls := []

/-- `(void *)-1` -/
def sbrkFailed : Nat := 2 ^ 32 - 1

/-- The value of a `size_t` passed where an `int` is expected. -/
def asInt (n : Nat) : Int := if n % 2 ^ 32 < 2 ^ 31 then n % 2 ^ 32 else (n % 2 ^ 32 : Nat) - 2 ^ 32

/-- The arguments of the calls of `mem_sbrk`. -/
def Heap.sbrks (h : Heap) : List Int := h.calls.filterMap fun
  | .memSbrk incr => some incr
  | .mmInsert _ _ => none

def memSbrk (incr : Int) : Mm Nat := do
  let h ← get
  if incr < 0 ∨ (h.memMaxAddr : Int) < h.memBrk + incr then
    set { h with errno := ENOMEM, calls := .memSbrk incr :: h.calls }
    return sbrkFailed
  else
    set { h with memBrk := h.memBrk + incr.toNat, calls := .memSbrk incr :: h.calls }
    return h.memBrk

def memHeapLo : Mm Nat := do
  return (← get).memStartBrk

/-- The addresses `a` to `a + len` lie between `mem_heap_lo()` and the break. -/
def Heap.Within (h : Heap) (a len : Nat) : Prop := h.memStartBrk ≤ a ∧ a + len ≤ h.memBrk

instance (h : Heap) (a len : Nat) : Decidable (h.Within a len) :=
  inferInstanceAs (Decidable (_ ∧ _))

def Heap.setWord (h : Heap) (a v : Nat) : Heap := { h with bytes := h.bytes.setWord a v }

def Heap.setByte (h : Heap) (a : Nat) (v : UInt8) : Heap :=
  { h with bytes := fun x => if x = a then v else h.bytes x }

def loadWord (a : Nat) : Mm Nat := do
  let h ← get
  if h.Within a 4 then return h.bytes.word a else throw (.segv a)

def storeWord (a v : Nat) : Mm Unit := do
  let h ← get
  if h.Within a 4 then set (h.setWord a v) else throw (.segv a)

def loadByte (a : Nat) : Mm UInt8 := do
  let h ← get
  if h.Within a 1 then return h.bytes a else throw (.segv a)

def storeByte (a : Nat) (v : UInt8) : Mm Unit := do
  let h ← get
  if h.Within a 1 then set (h.setByte a v) else throw (.segv a)

@[simp] theorem within_setWord {h : Heap} {b v a len : Nat} : (h.setWord b v).Within a len ↔ h.Within a len :=
  Iff.rfl

@[simp] theorem within_setByte {h : Heap} {b : Nat} {v : UInt8} {a len : Nat} :
    (h.setByte b v).Within a len ↔ h.Within a len :=
  Iff.rfl

section Rules
variable {h : Heap} {a v : Nat}

theorem runs_loadWord {Q : Nat → Heap → Prop} (within : h.Within a 4) :
    Runs (loadWord a) h Q ↔ Q (h.bytes.word a) h := by
  have run : loadWord a h = .ok (h.bytes.word a) h := by
    simp only [loadWord, bind_run, get, getThe, MonadStateOf.get, EStateM.get, within, if_true]
    rfl
  exact runs_of_run run

theorem runs_storeWord {Q : Unit → Heap → Prop} (within : h.Within a 4) :
    Runs (storeWord a v) h Q ↔ Q () (h.setWord a v) := by
  have run : storeWord a v h = .ok () (h.setWord a v) := by
    simp only [storeWord, bind_run, get, getThe, MonadStateOf.get, EStateM.get, within, if_true]
    rfl
  exact runs_of_run run

theorem runs_loadByte {Q : UInt8 → Heap → Prop} (within : h.Within a 1) :
    Runs (loadByte a) h Q ↔ Q (h.bytes a) h := by
  have run : loadByte a h = .ok (h.bytes a) h := by
    simp only [loadByte, bind_run, get, getThe, MonadStateOf.get, EStateM.get, within, if_true]
    rfl
  exact runs_of_run run

theorem runs_storeByte {b : UInt8} {Q : Unit → Heap → Prop} (within : h.Within a 1) :
    Runs (storeByte a b) h Q ↔ Q () (h.setByte a b) := by
  have run : storeByte a b h = .ok () (h.setByte a b) := by
    simp only [storeByte, bind_run, get, getThe, MonadStateOf.get, EStateM.get, within, if_true]
    rfl
  exact runs_of_run run

theorem runs_memHeapLo {Q : Nat → Heap → Prop} : Runs memHeapLo h Q ↔ Q h.memStartBrk h :=
  runs_of_run rfl

/-- `mem_sbrk` without room left changes nothing but `errno`. -/
theorem memSbrk_failed {incr : Int} (full : incr < 0 ∨ (h.memMaxAddr : Int) < h.memBrk + incr) :
    memSbrk incr h = .ok sbrkFailed { h with errno := ENOMEM, calls := .memSbrk incr :: h.calls } := by
  simp only [memSbrk, bind_run, get, getThe, MonadStateOf.get, EStateM.get, full, if_true]
  rfl

theorem memSbrk_moved {incr : Int} (room : ¬(incr < 0 ∨ (h.memMaxAddr : Int) < h.memBrk + incr)) :
    memSbrk incr h =
      .ok h.memBrk { h with memBrk := h.memBrk + incr.toNat, calls := .memSbrk incr :: h.calls } := by
  simp only [memSbrk, bind_run, get, getThe, MonadStateOf.get, EStateM.get, room, if_false]
  rfl

/-- `mem_sbrk` with room left moves the break and touches no byte. -/
theorem runs_memSbrk {incr : Nat} {Q : Nat → Heap → Prop} (room : h.memBrk + incr ≤ h.memMaxAddr) :
    Runs (memSbrk incr) h Q ↔
      Q h.memBrk { h with memBrk := h.memBrk + incr, calls := .memSbrk incr :: h.calls } :=
  runs_of_run (memSbrk_moved (by omega))

end Rules

end Splab.Malloc
