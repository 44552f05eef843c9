import Splab.Lib.Frames
import Splab.Malloc.Mm

-- the instance for a function is as large as its text
set_option synthInstance.maxSize 8192

namespace Splab.Malloc
open RedBlack
variable {α β : Type}

/-- `h'` differs from `h` only in the bytes and in the record of the insertions. -/
structure Heap.Fixed (h h' : Heap) : Prop where
  start : h'.memStartBrk = h.memStartBrk
  brk : h'.memBrk = h.memBrk
  maxAddr : h'.memMaxAddr = h.memMaxAddr
  errno : h'.errno = h.errno
  sbrks : h'.sbrks = h.sbrks

theorem Heap.Fixed.refl (h : Heap) : h.Fixed h := ⟨rfl, rfl, rfl, rfl, rfl⟩

theorem Heap.Fixed.trans {a b c : Heap} (first : a.Fixed b) (second : b.Fixed c) : a.Fixed c where
  start := second.start.trans first.start
  brk := second.brk.trans first.brk
  maxAddr := second.maxAddr.trans first.maxAddr
  errno := second.errno.trans first.errno
  sbrks := second.sbrks.trans first.sbrks

/-- A computation that only works on the bytes of the heap, whether it returns or faults. -/
def localFrame : Frame Fault Heap where
  step := Heap.Fixed
  fault h _ h' := h.Fixed h'
  refl := Heap.Fixed.refl
  throws h _ := Heap.Fixed.refl h
  trans := Heap.Fixed.trans
  faults := Heap.Fixed.trans

abbrev Local (x : Mm α) : Prop := localFrame.Keeps x

theorem Local.ok {x : Mm α} {h h' : Heap} {a : α} (one : Local x) (run : x h = .ok a h') : h.Fixed h' :=
  one.ends.ok run

/-- An access inside the heap that leaves its bounds alone, and a fault outside. -/
theorem local_access {a len : Nat} {f : Heap → Mm α}
    (inside : ∀ h, ∃ v h', f h h = .ok v h' ∧ h.Fixed h') : Local (do
      let h ← get
      if h.Within a len then f h else throw (.segv a)) := by
  refine ⟨fun h => ?_⟩
  by_cases within : h.Within a len
  · simp only [bind_run, get, getThe, MonadStateOf.get, EStateM.get, within, if_true]
    obtain ⟨v, h', run, fixed⟩ := inside h
    rw [run]
    exact fixed
  · simp only [bind_run, get, getThe, MonadStateOf.get, EStateM.get, within, if_false]
    exact Heap.Fixed.refl h

instance local_loadWord {a : Nat} : Local (loadWord a) :=
  local_access fun h => ⟨_, h, rfl, Heap.Fixed.refl h⟩

instance local_storeWord {a v : Nat} : Local (storeWord a v) :=
  local_access fun h => ⟨_, h.setWord a v, rfl, rfl, rfl, rfl, rfl, rfl⟩

instance local_loadByte {a : Nat} : Local (loadByte a) :=
  local_access fun h => ⟨_, h, rfl, Heap.Fixed.refl h⟩

instance local_storeByte {a : Nat} {v : UInt8} : Local (storeByte a v) :=
  local_access fun h => ⟨_, h.setByte a v, rfl, rfl, rfl, rfl, rfl, rfl⟩

/-- The record of an insertion is no part of the C state. -/
instance local_record {new : Nat} :
    Local (modify fun h => { h with calls := .mmInsert new (h.node new).size :: h.calls } : Mm Unit) :=
  ⟨fun _ => ⟨rfl, rfl, rfl, rfl, rfl⟩⟩

instance local_memHeapLo : Local memHeapLo := ⟨fun h => Heap.Fixed.refl h⟩

section Fields
variable {p v : Nat} {b : Bool} {c : Color}

instance local_getPrev : Local (getPrev p) := local_loadWord
instance local_getSize : Local (getSize p) := local_loadWord.bind fun _ => keeps_pure
instance local_getAlloc : Local (getAlloc p) := local_loadWord.bind fun _ => keeps_pure
instance local_getColor : Local (getColor p) := local_loadWord.bind fun _ => keeps_pure
instance local_getNull : Local (getNull p) := local_loadWord.bind fun _ => keeps_pure
instance local_getLeft : Local (getLeft p) := local_loadWord
instance local_getRight : Local (getRight p) := local_loadWord
instance local_setPrev : Local (setPrev p v) := local_storeWord
instance local_setLeft : Local (setLeft p v) := local_storeWord
instance local_setRight : Local (setRight p v) := local_storeWord
instance local_setSize : Local (setSize p v) := local_loadWord.bind fun _ => local_storeWord
instance local_setAlloc : Local (setAlloc p b) := local_loadWord.bind fun _ => local_storeWord
instance local_setColor : Local (setColor p c) := local_loadWord.bind fun _ => local_storeWord
instance local_setNull : Local (setNull p b) := local_loadWord.bind fun _ => local_storeWord
instance local_getRoot : Local (getRoot p) := local_loadWord
instance local_setRoot : Local (setRoot p v) := local_storeWord
instance local_isRed : Local (isRed p) := local_getColor.bind fun _ => keeps_pure
instance local_isBlack : Local (isBlack p) := local_getColor.bind fun _ => keeps_pure

instance keeps_both {F : Frame Fault Heap} {x y : Mm Bool} [first : F.Keeps x] [second : F.Keeps y] :
    F.Keeps (both x y) :=
  first.bind fun _ => keeps_ite

instance keeps_either {F : Frame Fault Heap} {x y : Mm Bool} [first : F.Keeps x] [second : F.Keeps y] :
    F.Keeps (either x y) :=
  first.bind fun _ => keeps_ite

end Fields

section Tree
variable {now new size del ptr fuel : Nat} {balance : Option Bool} {target : Bool}

instance local_mmCmpNode {x y : Nat} : Local (mmCmpNode x y) := by
  unfold mmCmpNode
  infer_instance

instance local_mmRotateLeft : Local (mmRotateLeft now) := by
  unfold mmRotateLeft
  infer_instance

instance local_mmRotateRight : Local (mmRotateRight now) := by
  unfold mmRotateRight
  infer_instance

instance local_mmSearchNode : Local (mmSearchNode fuel now size) := by
  induction fuel generalizing now with
  | zero => exact keeps_throw
  | succ fuel ih =>
    unfold mmSearchNode
    infer_instance

instance local_mmInsertFixLeft : Local (mmInsertFixLeft now) := by
  unfold mmInsertFixLeft
  infer_instance

instance local_mmInsertNodeLeft : Local (mmInsertNodeLeft now) := by
  unfold mmInsertNodeLeft
  infer_instance

instance local_mmInsertFixRight : Local (mmInsertFixRight now) := by
  unfold mmInsertFixRight
  infer_instance

instance local_mmInsertNodeRight : Local (mmInsertNodeRight now) := by
  unfold mmInsertNodeRight
  infer_instance

instance local_mmInsertNode : Local (mmInsertNode fuel now new) := by
  induction fuel generalizing now with
  | zero => exact keeps_throw
  | succ fuel ih =>
    unfold mmInsertNode
    infer_instance

instance local_mmDeleteLeftOuter : Local (mmDeleteLeftOuter now balance) := by
  unfold mmDeleteLeftOuter
  infer_instance

instance local_mmDeleteLeft : Local (mmDeleteLeft fuel now balance) := by
  induction fuel generalizing now balance with
  | zero => exact keeps_throw
  | succ fuel ih =>
    unfold mmDeleteLeft
    infer_instance

instance local_mmDeleteRightOuter : Local (mmDeleteRightOuter now balance) := by
  unfold mmDeleteRightOuter
  infer_instance

instance local_mmDeleteRight : Local (mmDeleteRight fuel now balance) := by
  induction fuel generalizing now balance with
  | zero => exact keeps_throw
  | succ fuel ih =>
    unfold mmDeleteRight
    infer_instance

instance local_readLocal {o : Option α} : Local (readLocal o) := by
  cases o with
  | none => exact keeps_throw
  | some v => exact keeps_pure

instance local_mmDeleteReplace : Local (mmDeleteReplace ptr now) := by
  unfold mmDeleteReplace
  infer_instance

instance local_mmDeleteNode : Local (mmDeleteNode fuel now del balance target) := by
  induction fuel generalizing now balance target with
  | zero => exact keeps_throw
  | succ fuel ih =>
    unfold mmDeleteNode
    infer_instance

instance local_mmSearch : Local (mmSearch size) := by
  unfold mmSearch
  infer_instance

instance local_mmInsert : Local (mmInsert new) := by
  unfold mmInsert
  infer_instance

instance local_mmDelete : Local (mmDelete del) := by
  unfold mmDelete
  infer_instance

end Tree

section Calls
variable {now next ptr size sum fuel i n : Nat}

instance local_mmMemsetLoop {c : UInt8} : Local (mmMemsetLoop ptr c i n) := by
  induction n generalizing i with
  | zero => exact keeps_pure
  | succ n ih => exact local_storeByte.bind fun _ => ih

instance local_mmMemset {c : UInt8} : Local (mmMemset ptr c n) := local_mmMemsetLoop.bind fun _ => keeps_pure

instance local_mmMemcpyLoop {src : Nat} : Local (mmMemcpyLoop ptr src i n) := by
  induction n generalizing i with
  | zero => exact keeps_pure
  | succ n ih => exact local_loadByte.bind fun _ => local_storeByte.bind fun _ => ih

instance local_mmMemcpy {src : Nat} : Local (mmMemcpy ptr src n) := local_mmMemcpyLoop.bind fun _ => keeps_pure

instance local_mmClearHeader : Local (mmClearHeader ptr) := local_mmMemset.bind fun _ => keeps_pure

instance local_mmGetPrev : Local (mmGetPrev ptr) := local_getPrev

instance local_mmGetNext : Local (mmGetNext ptr) := local_getSize.bind fun _ => keeps_pure

instance local_mmFragNode : Local (mmFragNode now size) := by
  unfold mmFragNode
  infer_instance

instance local_mmFreeInsert : Local (mmFreeInsert now) := by
  unfold mmFreeInsert
  infer_instance

instance local_mmFreePrev : Local (mmFreePrev ptr now) := by
  unfold mmFreePrev
  infer_instance

instance local_mmFreeNext : Local (mmFreeNext now next) := by
  unfold mmFreeNext
  infer_instance

instance local_mmFree : Local (mmFree ptr) := by
  unfold mmFree
  infer_instance

instance local_freeBelow : Local (freeBelow next sum size) := by
  unfold freeBelow
  infer_instance

instance local_mmReallocSum : Local (mmReallocSum fuel next sum size) := by
  induction fuel generalizing next sum with
  | zero => exact keeps_throw
  | succ fuel ih =>
    unfold mmReallocSum
    infer_instance

instance local_mmReallocMerge : Local (mmReallocMerge fuel now next size) := by
  induction fuel generalizing next with
  | zero => exact keeps_throw
  | succ fuel ih =>
    unfold mmReallocMerge
    infer_instance

instance local_mmReallocExpand : Local (mmReallocExpand now size) := by
  unfold mmReallocExpand
  infer_instance

end Calls

section Wider
variable {F : Frame Fault Heap} {size ptr : Nat}

/-- The frame allows whatever works on the bytes only. -/
class Frame.Wider (F : Frame Fault Heap) : Prop where
  step : ∀ {h h'}, h.Fixed h' → F.step h h'
  fault : ∀ {h e h'}, h.Fixed h' → F.fault h e h'

instance (priority := low) keeps_local {x : Mm α} [wider : Frame.Wider F] [one : Local x] : F.Keeps x := by
  refine ⟨fun h => ?_⟩
  have ends := one.ends h
  split at ends
  · exact wider.step ends
  · exact wider.fault ends

/-- Of the calls of mm.c only `mm_sbrk` does more. -/
instance keeps_mmMalloc [Frame.Wider F] [∀ n, F.Keeps (mmSbrk n)] : F.Keeps (mmMalloc size) := by
  unfold mmMalloc
  infer_instance

instance keeps_mmRealloc [Frame.Wider F] [∀ n, F.Keeps (mmSbrk n)] : F.Keeps (mmRealloc ptr size) := by
  unfold mmRealloc
  infer_instance

end Wider

/-- The storage ends below the last address. -/
def Heap.Small (h : Heap) : Prop := h.memBrk ≤ h.memMaxAddr ∧ h.memMaxAddr + 1 < 2 ^ 32

/-- A computation that reports no failure of `mem_sbrk`: when it returns, `errno` is
what it was, and it either does not touch `errno` before a fault or faults in
the assignment to `ptr->size` that follows the failure. -/
def silentFrame : Frame Fault Heap where
  step h h' := h.Small → h'.Small ∧ h'.errno = h.errno
  fault h e h' := h.Small → h'.errno = h.errno ∨ e = .segv 0xFFFFFFFB
  refl _ small := ⟨small, rfl⟩
  throws _ _ _ := .inl rfl
  trans one two small :=
    have ⟨mid, same⟩ := one small
    have ⟨last, again⟩ := two mid
    ⟨last, again.trans same⟩
  faults one two small :=
    have ⟨mid, same⟩ := one small
    (two mid).imp_left fun again => again.trans same

abbrev Silent (x : Mm α) : Prop := silentFrame.Keeps x

instance : Frame.Wider silentFrame where
  step fixed small := by
    refine ⟨?_, fixed.errno⟩
    unfold Heap.Small at *
    rwa [fixed.brk, fixed.maxAddr]
  fault fixed _ := .inl fixed.errno

section Growth
variable {ptr size : Nat}

/-- A failure of `mem_sbrk` does not get past the assignment that follows it. -/
theorem silent_memSbrk {incr : Int} {v : Nat} {f : Nat → Mm α} {g : Nat → Unit → Mm α}
    (next : f sbrkFailed = setSize (backHeader sbrkFailed) v >>= g sbrkFailed) (rest : ∀ b, Silent (f b)) :
    Silent (memSbrk incr >>= f) := by
  refine ⟨fun h => ?_⟩
  by_cases full : incr < 0 ∨ (h.memMaxAddr : Int) < h.memBrk + incr
  · rw [bind_run, memSbrk_failed full]
    by_cases within :
      ({ h with errno := ENOMEM, calls := .memSbrk incr :: h.calls } : Heap).Within (backHeader sbrkFailed + 4) 4
    · -- only a heap that reaches to the end of the address space has a word there
      have large : ¬h.Small := by
        intro small
        unfold Heap.Within backHeader sbrkFailed mmHeaderSize at within
        unfold Heap.Small at small
        simp only at within
        omega
      simp only
      split <;> exact fun small => absurd small large
    · simp only [next, bind_run, setSize, loadWord, get, getThe, MonadStateOf.get, EStateM.get, within, if_false]
      exact fun _ => .inr rfl
  · rw [bind_run, memSbrk_moved full]
    have later := (rest h.memBrk).ends { h with memBrk := h.memBrk + incr.toNat, calls := .memSbrk incr :: h.calls }
    have grown : h.Small →
        ({ h with memBrk := h.memBrk + incr.toNat, calls := .memSbrk incr :: h.calls } : Heap).Small := fun small => by
      unfold Heap.Small at *
      simp only
      omega
    simp only
    split at later
    · exact fun small => later (grown small)
    · exact fun small => later (grown small)

instance silent_mmSbrk : Silent (mmSbrk size) := by
  unfold mmSbrk
  split
  · with_reducible refine silent_memSbrk (v := mmUnit / 8) (g := fun b _ => do
      mmClearHeader (backHeader b + mmUnit)
      setAlloc (backHeader b) true
      mmFragNode (backHeader b) ((size + mmHeaderSize) / 8)) rfl fun b => ?_
    infer_instance
  · with_reducible refine silent_memSbrk (v := size / 8) (g := fun b _ => do
      mmClearHeader (backHeader b + size)
      setAlloc (backHeader b) true
      setPrev (← mmGetNext (backHeader b)) (backHeader b)
      return backHeader b) rfl fun b => ?_
    infer_instance

end Growth

/-- A computation that calls `mem_sbrk` exactly `n` times if it returns. -/
def Grows (n : Nat) (x : Mm α) : Prop :=
  Ends (fun h h' => h'.sbrks.length = h.sbrks.length + n) (fun _ _ _ => True) x

theorem Local.grows {x : Mm α} (one : Local x) : Grows 0 x := by
  intro h
  have ends := one.ends h
  split at ends
  · exact congrArg List.length ends.sbrks
  · trivial

theorem Grows.bind {x : Mm α} {f : α → Mm β} {m n : Nat} (first : Grows m x) (rest : ∀ a, Grows n (f a)) :
    Grows (m + n) (x >>= f) := by
  intro h
  rw [bind_run]
  have one := first h
  cases eq : x h with
  | ok a mid =>
    simp only [eq] at one ⊢
    have two := rest a mid
    cases next : f a mid with
    | ok b last =>
      simp only [next] at two ⊢
      omega
    | error e last => trivial
  | error e mid => trivial

theorem grows_memSbrk {incr : Int} : Grows 1 (memSbrk incr) := by
  intro h
  by_cases full : incr < 0 ∨ (h.memMaxAddr : Int) < h.memBrk + incr
  · rw [memSbrk_failed full]
    rfl
  · rw [memSbrk_moved full]
    rfl

theorem grows_mmSbrk {size : Nat} : Grows 1 (mmSbrk size) := by
  unfold mmSbrk
  split
  · with_reducible refine grows_memSbrk.bind fun _ => Local.grows ?_
    infer_instance
  · with_reducible refine grows_memSbrk.bind fun _ => Local.grows ?_
    infer_instance

end Splab.Malloc
