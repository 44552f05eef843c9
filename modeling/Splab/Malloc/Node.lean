import Splab.Malloc.Memlib
import Splab.Lib.RedBlack.Basic

namespace Splab.Malloc
open RedBlack

/-- `struct MM_Node` as read from memory. `alloc` is set for `MM_ALLOC_ALLOC`,
`null` for `MM_NULL_NULL`; sizes are in units of 8 bytes. -/
structure MMNode where
  prev : Nat
  size : Nat
  alloc : Bool
  color : Color
  null : Bool
  left : Nat
  right : Nat

/-- The bit-fields of the word at offset 4: 29 bits of size, then one bit each
for `alloc`, `color` and `null`. -/
def sizeField (w : Nat) : Nat := w % 2 ^ 29
def allocField (w : Nat) : Bool := w / 2 ^ 29 % 2 == 1
def colorField (w : Nat) : Color := if w / 2 ^ 30 % 2 = 1 then .red else .black
def nullField (w : Nat) : Bool := w / 2 ^ 31 % 2 == 1

def colorBit : Color → Nat
  | .black => 0
  | .red => 1

def packFields (size : Nat) (alloc : Bool) (color : Color) (null : Bool) : Nat :=
  size % 2 ^ 29 + 2 ^ 29 * alloc.toNat + 2 ^ 30 * colorBit color + 2 ^ 31 * null.toNat

section Fields
variable {size : Nat} {alloc : Bool} {color : Color} {null : Bool}

theorem packFields_lt : packFields size alloc color null < 2 ^ 32 := by
  unfold packFields
  cases alloc <;> cases color <;> cases null <;> simp only [Bool.toNat, colorBit, cond] <;> omega

@[simp] theorem sizeField_pack : sizeField (packFields size alloc color null) = size % 2 ^ 29 := by
  unfold packFields sizeField
  cases alloc <;> cases color <;> cases null <;> simp only [Bool.toNat, colorBit, cond] <;> omega

@[simp] theorem allocField_pack : allocField (packFields size alloc color null) = alloc := by
  unfold packFields allocField
  cases alloc <;> cases color <;> cases null <;> simp only [Bool.toNat, colorBit, cond, beq_iff_eq,
    beq_eq_false_iff_ne] <;> omega

@[simp] theorem colorField_pack : colorField (packFields size alloc color null) = color := by
  have bit : packFields size alloc color null / 2 ^ 30 % 2 = colorBit color := by
    unfold packFields
    cases alloc <;> cases color <;> cases null <;> simp only [Bool.toNat, colorBit, cond] <;> omega
  unfold colorField
  rw [bit]
  cases color <;> rfl

@[simp] theorem nullField_pack : nullField (packFields size alloc color null) = null := by
  unfold packFields nullField
  cases alloc <;> cases color <;> cases null <;> simp only [Bool.toNat, colorBit, cond, beq_iff_eq,
    beq_eq_false_iff_ne] <;> omega

theorem packFields_fields {w : Nat} (bound : w < 2 ^ 32) :
    packFields (sizeField w) (allocField w) (colorField w) (nullField w) = w := by
  have alloc : (allocField w).toNat = w / 2 ^ 29 % 2 := by
    unfold allocField
    rcases Nat.mod_two_eq_zero_or_one (w / 2 ^ 29) with bit | bit <;> rw [bit] <;> rfl
  have color : colorBit (colorField w) = w / 2 ^ 30 % 2 := by
    unfold colorField
    rcases Nat.mod_two_eq_zero_or_one (w / 2 ^ 30) with bit | bit <;> rw [bit] <;> rfl
  have null : (nullField w).toNat = w / 2 ^ 31 % 2 := by
    unfold nullField
    rcases Nat.mod_two_eq_zero_or_one (w / 2 ^ 31) with bit | bit <;> rw [bit] <;> rfl
  unfold packFields
  rw [alloc, color, null, sizeField]
  omega

end Fields

def Heap.node (h : Heap) (p : Nat) : MMNode where
  prev := h.bytes.word p
  size := sizeField (h.bytes.word (p + 4))
  alloc := allocField (h.bytes.word (p + 4))
  color := colorField (h.bytes.word (p + 4))
  null := nullField (h.bytes.word (p + 4))
  left := h.bytes.word (p + 8)
  right := h.bytes.word (p + 12)

/-- Reading `p->prev` and so on. -/
def getPrev (p : Nat) : Mm Nat := loadWord p
def getSize (p : Nat) : Mm Nat := do return sizeField (← loadWord (p + 4))
def getAlloc (p : Nat) : Mm Bool := do return allocField (← loadWord (p + 4))
def getColor (p : Nat) : Mm Color := do return colorField (← loadWord (p + 4))
def getNull (p : Nat) : Mm Bool := do return nullField (← loadWord (p + 4))
def getLeft (p : Nat) : Mm Nat := loadWord (p + 8)
def getRight (p : Nat) : Mm Nat := loadWord (p + 12)

/-- Assignments to `p->prev` and so on; a bit-field is stored by rewriting its word. -/
def setPrev (p v : Nat) : Mm Unit := storeWord p v
def setLeft (p v : Nat) : Mm Unit := storeWord (p + 8) v
def setRight (p v : Nat) : Mm Unit := storeWord (p + 12) v

def setSize (p v : Nat) : Mm Unit := do
  let w ← loadWord (p + 4)
  storeWord (p + 4) (packFields v (allocField w) (colorField w) (nullField w))

def setAlloc (p : Nat) (v : Bool) : Mm Unit := do
  let w ← loadWord (p + 4)
  storeWord (p + 4) (packFields (sizeField w) v (colorField w) (nullField w))

def setColor (p : Nat) (v : Color) : Mm Unit := do
  let w ← loadWord (p + 4)
  storeWord (p + 4) (packFields (sizeField w) (allocField w) v (nullField w))

def setNull (p : Nat) (v : Bool) : Mm Unit := do
  let w ← loadWord (p + 4)
  storeWord (p + 4) (packFields (sizeField w) (allocField w) (colorField w) v)

/-- The heap after one assignment. -/
def Heap.setPrev (h : Heap) (p v : Nat) : Heap := h.setWord p v
def Heap.setLeft (h : Heap) (p v : Nat) : Heap := h.setWord (p + 8) v
def Heap.setRight (h : Heap) (p v : Nat) : Heap := h.setWord (p + 12) v
def Heap.setFields (h : Heap) (p : Nat) (n : MMNode) : Heap :=
  h.setWord (p + 4) (packFields n.size n.alloc n.color n.null)
def Heap.setSize (h : Heap) (p v : Nat) : Heap := h.setFields p { h.node p with size := v }
def Heap.setAlloc (h : Heap) (p : Nat) (v : Bool) : Heap := h.setFields p { h.node p with alloc := v }
def Heap.setColor (h : Heap) (p : Nat) (v : Color) : Heap := h.setFields p { h.node p with color := v }
def Heap.setNull (h : Heap) (p : Nat) (v : Bool) : Heap := h.setFields p { h.node p with null := v }

/-- The header, the first 8 bytes of a node, and the whole node lie in the heap. -/
def Heap.HeaderIn (h : Heap) (p : Nat) : Prop := h.Within p 8
def Heap.NodeIn (h : Heap) (p : Nat) : Prop := h.Within p 16

theorem Heap.NodeIn.header {h : Heap} {p : Nat} (node : h.NodeIn p) : h.HeaderIn p := by
  unfold HeaderIn NodeIn Within at *
  omega

section Bounds
variable {h : Heap} {p q v : Nat} {n : MMNode}

@[simp] theorem headerIn_setWord {a : Nat} : (h.setWord a v).HeaderIn q ↔ h.HeaderIn q := Iff.rfl
@[simp] theorem headerIn_setPrev : (h.setPrev p v).HeaderIn q ↔ h.HeaderIn q := Iff.rfl
@[simp] theorem headerIn_setLeft : (h.setLeft p v).HeaderIn q ↔ h.HeaderIn q := Iff.rfl
@[simp] theorem headerIn_setRight : (h.setRight p v).HeaderIn q ↔ h.HeaderIn q := Iff.rfl
@[simp] theorem headerIn_setSize : (h.setSize p v).HeaderIn q ↔ h.HeaderIn q := Iff.rfl
@[simp] theorem headerIn_setAlloc {b : Bool} : (h.setAlloc p b).HeaderIn q ↔ h.HeaderIn q := Iff.rfl
@[simp] theorem headerIn_setColor {c : Color} : (h.setColor p c).HeaderIn q ↔ h.HeaderIn q := Iff.rfl
@[simp] theorem headerIn_setNull {b : Bool} : (h.setNull p b).HeaderIn q ↔ h.HeaderIn q := Iff.rfl
@[simp] theorem nodeIn_setWord {a : Nat} : (h.setWord a v).NodeIn q ↔ h.NodeIn q := Iff.rfl
@[simp] theorem nodeIn_setPrev : (h.setPrev p v).NodeIn q ↔ h.NodeIn q := Iff.rfl
@[simp] theorem nodeIn_setLeft : (h.setLeft p v).NodeIn q ↔ h.NodeIn q := Iff.rfl
@[simp] theorem nodeIn_setRight : (h.setRight p v).NodeIn q ↔ h.NodeIn q := Iff.rfl
@[simp] theorem nodeIn_setSize : (h.setSize p v).NodeIn q ↔ h.NodeIn q := Iff.rfl
@[simp] theorem nodeIn_setAlloc {b : Bool} : (h.setAlloc p b).NodeIn q ↔ h.NodeIn q := Iff.rfl
@[simp] theorem nodeIn_setColor {c : Color} : (h.setColor p c).NodeIn q ↔ h.NodeIn q := Iff.rfl
@[simp] theorem nodeIn_setNull {b : Bool} : (h.setNull p b).NodeIn q ↔ h.NodeIn q := Iff.rfl

end Bounds

section Rules
variable {h : Heap} {p v : Nat}

theorem runs_getPrev {Q : Nat → Heap → Prop} (inside : h.HeaderIn p) :
    Runs (getPrev p) h Q ↔ Q (h.node p).prev h :=
  runs_loadWord (by unfold Heap.HeaderIn Heap.Within at *; omega)

theorem runs_getSize {Q : Nat → Heap → Prop} (inside : h.HeaderIn p) :
    Runs (getSize p) h Q ↔ Q (h.node p).size h := by
  unfold getSize
  rw [runs_bind, runs_loadWord (by unfold Heap.HeaderIn Heap.Within at *; omega), runs_pure]
  rfl

theorem runs_getAlloc {Q : Bool → Heap → Prop} (inside : h.HeaderIn p) :
    Runs (getAlloc p) h Q ↔ Q (h.node p).alloc h := by
  unfold getAlloc
  rw [runs_bind, runs_loadWord (by unfold Heap.HeaderIn Heap.Within at *; omega), runs_pure]
  rfl

theorem runs_getColor {Q : Color → Heap → Prop} (inside : h.HeaderIn p) :
    Runs (getColor p) h Q ↔ Q (h.node p).color h := by
  unfold getColor
  rw [runs_bind, runs_loadWord (by unfold Heap.HeaderIn Heap.Within at *; omega), runs_pure]
  rfl

theorem runs_getNull {Q : Bool → Heap → Prop} (inside : h.HeaderIn p) :
    Runs (getNull p) h Q ↔ Q (h.node p).null h := by
  unfold getNull
  rw [runs_bind, runs_loadWord (by unfold Heap.HeaderIn Heap.Within at *; omega), runs_pure]
  rfl

theorem runs_getLeft {Q : Nat → Heap → Prop} (inside : h.NodeIn p) :
    Runs (getLeft p) h Q ↔ Q (h.node p).left h :=
  runs_loadWord (by unfold Heap.NodeIn Heap.Within at *; omega)

theorem runs_getRight {Q : Nat → Heap → Prop} (inside : h.NodeIn p) :
    Runs (getRight p) h Q ↔ Q (h.node p).right h :=
  runs_loadWord (by unfold Heap.NodeIn Heap.Within at *; omega)

theorem runs_setPrev {Q : Unit → Heap → Prop} (inside : h.HeaderIn p) :
    Runs (setPrev p v) h Q ↔ Q () (h.setPrev p v) :=
  runs_storeWord (by unfold Heap.HeaderIn Heap.Within at *; omega)

theorem runs_setLeft {Q : Unit → Heap → Prop} (inside : h.NodeIn p) :
    Runs (setLeft p v) h Q ↔ Q () (h.setLeft p v) :=
  runs_storeWord (by unfold Heap.NodeIn Heap.Within at *; omega)

theorem runs_setRight {Q : Unit → Heap → Prop} (inside : h.NodeIn p) :
    Runs (setRight p v) h Q ↔ Q () (h.setRight p v) :=
  runs_storeWord (by unfold Heap.NodeIn Heap.Within at *; omega)

theorem runs_setSize {Q : Unit → Heap → Prop} (inside : h.HeaderIn p) :
    Runs (setSize p v) h Q ↔ Q () (h.setSize p v) := by
  have within : h.Within (p + 4) 4 := by unfold Heap.HeaderIn Heap.Within at *; omega
  unfold setSize
  rw [runs_bind, runs_loadWord within, runs_storeWord within]
  rfl

theorem runs_setAlloc {b : Bool} {Q : Unit → Heap → Prop} (inside : h.HeaderIn p) :
    Runs (setAlloc p b) h Q ↔ Q () (h.setAlloc p b) := by
  have within : h.Within (p + 4) 4 := by unfold Heap.HeaderIn Heap.Within at *; omega
  unfold setAlloc
  rw [runs_bind, runs_loadWord within, runs_storeWord within]
  rfl

theorem runs_setColor {c : Color} {Q : Unit → Heap → Prop} (inside : h.HeaderIn p) :
    Runs (setColor p c) h Q ↔ Q () (h.setColor p c) := by
  have within : h.Within (p + 4) 4 := by unfold Heap.HeaderIn Heap.Within at *; omega
  unfold setColor
  rw [runs_bind, runs_loadWord within, runs_storeWord within]
  rfl

theorem runs_setNull {b : Bool} {Q : Unit → Heap → Prop} (inside : h.HeaderIn p) :
    Runs (setNull p b) h Q ↔ Q () (h.setNull p b) := by
  have within : h.Within (p + 4) 4 := by unfold Heap.HeaderIn Heap.Within at *; omega
  unfold setNull
  rw [runs_bind, runs_loadWord within, runs_storeWord within]
  rfl

end Rules

/-- Two nodes that do not overlap. -/
def Apart (p q : Nat) : Prop := p + 16 ≤ q ∨ q + 16 ≤ p

theorem Apart.symm {p q : Nat} (apart : Apart p q) : Apart q p := Or.symm apart

instance : Std.Symm Apart := ⟨fun _ _ => Apart.symm⟩

theorem Apart.ne {p q : Nat} (apart : Apart p q) : p ≠ q := by
  unfold Apart at apart
  omega

section Reads
variable {h : Heap} {p q v : Nat}

theorem node_congr {h' : Heap} (same : ∀ x, q ≤ x → x < q + 16 → h'.bytes x = h.bytes x) :
    h'.node q = h.node q := by
  have words : ∀ k, k + 4 ≤ 16 → h'.bytes.word (q + k) = h.bytes.word (q + k) := fun k small =>
    Bytes.word_congr fun x low high => same x (by omega) (by omega)
  have first := words 0 (by omega)
  rw [Nat.add_zero] at first
  unfold Heap.node
  rw [first, words 4 (by omega), words 8 (by omega), words 12 (by omega)]

theorem node_setWord_apart {a : Nat} (apart : a + 4 ≤ q ∨ q + 16 ≤ a) : (h.setWord a v).node q = h.node q :=
  node_congr fun _ low high => Bytes.setWord_outside (by omega)

theorem node_setLeft_apart (apart : Apart p q) : (h.setLeft p v).node q = h.node q :=
  node_setWord_apart (by unfold Apart at apart; omega)

theorem node_setRight_apart (apart : Apart p q) : (h.setRight p v).node q = h.node q :=
  node_setWord_apart (by unfold Apart at apart; omega)

theorem node_setFields_apart {n : MMNode} (apart : Apart p q) : (h.setFields p n).node q = h.node q :=
  node_setWord_apart (by unfold Apart at apart; omega)

theorem node_setSize_apart (apart : Apart p q) : (h.setSize p v).node q = h.node q :=
  node_setFields_apart apart

theorem node_setColor_apart {c : Color} (apart : Apart p q) : (h.setColor p c).node q = h.node q :=
  node_setFields_apart apart

theorem node_setPrev (bound : v < 2 ^ 32) : (h.setPrev p v).node p = { h.node p with prev := v } := by
  unfold Heap.node Heap.setPrev Heap.setWord
  rw [Bytes.word_setWord bound, Bytes.word_setWord_apart (by omega), Bytes.word_setWord_apart (by omega),
    Bytes.word_setWord_apart (by omega)]

theorem node_setLeft (bound : v < 2 ^ 32) : (h.setLeft p v).node p = { h.node p with left := v } := by
  unfold Heap.node Heap.setLeft Heap.setWord
  rw [Bytes.word_setWord bound, Bytes.word_setWord_apart (by omega), Bytes.word_setWord_apart (by omega),
    Bytes.word_setWord_apart (by omega)]

theorem node_setRight (bound : v < 2 ^ 32) : (h.setRight p v).node p = { h.node p with right := v } := by
  unfold Heap.node Heap.setRight Heap.setWord
  rw [Bytes.word_setWord bound, Bytes.word_setWord_apart (by omega), Bytes.word_setWord_apart (by omega),
    Bytes.word_setWord_apart (by omega)]

theorem node_setFields {n : MMNode} : (h.setFields p n).node p =
    { h.node p with size := n.size % 2 ^ 29, alloc := n.alloc, color := n.color, null := n.null } := by
  unfold Heap.node Heap.setFields Heap.setWord
  simp only [Bytes.word_setWord packFields_lt, sizeField_pack, allocField_pack, colorField_pack, nullField_pack]
  rw [Bytes.word_setWord_apart (by omega), Bytes.word_setWord_apart (by omega),
    Bytes.word_setWord_apart (by omega)]

theorem node_size_mod : (h.node p).size % 2 ^ 29 = (h.node p).size :=
  Nat.mod_mod ..

theorem node_setSize (bound : v < 2 ^ 29) : (h.setSize p v).node p = { h.node p with size := v } := by
  rw [Heap.setSize, node_setFields, Nat.mod_eq_of_lt bound]

theorem node_setAlloc {b : Bool} : (h.setAlloc p b).node p = { h.node p with alloc := b } := by
  rw [Heap.setAlloc, node_setFields, node_size_mod]

theorem node_setColor {c : Color} : (h.setColor p c).node p = { h.node p with color := c } := by
  rw [Heap.setColor, node_setFields, node_size_mod]

theorem node_setNull {b : Bool} : (h.setNull p b).node p = { h.node p with null := b } := by
  rw [Heap.setNull, node_setFields, node_size_mod]

/-- Painting a node in its own colour leaves the whole heap as it is. -/
theorem setColor_same {c : Color} (same : (h.node p).color = c) : h.setColor p c = h := by
  subst same
  unfold Heap.setColor Heap.setFields Heap.setWord
  change { h with bytes := h.bytes.setWord (p + 4) (packFields (sizeField _) (allocField _) (colorField _)
    (nullField _)) } = h
  rw [packFields_fields (Bytes.word_lt ..), Bytes.setWord_word]

end Reads

end Splab.Malloc
