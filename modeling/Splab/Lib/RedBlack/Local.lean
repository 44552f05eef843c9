import Splab.Lib.RedBlack.Basic

namespace Splab.RedBlack.RBTree
universe u
variable {α : Type u}

def rootKey : RBTree α → Option α
  | null => none
  | node _ _ k _ => some k

/-- The keys of a tree without the one at its root. -/
def keysBelow : RBTree α → List α
  | null => []
  | node _ l _ r => l.toList ++ r.toList

@[simp] theorem rootKey_null : (null : RBTree α).rootKey = none := rfl

@[simp] theorem rootKey_node (c : Color) (l : RBTree α) (k : α) (r : RBTree α) : (node c l k r).rootKey = some k := rfl

theorem mem_iff_rootKey_or_below {t : RBTree α} {k : α} : k ∈ t ↔ t.rootKey = some k ∨ k ∈ t.keysBelow := by
  cases t with
  | null => simp [mem_iff, keysBelow]
  | node c l j r =>
    simp only [mem_iff, toList_node, rootKey_node, keysBelow, List.mem_append, List.mem_cons, Option.some.injEq,
      eq_comm]
    tauto

section Order
variable [LT α]

/-- Every key is on its side of the key at its parent. -/
def LocallyOrdered : RBTree α → Prop
  | null => True
  | node _ l k r => ((∀ j ∈ l.rootKey, j < k) ∧ ∀ j ∈ r.rootKey, k < j) ∧ l.LocallyOrdered ∧ r.LocallyOrdered

/-- Every key is on its side of the keys further up than its parent. -/
def DeepOrdered : RBTree α → Prop
  | null => True
  | node _ l k r => ((∀ j ∈ l.keysBelow, j < k) ∧ ∀ j ∈ r.keysBelow, k < j) ∧ l.DeepOrdered ∧ r.DeepOrdered

end Order

/-- A search tree is one in which both hold. -/
theorem ordered_iff_local_deep [Preorder α] {t : RBTree α} : t.Ordered ↔ t.LocallyOrdered ∧ t.DeepOrdered := by
  induction t with
  | null => exact iff_of_true .nil ⟨trivial, trivial⟩
  | node c l k r ihl ihr =>
    simp only [ordered_node, LocallyOrdered, DeepOrdered, ihl, ihr, mem_iff_rootKey_or_below, Option.mem_def]
    constructor
    · rintro ⟨left, right, low, high, _⟩
      exact ⟨⟨⟨fun j top => low j (.inl top), fun j top => high j (.inl top)⟩, left.1, right.1⟩,
        ⟨⟨fun j deep => low j (.inr deep), fun j deep => high j (.inr deep)⟩, left.2, right.2⟩⟩
    · rintro ⟨⟨⟨topLow, topHigh⟩, left, right⟩, ⟨deepLow, deepHigh⟩, left', right'⟩
      have low : ∀ x, l.rootKey = some x ∨ x ∈ l.keysBelow → x < k := fun x mem => mem.elim (topLow x) (deepLow x)
      have high : ∀ x, r.rootKey = some x ∨ x ∈ r.keysBelow → k < x := fun x mem => mem.elim (topHigh x) (deepHigh x)
      exact ⟨⟨left, left'⟩, ⟨right, right'⟩, low, high, fun x memX y memY => (low x memX).trans (high y memY)⟩

section Check
variable [LinearOrder α] {t : RBTree α}

/-- A test of every node against its two children, and the number of nodes that it met:
where a node fails, those keysBelow it are not looked at. -/
def checkNode : RBTree α → Nat × Nat
  | null => (1, 0)
  | node c l k r =>
    if (∃ j ∈ l.rootKey, k < j) ∨ (∃ j ∈ r.rootKey, j < k) ∨ c = .red ∧ (l.color = .red ∨ r.color = .red) then (0, 1)
    else (l.checkNode.1 &&& r.checkNode.1, l.checkNode.2 + r.checkNode.2 + 1)

theorem and_eq_one {a b : Nat} (low : a ≤ 1) (low' : b ≤ 1) : a &&& b = 1 ↔ a = 1 ∧ b = 1 := by
  interval_cases a <;> interval_cases b <;> decide

theorem checkNode_le_one : t.checkNode.1 ≤ 1 := by
  induction t with
  | null => exact Nat.le_refl 1
  | node c l k r ihl ihr =>
    unfold checkNode
    split
    · exact Nat.zero_le 1
    · exact Nat.and_le_left.trans ihl

/-- Trees that pass were met at every node. -/
theorem checkNode_count (passed : t.checkNode.1 = 1) : t.checkNode.2 = t.toList.length := by
  induction t with
  | null => rfl
  | node c l k r ihl ihr =>
    unfold checkNode at passed ⊢
    split at passed
    · cases passed
    · next clean =>
      obtain ⟨left, right⟩ := (and_eq_one checkNode_le_one checkNode_le_one).mp passed
      rw [if_neg clean, toList_node, List.length_append, List.length_cons, ← ihl left, ← ihr right]
      omega

/-- The test accepts the trees that are ordered and coloured well from each node to its children. -/
theorem checkNode_eq_one (distinct : t.toList.Nodup) : t.checkNode.1 = 1 ↔ t.LocallyOrdered ∧ t.NoRedRed := by
  induction t with
  | null => exact iff_of_true rfl ⟨trivial, trivial⟩
  | node c l k r ihl ihr =>
    obtain ⟨left, right, other⟩ := List.nodup_append.mp distinct
    obtain ⟨absent, right⟩ := List.nodup_cons.mp right
    have low : ∀ j, l.rootKey = some j → j ≠ k := fun j top =>
      other j (mem_iff_rootKey_or_below.mpr (.inl top)) k List.mem_cons_self
    have high : ∀ j, r.rootKey = some j → j ≠ k := by
      rintro j top rfl
      exact absent (mem_iff_rootKey_or_below.mpr (.inl top))
    have sides : (¬∃ j ∈ l.rootKey, k < j) ∧ (¬∃ j ∈ r.rootKey, j < k) ↔
        (∀ j ∈ l.rootKey, j < k) ∧ ∀ j ∈ r.rootKey, k < j := by
      simp only [not_exists, not_and, not_lt, Option.mem_def]
      exact and_congr ⟨fun le j top => lt_of_le_of_ne (le j top) (low j top), fun lt j top => (lt j top).le⟩
        ⟨fun le j top => lt_of_le_of_ne (le j top) (high j top).symm, fun lt j top => (lt j top).le⟩
    have colors : ¬(c = .red ∧ (l.color = .red ∨ r.color = .red)) ↔
      (c = .red → l.color = .black ∧ r.color = .black) := by
      cases c <;> cases l.color <;> cases r.color <;> simp
    have clean : ¬((∃ j ∈ l.rootKey, k < j) ∨ (∃ j ∈ r.rootKey, j < k) ∨ c = .red ∧ (l.color = .red ∨ r.color = .red)) ↔
        ((∀ j ∈ l.rootKey, j < k) ∧ ∀ j ∈ r.rootKey, k < j) ∧ (c = .red → l.color = .black ∧ r.color = .black) := by
      rw [not_or, not_or, ← and_assoc, sides, colors]
    unfold checkNode LocallyOrdered NoRedRed
    split
    · next broken =>
      refine iff_of_false (by simp) fun ⟨⟨order, _⟩, color, _⟩ => clean.mpr ⟨order, color⟩ broken
    · next whole =>
      rw [and_eq_one checkNode_le_one checkNode_le_one, ihl left, ihr right]
      obtain ⟨order, color⟩ := clean.mp whole
      constructor
      · rintro ⟨⟨orderL, colorL⟩, orderR, colorR⟩
        exact ⟨⟨order, orderL, orderR⟩, color, colorL, colorR⟩
      · rintro ⟨⟨_, orderL, orderR⟩, _, colorL, colorR⟩
        exact ⟨⟨orderL, colorL⟩, orderR, colorR⟩

end Check

end Splab.RedBlack.RBTree
