import Splab.Lib.RedBlack.Basic

namespace Splab.RedBlack.RBTree
universe u
variable {α : Type u} {t : RBTree α} {c : Color} {n : Nat}

/-- On a path with `n` black nodes there are at most `n` red ones, and one more below a red root. -/
theorem Balanced.height_le (bal : t.Balanced c n) : t.height ≤ 2 * n + if c = .red then 1 else 0 := by
  induction bal with
  | null => exact Nat.zero_le _
  | red left right ihl ihr =>
    simp only [height, reduceCtorEq, if_false, if_true] at ihl ihr ⊢
    omega
  | @black l k r c d n left right ihl ihr =>
    have one : ∀ e : Color, (if e = .red then 1 else 0) ≤ 1 := fun e => by cases e <;> decide
    have := one c
    have := one d
    simp only [height, reduceCtorEq, if_false]
    omega

/-- A tree with `n` black nodes on every path holds a full tree of that height. -/
theorem Balanced.two_pow_le (bal : t.Balanced c n) : 2 ^ n ≤ t.toList.length + 1 := by
  induction bal with
  | null => exact Nat.le_refl 1
  | red left right ihl ihr =>
    rw [toList_node, List.length_append, List.length_cons]
    omega
  | black left right ihl ihr =>
    rw [toList_node, List.length_append, List.length_cons, Nat.pow_succ]
    omega

/-- The height of a red-black tree is at most twice the logarithm of the number of its keys, plus one. -/
theorem IsRedBlack.height_le_logb [LT α] (valid : t.IsRedBlack) :
    (t.height : ℝ) ≤ 2 * Real.logb 2 (t.toList.length + 1) := by
  have bal := balanced_of_counts valid.noRedRed valid.blackHeight.choose_spec
  rw [valid.rootBlack] at bal
  have height : (t.height : ℝ) ≤ 2 * valid.blackHeight.choose := by exact_mod_cast bal.height_le
  have counted : ((2 : ℝ) ^ valid.blackHeight.choose) ≤ t.toList.length + 1 := by exact_mod_cast bal.two_pow_le
  have logarithm : (valid.blackHeight.choose : ℝ) ≤ Real.logb 2 (t.toList.length + 1) := by
    rw [Real.le_logb_iff_rpow_le (by norm_num) (by positivity), Real.rpow_natCast]
    exact counted
  linarith

end Splab.RedBlack.RBTree
