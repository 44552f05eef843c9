import Mathlib

namespace Splab.Rounding

/-! Numbers `k * 2 ^ i` with a significand of `p` bits, and the one that is nearest to a given value, where the even
significand is taken between two that are equally near. -/

/-- `m * 2 ^ e` is the number with `p` bits that is nearest to `v`. -/
structure NearestEven (p : Nat) (v : ℚ) (m : Nat) (e : Int) : Prop where
  normal : 2 ^ (p - 1) ≤ m ∧ m < 2 ^ p
  nearest : ∀ k i : Int, |k| < 2 ^ p → |v - m * 2 ^ e| ≤ |v - k * 2 ^ i|
  even : ∀ k i : Int, |k| < 2 ^ p → |v - m * 2 ^ e| = |v - k * 2 ^ i| → (k : ℚ) * 2 ^ i = m * 2 ^ e ∨ Even m

/-- `m` is the integer that is nearest to `v / 2 ^ e`, if `q` is the next one below. -/
def Rounded (v : ℚ) (q : Nat) (e : Int) (m : Nat) : Prop :=
  (m = q ∧ 2 * (v - q * 2 ^ e) ≤ 2 ^ e ∧ (2 * (v - q * 2 ^ e) = 2 ^ e → Even m)) ∨
    (m = q + 1 ∧ 2 ^ e ≤ 2 * (v - q * 2 ^ e) ∧ (2 * (v - q * 2 ^ e) = 2 ^ e → Even m))

/-- The integer that is nearest to `n / 2 ^ u`, the even one of two. -/
def roundEven (n u : Nat) : Nat :=
  if 2 ^ u < 2 * (n % 2 ^ u) ∨ 2 * (n % 2 ^ u) = 2 ^ u ∧ n / 2 ^ u % 2 = 1 then n / 2 ^ u + 1 else n / 2 ^ u

section Nearest
variable {p q m n u : Nat} {v : ℚ} {e k i : Int}

/-- There is no number with `p` bits between `q * 2 ^ e` and `(q + 1) * 2 ^ e` if `q` has `p` bits. -/
theorem no_number_between (wide : 1 ≤ p) (low : 2 ^ (p - 1) ≤ q) (small : |k| < 2 ^ p) :
    (k : ℚ) * 2 ^ i ≤ q * 2 ^ e ∨ ((q : ℚ) + 1) * 2 ^ e ≤ k * 2 ^ i := by
  have positive : (0 : ℚ) < 2 ^ e := zpow_pos (by norm_num) e
  by_cases coarse : e ≤ i
  · -- a multiple of `2 ^ e`
    obtain ⟨t, rfl⟩ := Int.le.dest coarse
    have multiple : (k : ℚ) * 2 ^ (e + t : Int) = ((k * 2 ^ t : Int) : ℚ) * 2 ^ e := by
      rw [zpow_add₀ (by norm_num), zpow_natCast]
      push_cast
      ring
    rw [multiple]
    rcases le_or_gt (k * 2 ^ t) (q : Int) with below | above
    · refine .inl (mul_le_mul_of_nonneg_right ?_ positive.le)
      exact_mod_cast below
    · refine .inr (mul_le_mul_of_nonneg_right ?_ positive.le)
      exact_mod_cast above
  · -- too small, as it has at most `p` bits
    left
    have bound : (k : ℚ) < 2 ^ p := by exact_mod_cast (le_abs_self k).trans_lt small
    have double : (2 : ℚ) ^ p = 2 ^ (p - 1) * 2 := by
      rw [← pow_succ, Nat.sub_add_cancel wide]
    have half : (2 : ℚ) ^ i * 2 ≤ 2 ^ e := by
      rw [← zpow_add_one₀ (by norm_num)]
      exact zpow_le_zpow_right₀ (by norm_num) (by omega)
    have least : (2 : ℚ) ^ (p - 1) ≤ q := by exact_mod_cast low
    calc (k : ℚ) * 2 ^ i ≤ 2 ^ p * 2 ^ i := mul_le_mul_of_nonneg_right bound.le (zpow_nonneg (by norm_num) i)
      _ = 2 ^ (p - 1) * (2 ^ i * 2) := by rw [double]; ring
      _ ≤ q * 2 ^ e := mul_le_mul least half (by positivity) (by positivity)

/-- The nearer one of two neighbours is nearer than all other numbers. -/
theorem Rounded.nearest (rounded : Rounded v q e m) (wide : 1 ≤ p) (low : 2 ^ (p - 1) ≤ q) (above : q * 2 ^ e ≤ v)
    (below : v ≤ ((q : ℚ) + 1) * 2 ^ e) (small : |k| < 2 ^ p) : |v - m * 2 ^ e| ≤ |v - k * 2 ^ i| ∧
      (|v - m * 2 ^ e| = |v - k * 2 ^ i| → (k : ℚ) * 2 ^ i = m * 2 ^ e ∨ Even m) := by
  have apart := @no_number_between p q e k i wide low small
  generalize (k : ℚ) * 2 ^ i = y at apart ⊢
  rw [add_mul, one_mul] at apart below
  rcases rounded with ⟨rfl, near, tie⟩ | ⟨rfl, near, tie⟩
  · rw [abs_of_nonneg (sub_nonneg.mpr above)]
    rcases apart with left | right
    · rw [abs_of_nonneg (by linarith)]
      exact ⟨by linarith, fun same => .inl (by linarith)⟩
    · rw [abs_of_nonpos (by linarith)]
      exact ⟨by linarith, fun same => .inr (tie (by linarith))⟩
  · push_cast
    rw [add_mul, one_mul, abs_of_nonpos (by linarith)]
    rcases apart with left | right
    · rw [abs_of_nonneg (by linarith)]
      exact ⟨by linarith, fun same => .inr (tie (by linarith))⟩
    · rw [abs_of_nonpos (by linarith)]
      exact ⟨by linarith, fun same => .inl (by linarith)⟩

/-- If the significand stays below `2 ^ p`, the rounded value is the nearest number. -/
theorem Rounded.nearestEven (rounded : Rounded v q e m) (wide : 1 ≤ p) (low : 2 ^ (p - 1) ≤ q) (above : q * 2 ^ e ≤ v)
    (below : v ≤ ((q : ℚ) + 1) * 2 ^ e) (short : m < 2 ^ p) : NearestEven p v m e where
  normal := by
    refine ⟨?_, short⟩
    rcases rounded with ⟨rfl, _⟩ | ⟨rfl, _⟩
    · exact low
    · omega
  nearest k i small := (rounded.nearest wide low above below small).1
  even k i small := (rounded.nearest wide low above below small).2

/-- If it reaches `2 ^ p`, the exponent takes the carry. -/
theorem Rounded.nearestEven_carry (rounded : Rounded v q e m) (wide : 2 ≤ p) (low : 2 ^ (p - 1) ≤ q)
    (above : q * 2 ^ e ≤ v) (below : v ≤ ((q : ℚ) + 1) * 2 ^ e) (carry : m = 2 ^ p) :
    NearestEven p v (2 ^ (p - 1)) (e + 1) := by
  have double : 2 ^ p = 2 ^ (p - 1) * 2 := by rw [← pow_succ, Nat.sub_add_cancel (by omega)]
  have same : ((2 ^ (p - 1) : Nat) : ℚ) * 2 ^ (e + 1) = m * 2 ^ e := by
    rw [carry, double, zpow_add_one₀ (by norm_num)]
    push_cast
    ring
  have even : Even (2 ^ (p - 1)) := (Nat.even_pow.mpr ⟨even_two, by omega⟩)
  have positive := Nat.two_pow_pos (p - 1)
  refine ⟨⟨le_rfl, by omega⟩, fun k i small => ?_, fun k i small _ => .inr even⟩
  rw [same]
  exact (rounded.nearest (by omega) low above below small).1

/-- A number with `p` bits is the nearest one to itself. -/
theorem nearestEven_exact (normal : 2 ^ (p - 1) ≤ m ∧ m < 2 ^ p) (same : v = m * 2 ^ e) : NearestEven p v m e where
  normal := normal
  nearest k i _ := by
    rw [same, sub_self, abs_zero]
    exact abs_nonneg _
  even k i _ tie := by
    rw [same, sub_self, abs_zero] at tie
    exact .inl (sub_eq_zero.mp (abs_eq_zero.mp tie.symm)).symm

/-- What is nearest to the absolute value is nearest to the value with its sign. -/
theorem NearestEven.signed (near : NearestEven p |v| m e) (small : |k| < 2 ^ p) :
    |v - (if v < 0 then -1 else 1) * (m * 2 ^ e)| ≤ |v - k * 2 ^ i| ∧
      (|v - (if v < 0 then -1 else 1) * (m * 2 ^ e)| = |v - k * 2 ^ i| →
        (k : ℚ) * 2 ^ i = (if v < 0 then -1 else 1) * (m * 2 ^ e) ∨ Even m) := by
  split
  · next negative =>
    have here : |v - -1 * (m * 2 ^ e)| = |(|v|) - m * 2 ^ e| := by
      rw [abs_of_neg negative, ← abs_neg]
      ring_nf
    have there : |v - k * 2 ^ i| = |(|v|) - (-k : Int) * 2 ^ i| := by
      rw [abs_of_neg negative, ← abs_neg]
      push_cast
      ring_nf
    have small' : |-k| < 2 ^ p := by rwa [abs_neg]
    rw [here, there]
    refine ⟨near.nearest (-k) i small', fun tie => (near.even (-k) i small' tie).imp_left fun same => ?_⟩
    push_cast at same
    linarith
  · next positive =>
    rw [one_mul]
    rw [abs_of_nonneg (not_lt.mp positive)] at near
    exact ⟨near.nearest k i small, near.even k i small⟩

theorem roundEven_rounded : Rounded n (n / 2 ^ u) u (roundEven n u) := by
  have split : (n : ℚ) - (n / 2 ^ u : Nat) * 2 ^ (u : Int) = (n % 2 ^ u : Nat) := by
    have parts : ((n / 2 ^ u : Nat) : ℚ) * 2 ^ u + (n % 2 ^ u : Nat) = n := by exact_mod_cast Nat.div_add_mod' n (2 ^ u)
    rw [zpow_natCast]
    linarith
  unfold Rounded roundEven
  rw [split, zpow_natCast]
  split
  · next up =>
    refine .inr ⟨rfl, ?_, fun tie => ?_⟩
    · have : 2 ^ u ≤ 2 * (n % 2 ^ u) := by omega
      exact_mod_cast this
    · have half : 2 * (n % 2 ^ u) = 2 ^ u := by exact_mod_cast tie
      rw [Nat.even_iff]
      omega
  · next down =>
    refine .inl ⟨rfl, ?_, fun tie => ?_⟩
    · have : 2 * (n % 2 ^ u) ≤ 2 ^ u := by omega
      exact_mod_cast this
    · have half : 2 * (n % 2 ^ u) = 2 ^ u := by exact_mod_cast tie
      rw [Nat.even_iff]
      omega

/-- Rounding by the first bit that is cut off, the rest of these bits, and the last bit that is kept. -/
theorem roundEven_succ : roundEven n (u + 1) = n / 2 ^ (u + 1) +
    if n / 2 ^ u % 2 = 1 ∧ (n % 2 ^ u ≠ 0 ∨ n / 2 ^ (u + 1) % 2 = 1) then 1 else 0 := by
  have cut : n % 2 ^ (u + 1) = n % 2 ^ u + 2 ^ u * (n / 2 ^ u % 2) := Nat.mod_pow_succ
  have small : n % 2 ^ u < 2 ^ u := Nat.mod_lt _ (Nat.two_pow_pos u)
  have bit : n / 2 ^ u % 2 < 2 := Nat.mod_lt _ (by omega)
  unfold roundEven
  rw [cut, Nat.pow_succ 2 u]
  generalize n / (2 ^ u * 2) = q
  generalize n / 2 ^ u % 2 = b at bit ⊢
  generalize n % 2 ^ u = rest at small ⊢
  obtain rfl | rfl : b = 0 ∨ b = 1 := by omega
  · rw [if_neg (by omega), if_neg (by omega), Nat.add_zero]
  · by_cases up : rest ≠ 0 ∨ q % 2 = 1
    · rw [if_pos (by omega), if_pos ⟨rfl, up⟩]
    · rw [if_neg (by omega), if_neg fun both => up both.2, Nat.add_zero]

/-- An integer with `p + u` digits is rounded by cutting off `u` of them. -/
theorem nearestEven_roundEven (wide : 2 ≤ p) (low : 2 ^ (p - 1 + u) ≤ n) (high : n < 2 ^ (p + u)) :
    (roundEven n u < 2 ^ p ∧ NearestEven p n (roundEven n u) u) ∨
      (roundEven n u = 2 ^ p ∧ NearestEven p n (2 ^ (p - 1)) (u + 1)) := by
  have positive := Nat.two_pow_pos u
  have least : 2 ^ (p - 1) ≤ n / 2 ^ u := by
    rw [Nat.le_div_iff_mul_le positive, ← Nat.pow_add]
    exact low
  have most : n / 2 ^ u < 2 ^ p := by
    rw [Nat.div_lt_iff_lt_mul positive, ← Nat.pow_add]
    exact high
  have above : ((n / 2 ^ u : Nat) : ℚ) * 2 ^ (u : Int) ≤ n := by
    rw [zpow_natCast]
    exact_mod_cast Nat.div_mul_le_self n (2 ^ u)
  have below : (n : ℚ) ≤ ((n / 2 ^ u : Nat) + 1) * 2 ^ (u : Int) := by
    rw [zpow_natCast]
    exact_mod_cast (Nat.lt_mul_of_div_lt (Nat.lt_succ_self _) positive).le
  have range : roundEven n u ≤ n / 2 ^ u + 1 := by
    unfold roundEven
    split <;> omega
  rcases Nat.lt_or_ge (roundEven n u) (2 ^ p) with short | long
  · exact .inl ⟨short, roundEven_rounded.nearestEven (by omega) least above below short⟩
  · have carry : roundEven n u = 2 ^ p := by omega
    exact .inr ⟨carry, roundEven_rounded.nearestEven_carry wide least above below carry⟩

end Nearest

end Splab.Rounding
