import Mathlib

namespace Splab.Lanes
open Finset

/-! A number as a row of lanes of the same width, the lowest one first, and sums that are made in all lanes at
once. -/

/-- The lane `j` of width `w`. -/
def lane (w n j : Nat) : Nat := n / 2 ^ (w * j) % 2 ^ w

/-- The lower lane of each of the first `k` pairs of lanes. -/
def lowMask (w : Nat) : Nat → Nat
  | 0 => 0
  | k + 1 => 2 ^ w - 1 + 2 ^ (2 * w) * lowMask w k

/-- Adds the two lanes of each pair that the mask selects. -/
def addPairs (w m n : Nat) : Nat := (n &&& m) + (n / 2 ^ w &&& m)

section Lanes
variable {w k n m a b j : Nat}

theorem lane_lt : lane w n j < 2 ^ w := Nat.mod_lt _ (Nat.two_pow_pos w)

theorem lane_zero : lane w n 0 = n % 2 ^ w := by
  rw [lane, Nat.mul_zero, Nat.pow_zero, Nat.div_one]

theorem lane_low (small : a < 2 ^ w) : lane w (a + 2 ^ w * b) 0 = a := by
  rw [lane_zero, Nat.add_mul_mod_self_left, Nat.mod_eq_of_lt small]

theorem lane_high (small : a < 2 ^ w) : lane w (a + 2 ^ w * b) (j + 1) = lane w b j := by
  rw [lane, lane, Nat.mul_succ, Nat.add_comm (w * j), Nat.pow_add, ← Nat.div_div_eq_div_mul,
    Nat.add_mul_div_left _ _ (Nat.two_pow_pos w), Nat.div_eq_of_lt small, Nat.zero_add]

theorem lane_div : lane w (n / 2 ^ (w * k)) j = lane w n (k + j) := by
  rw [lane, lane, Nat.div_div_eq_div_mul, ← Nat.pow_add, ← Nat.mul_add]

theorem lane_full (small : n < 2 ^ w) : lane w n 0 = n := by
  rw [lane_zero, Nat.mod_eq_of_lt small]

/-- The conjunction of two numbers can be taken in the lower bits and in the upper ones. -/
theorem and_split (small : a < 2 ^ w) : n &&& (a + 2 ^ w * b) = (n % 2 ^ w &&& a) + 2 ^ w * (n / 2 ^ w &&& b) := by
  have low : (a + 2 ^ w * b) % 2 ^ w = a := by rw [Nat.add_mul_mod_self_left, Nat.mod_eq_of_lt small]
  have high : (a + 2 ^ w * b) / 2 ^ w = b := by
    rw [Nat.add_mul_div_left _ _ (Nat.two_pow_pos w), Nat.div_eq_of_lt small, Nat.zero_add]
  calc n &&& (a + 2 ^ w * b)
      = (n &&& (a + 2 ^ w * b)) % 2 ^ w + 2 ^ w * ((n &&& (a + 2 ^ w * b)) / 2 ^ w) := (Nat.mod_add_div _ _).symm
    _ = (n % 2 ^ w &&& a) + 2 ^ w * (n / 2 ^ w &&& b) := by
        rw [Nat.and_mod_two_pow, Nat.and_div_two_pow, low, high]

/-- The mask of `k + 1` pairs keeps the lowest lane and masks the rest. -/
theorem and_lowMask : n &&& lowMask w (k + 1) = lane w n 0 + 2 ^ (2 * w) * (n / 2 ^ (2 * w) &&& lowMask w k) := by
  have narrow : 2 ^ w ≤ 2 ^ (2 * w) := Nat.pow_le_pow_right (by omega) (by omega)
  have positive := Nat.two_pow_pos w
  rw [lowMask, and_split (by omega), Nat.and_two_pow_sub_one_eq_mod, lane_zero,
    Nat.mod_mod_of_dvd _ (Nat.pow_dvd_pow 2 (by omega))]

theorem lane_and_lowMask (wide : 1 ≤ w) (inside : j < k) : lane (2 * w) (n &&& lowMask w k) j = lane w n (2 * j) := by
  have narrow : lane w n 0 < 2 ^ (2 * w) := lane_lt.trans_le (Nat.pow_le_pow_right (by omega) (by omega))
  induction k generalizing n j with
  | zero => omega
  | succ k ih =>
    have rest : lane w (n / 2 ^ (2 * w)) 0 < 2 ^ (2 * w) :=
      lane_lt.trans_le (Nat.pow_le_pow_right (by omega) (by omega))
    rw [and_lowMask]
    cases j with
    | zero => exact lane_low narrow
    | succ j =>
      rw [lane_high narrow, ih (by omega) rest, Nat.mul_comm 2 w, lane_div]
      congr 1
      omega

theorem addPairs_succ : addPairs w (lowMask w (k + 1)) n =
    (lane w n 0 + lane w n 1) + 2 ^ (2 * w) * addPairs w (lowMask w k) (n / 2 ^ (2 * w)) := by
  have next : lane w (n / 2 ^ w) 0 = lane w n 1 := by
    simpa using @lane_div w 1 n 0
  have swap : n / 2 ^ w / 2 ^ (2 * w) = n / 2 ^ (2 * w) / 2 ^ w := Nat.div_right_comm ..
  rw [addPairs, and_lowMask, and_lowMask, next, swap, addPairs, Nat.mul_add]
  omega

/-- The sum of two lanes fits in a lane of twice the width. -/
theorem lane_add_lt (wide : 1 ≤ w) : lane w a j + lane w b k < 2 ^ (2 * w) := by
  have first := @lane_lt w a j
  have second := @lane_lt w b k
  have two : 2 ≤ 2 ^ w := by simpa using Nat.pow_le_pow_right (by omega : 2 > 0) wide
  have square : 2 ^ (2 * w) = 2 ^ w * 2 ^ w := by rw [Nat.two_mul, Nat.pow_add]
  calc lane w a j + lane w b k < 2 * 2 ^ w := by omega
    _ ≤ 2 ^ w * 2 ^ w := Nat.mul_le_mul_right _ two
    _ = 2 ^ (2 * w) := square.symm

/-- Each pair of lanes becomes one lane that holds their sum: no sum runs into the next lane. -/
theorem lane_addPairs (wide : 1 ≤ w) (inside : j < k) :
    lane (2 * w) (addPairs w (lowMask w k) n) j = lane w n (2 * j) + lane w n (2 * j + 1) := by
  induction k generalizing n j with
  | zero => omega
  | succ k ih =>
    rw [addPairs_succ]
    cases j with
    | zero => exact lane_low (lane_add_lt wide)
    | succ j =>
      have shift : ∀ i, lane w (n / 2 ^ (2 * w)) i = lane w n (2 + i) := fun i => by
        rw [Nat.mul_comm 2 w]
        exact lane_div
      rw [lane_high (lane_add_lt wide), ih (by omega), shift, shift]
      congr 2 <;> omega

/-- The sums need no more bits than the lanes. -/
theorem addPairs_lt (wide : 1 ≤ w) : addPairs w (lowMask w k) n < 2 ^ (2 * w * k) := by
  induction k generalizing n with
  | zero => simp [addPairs, lowMask]
  | succ k ih =>
    have low : lane w n 0 + lane w n 1 < 2 ^ (2 * w) := lane_add_lt wide
    have high := @ih (n / 2 ^ (2 * w))
    rw [addPairs_succ, Nat.mul_succ, Nat.add_comm (2 * w * k), Nat.pow_add]
    calc (lane w n 0 + lane w n 1) + 2 ^ (2 * w) * addPairs w (lowMask w k) (n / 2 ^ (2 * w))
        < 2 ^ (2 * w) * 1 + 2 ^ (2 * w) * addPairs w (lowMask w k) (n / 2 ^ (2 * w)) := by omega
      _ = 2 ^ (2 * w) * (addPairs w (lowMask w k) (n / 2 ^ (2 * w)) + 1) := by rw [← Nat.mul_add, Nat.add_comm]
      _ ≤ 2 ^ (2 * w) * 2 ^ (2 * w * k) := Nat.mul_le_mul_left _ high

end Lanes

/-- The number of ones among `len` bits from bit `i` on. -/
def ones (n i len : Nat) : Nat := ∑ t ∈ range len, lane 1 n (i + t)

/-- Each of the first `k` lanes of `y` holds the number of ones of `x` at the lane's own bits. -/
def Counts (w k x y : Nat) : Prop := ∀ j < k, lane w y j = ones x (w * j) w

section Ones
variable {w k n x y i len more : Nat}

theorem ones_add : ones n i (len + more) = ones n i len + ones n (i + len) more := by
  unfold ones
  rw [sum_range_add]
  simp only [Nat.add_assoc]

theorem ones_succ : ones n i (len + 1) = ones n i len + lane 1 n (i + len) := sum_range_succ ..

theorem ones_le : ones n i len ≤ len := by
  induction len with
  | zero => simp [ones]
  | succ len ih =>
    have bit := @lane_lt 1 n (i + len)
    rw [ones_succ]
    omega

theorem counts_start : Counts 1 k x x := fun j _ => by
  simp [ones]

/-- Adding the lanes pairwise takes the counts to lanes of twice the width. -/
theorem Counts.addPairs (counts : Counts w (2 * k) x y) (wide : 1 ≤ w) :
    Counts (2 * w) k x (addPairs w (lowMask w k) y) := by
  intro j inside
  have first := counts (2 * j) (by omega)
  have second := counts (2 * j + 1) (by omega)
  rw [lane_addPairs wide inside, first, second, Nat.two_mul w, ones_add]
  congr 2 <;> ring

end Ones

end Splab.Lanes
