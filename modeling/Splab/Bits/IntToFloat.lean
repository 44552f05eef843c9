import Splab.Lib.Rounding

namespace Splab.Bits
open Rounding

/-- `while(t) { b = b + 1; t = t >> 1; }`, with the value of `b` after it. -/
def countDigits (t : BitVec 32) (b : Int) : Int :=
  if t = 0 then b else countDigits (t >>> 1) (b + 1)
termination_by t.toNat
decreasing_by
  have positive : t.toNat ≠ 0 := fun zero => by
    have : t = 0 := BitVec.eq_of_toNat_eq zero
    contradiction
  rw [BitVec.toNat_ushiftRight, Nat.shiftRight_eq_div_pow]
  omega

/-- `while(f >> 25) { c = c | (f & 1); f = f >> 1; }`, with the values of `f` and `c` after it. -/
def dropDigits (f c : BitVec 32) : BitVec 32 × BitVec 32 :=
  if f >>> 25 = 0 then (f, c) else dropDigits (f >>> 1) (c ||| (f &&& 1))
termination_by f.toNat
decreasing_by
  have positive : f.toNat ≠ 0 := fun zero => by
    have : f >>> 25 = 0 := BitVec.eq_of_toNat_eq (by rw [BitVec.toNat_ushiftRight, zero]; rfl)
    contradiction
  rw [BitVec.toNat_ushiftRight, Nat.shiftRight_eq_div_pow]
  omega

def floatI2f (x : BitVec 32) : BitVec 32 :=
  let r : BitVec 32 := if x.sshiftRight 31 ≠ 0 then 0x80000000 else 0x00000000
  let f := if x.sshiftRight 31 ≠ 0 then ~~~x + 1 else x
  let b := countDigits f 0
  let s := 24 - b
  let (f, s, b) :=
    if s < 0 then
      let (f, c) := dropDigits f 0
      let f := (f >>> 1) + (f &&& (c ||| (f >>> 1)) &&& 1)
      (f, 0, if f >>> 24 ≠ 0 then b + 1 else b)
    else (f, s, b)
  let b := if b = 0 then -126 else b
  let r := r ||| ((f <<< s.toNat) &&& 0x007FFFFF)
  r ||| (BitVec.ofInt 32 (b + 126) <<< 23)

/-- The fields of a single. -/
def signBit (r : BitVec 32) : Bool := r.msb

def expField (r : BitVec 32) : Nat := r.toNat / 2 ^ 23 % 2 ^ 8

def fraction (r : BitVec 32) : Nat := r.toNat % 2 ^ 23

/-- The significand with its leading one, which subnormal numbers do not have. -/
def significand (r : BitVec 32) : Nat := if expField r = 0 then fraction r else 2 ^ 23 + fraction r

def exponent (r : BitVec 32) : Int := max 1 (expField r) - 150

/-- Neither an infinity nor a NaN. -/
def IsFinite (r : BitVec 32) : Prop := expField r ≠ 255

/-- The value of a finite single. -/
def singleValue (r : BitVec 32) : ℚ := (if signBit r then -1 else 1) * (significand r * 2 ^ exponent r)

section Loops
variable {t f c : BitVec 32} {b : Int}

theorem shift_toNat {n : Nat} : (f >>> n).toNat = f.toNat / 2 ^ n := by
  rw [BitVec.toNat_ushiftRight, Nat.shiftRight_eq_div_pow]

theorem size_half {n : Nat} (nonzero : n ≠ 0) : n.size = (n / 2).size + 1 := by
  obtain ⟨k, size⟩ := Nat.exists_eq_succ_of_ne_zero (Nat.size_pos.mpr (Nat.pos_of_ne_zero nonzero)).ne'
  refine le_antisymm ?_ ?_
  · have half := Nat.lt_size_self (n / 2)
    rw [Nat.size_le, Nat.pow_succ]
    omega
  · have whole := Nat.lt_size_self n
    rw [size, Nat.pow_succ] at whole
    have short : (n / 2).size ≤ k := Nat.size_le.mpr (by omega)
    omega

/-- The first loop adds the number of binary digits. -/
theorem countDigits_eq : countDigits t b = b + t.toNat.size := by
  fun_induction countDigits t b with
  | case1 b => simp
  | case2 t b nonzero ih =>
    have positive : t.toNat ≠ 0 := fun zero => nonzero (BitVec.eq_of_toNat_eq zero)
    rw [ih, shift_toNat, pow_one, size_half positive]
    push_cast
    ring

theorem lowBit_eq : f.getLsbD 0 = decide (f.toNat % 2 = 1) := Nat.testBit_zero f.toNat

/-- The second loop cuts off digits until 25 are left, and its `c` ends with a one if one of them was a one. -/
theorem dropDigits_eq : ∃ k, (dropDigits f c).1.toNat = f.toNat / 2 ^ k ∧ f.toNat / 2 ^ k < 2 ^ 25 ∧
    (k = 0 ∨ 2 ^ 24 ≤ f.toNat / 2 ^ k) ∧
      (dropDigits f c).2.getLsbD 0 = (c.getLsbD 0 || decide (f.toNat % 2 ^ k ≠ 0)) := by
  fun_induction dropDigits f c with
  | case1 f c short =>
    have zero : f.toNat / 2 ^ 25 = 0 := by
      rw [← shift_toNat, short]
      rfl
    refine ⟨0, by simp, ?_, .inl rfl, by simp [Nat.mod_one]⟩
    omega
  | case2 f c long ih =>
    have big : 1 ≤ f.toNat / 2 ^ 25 := by
      rw [Nat.one_le_iff_ne_zero, ← shift_toNat]
      exact fun zero => long (BitVec.eq_of_toNat_eq zero)
    obtain ⟨k, digits, short, full, sticky⟩ := ih
    have halves : f.toNat / 2 / 2 ^ k = f.toNat / 2 ^ (k + 1) := by
      rw [Nat.div_div_eq_div_mul, Nat.pow_succ, Nat.mul_comm]
    rw [shift_toNat, pow_one, halves] at digits short full
    refine ⟨k + 1, digits, short, .inr ?_, ?_⟩
    · rcases full with rfl | full
      · omega
      · exact full
    · have cut : f.toNat % 2 ^ (k + 1) = f.toNat % 2 + 2 * (f.toNat / 2 % 2 ^ k) := by
        rw [Nat.pow_succ, Nat.mul_comm, Nat.mod_mul]
      rw [sticky, shift_toNat, pow_one, cut, BitVec.getLsbD_or, BitVec.getLsbD_and, @lowBit_eq f,
        show (1 : BitVec 32).getLsbD 0 = true from rfl, Bool.and_true, Bool.or_assoc, ← Bool.decide_or]
      have parts : ∀ rest, (f.toNat % 2 = 1 ∨ rest ≠ 0) ↔ f.toNat % 2 + 2 * rest ≠ 0 := fun rest => by omega
      rw [decide_eq_decide.mpr (parts _)]

/-- What is left is rounded by the last bit, the bit before it and `c`. -/
theorem roundLast_toNat (short : f.toNat < 2 ^ 25) : ((f >>> 1) + (f &&& (c ||| (f >>> 1)) &&& 1)).toNat =
    f.toNat / 2 + if f.toNat % 2 = 1 ∧ (c.getLsbD 0 = true ∨ f.toNat / 2 % 2 = 1) then 1 else 0 := by
  have bit : (f &&& (c ||| (f >>> 1)) &&& 1).toNat =
      if f.toNat % 2 = 1 ∧ (c.getLsbD 0 = true ∨ f.toNat / 2 % 2 = 1) then 1 else 0 := by
    have low : (f &&& (c ||| (f >>> 1))).getLsbD 0 =
        decide (f.toNat % 2 = 1 ∧ (c.getLsbD 0 = true ∨ f.toNat / 2 % 2 = 1)) := by
      rw [BitVec.getLsbD_and, BitVec.getLsbD_or, lowBit_eq, @lowBit_eq (f >>> 1), shift_toNat, pow_one]
      simp
    rw [BitVec.toNat_and, show (1 : BitVec 32).toNat = 1 from rfl, Nat.and_one_is_mod]
    rw [lowBit_eq, decide_eq_decide] at low
    split
    · next up => exact low.mpr up
    · next down => exact (Nat.mod_two_eq_zero_or_one _).resolve_right fun one => down (low.mp one)
  rw [BitVec.toNat_add, bit, shift_toNat, pow_one]
  refine Nat.mod_eq_of_lt ?_
  split <;> omega

/-- The digits are cut to 24 as rounding demands. -/
theorem cutDigits_toNat (long : 2 ^ 24 ≤ t.toNat) : ∃ k, 2 ^ (24 + k) ≤ t.toNat ∧ t.toNat < 2 ^ (25 + k) ∧
    (((dropDigits t 0).1 >>> 1) +
      ((dropDigits t 0).1 &&& ((dropDigits t 0).2 ||| ((dropDigits t 0).1 >>> 1)) &&& 1)).toNat
      = roundEven t.toNat (k + 1) := by
  obtain ⟨k, digits, short, full, sticky⟩ := @dropDigits_eq t 0
  refine ⟨k, ?_, ?_, ?_⟩
  · have least : 2 ^ 24 ≤ t.toNat / 2 ^ k := by
      rcases full with rfl | full
      · simpa using long
      · exact full
    rw [Nat.pow_add]
    exact (Nat.le_div_iff_mul_le (Nat.two_pow_pos k)).mp least
  · rw [Nat.pow_add]
    exact (Nat.div_lt_iff_lt_mul (Nat.two_pow_pos k)).mp short
  · have halves : t.toNat / 2 ^ k / 2 = t.toNat / 2 ^ (k + 1) := by rw [Nat.div_div_eq_div_mul, Nat.pow_succ]
    rw [roundLast_toNat (digits ▸ short), digits, halves, roundEven_succ, sticky,
      show (0 : BitVec 32).getLsbD 0 = false from rfl]
    simp

end Loops

section Pack
variable {x y : BitVec 32} {e : Nat} {negative : Prop} [Decidable negative]

/-- The three parts of the result do not overlap. -/
theorem pack_toNat (small : e < 2 ^ 8) :
    ((if negative then (0x80000000 : BitVec 32) else 0x00000000) ||| (y &&& (0x007FFFFF : BitVec 32)) |||
      (BitVec.ofInt 32 e <<< 23)).toNat =
      (if negative then 2 ^ 31 else 0) + (2 ^ 23 * e + y.toNat % 2 ^ 23) := by
  have part : y.toNat % 2 ^ 23 < 2 ^ 23 := Nat.mod_lt _ (by decide)
  have frac : (y &&& 0x007FFFFF).toNat = y.toNat % 2 ^ 23 := Nat.and_two_pow_sub_one_eq_mod y.toNat 23
  have exp : (BitVec.ofInt 32 e <<< 23).toNat = 2 ^ 23 * e := by
    rw [BitVec.toNat_shiftLeft, BitVec.ofInt_natCast, BitVec.toNat_ofNat, Nat.shiftLeft_eq]
    omega
  have rest : (2 ^ 23 * e ||| y.toNat % 2 ^ 23) = 2 ^ 23 * e + y.toNat % 2 ^ 23 :=
    (Nat.two_pow_add_eq_or_of_lt part e).symm
  rw [BitVec.toNat_or, BitVec.toNat_or, frac, exp, Nat.or_assoc, Nat.or_comm (y.toNat % 2 ^ 23), rest]
  split
  · have bound : 2 ^ 23 * e + y.toNat % 2 ^ 23 < 2 ^ 31 := by omega
    exact (Nat.two_pow_add_eq_or_of_lt bound 1).symm
  · rw [Nat.zero_add]
    exact Nat.zero_or _

/-- The shift leaves the sign in all bits. -/
theorem sign_iff : x.sshiftRight 31 ≠ 0 ↔ x.toInt < 0 := by
  have shifted : (x.sshiftRight 31).toInt = x.toInt / 2 ^ 31 := by
    rw [BitVec.toInt_sshiftRight, Int.shiftRight_eq_div_pow]
    rfl
  have low := @BitVec.le_toInt 32 x
  have high := @BitVec.toInt_lt 32 x
  rw [ne_eq, ← BitVec.toInt_inj, shifted, show (0 : BitVec 32).toInt = 0 from rfl]
  omega

/-- The absolute value as an unsigned number, also of the least `int`. -/
theorem magnitude_toNat : (if x.sshiftRight 31 ≠ 0 then ~~~x + 1 else x).toNat = x.toInt.natAbs := by
  have whole := x.isLt
  have value := @BitVec.toInt_eq_toNat_cond 32 x
  simp only [sign_iff]
  split
  · rw [show ~~~x + 1 = -x from (BitVec.neg_eq_not_add x).symm, BitVec.toNat_neg]
    split at value <;> omega
  · split at value <;> omega

end Pack

/-- The single `r` is the one nearest to the integer `x`, which is not 0. Its significand has 24 bits, and no
number with 24 bits and any exponent is nearer. -/
structure NearestSingle (x : Int) (r : BitVec 32) : Prop where
  finite : IsFinite r
  sign : signBit r = decide (x < 0)
  magnitude : NearestEven 24 |(x : ℚ)| (significand r) (exponent r)
  nearest : ∀ y, IsFinite y → |x - singleValue r| ≤ |x - singleValue y|
  even : ∀ y, IsFinite y → |x - singleValue r| = |x - singleValue y| →
    singleValue y = singleValue r ∨ Even (significand r)

section Nearest
variable {x r y : BitVec 32} {n : Nat}

/-- The value of a finite single is a number with 24 bits. -/
theorem singleValue_eq (y : BitVec 32) : ∃ k : Int, |k| < 2 ^ 24 ∧ singleValue y = k * 2 ^ exponent y := by
  have small : significand y < 2 ^ 24 := by
    have part : fraction y < 2 ^ 23 := Nat.mod_lt _ (by decide)
    unfold significand
    split <;> omega
  unfold singleValue
  split
  · refine ⟨-significand y, ?_, by push_cast; ring⟩
    rw [abs_neg, Nat.abs_cast]
    exact_mod_cast small
  · refine ⟨significand y, ?_, by push_cast; ring⟩
    rw [Nat.abs_cast]
    exact_mod_cast small

theorem nearestSingle_of_magnitude {z : Int} (finite : IsFinite r) (sign : signBit r = decide (z < 0))
    (magnitude : NearestEven 24 |(z : ℚ)| (significand r) (exponent r)) : NearestSingle z r := by
  have value : singleValue r = (if (z : ℚ) < 0 then -1 else 1) * (significand r * 2 ^ exponent r) := by
    simp [singleValue, sign]
  refine ⟨finite, sign, magnitude, fun y _ => ?_, fun y _ => ?_⟩
  · obtain ⟨k, small, other⟩ := singleValue_eq y
    rw [value, other]
    exact (magnitude.signed small).1
  · obtain ⟨k, small, other⟩ := singleValue_eq y
    rw [value, other]
    exact (magnitude.signed small).2

/-- The result for a number that is not 0, from its exponent and its significand with 24 bits. -/
theorem nearestSingle_of_pack {e m : Nat} (low : 1 ≤ e) (high : e < 255) (normal : 2 ^ 23 ≤ m ∧ m < 2 ^ 24)
    (cut : y.toNat % 2 ^ 23 = m - 2 ^ 23)
    (near : NearestEven 24 x.toInt.natAbs m (e - 150)) : NearestSingle x.toInt
      ((if x.sshiftRight 31 ≠ 0 then (0x80000000 : BitVec 32) else 0x00000000) ||| (y &&& (0x007FFFFF : BitVec 32)) |||
        (BitVec.ofInt 32 e <<< 23)) := by
  have packed := @pack_toNat y e (x.sshiftRight 31 ≠ 0) _ (by omega)
  simp only [sign_iff] at packed ⊢
  generalize (if x.toInt < 0 then (0x80000000 : BitVec 32) else 0x00000000) ||| (y &&& (0x007FFFFF : BitVec 32)) |||
    (BitVec.ofInt 32 e <<< 23) = r at packed ⊢
  rw [cut] at packed
  have exp : expField r = e := by
    unfold expField
    split at packed <;> omega
  have sig : significand r = m := by
    rw [significand, exp, if_neg (by omega)]
    unfold fraction
    split at packed <;> omega
  have pow : exponent r = e - 150 := by
    unfold exponent
    omega
  have sign : signBit r = decide (x.toInt < 0) := by
    rw [signBit, BitVec.msb_eq_decide, decide_eq_decide]
    split at packed <;> omega
  refine nearestSingle_of_magnitude (by unfold IsFinite; omega) sign ?_
  rw [sig, pow]
  have abs : |((x.toInt : Int) : ℚ)| = x.toInt.natAbs := by
    rw [← Int.cast_abs, Int.abs_eq_natAbs, Int.cast_natCast]
  rwa [abs]

/-- A number of at most 24 digits is moved to the left; nothing is lost. -/
theorem nearestEven_shifted {d : Nat} (low : 2 ^ (d - 1) ≤ n) (high : n < 2 ^ d) (positive : 1 ≤ d) (short : d ≤ 24) :
    (2 ^ 23 ≤ n * 2 ^ (24 - d) ∧ n * 2 ^ (24 - d) < 2 ^ 24) ∧
      NearestEven 24 n (n * 2 ^ (24 - d)) ((d + 126 : Nat) - 150) := by
  have normal : 2 ^ 23 ≤ n * 2 ^ (24 - d) ∧ n * 2 ^ (24 - d) < 2 ^ 24 := by
    constructor
    · calc 2 ^ 23 = 2 ^ (d - 1) * 2 ^ (24 - d) := by rw [← Nat.pow_add]; congr 1; omega
        _ ≤ n * 2 ^ (24 - d) := Nat.mul_le_mul_right _ low
    · calc n * 2 ^ (24 - d) < 2 ^ d * 2 ^ (24 - d) := Nat.mul_lt_mul_of_pos_right high (Nat.two_pow_pos _)
        _ = 2 ^ 24 := by rw [← Nat.pow_add]; congr 1; omega
  refine ⟨normal, nearestEven_exact normal ?_⟩
  have back : ((24 - d : Nat) : Int) + ((d + 126 : Nat) - 150) = 0 := by omega
  push_cast
  rw [mul_assoc, ← zpow_natCast, ← zpow_add₀ (by norm_num)]
  have back : ((24 - d : Nat) : Int) + ((d + 126 : Int) - 150) = 0 := by omega
  rw [back, zpow_zero, mul_one]

/-- What was rounded is packed; one digit too many is left to the exponent. -/
theorem nearestSingle_rounded {m : BitVec 32} {k : Nat} {b : Int} (fits : k ≤ 7)
    (near : m.toNat < 2 ^ 24 ∧ NearestEven 24 x.toInt.natAbs m.toNat (k + 1 : Nat) ∨
      m.toNat = 2 ^ 24 ∧ NearestEven 24 x.toInt.natAbs (2 ^ (24 - 1)) ((k + 1 : Nat) + 1))
    (digits : b = if m >>> 24 ≠ 0 then ((25 + k : Nat) : Int) + 1 else (25 + k : Nat)) :
    NearestSingle x.toInt
      ((if x.sshiftRight 31 ≠ 0 then (0x80000000 : BitVec 32) else 0x00000000) |||
          ((m <<< (0 : Int).toNat) &&& (0x007FFFFF : BitVec 32)) |||
        (BitVec.ofInt 32 ((if b = 0 then -126 else b) + 126) <<< 23)) := by
  have same : (m <<< (0 : Int).toNat).toNat = m.toNat := by
    rw [show (0 : Int).toNat = 0 from rfl, BitVec.shiftLeft_zero]
  rcases near with ⟨short, near⟩ | ⟨carry, near⟩
  · have small : ¬m >>> 24 ≠ 0 := by
      refine not_not.mpr (BitVec.eq_of_toNat_eq ?_)
      rw [shift_toNat, Nat.div_eq_of_lt short]
      rfl
    rw [if_neg small] at digits
    have field : (if b = 0 then -126 else b) + 126 = (151 + k : Nat) := by
      rw [if_neg (by omega)]
      omega
    have place : ((k + 1 : Nat) : Int) = (151 + k : Nat) - 150 := by omega
    have least := near.normal.1
    rw [field]
    refine nearestSingle_of_pack (by omega) (by omega) near.normal (by rw [same]; omega) ?_
    rwa [← place]
  · have big : m >>> 24 ≠ 0 := fun zero => by
      have none : m.toNat / 2 ^ 24 = 0 := by rw [← shift_toNat, zero]; rfl
      omega
    rw [if_pos big] at digits
    have field : (if b = 0 then -126 else b) + 126 = (152 + k : Nat) := by
      rw [if_neg (by omega)]
      omega
    have place : ((k + 1 : Nat) : Int) + 1 = (152 + k : Nat) - 150 := by omega
    rw [field]
    refine nearestSingle_of_pack (by omega) (by omega) near.normal (by rw [same]; omega) ?_
    rwa [← place]

/-- `float_i2f` gives the nearest single, the even one of two. -/
theorem floatI2f_nearest (x : BitVec 32) :
    if x = 0 then floatI2f x = 0 else NearestSingle x.toInt (floatI2f x) := by
  split
  · next zero =>
    have none : countDigits 0 0 = 0 := by
      rw [countDigits]
      rfl
    have plain : ¬(0 : BitVec 32).sshiftRight 31 ≠ 0 := by decide
    subst zero
    unfold floatI2f
    simp only [if_neg plain, none]
    decide
  · next nonzero =>
    have magnitude := @magnitude_toNat x
    have some : x.toInt.natAbs ≠ 0 := fun zero => nonzero (BitVec.eq_of_toInt_eq (Int.natAbs_eq_zero.mp zero))
    unfold floatI2f
    simp only
    generalize (if x.sshiftRight 31 ≠ 0 then ~~~x + 1 else x) = f at magnitude ⊢
    have digits : countDigits f 0 = f.toNat.size := by rw [countDigits_eq, zero_add]
    have positive : 0 < f.toNat.size := Nat.size_pos.mpr (by omega)
    have width : f.toNat.size ≤ 32 := Nat.size_le.mpr f.isLt
    have high := Nat.lt_size_self f.toNat
    have low : 2 ^ (f.toNat.size - 1) ≤ f.toNat := Nat.lt_size.mp (by omega)
    rw [digits]
    generalize f.toNat.size = d at *
    have nonzeroDigits : ¬(d : Int) = 0 := by omega
    by_cases short : d ≤ 24
    · have exact : ¬(24 - (d : Int)) < 0 := by omega
      have field : (d : Int) + 126 = (d + 126 : Nat) := by push_cast; rfl
      obtain ⟨normal, near⟩ := nearestEven_shifted low high positive short
      have moved : (f <<< (24 - (d : Int)).toNat).toNat % 2 ^ 23 = f.toNat * 2 ^ (24 - d) - 2 ^ 23 := by
        rw [BitVec.toNat_shiftLeft, Nat.shiftLeft_eq, show (24 - (d : Int)).toNat = 24 - d by omega]
        omega
      simp only [if_neg exact, if_neg nonzeroDigits, field]
      exact nearestSingle_of_pack (by omega) (by omega) normal moved (magnitude ▸ near)
    · have long : 2 ^ 24 ≤ f.toNat := (Nat.pow_le_pow_right (by omega) (by omega)).trans low
      obtain ⟨k, low', high', rounded⟩ := cutDigits_toNat long
      have more : 24 + k < d := (Nat.pow_lt_pow_iff_right (by omega)).mp (low'.trans_lt high)
      have fewer : d - 1 < 25 + k := (Nat.pow_lt_pow_iff_right (by omega)).mp (low.trans_lt high')
      obtain rfl : d = 25 + k := by omega
      have near := @nearestEven_roundEven 24 f.toNat (k + 1) (by omega)
        (by rwa [show 24 - 1 + (k + 1) = 24 + k by omega])
        (by rwa [show 24 + (k + 1) = 25 + k by omega])
      have lost : 24 - ((25 + k : Nat) : Int) < 0 := by omega
      rcases cut : dropDigits f 0 with ⟨g, c⟩
      simp only [cut] at rounded
      simp only [if_pos lost]
      generalize (g >>> 1) + (g &&& (c ||| (g >>> 1)) &&& 1) = m at rounded ⊢
      rw [← rounded] at near
      rw [magnitude] at near
      exact nearestSingle_rounded (by omega) near rfl

end Nearest

end Splab.Bits
