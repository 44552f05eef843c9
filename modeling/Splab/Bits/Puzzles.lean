import Splab.Bits.BitCount
import Splab.Bits.FloatTwice

namespace Splab.Bits
open Lanes

/-- A condition as an `int`. -/
def truth (p : Prop) [Decidable p] : BitVec 32 := if p then 1 else 0

/-- `!x` -/
def lnot (x : BitVec 32) : BitVec 32 := truth (x = 0)

def bitAnd (x y : BitVec 32) : BitVec 32 := ~~~(~~~x ||| ~~~y)

def getByte (x n : BitVec 32) : BitVec 32 := x.sshiftRight' (n <<< 3) &&& 0xFF

def logicalShift (x n : BitVec 32) : BitVec 32 :=
  let t := x.sshiftRight 31 &&& 1
  let x := x ^^^ (t <<< 31)
  let x := x.sshiftRight' n
  x ^^^ (t <<< (32 + ~~~n))

/-- `x & (x >> s)` -/
def fold (s : Nat) (x : BitVec 32) : BitVec 32 := x &&& x.sshiftRight s

def bang (x : BitVec 32) : BitVec 32 := fold 1 (fold 2 (fold 4 (fold 8 (fold 16 (~~~x))))) &&& 1

def tmin : BitVec 32 := (1 : BitVec 32) <<< 31

def fitsBits (x n : BitVec 32) : BitVec 32 :=
  let x := x.sshiftRight' (n + ~~~0)
  lnot x ||| lnot (x + 1)

def divpwr2 (x n : BitVec 32) : BitVec 32 :=
  let rb := x &&& (((1 : BitVec 32) <<< n) + ~~~0)
  x.sshiftRight' n + (x.sshiftRight 31 &&& (1 ^^^ lnot rb))

def negate (x : BitVec 32) : BitVec 32 := ~~~x + 1

def isPositive (x : BitVec 32) : BitVec 32 := (x.sshiftRight 31 + 1) ^^^ lnot x

def isLessOrEqual (x y : BitVec 32) : BitVec 32 :=
  let ps := (x.sshiftRight 31 &&& 1) &&& (y.sshiftRight 31 + 1)
  let ns := (x.sshiftRight 31 + 1) &&& (y.sshiftRight 31 &&& 1)
  let ss := (~~~x + y + 1).sshiftRight 31 + 1
  (ps ||| ss) &&& (1 ^^^ ns)

/-- `r = ((!(x >> k)) + (~0)) & k; c = c + r; x = x >> r;` -/
def halve (k : BitVec 32) (c x : BitVec 32) : BitVec 32 × BitVec 32 :=
  let r := (lnot (x.sshiftRight' k) + ~~~0) &&& k
  (c + r, x.sshiftRight' r)

def ilog2 (x : BitVec 32) : BitVec 32 :=
  let (c, x) := halve 16 0 x
  let (c, x) := halve 8 c x
  let (c, x) := halve 4 c x
  let (c, x) := halve 2 c x
  let (c, _) := halve 1 c x
  c

/-! The references of tests.c. -/

def testBitAnd (x y : BitVec 32) : BitVec 32 := x &&& y

def testGetByte (x n : BitVec 32) : BitVec 32 :=
  let byte : BitVec 8 :=
    if n = 0 then x.setWidth 8
    else if n = 1 then (x.sshiftRight 8).setWidth 8
    else if n = 2 then (x.sshiftRight 16).setWidth 8
    else (x.sshiftRight 24).setWidth 8
  byte.setWidth 32

def testLogicalShift (x n : BitVec 32) : BitVec 32 := x >>> n

def testBang (x : BitVec 32) : BitVec 32 := truth (x = 0)

def testTmin : BitVec 32 := 0x80000000

/-- The bounds overflow an `int` at `n = 32`, where the expression has no value. What the compiler makes of it
there is 0 for every `x`. -/
def testFitsBits (x n : BitVec 32) : Option (BitVec 32) :=
  let p := (1 : BitVec 32) <<< (n - 1)
  if p.negOverflow ∨ p.ssubOverflow 1 then none
  else
    let tMinN := -p
    let tMaxN := p - 1
    some (truth (tMinN.toInt ≤ x.toInt ∧ x.toInt ≤ tMaxN.toInt))

def testDivpwr2 (x n : BitVec 32) : BitVec 32 := x.sdiv ((1 : BitVec 32) <<< n)

def testNegate (x : BitVec 32) : BitVec 32 := -x

def testIsPositive (x : BitVec 32) : BitVec 32 := truth (0 < x.toInt)

def testIsLessOrEqual (x y : BitVec 32) : BitVec 32 := truth (x.toInt ≤ y.toInt)

/-- The loop of `test_ilog2` from `result` on; it has no end if there is no bit to find. -/
def findBit (x : BitVec 32) (result : Nat) : Option (BitVec 32) :=
  if x &&& ((1 : BitVec 32) <<< result) ≠ 0 then some (BitVec.ofNat 32 result)
  else match result with
    | 0 => none
    | result + 1 => findBit x result

def testIlog2 (x : BitVec 32) : Option (BitVec 32) := findBit x 31

section Signs
variable {x y n : BitVec 32} {p q : Prop} [Decidable p] [Decidable q]

theorem truth_congr (same : p ↔ q) : truth p = truth q := if_congr same rfl rfl

theorem toInt_eq_zero : x = 0 ↔ x.toInt = 0 := by
  rw [← BitVec.toInt_inj]
  rfl

theorem sshiftRight_toInt {k : Nat} : (x.sshiftRight k).toInt = x.toInt / (2 ^ k : Nat) := by
  rw [BitVec.toInt_sshiftRight, Int.shiftRight_eq_div_pow]

/-- The shift by 31 is all ones for a negative number. -/
theorem sshiftRight_sign : x.sshiftRight 31 = if x.toInt < 0 then ~~~0 else 0 := by
  have low := @BitVec.le_toInt 32 x
  have high := @BitVec.toInt_lt 32 x
  rw [← BitVec.toInt_inj, sshiftRight_toInt]
  split
  · rw [show (~~~(0 : BitVec 32)).toInt = -1 from rfl]
    omega
  · rw [show (0 : BitVec 32).toInt = 0 from rfl]
    omega

theorem isPositive_eq : isPositive x = testIsPositive x := by
  have zero : lnot x = truth (x.toInt = 0) := truth_congr toInt_eq_zero
  unfold isPositive testIsPositive
  rw [zero, sshiftRight_sign]
  unfold truth
  rcases lt_trichotomy x.toInt 0 with negative | zero | positive
  · rw [if_pos negative, if_neg negative.ne, if_neg negative.not_gt]
    rfl
  · rw [zero]
    rfl
  · rw [if_neg positive.not_gt, if_neg positive.ne', if_pos positive]
    rfl

/-- The difference of two numbers with the same sign does not overflow. -/
theorem sub_toInt (signs : x.toInt < 0 ↔ y.toInt < 0) : (~~~x + y + 1).toInt = y.toInt - x.toInt := by
  have lowX := @BitVec.le_toInt 32 x
  have highX := @BitVec.toInt_lt 32 x
  have lowY := @BitVec.le_toInt 32 y
  have highY := @BitVec.toInt_lt 32 y
  have minus : ~~~x + y + 1 = y - x := by
    rw [BitVec.sub_eq_add_neg, BitVec.neg_eq_not_add, BitVec.add_comm (~~~x), BitVec.add_assoc]
    rfl
  rw [minus, BitVec.toInt_sub]
  exact Int.bmod_eq_of_le (by omega) (by omega)

theorem isLessOrEqual_eq : isLessOrEqual x y = testIsLessOrEqual x y := by
  unfold isLessOrEqual testIsLessOrEqual truth
  simp only [@sshiftRight_sign x, @sshiftRight_sign y]
  by_cases signs : x.toInt < 0 ↔ y.toInt < 0
  · simp only [sshiftRight_sign, sub_toInt signs, signs]
    by_cases less : x.toInt ≤ y.toInt
    · rw [if_pos less, if_neg (by omega : ¬y.toInt - x.toInt < 0)]
      split <;> rfl
    · rw [if_neg less, if_pos (by omega : y.toInt - x.toInt < 0)]
      split <;> rfl
  · generalize (~~~x + y + 1).sshiftRight 31 + 1 = ss
    by_cases negative : x.toInt < 0
    · rw [if_pos negative, if_neg (by tauto), if_pos (by omega)]
      have absorb : (1 ||| ss) &&& 1 = 1 := by
        ext i inside
        rw [BitVec.getElem_and, BitVec.getElem_or]
        cases (1 : BitVec 32)[i] <;> simp
      exact absorb
    · rw [if_neg negative, if_pos (by tauto), if_neg (by omega)]
      exact BitVec.and_zero

theorem truth_or : truth p ||| truth q = truth (p ∨ q) := by
  unfold truth
  by_cases left : p
  · rw [if_pos left, if_pos (Or.inl left)]
    split <;> rfl
  · rw [if_neg left]
    by_cases right : q
    · rw [if_pos right, if_pos (Or.inr right)]
      rfl
    · rw [if_neg right, if_neg (not_or.mpr ⟨left, right⟩)]
      rfl

theorem bit_toNat {k : Nat} (inside : k < 32) : ((1 : BitVec 32) <<< k).toNat = 2 ^ k := by
  rw [BitVec.toNat_shiftLeft, show (1 : BitVec 32).toNat = 1 from rfl, Nat.one_shiftLeft]
  exact Nat.mod_eq_of_lt (Nat.pow_lt_pow_right (by decide) inside)

theorem fitsBits_eq (low : 1 ≤ n.toNat) (high : n.toNat ≤ 31) : testFitsBits x n = some (fitsBits x n) := by
  have before : (n + ~~~0).toNat = n.toNat - 1 := by
    rw [BitVec.toNat_add, show (~~~(0 : BitVec 32)).toNat = 2 ^ 32 - 1 from rfl]
    omega
  have before' : (n - 1).toNat = n.toNat - 1 := by
    rw [BitVec.toNat_sub, show (1 : BitVec 32).toNat = 1 from rfl]
    omega
  unfold fitsBits testFitsBits
  dsimp only
  rw [BitVec.sshiftRight_eq', before, BitVec.shiftLeft_eq', before']
  generalize shift : n.toNat - 1 = k
  have inside : k < 31 := by omega
  have bit := @bit_toNat k (by omega)
  have most : 2 ^ k ≤ 2 ^ 30 := Nat.pow_le_pow_right (by decide) (by omega)
  have positive := Nat.two_pow_pos k
  have value : ((1 : BitVec 32) <<< k).toInt = (2 ^ k : Nat) := by
    rw [BitVec.toInt_eq_toNat_cond, bit]
    exact if_pos (by omega)
  have defined : ¬(((1 : BitVec 32) <<< k).negOverflow = true ∨ ((1 : BitVec 32) <<< k).ssubOverflow 1 = true) := by
    rw [BitVec.negOverflow, BitVec.ssubOverflow, value, show (1 : BitVec 32).toInt = 1 from rfl]
    generalize 2 ^ k = p at *
    simp only [beq_iff_eq, Bool.or_eq_true, decide_eq_true_eq, not_or]
    omega
  have least : (-((1 : BitVec 32) <<< k)).toInt = -(2 ^ k : Nat) := by
    rw [BitVec.toInt_eq_toNat_cond, BitVec.toNat_neg, bit]
    generalize 2 ^ k = p at *
    split <;> omega
  have greatest : (((1 : BitVec 32) <<< k) - 1).toInt = (2 ^ k : Nat) - 1 := by
    rw [BitVec.toInt_eq_toNat_cond, BitVec.toNat_sub, bit, show (1 : BitVec 32).toNat = 1 from rfl]
    generalize 2 ^ k = p at *
    split <;> omega
  have one : x.sshiftRight k + 1 = 0 ↔ x.sshiftRight k = ~~~0 := by
    rw [← BitVec.toNat_inj, ← BitVec.toNat_inj, BitVec.toNat_add, show (1 : BitVec 32).toNat = 1 from rfl,
      show (0 : BitVec 32).toNat = 0 from rfl, show (~~~(0 : BitVec 32)).toNat = 2 ^ 32 - 1 from rfl]
    have whole := (x.sshiftRight k).isLt
    omega
  rw [if_neg defined, lnot, lnot, truth_or, least, greatest]
  refine congrArg some (truth_congr ?_)
  rw [one, toInt_eq_zero, ← BitVec.toInt_inj, show (~~~(0 : BitVec 32)).toInt = -1 from rfl, sshiftRight_toInt]
  have above : -1 ≤ x.toInt / (2 ^ k : Nat) ↔ -1 * (2 ^ k : Nat) ≤ x.toInt := Int.le_ediv_iff_mul_le (by omega)
  have below : x.toInt / (2 ^ k : Nat) < 1 ↔ x.toInt < 1 * (2 ^ k : Nat) := Int.ediv_lt_iff_lt_mul (by omega)
  omega

theorem testFitsBits_wide : testFitsBits x 32 = none := rfl

theorem divpwr2_eq (high : n.toNat ≤ 30) : divpwr2 x n = testDivpwr2 x n := by
  unfold divpwr2 testDivpwr2
  dsimp only
  rw [BitVec.sshiftRight_eq', BitVec.shiftLeft_eq', sshiftRight_sign]
  generalize n.toNat = k at high
  have bit := @bit_toNat k (by omega)
  have most : 2 ^ k ≤ 2 ^ 30 := Nat.pow_le_pow_right (by decide) high
  have positive := Nat.two_pow_pos k
  have divisor : ((1 : BitVec 32) <<< k).toInt = (2 ^ k : Nat) := by
    rw [BitVec.toInt_eq_toNat_cond, bit]
    exact if_pos (by omega)
  -- the bits that the shift drops
  have rest : x &&& (((1 : BitVec 32) <<< k) + ~~~0) = 0 ↔ ((2 ^ k : Nat) : Int) ∣ x.toInt := by
    have mask : (((1 : BitVec 32) <<< k) + ~~~0).toNat = 2 ^ k - 1 := by
      rw [BitVec.toNat_add, bit, show (~~~(0 : BitVec 32)).toNat = 2 ^ 32 - 1 from rfl]
      omega
    have whole : ((2 ^ k : Nat) : Int) ∣ (2 ^ 32 : Nat) := by
      exact_mod_cast Nat.pow_dvd_pow 2 (by omega : k ≤ 32)
    rw [← BitVec.toNat_inj, BitVec.toNat_and, mask, Nat.and_two_pow_sub_one_eq_mod,
      show (0 : BitVec 32).toNat = 0 from rfl, ← Nat.dvd_iff_mod_eq_zero, BitVec.toInt_eq_toNat_cond]
    split
    · exact Int.natCast_dvd_natCast.symm
    · rw [dvd_sub_left whole]
      exact Int.natCast_dvd_natCast.symm
  have correction : ((if x.toInt < 0 then ~~~0 else 0) &&& (1 ^^^ lnot (x &&& (((1 : BitVec 32) <<< k) + ~~~0)))) =
      truth (¬(0 ≤ x.toInt ∨ ((2 ^ k : Nat) : Int) ∣ x.toInt)) := by
    rw [lnot, truth_congr rest]
    unfold truth
    by_cases negative : x.toInt < 0
    · rw [if_pos negative]
      by_cases exact : ((2 ^ k : Nat) : Int) ∣ x.toInt
      · rw [if_pos exact, if_neg (not_not.mpr (Or.inr exact))]
        rfl
      · rw [if_neg exact, if_pos (not_or.mpr ⟨by omega, exact⟩)]
        rfl
    · rw [if_neg negative, if_neg (not_not.mpr (Or.inl (by omega)))]
      exact BitVec.zero_and
  have quotient := @sshiftRight_toInt x k
  have least := @BitVec.le_toInt 32 (x.sshiftRight k)
  have minus : (1 : BitVec 32) <<< k ≠ -1#32 := fun same => by
    rw [same, show (-1#32).toInt = -1 from rfl] at divisor
    omega
  rw [correction, ← BitVec.toInt_inj, BitVec.toInt_sdiv_of_ne_or_ne _ _ (.inr minus), divisor, Int.tdiv_eq_ediv,
    Int.sign_eq_one_of_pos (by omega), truth]
  by_cases floor : 0 ≤ x.toInt ∨ ((2 ^ k : Nat) : Int) ∣ x.toInt
  · rw [if_neg (not_not.mpr floor), if_pos floor, add_zero, quotient, add_zero]
  · have below : x.toInt / (2 ^ k : Nat) < 0 ↔ x.toInt < 0 * (2 ^ k : Nat) := Int.ediv_lt_iff_lt_mul (by omega)
    rw [if_pos floor, if_neg floor, BitVec.toInt_add, quotient]
    rw [quotient] at least
    refine Int.bmod_eq_of_le ?_ ?_
    · rw [show (1 : BitVec 32).toInt = 1 from rfl]
      omega
    · rw [show (1 : BitVec 32).toInt = 1 from rfl]
      omega

end Signs

section Fields
variable {x y n : BitVec 32} {s k i : Nat}

theorem bitAnd_eq : bitAnd x y = testBitAnd x y := by
  ext i inside
  simp [bitAnd, testBitAnd]

theorem getByte_eq (high : n.toNat ≤ 3) : getByte x n = testGetByte x n := by
  have low : ∀ z : BitVec 32, z &&& 0xFF = (z.setWidth 8).setWidth 32 := fun z => by
    refine BitVec.eq_of_toNat_eq ?_
    rw [BitVec.toNat_and, BitVec.toNat_setWidth, BitVec.toNat_setWidth]
    have part : z.toNat &&& (0xFF : BitVec 32).toNat = z.toNat % 2 ^ 8 := Nat.and_two_pow_sub_one_eq_mod _ 8
    omega
  have cases : n = 0 ∨ n = 1 ∨ n = 2 ∨ n = 3 := by
    simp only [← BitVec.toNat_inj]
    change n.toNat = 0 ∨ n.toNat = 1 ∨ n.toNat = 2 ∨ n.toNat = 3
    omega
  unfold getByte
  rw [low]
  rcases cases with rfl | rfl | rfl | rfl
  · exact congrArg (fun z : BitVec 32 => (z.setWidth 8).setWidth 32) BitVec.sshiftRight_zero
  · rfl
  · rfl
  · rfl

theorem bit_getLsbD (inside : i < 32) : ((1 : BitVec 32) <<< k).getLsbD i = decide (i = k) := by
  have one : (1 : BitVec 32).getLsbD (i - k) = decide (i - k = 0) := by
    change (1#32).getLsbD (i - k) = _
    rw [BitVec.getLsbD_one]
    simp
  rw [BitVec.getLsbD_shiftLeft, one, decide_eq_true inside, Bool.true_and]
  by_cases low : i < k
  · simp [low, show i ≠ k by omega]
  · rw [decide_eq_false low, Bool.not_false, Bool.true_and, decide_eq_decide]
    omega

/-- The sign is taken out before the shift, and put back to where the shift would have brought it. -/
theorem logicalShift_eq (high : n.toNat ≤ 31) : logicalShift x n = testLogicalShift x n := by
  have rest : (32 + ~~~n).toNat = 31 - n.toNat := by
    rw [BitVec.toNat_add, BitVec.toNat_not, show (32 : BitVec 32).toNat = 32 from rfl]
    omega
  have sign : x.sshiftRight 31 &&& 1 = if x.toInt < 0 then 1 else 0 := by
    rw [sshiftRight_sign]
    split <;> rfl
  have top : x.msb = decide (x.toInt < 0) := BitVec.msb_eq_toInt
  unfold logicalShift testLogicalShift
  dsimp only
  rw [BitVec.sshiftRight_eq', BitVec.shiftLeft_eq', rest, BitVec.ushiftRight_eq', sign]
  generalize n.toNat = k at high
  by_cases negative : x.toInt < 0
  · rw [if_pos negative]
    rw [decide_eq_true negative] at top
    have cleared : (x ^^^ ((1 : BitVec 32) <<< 31)).msb = false := by
      rw [BitVec.msb_xor, top]
      rfl
    rw [BitVec.sshiftRight_eq_of_msb_false cleared]
    ext i inside
    have place : decide (k + i = 31) = decide (i = 31 - k) := decide_eq_decide.mpr (by omega)
    have flip : (x ^^^ ((1 : BitVec 32) <<< 31)).getLsbD (k + i) = (x.getLsbD (k + i) ^^ decide (k + i = 31)) := by
      rw [BitVec.getLsbD_xor]
      by_cases low : k + i < 32
      · rw [bit_getLsbD low]
      · rw [BitVec.getLsbD_of_ge _ _ (by omega), BitVec.getLsbD_of_ge _ _ (by omega), decide_eq_false (by omega)]
    rw [BitVec.getElem_xor, BitVec.getElem_ushiftRight, BitVec.getElem_ushiftRight, flip,
      ← BitVec.getLsbD_eq_getElem inside, bit_getLsbD inside, place, Bool.xor_assoc, Bool.xor_self, Bool.xor_false]
  · rw [if_neg negative]
    rw [decide_eq_false negative] at top
    have zero : ∀ m : Nat, (0 : BitVec 32) <<< m = 0 := fun m => BitVec.zero_shiftLeft m
    have same : ∀ z : BitVec 32, z ^^^ 0 = z := fun z => BitVec.xor_zero
    rw [zero, zero, same, same, BitVec.sshiftRight_eq_of_msb_false top]

/-- One round looks at twice as many bits. -/
theorem fold_bits (fits : 2 * s ≤ 32) : (∀ i < s, (fold s x).getLsbD i = true) ↔ ∀ i < 2 * s, x.getLsbD i = true := by
  have bit : ∀ i < s, (fold s x).getLsbD i = (x.getLsbD i && x.getLsbD (s + i)) := fun i less => by
    rw [fold, BitVec.getLsbD_and, BitVec.getLsbD_sshiftRight, if_pos (by omega)]
    simp [show ¬32 ≤ i by omega]
  constructor
  · intro all i less
    by_cases low : i < s
    · have both := all i low
      rw [bit i low, Bool.and_eq_true] at both
      exact both.1
    · have both := all (i - s) (by omega)
      rw [bit _ (by omega), Bool.and_eq_true, show s + (i - s) = i by omega] at both
      exact both.2
  · intro all i less
    rw [bit i less, all i (by omega), all (s + i) (by omega)]
    rfl

theorem bang_eq : bang x = testBang x := by
  have all : (fold 1 (fold 2 (fold 4 (fold 8 (fold 16 (~~~x)))))).getLsbD 0 = true ↔
      ∀ i < 32, (~~~x).getLsbD i = true := by
    rw [← fold_bits (s := 16) (by decide), ← fold_bits (s := 8) (by decide), ← fold_bits (s := 4) (by decide),
      ← fold_bits (s := 2) (by decide), ← fold_bits (s := 1) (by decide)]
    exact ⟨fun last i less => by rwa [show i = 0 by omega], fun all => all 0 (by decide)⟩
  have zero : (∀ i < 32, (~~~x).getLsbD i = true) ↔ x = 0 := by
    constructor
    · intro ones
      ext i inside
      have bit := ones i inside
      rw [BitVec.getLsbD_eq_getElem inside, BitVec.getElem_not, Bool.not_eq_true'] at bit
      rw [bit]
      exact (BitVec.getElem_zero inside).symm
    · rintro rfl i inside
      rw [BitVec.getLsbD_eq_getElem inside, BitVec.getElem_not]
      exact congrArg (!·) (BitVec.getElem_zero inside)
  unfold bang testBang
  rw [← truth_congr (all.trans zero)]
  generalize fold 1 (fold 2 (fold 4 (fold 8 (fold 16 (~~~x))))) = y
  refine BitVec.eq_of_toNat_eq ?_
  rw [BitVec.toNat_and, show (1 : BitVec 32).toNat = 1 from rfl, Nat.and_one_is_mod, truth_congr (q := y.toNat % 2 = 1)]
  · unfold truth
    split
    · next odd => exact odd
    · next even => exact (Nat.mod_two_eq_zero_or_one _).resolve_right even
  · rw [lowBit_eq, decide_eq_true_iff]

/-- A one among the upper digits moves them down and is counted. -/
theorem halve_eq {c : BitVec 32} (small : x.toNat < 2 ^ 31) (fits : k < 32) :
    halve (BitVec.ofNat 32 k) c x = if x.toNat < 2 ^ k then (c, x) else (c + BitVec.ofNat 32 k, x >>> k) := by
  have plain : x.msb = false := by
    rw [BitVec.msb_eq_decide]
    exact decide_eq_false (by omega)
  have amount : (BitVec.ofNat 32 k).toNat = k := by
    rw [BitVec.toNat_ofNat]
    omega
  have upper : x >>> k = 0 ↔ x.toNat < 2 ^ k := by
    rw [← BitVec.toNat_inj, shift_toNat]
    exact Nat.div_eq_zero_iff_lt (Nat.two_pow_pos k)
  unfold halve
  dsimp only
  rw [BitVec.sshiftRight_eq', BitVec.sshiftRight_eq', amount, BitVec.sshiftRight_eq_of_msb_false plain,
    BitVec.sshiftRight_eq_of_msb_false plain, lnot, truth_congr upper, truth]
  split
  · have cleared : ((1 : BitVec 32) + ~~~0) &&& BitVec.ofNat 32 k = 0 := BitVec.zero_and
    rw [cleared]
    exact Prod.ext (BitVec.add_zero c) (BitVec.ushiftRight_zero x)
  · have kept : ((0 : BitVec 32) + ~~~0) &&& BitVec.ofNat 32 k = BitVec.ofNat 32 k := BitVec.allOnes_and
    rw [kept, amount]

/-- The digits of `x` are those that `c` has counted and those of what is left, fewer than `2 ^ k` of them. -/
def Halved (x : BitVec 32) (k : Nat) (left : BitVec 32 × BitVec 32) : Prop :=
  left.2.toNat ≠ 0 ∧ left.2.toNat < 2 ^ k ∧ left.1.toNat + Nat.log 2 left.2.toNat = Nat.log 2 x.toNat

theorem Halved.halve {c m : BitVec 32} (halved : Halved x (2 * k) (c, y)) (short : y.toNat < 2 ^ 31)
    (fits : k < 32) (amount : m = BitVec.ofNat 32 k) : Halved x k (halve m c y) := by
  obtain ⟨nonzero, small, digits⟩ := halved
  dsimp only at nonzero small digits
  subst amount
  have bound : Nat.log 2 x.toNat < 32 := Nat.log_lt_of_lt_pow' (by decide) x.isLt
  rw [halve_eq short fits]
  split
  · next low => exact ⟨nonzero, low, digits⟩
  · next high =>
    have above : k ≤ Nat.log 2 y.toNat := Nat.le_log_of_pow_le (by decide) (by omega)
    have counted : (c + BitVec.ofNat 32 k).toNat = c.toNat + k := by
      rw [BitVec.toNat_add, BitVec.toNat_ofNat]
      omega
    have split : (2 : Nat) ^ (2 * k) = 2 ^ k * 2 ^ k := by rw [two_mul, Nat.pow_add]
    refine ⟨?_, ?_, ?_⟩
    · rw [shift_toNat]
      exact (Nat.div_pos (by omega) (Nat.two_pow_pos k)).ne'
    · rw [shift_toNat]
      exact Nat.div_lt_of_lt_mul (split ▸ small)
    · rw [shift_toNat, counted, Nat.log_div_base_pow]
      omega

/-- The reference finds the first digit. -/
theorem findBit_eq (nonzero : x.toNat ≠ 0) (high : Nat.log 2 x.toNat ≤ k) (inside : k < 32) :
    findBit x k = some (BitVec.ofNat 32 (Nat.log 2 x.toNat)) := by
  have bit : ∀ m < 32, x &&& ((1 : BitVec 32) <<< m) = 0 ↔ x.toNat.testBit m = false := fun m less => by
    rw [← BitVec.toNat_inj, BitVec.toNat_and, bit_toNat less, Nat.and_two_pow]
    have positive := Nat.two_pow_pos m
    cases x.toNat.testBit m
    · exact iff_of_true (Nat.zero_mul _) rfl
    · exact iff_of_false (by rw [Bool.toNat_true]; change 1 * 2 ^ m ≠ 0; omega) Bool.noConfusion
  have here : ∀ m < 32, Nat.log 2 x.toNat = m → findBit x m = some (BitVec.ofNat 32 m) := fun m less first => by
    have least : 2 ^ m ≤ x.toNat := first ▸ Nat.pow_log_le_self 2 nonzero
    have most : x.toNat < 2 ^ (m + 1) := first ▸ Nat.lt_pow_succ_log_self (by decide) x.toNat
    have one := Nat.testBit_of_two_pow_le_and_two_pow_add_one_gt least most
    unfold findBit
    rw [if_pos fun zero => Bool.noConfusion (one.symm.trans ((bit m less).mp zero))]
  induction k with
  | zero =>
    have first : Nat.log 2 x.toNat = 0 := by omega
    rw [here 0 inside first, first]
  | succ k ih =>
    rcases Nat.lt_or_eq_of_le high with lower | first
    · have short : x.toNat < 2 ^ (k + 1) := (Nat.log_lt_iff_lt_pow (by decide) nonzero).mp lower
      unfold findBit
      rw [if_neg (not_not.mpr ((bit (k + 1) inside).mpr (Nat.testBit_lt_two_pow short)))]
      exact ih (by omega) (by omega)
    · rw [here (k + 1) inside first, first]

theorem ilog2_eq (positive : 0 < x.toInt) : testIlog2 x = some (ilog2 x) := by
  have value := @BitVec.toInt_eq_toNat_cond 32 x
  have whole := x.isLt
  have nonzero : x.toNat ≠ 0 := by split at value <;> omega
  have short : x.toNat < 2 ^ 31 := by split at value <;> omega
  have bound : Nat.log 2 x.toNat < 32 := Nat.log_lt_of_lt_pow' (by decide) whole
  have start : Halved x (2 * 16) (0, x) := ⟨nonzero, whole, Nat.zero_add _⟩
  have halved : Halved x 16 (halve 16 0 x) := start.halve short (by decide) rfl
  unfold ilog2
  generalize halve 16 0 x = left at halved ⊢
  obtain ⟨c, y⟩ := left
  have halved : Halved x 8 (halve 8 c y) := Halved.halve halved (halved.2.1.trans (by decide)) (by decide) rfl
  dsimp only
  generalize halve 8 c y = left at halved ⊢
  obtain ⟨c, y⟩ := left
  have halved : Halved x 4 (halve 4 c y) := Halved.halve halved (halved.2.1.trans (by decide)) (by decide) rfl
  dsimp only
  generalize halve 4 c y = left at halved ⊢
  obtain ⟨c, y⟩ := left
  have halved : Halved x 2 (halve 2 c y) := Halved.halve halved (halved.2.1.trans (by decide)) (by decide) rfl
  dsimp only
  generalize halve 2 c y = left at halved ⊢
  obtain ⟨c, y⟩ := left
  have halved : Halved x 1 (halve 1 c y) := Halved.halve halved (halved.2.1.trans (by decide)) (by decide) rfl
  dsimp only
  generalize halve 1 c y = left at halved ⊢
  obtain ⟨c, y⟩ := left
  obtain ⟨_, one, digits⟩ := halved
  dsimp only at one digits ⊢
  rw [Nat.log_of_lt (show y.toNat < 2 from one), Nat.add_zero] at digits
  rw [testIlog2, findBit_eq nonzero (by omega) (by decide), ← digits, BitVec.ofNat_toNat, BitVec.setWidth_eq]

end Fields

/-! The table of decl.c and its use by btest.c. -/

/-- A `test_rec`, as far as a test uses it. The reference may have no value. -/
structure TestRec where
  name : String
  args : Nat
  solutionFunct : (Fin args → BitVec 32) → BitVec 32
  testFunct : (Fin args → BitVec 32) → Option (BitVec 32)
  argRanges : Fin args → Int × Int

/-- From `TMin` to `TMax`. -/
def anyInt : Int × Int := (-2147483648, 2147483647)

def fitsBitsRec : TestRec :=
  ⟨"fitsBits", 2, fun a => fitsBits (a 0) (a 1), fun a => testFitsBits (a 0) (a 1), ![anyInt, (1, 32)]⟩


/-- The puzzles on integers. -/
def testSet : List TestRec := [
  ⟨"bitAnd", 2, fun a => bitAnd (a 0) (a 1), fun a => some (testBitAnd (a 0) (a 1)), ![anyInt, anyInt]⟩,
  ⟨"getByte", 2, fun a => getByte (a 0) (a 1), fun a => some (testGetByte (a 0) (a 1)), ![anyInt, (0, 3)]⟩,
  ⟨"logicalShift", 2, fun a => logicalShift (a 0) (a 1), fun a => some (testLogicalShift (a 0) (a 1)),
    ![anyInt, (0, 31)]⟩,
  ⟨"bitCount", 1, fun a => bitCount (a 0), fun a => some (testBitCount (a 0)), ![anyInt]⟩,
  ⟨"bang", 1, fun a => bang (a 0), fun a => some (testBang (a 0)), ![anyInt]⟩,
  ⟨"tmin", 0, fun _ => tmin, fun _ => some testTmin, ![]⟩,
  fitsBitsRec,
  ⟨"divpwr2", 2, fun a => divpwr2 (a 0) (a 1), fun a => some (testDivpwr2 (a 0) (a 1)), ![anyInt, (0, 30)]⟩,
  ⟨"negate", 1, fun a => negate (a 0), fun a => some (testNegate (a 0)), ![anyInt]⟩,
  ⟨"isPositive", 1, fun a => isPositive (a 0), fun a => some (testIsPositive (a 0)), ![anyInt]⟩,
  ⟨"isLessOrEqual", 2, fun a => isLessOrEqual (a 0) (a 1), fun a => some (testIsLessOrEqual (a 0) (a 1)),
    ![anyInt, anyInt]⟩,
  ⟨"ilog2", 1, fun a => ilog2 (a 0), fun a => testIlog2 (a 0), ![(1, 2147483647)]⟩]

/-- The loops of `test_function` over the values for each argument, which stop at the first error. -/
def argLists : {k : Nat} → (Fin k → List (BitVec 32)) → List (Fin k → BitVec 32)
  | 0, _ => [Fin.elim0]
  | _ + 1, vals => (vals 0).flatMap fun v => (argLists fun i => vals i.succ).map (Fin.cons v)

def TestRec.testArgs (t : TestRec) : List (Fin t.args → BitVec 32) → Option Nat
  | [] => some 0
  | a :: rest => do
    let rt ← t.testFunct a
    if t.solutionFunct a ≠ rt then some 1 else t.testArgs rest

/-- The number of errors for these values of the arguments. -/
def TestRec.testFunction (t : TestRec) (vals : Fin t.args → List (BitVec 32)) : Option Nat := t.testArgs (argLists vals)

def TestRec.InRange (t : TestRec) (i : Fin t.args) (v : BitVec 32) : Prop :=
  (t.argRanges i).1 ≤ v.toInt ∧ v.toInt ≤ (t.argRanges i).2

instance (t : TestRec) (i : Fin t.args) (v : BitVec 32) : Decidable (t.InRange i v) :=
  inferInstanceAs (Decidable (_ ∧ _))

section Tests
variable {t : TestRec} {k : Nat} {n : BitVec 32}

theorem mem_argLists {vals : Fin k → List (BitVec 32)} {a : Fin k → BitVec 32} (mem : a ∈ argLists vals) (i : Fin k) :
    a i ∈ vals i := by
  induction k with
  | zero => exact i.elim0
  | succ k ih =>
    obtain ⟨v, first, others⟩ := List.mem_flatMap.mp mem
    obtain ⟨rest, member, rfl⟩ := List.mem_map.mp others
    refine Fin.cases ?_ (fun j => ?_) i
    · exact first
    · exact ih member j

theorem toNat_le {b : Nat} (low : 0 ≤ n.toInt) (high : n.toInt ≤ b) : n.toNat ≤ b := by
  have value := @BitVec.toInt_eq_toNat_cond 32 n
  have whole := n.isLt
  split at value <;> omega

/-- The second argument of `fitsBits` at which its reference has no value. -/
def TestRec.Overflows (t : TestRec) (a : Fin t.args → BitVec 32) : Prop :=
  t.name = "fitsBits" ∧ ∃ i : Fin t.args, i.val = 1 ∧ a i = 32

theorem overflows_of_name {a : Fin t.args → BitVec 32} (other : t.name ≠ "fitsBits") : ¬t.Overflows a :=
  fun overflows => other overflows.1

/-- On arguments in their ranges the reference has the value that the solution gives, but for `fitsBits` on 32 bits. -/
theorem testSet_agrees : ∀ t ∈ testSet, ∀ a, (∀ i, t.InRange i (a i)) →
    t.testFunct a = some (t.solutionFunct a) ∧ ¬t.Overflows a ∨ t.testFunct a = none ∧ t.Overflows a := by
  simp only [testSet, List.forall_mem_cons]
  refine ⟨fun a _ => .inl ⟨?_, overflows_of_name (by decide)⟩, fun a inside => .inl ⟨?_, overflows_of_name (by decide)⟩,
    fun a inside => .inl ⟨?_, overflows_of_name (by decide)⟩, fun a _ => .inl ⟨?_, overflows_of_name (by decide)⟩,
    fun a _ => .inl ⟨?_, overflows_of_name (by decide)⟩, fun a _ => .inl ⟨?_, overflows_of_name (by decide)⟩,
    fun a inside => ?_, fun a inside => .inl ⟨?_, overflows_of_name (by decide)⟩,
    fun a _ => .inl ⟨?_, overflows_of_name (by decide)⟩, fun a _ => .inl ⟨?_, overflows_of_name (by decide)⟩,
    fun a _ => .inl ⟨?_, overflows_of_name (by decide)⟩, fun a inside => .inl ⟨?_, overflows_of_name (by decide)⟩,
    fun t mem => absurd mem List.not_mem_nil⟩
  · rw [bitAnd_eq]
  · have range : 0 ≤ (a 1).toInt ∧ (a 1).toInt ≤ (3 : Nat) := inside 1
    rw [getByte_eq (toNat_le range.1 range.2)]
  · have range : 0 ≤ (a 1).toInt ∧ (a 1).toInt ≤ (31 : Nat) := inside 1
    rw [logicalShift_eq (toNat_le range.1 range.2)]
  · rw [bitCount_eq_reference]
  · rw [bang_eq]
  · rfl
  · have range : 1 ≤ (a (1 : Fin 2)).toInt ∧ (a (1 : Fin 2)).toInt ≤ (32 : Nat) := inside (1 : Fin 2)
    by_cases wide : a (1 : Fin 2) = 32
    · refine .inr ⟨?_, rfl, (1 : Fin 2), rfl, wide⟩
      change testFitsBits (a (0 : Fin 2)) (a (1 : Fin 2)) = none
      rw [wide, testFitsBits_wide]
    · refine .inl ⟨?_, fun ⟨_, i, second, wide'⟩ => ?_⟩
      · have value := @BitVec.toInt_eq_toNat_cond 32 (a (1 : Fin 2))
        have most := toNat_le (by omega) range.2
        have other : (a (1 : Fin 2)).toNat ≠ (32 : BitVec 32).toNat := fun same => wide (BitVec.eq_of_toNat_eq same)
        rw [show (32 : BitVec 32).toNat = 32 from rfl] at other
        exact fitsBits_eq (by split at value <;> omega) (by omega)
      · obtain rfl : i = (1 : Fin 2) := Fin.ext second
        exact wide wide'
  · have range : 0 ≤ (a 1).toInt ∧ (a 1).toInt ≤ (30 : Nat) := inside 1
    rw [divpwr2_eq (toNat_le range.1 range.2)]
  · exact congrArg some (BitVec.neg_eq_not_add (a 0))
  · rw [isPositive_eq]
  · rw [isLessOrEqual_eq]
  · have range : 1 ≤ (a (0 : Fin 1)).toInt ∧ (a (0 : Fin 1)).toInt ≤ 2147483647 := inside (0 : Fin 1)
    exact ilog2_eq (by omega)

theorem testArgs_eq_zero {args : List (Fin t.args → BitVec 32)} (mem : t ∈ testSet)
    (inside : ∀ a ∈ args, ∀ i, t.InRange i (a i)) : t.testArgs args = some 0 ↔ ∀ a ∈ args, ¬t.Overflows a := by
  induction args with
  | nil => exact iff_of_true rfl fun a member => absurd member List.not_mem_nil
  | cons a rest ih =>
    rw [List.forall_mem_cons] at inside ⊢
    rw [TestRec.testArgs]
    rcases testSet_agrees t mem a inside.1 with ⟨same, defined⟩ | ⟨undefined, overflows⟩
    · rw [same, and_iff_right defined, ← ih inside.2]
      change (if t.solutionFunct a ≠ t.solutionFunct a then some 1 else t.testArgs rest) = some 0 ↔ _
      rw [if_neg (not_not.mpr rfl)]
    · rw [undefined]
      change (none : Option Nat) = some 0 ↔ _
      exact iff_of_false (Option.some_ne_none 0).symm fun all => all.1 overflows

/-- Values for `x` and for `n`. -/
def fitsBitsVals (n : BitVec 32) : Fin fitsBitsRec.args → List (BitVec 32) := ![[5, -9, 1000], [4, n]]

theorem fitsBitsVals_inside {n : BitVec 32} (low : 1 ≤ n.toInt) (high : n.toInt ≤ 32) :
    ∀ i, ∀ v ∈ fitsBitsVals n i, fitsBitsRec.InRange i v := by
  refine Fin.forall_fin_two.mpr ⟨?_, ?_⟩
  · change ∀ v ∈ ([5, -9, 1000] : List (BitVec 32)), -2147483648 ≤ v.toInt ∧ v.toInt ≤ 2147483647
    simp
  · change ∀ v ∈ ([4, n] : List (BitVec 32)), 1 ≤ v.toInt ∧ v.toInt ≤ 32
    simp [low, high]

end Tests

end Splab.Bits
