import Splab.Lib.Lanes

namespace Splab.Bits
open Lanes Finset

/-- The masks of `bitCount`, built from a byte as the source does. -/
def spreadByte (b : BitVec 32) : BitVec 32 :=
  let o := b ||| (b <<< 8)
  o ||| (o <<< 16)

/-- `(x & m) + ((x >> n) & m)` with the arithmetic shift of an `int`. -/
def addFields (m : BitVec 32) (n : Nat) (x : BitVec 32) : BitVec 32 := (x &&& m) + (x.sshiftRight n &&& m)

def bitCount (x : BitVec 32) : BitVec 32 :=
  let x := addFields (spreadByte 0x55) 1 x
  let x := addFields (spreadByte 0x33) 2 x
  let x := addFields (spreadByte 0x0F) 4 x
  let x := addFields (0xFF ||| (0xFF <<< 16)) 8 x
  addFields (0xFF ||| (0xFF <<< 8)) 16 x

/-- `test_bitCount` of tests.c. -/
def testBitCount (x : BitVec 32) : BitVec 32 :=
  (List.range 32).foldl (fun result i => result + (x.sshiftRight i &&& 1)) 0

/-- The mask of each round of `bitCount`. -/
def roundMask : Nat → BitVec 32
  | 0 => spreadByte 0x55
  | 1 => spreadByte 0x33
  | 2 => spreadByte 0x0F
  | 3 => 0xFF ||| (0xFF <<< 16)
  | _ => 0xFF ||| (0xFF <<< 8)

/-- The value of `x` after the first rounds of `bitCount`. -/
def afterRounds (x : BitVec 32) : Nat → BitVec 32
  | 0 => x
  | k + 1 => addFields (roundMask k) (2 ^ k) (afterRounds x k)

theorem bitCount_eq (x : BitVec 32) : bitCount x = afterRounds x 5 := rfl

section Rounds
variable {x m y : BitVec 32} {k n i : Nat}

theorem roundMask_eq (inside : k < 5) : (roundMask k).toNat = lowMask (2 ^ k) (2 ^ (4 - k)) := by
  interval_cases k <;> decide +kernel

/-- The mask clears the copies of the sign that the shift brings in. -/
theorem sshiftRight_and (clear : m.toNat < 2 ^ (32 - n)) : x.sshiftRight n &&& m = x >>> n &&& m := by
  ext i inside
  simp only [BitVec.getElem_and, BitVec.getElem_sshiftRight, BitVec.getElem_ushiftRight]
  split
  · next low => rw [BitVec.getLsbD_eq_getElem low]
  · next high =>
    have zero : m[i] = false := by
      rw [← BitVec.getLsbD_eq_getElem inside, BitVec.getLsbD]
      exact Nat.testBit_lt_two_pow (clear.trans_le (Nat.pow_le_pow_right (by omega) (by omega)))
    rw [zero, Bool.and_false, Bool.and_false]

theorem addFields_toNat (clear : m.toNat < 2 ^ (32 - n)) (small : addPairs n m.toNat x.toNat < 2 ^ 32) :
    (addFields m n x).toNat = addPairs n m.toNat x.toNat := by
  rw [addFields, sshiftRight_and clear, BitVec.toNat_add, BitVec.toNat_and, BitVec.toNat_and, BitVec.toNat_ushiftRight,
    Nat.shiftRight_eq_div_pow]
  exact Nat.mod_eq_of_lt small

theorem roundMask_clear (inside : k < 5) : (roundMask k).toNat < 2 ^ (32 - 2 ^ k) := by
  interval_cases k <;> decide +kernel

/-- A round adds the fields pairwise. -/
theorem addFields_round (inside : k < 5) :
    (addFields (roundMask k) (2 ^ k) y).toNat = addPairs (2 ^ k) (lowMask (2 ^ k) (2 ^ (4 - k))) y.toNat := by
  have bits : 2 * 2 ^ k * 2 ^ (4 - k) = 32 := by
    rw [Nat.mul_assoc, ← Nat.pow_add, Nat.add_sub_cancel' (by omega)]
  have small := @addPairs_lt (2 ^ k) (2 ^ (4 - k)) y.toNat Nat.one_le_two_pow
  rw [bits, ← roundMask_eq inside] at small
  rw [addFields_toNat (roundMask_clear inside) small, roundMask_eq inside]

/-- After `k` rounds each field of `2 ^ k` bits holds the number of ones among the bits at its place. -/
theorem afterRounds_counts (inside : k ≤ 5) : Counts (2 ^ k) (2 ^ (5 - k)) x.toNat (afterRounds x k).toNat := by
  induction k with
  | zero => exact counts_start
  | succ k ih =>
    have before := ih (by omega)
    rw [show 5 - k = (4 - k) + 1 by omega, Nat.pow_succ, Nat.mul_comm] at before
    rw [afterRounds, addFields_round (by omega), Nat.pow_succ, Nat.mul_comm (2 ^ k), show 5 - (k + 1) = 4 - k by omega]
    exact before.addPairs Nat.one_le_two_pow

theorem testBit_round (inside : i < 32) : (x.sshiftRight i &&& 1).toNat = lane 1 x.toNat i := by
  have clear : (1 : BitVec 32).toNat < 2 ^ (32 - i) := Nat.one_lt_two_pow (by omega)
  rw [sshiftRight_and clear, BitVec.toNat_and, BitVec.toNat_ushiftRight, Nat.shiftRight_eq_div_pow, lane, Nat.one_mul,
    Nat.pow_one]
  exact Nat.and_one_is_mod _

/-- The loop of `test_bitCount` holds the number of the ones that it has passed. -/
theorem testLoop_toNat (inside : n ≤ 32) :
    ((List.range n).foldl (fun result i => result + (x.sshiftRight i &&& 1)) (0 : BitVec 32)).toNat =
      ones x.toNat 0 n := by
  induction n with
  | zero => rfl
  | succ n ih =>
    have few := @ones_le x.toNat 0 (n + 1)
    rw [ones_succ, Nat.zero_add] at few
    rw [List.range_succ, List.foldl_append, List.foldl_cons, List.foldl_nil, BitVec.toNat_add, ih (by omega),
      testBit_round (by omega), ones_succ, Nat.zero_add]
    exact Nat.mod_eq_of_lt (by omega)

/-- No sum of two fields needs more bits than the field that it goes to. -/
theorem addFields_fits (inside : k < 5) (j : Nat) (low : j < 2 ^ (4 - k)) :
    lane (2 ^ (k + 1)) (y &&& roundMask k).toNat j +
      lane (2 ^ (k + 1)) (y.sshiftRight (2 ^ k) &&& roundMask k).toNat j < 2 ^ 2 ^ (k + 1) := by
  rw [sshiftRight_and (roundMask_clear inside), BitVec.toNat_and, BitVec.toNat_and, BitVec.toNat_ushiftRight,
    Nat.shiftRight_eq_div_pow, roundMask_eq inside, Nat.pow_succ, Nat.mul_comm (2 ^ k),
    lane_and_lowMask Nat.one_le_two_pow low, lane_and_lowMask Nat.one_le_two_pow low]
  exact lane_add_lt Nat.one_le_two_pow

theorem bitCount_eq_reference : bitCount x = testBitCount x := by
  have whole : lane 32 (afterRounds x 5).toNat 0 = ones x.toNat 0 32 := (@afterRounds_counts x 5 le_rfl) 0 (by decide)
  rw [lane_full (afterRounds x 5).isLt] at whole
  rw [bitCount_eq]
  exact BitVec.eq_of_toNat_eq (whole.trans (testLoop_toNat le_rfl).symm)

/-- `bitCount` gives what the loop over the bits gives. In each round the sums fit in their fields, and the
fields hold the exact counts. -/
theorem bitCount_counts (x : BitVec 32) : bitCount x = testBitCount x ∧ bitCount x = afterRounds x 5 ∧
    (∀ k ≤ 5, Counts (2 ^ k) (2 ^ (5 - k)) x.toNat (afterRounds x k).toNat) ∧
    ∀ k < 5, ∀ j < 2 ^ (4 - k), lane (2 ^ (k + 1)) (afterRounds x k &&& roundMask k).toNat j +
      lane (2 ^ (k + 1)) ((afterRounds x k).sshiftRight (2 ^ k) &&& roundMask k).toNat j < 2 ^ 2 ^ (k + 1) :=
  ⟨bitCount_eq_reference, bitCount_eq x, fun _ inside => afterRounds_counts inside,
    fun _ inside j low => addFields_fits inside j low⟩

end Rounds

end Splab.Bits
