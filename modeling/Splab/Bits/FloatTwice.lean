import Splab.Bits.IntToFloat

namespace Splab.Bits

def floatNeg (uf : BitVec 32) : BitVec 32 :=
  if ~~~uf &&& (0x7F800000 : BitVec 32) ≠ 0 ∨ uf &&& (0x007FFFFF : BitVec 32) = 0 then uf ^^^ ((1 : BitVec 32) <<< 31)
  else uf

def floatTwice (uf : BitVec 32) : BitVec 32 :=
  let e := (uf >>> 23) &&& (0xFF : BitVec 32)
  -- a fraction that grows out of its field makes the number a normal one
  let (e, uf) : BitVec 32 × BitVec 32 :=
    if e = 0 then (0xFF, (uf &&& (0x80000000 : BitVec 32)) ||| (uf <<< 1)) else (e, uf)
  let (e, uf) : BitVec 32 × BitVec 32 :=
    if e ^^^ (0xFE : BitVec 32) = 0 then (0xFF, (uf &&& (0x80000000 : BitVec 32)) ||| ((0xFF : BitVec 32) <<< 23))
    else (e, uf)
  if e ^^^ (0xFF : BitVec 32) ≠ 0 then uf + ((1 : BitVec 32) <<< 23) else uf

/-- What a single stands for. -/
inductive Datum where
  | nan
  | infinity (negative : Bool)
  | finite (negative : Bool) (value : ℚ)

def datum (r : BitVec 32) : Datum :=
  if expField r = 255 then if fraction r = 0 then .infinity (signBit r) else .nan
  else .finite (signBit r) (singleValue r)

/-- Rounding to nearest goes to infinity from here on. -/
def overflowBound : ℚ := 2 ^ 128 - 2 ^ 103

/-- The result of an operation on finite numbers, if it needs no rounding. -/
def Datum.ofExact (negative : Bool) (value : ℚ) : Datum :=
  if |value| < overflowBound then .finite negative value else .infinity negative

def Datum.neg : Datum → Datum
  | .nan => .nan
  | .infinity negative => .infinity !negative
  | .finite negative value => .finite (!negative) (-value)

def Datum.twice : Datum → Datum
  | .nan => .nan
  | .infinity negative => .infinity negative
  | .finite negative value => .ofExact negative (2 * value)

section Fields
variable {r uf : BitVec 32} {s : Bool} {e f : Nat}

/-- A single with sign `s`, exponent field `e` and fraction `f`. -/
def Packed (r : BitVec 32) (s : Bool) (e f : Nat) : Prop :=
  e < 2 ^ 8 ∧ f < 2 ^ 23 ∧ r.toNat = 2 ^ 31 * s.toNat + (2 ^ 23 * e + f)

theorem packed_fields (r : BitVec 32) : Packed r (signBit r) (expField r) (fraction r) := by
  have whole := r.isLt
  refine ⟨Nat.mod_lt _ (by decide), Nat.mod_lt _ (by decide), ?_⟩
  unfold signBit expField fraction
  rw [BitVec.msb_eq_decide]
  by_cases negative : 2 ^ 31 ≤ r.toNat
  · rw [decide_eq_true negative, Bool.toNat_true]
    omega
  · rw [decide_eq_false negative, Bool.toNat_false]
    omega

theorem Packed.fields (packed : Packed r s e f) : signBit r = s ∧ expField r = e ∧ fraction r = f := by
  obtain ⟨smallE, smallF, whole⟩ := packed
  unfold signBit expField fraction
  rw [BitVec.msb_eq_decide]
  cases s with
  | false =>
    rw [Bool.toNat_false] at whole
    exact ⟨decide_eq_false (by omega), by omega, by omega⟩
  | true =>
    rw [Bool.toNat_true] at whole
    exact ⟨decide_eq_true (by omega), by omega, by omega⟩

theorem Packed.eq {q : BitVec 32} (packed : Packed r s e f) (packed' : Packed q s e f) : r = q :=
  BitVec.eq_of_toNat_eq (packed.2.2.trans packed'.2.2.symm)

/-- The value of a finite single without its sign. -/
def fieldValue (e f : Nat) : ℚ := ((if e = 0 then f else 2 ^ 23 + f : Nat) : ℚ) * 2 ^ ((max 1 e : Nat) - 150 : Int)

def Datum.ofFields (s : Bool) (e f : Nat) : Datum :=
  if e = 255 then if f = 0 then .infinity s else .nan
  else .finite s ((if s then -1 else 1) * fieldValue e f)

theorem Packed.datum (packed : Packed r s e f) : datum r = .ofFields s e f := by
  obtain ⟨rfl, rfl, rfl⟩ := packed.fields
  rfl

theorem fieldValue_nonneg : 0 ≤ fieldValue e f :=
  mul_nonneg (Nat.cast_nonneg _) (zpow_nonneg (by norm_num) _)

/-- A greater exponent field stands for a greater value. -/
theorem fieldValue_lt {e' f' : Nat} (less : e < e') (small : f < 2 ^ 23) : fieldValue e f < fieldValue e' f' := by
  have positive : (0 : ℚ) < 2 ^ ((max 1 e : Nat) - 150 : Int) := zpow_pos (by norm_num) _
  unfold fieldValue
  rw [if_neg (by omega : ¬e' = 0)]
  obtain rfl | normal := Nat.eq_zero_or_pos e
  · have scale : (2 : ℚ) ^ ((max 1 0 : Nat) - 150 : Int) ≤ 2 ^ ((max 1 e' : Nat) - 150 : Int) :=
      zpow_le_zpow_right₀ (by norm_num) (by omega)
    have sig : (f : ℚ) < (2 ^ 23 + f' : Nat) := by exact_mod_cast (by omega : f < 2 ^ 23 + f')
    rw [if_pos rfl]
    calc (f : ℚ) * 2 ^ ((max 1 0 : Nat) - 150 : Int)
        < (2 ^ 23 + f' : Nat) * 2 ^ ((max 1 0 : Nat) - 150 : Int) := mul_lt_mul_of_pos_right sig positive
      _ ≤ _ := mul_le_mul_of_nonneg_left scale (Nat.cast_nonneg _)
  · have scale : (2 : ℚ) ^ ((max 1 e : Nat) - 150 : Int) * 2 ≤ 2 ^ ((max 1 e' : Nat) - 150 : Int) := by
      rw [← zpow_add_one₀ (by norm_num)]
      exact zpow_le_zpow_right₀ (by norm_num) (by omega)
    have sig : ((2 ^ 23 + f : Nat) : ℚ) < (2 ^ 23 + f' : Nat) * 2 := by
      exact_mod_cast (by omega : 2 ^ 23 + f < (2 ^ 23 + f') * 2)
    rw [if_neg (by omega)]
    calc ((2 ^ 23 + f : Nat) : ℚ) * 2 ^ ((max 1 e : Nat) - 150 : Int)
        < (2 ^ 23 + f' : Nat) * 2 * 2 ^ ((max 1 e : Nat) - 150 : Int) := mul_lt_mul_of_pos_right sig positive
      _ = (2 ^ 23 + f' : Nat) * (2 ^ ((max 1 e : Nat) - 150 : Int) * 2) := by ring
      _ ≤ _ := mul_le_mul_of_nonneg_left scale (Nat.cast_nonneg _)

/-- No two finite singles of one sign have the same value. -/
theorem fieldValue_inj {e' f' : Nat} (small : f < 2 ^ 23) (small' : f' < 2 ^ 23)
    (same : fieldValue e f = fieldValue e' f') : e = e' ∧ f = f' := by
  rcases Nat.lt_trichotomy e e' with less | rfl | more
  · exact absurd same (fieldValue_lt less small).ne
  · have positive : (0 : ℚ) < 2 ^ ((max 1 e : Nat) - 150 : Int) := zpow_pos (by norm_num) _
    have sig := mul_right_cancel₀ positive.ne' same
    norm_cast at sig
    refine ⟨rfl, ?_⟩
    split at sig <;> omega
  · exact absurd same (fieldValue_lt more small').ne'

/-- A single that is no NaN is determined by what it stands for. -/
theorem datum_inj {q : BitVec 32} (number : datum r ≠ .nan) (same : datum q = datum r) : q = r := by
  have packedR := packed_fields r
  have packedQ := packed_fields q
  rw [packedR.datum] at number same
  rw [packedQ.datum] at same
  generalize signBit r = s, expField r = e, fraction r = f at *
  generalize signBit q = s', expField q = e', fraction q = f' at *
  suffices parts : s' = s ∧ e' = e ∧ f' = f by
    obtain ⟨rfl, rfl, rfl⟩ := parts
    exact packedQ.eq packedR
  unfold Datum.ofFields at number same
  by_cases top : e = 255
  · rw [if_pos top] at number same
    by_cases zero : f = 0
    · rw [if_pos zero] at same
      split at same
      · next top' =>
        split at same
        · next zero' =>
          cases same
          exact ⟨rfl, top'.trans top.symm, zero'.trans zero.symm⟩
        · cases same
      · cases same
    · exact absurd (if_neg zero) number
  · rw [if_neg top] at same
    split at same
    · split at same <;> cases same
    · rw [Datum.finite.injEq] at same
      obtain ⟨rfl, value⟩ := same
      have sign : (if s' then -1 else 1 : ℚ) ≠ 0 := by split <;> norm_num
      exact ⟨rfl, fieldValue_inj packedQ.2.1 packedR.2.1 (mul_left_cancel₀ sign value)⟩

end Fields

section Operations
variable {uf r x m : BitVec 32} {s : Bool} {e f n : Nat}

/-- A field is masked at its place or at the right end. -/
theorem and_shiftLeft : x &&& (m <<< n) = ((x >>> n) &&& m) <<< n := by
  ext i inside
  rw [BitVec.getElem_and, BitVec.getElem_shiftLeft, BitVec.getElem_shiftLeft]
  by_cases low : i < n
  · simp [low]
  · simp [low, show n + (i - n) = i by omega, BitVec.getLsbD_eq_getElem inside]

theorem Packed.sign (packed : Packed uf s e f) : (uf &&& (0x80000000 : BitVec 32)).toNat = 2 ^ 31 * s.toNat := by
  have whole := packed.2.2
  have small := packed.1
  have frac := packed.2.1
  have last : ((uf >>> 31) &&& (1 : BitVec 32)).toNat = s.toNat := by
    rw [BitVec.toNat_and, shift_toNat, show (1 : BitVec 32).toNat = 1 from rfl, Nat.and_one_is_mod]
    have bit := Bool.toNat_lt s
    omega
  rw [show (0x80000000 : BitVec 32) = (1 : BitVec 32) <<< 31 from rfl, and_shiftLeft, BitVec.toNat_shiftLeft, last,
    Nat.shiftLeft_eq]
  cases s <;> rfl

theorem Packed.expByte (packed : Packed uf s e f) : (uf >>> 23) &&& (0xFF : BitVec 32) = BitVec.ofNat 32 e := by
  obtain ⟨_, exp, _⟩ := packed.fields
  refine BitVec.eq_of_toNat_eq ?_
  rw [BitVec.toNat_and, shift_toNat, BitVec.toNat_ofNat, Nat.mod_eq_of_lt (packed.1.trans (by decide)), ← exp]
  exact Nat.and_two_pow_sub_one_eq_mod _ 8

theorem expByte_eq {k : Nat} (small : e < 2 ^ 8) (small' : k < 2 ^ 8) :
    BitVec.ofNat 32 e = BitVec.ofNat 32 k ↔ e = k := by
  rw [← BitVec.toNat_inj, BitVec.toNat_ofNat, BitVec.toNat_ofNat, Nat.mod_eq_of_lt (small.trans (by decide)),
    Nat.mod_eq_of_lt (small'.trans (by decide))]

/-- The sign bit is put over a number without one. -/
theorem Packed.withSign (packed : Packed uf s e f) (inside : x.toNat < 2 ^ 31) :
    ((uf &&& (0x80000000 : BitVec 32)) ||| x).toNat = 2 ^ 31 * s.toNat + x.toNat := by
  rw [BitVec.toNat_or, packed.sign]
  exact (Nat.two_pow_add_eq_or_of_lt inside _).symm

theorem Packed.floatTwice_top (packed : Packed uf s 255 f) : floatTwice uf = uf := by
  have zero : ¬BitVec.ofNat 32 255 = 0 := by decide
  have near : ¬BitVec.ofNat 32 255 ^^^ (0xFE : BitVec 32) = 0 := by decide
  have top : ¬BitVec.ofNat 32 255 ^^^ (0xFF : BitVec 32) ≠ 0 := by decide
  unfold floatTwice
  rw [packed.expByte]
  simp only [if_neg zero, if_neg near, if_neg top]

theorem Packed.floatTwice_overflow (packed : Packed uf s 254 f) : Packed (floatTwice uf) s 255 0 := by
  refine ⟨by decide, by decide, ?_⟩
  unfold floatTwice
  rw [packed.expByte]
  exact packed.withSign (x := 0xFF <<< 23) (by decide)

/-- A fraction that is doubled is still one, or has become a significand with its leading one. -/
theorem Packed.floatTwice_subnormal (packed : Packed uf s 0 f) :
    Packed (floatTwice uf) s (2 * f / 2 ^ 23) (2 * f % 2 ^ 23) := by
  have frac := packed.2.1
  refine ⟨by omega, Nat.mod_lt _ (by decide), ?_⟩
  have whole := packed.2.2
  have doubled : (uf <<< 1).toNat = 2 * f := by
    rw [BitVec.toNat_shiftLeft, Nat.shiftLeft_eq]
    have bit := Bool.toNat_lt s
    omega
  unfold floatTwice
  rw [packed.expByte]
  change ((uf &&& (0x80000000 : BitVec 32)) ||| (uf <<< 1)).toNat = _
  rw [packed.withSign (by omega), doubled]
  omega

theorem Packed.floatTwice_normal (packed : Packed uf s e f) (least : e ≠ 0) (most : e < 254) :
    Packed (floatTwice uf) s (e + 1) f := by
  have frac := packed.2.1
  have whole := packed.2.2
  refine ⟨by omega, frac, ?_⟩
  have zero : ¬BitVec.ofNat 32 e = 0 := fun same => least ((expByte_eq packed.1 (by decide)).mp same)
  have near : ¬BitVec.ofNat 32 e ^^^ (0xFE : BitVec 32) = 0 := fun same => by
    have last : e = 254 := (expByte_eq packed.1 (by decide)).mp (BitVec.xor_eq_zero_iff.mp same)
    omega
  have top : BitVec.ofNat 32 e ^^^ (0xFF : BitVec 32) ≠ 0 := fun same => by
    have last : e = 255 := (expByte_eq packed.1 (by decide)).mp (BitVec.xor_eq_zero_iff.mp same)
    omega
  unfold floatTwice
  rw [packed.expByte]
  simp only [if_neg zero, if_neg near, if_pos top]
  rw [BitVec.toNat_add, show ((1 : BitVec 32) <<< 23).toNat = 2 ^ 23 from rfl]
  have bit := Bool.toNat_lt s
  omega

/-- The test of `float_neg` finds a NaN. -/
theorem Packed.number_iff (packed : Packed uf s e f) :
    ~~~uf &&& (0x7F800000 : BitVec 32) ≠ 0 ∨ uf &&& (0x007FFFFF : BitVec 32) = 0 ↔ ¬(e = 255 ∧ f ≠ 0) := by
  obtain ⟨_, exp, frac⟩ := packed.fields
  have small := packed.1
  have fraction : uf &&& (0x007FFFFF : BitVec 32) = 0 ↔ f = 0 := by
    rw [← BitVec.toNat_inj, BitVec.toNat_and, ← frac]
    exact iff_of_eq (congrArg (· = 0) (Nat.and_two_pow_sub_one_eq_mod _ 23))
  have ones : (~~~uf &&& (0x7F800000 : BitVec 32)).toNat = 2 ^ 23 * (255 - e) := by
    have part : ((~~~uf >>> 23) &&& (0xFF : BitVec 32)).toNat = 255 - e := by
      have cut : ((~~~uf >>> 23) &&& (0xFF : BitVec 32)).toNat = (~~~uf).toNat / 2 ^ 23 % 2 ^ 8 := by
        rw [BitVec.toNat_and, shift_toNat]
        exact Nat.and_two_pow_sub_one_eq_mod _ 8
      have whole := uf.isLt
      rw [cut, BitVec.toNat_not]
      unfold expField at exp
      omega
    rw [show (0x7F800000 : BitVec 32) = (0xFF : BitVec 32) <<< 23 from rfl, and_shiftLeft, BitVec.toNat_shiftLeft, part,
      Nat.shiftLeft_eq]
    omega
  rw [fraction, ne_eq, ← BitVec.toNat_inj, ones, show (0 : BitVec 32).toNat = 0 from rfl]
  omega

theorem Packed.floatNeg_number (packed : Packed uf s e f) (number : ¬(e = 255 ∧ f ≠ 0)) :
    Packed (floatNeg uf) (!s) e f := by
  have small := packed.1
  have frac := packed.2.1
  have sign : uf.toNat / 2 ^ 31 = s.toNat := by
    rw [packed.2.2]
    omega
  have rest : uf.toNat % 2 ^ 31 = 2 ^ 23 * e + f := by
    rw [packed.2.2]
    omega
  have flipped : s.toNat ^^^ 1 = (!s).toNat := by cases s <;> rfl
  refine ⟨small, frac, ?_⟩
  unfold floatNeg
  rw [if_pos (packed.number_iff.mpr number), BitVec.toNat_xor, show ((1 : BitVec 32) <<< 31).toNat = 2 ^ 31 from rfl,
    ← Nat.div_add_mod (uf.toNat ^^^ 2 ^ 31) (2 ^ 31), Nat.xor_div_two_pow, Nat.xor_mod_two_pow, sign, rest,
    Nat.mod_self, Nat.xor_zero, Nat.div_self (by decide), flipped]

theorem datum_floatNeg (uf : BitVec 32) : datum (floatNeg uf) = (datum uf).neg := by
  have packed := packed_fields uf
  by_cases nan : expField uf = 255 ∧ fraction uf ≠ 0
  · have same : floatNeg uf = uf := if_neg fun number => packed.number_iff.mp number nan
    rw [same, datum, if_pos nan.1, if_neg nan.2]
    rfl
  · rw [(packed.floatNeg_number nan).datum, packed.datum]
    unfold Datum.ofFields
    split
    · next top =>
      have zero : fraction uf = 0 := not_not.mp fun nonzero => nan ⟨top, nonzero⟩
      rw [if_pos zero, if_pos zero]
      rfl
    · rw [Datum.neg, Datum.finite.injEq]
      refine ⟨rfl, ?_⟩
      cases signBit uf <;> simp

/-- The largest finite single is far enough from the bound, and what has a greater exponent is beyond it. -/
theorem twice_lt_bound (small : f < 2 ^ 23) : 2 * fieldValue e f < overflowBound ↔ e < 254 := by
  unfold overflowBound fieldValue
  constructor
  · refine fun below => not_le.mp fun large => ?_
    have scale : (2 : ℚ) ^ (104 : Int) ≤ 2 ^ ((max 1 e : Nat) - 150 : Int) :=
      zpow_le_zpow_right₀ (by norm_num) (by omega)
    have sig : (2 ^ 23 : ℚ) ≤ (2 ^ 23 + f : Nat) := by exact_mod_cast Nat.le_add_right _ _
    have product := mul_le_mul sig scale (by positivity) (by positivity)
    rw [if_neg (by omega)] at below
    norm_num at product below
    linarith
  · intro fits
    have scale : (2 : ℚ) ^ ((max 1 e : Nat) - 150 : Int) ≤ 2 ^ (103 : Int) :=
      zpow_le_zpow_right₀ (by norm_num) (by omega)
    have sig : ((if e = 0 then f else 2 ^ 23 + f : Nat) : ℚ) + 1 ≤ 2 ^ 24 := by
      have whole : (if e = 0 then f else 2 ^ 23 + f) + 1 ≤ 2 ^ 24 := by
        split <;> omega
      exact_mod_cast whole
    generalize ((if e = 0 then f else 2 ^ 23 + f : Nat) : ℚ) = m at sig ⊢
    have product : m * 2 ^ ((max 1 e : Nat) - 150 : Int) ≤ (2 ^ 24 - 1) * 2 ^ (103 : Int) :=
      mul_le_mul (by linarith) scale (by positivity) (by norm_num)
    norm_num at product ⊢
    linarith

theorem fieldValue_succ (normal : e ≠ 0) : fieldValue (e + 1) f = 2 * fieldValue e f := by
  have scale : (2 : ℚ) ^ ((max 1 (e + 1) : Nat) - 150 : Int) = 2 ^ ((max 1 e : Nat) - 150 : Int) * 2 := by
    rw [← zpow_add_one₀ (by norm_num)]
    congr 1
    omega
  unfold fieldValue
  rw [if_neg e.succ_ne_zero, if_neg normal, scale]
  ring

theorem fieldValue_subnormal (small : f < 2 ^ 23) :
    fieldValue (2 * f / 2 ^ 23) (2 * f % 2 ^ 23) = 2 * fieldValue 0 f := by
  unfold fieldValue
  have sig : (if 2 * f / 2 ^ 23 = 0 then 2 * f % 2 ^ 23 else 2 ^ 23 + 2 * f % 2 ^ 23) = 2 * f := by
    split <;> omega
  have scale : max 1 (2 * f / 2 ^ 23) = max 1 0 := by omega
  rw [sig, scale, if_pos rfl]
  push_cast
  ring

theorem twice_fields (finite : e ≠ 255) (small : f < 2 ^ 23) : (Datum.ofFields s e f).twice =
    if e < 254 then .finite s ((if s then -1 else 1) * (2 * fieldValue e f)) else .infinity s := by
  have magnitude : |2 * ((if s then -1 else 1) * fieldValue e f)| = 2 * fieldValue e f := by
    have positive := @fieldValue_nonneg e f
    cases s
    · rw [if_neg Bool.false_ne_true, one_mul, abs_of_nonneg (by linarith)]
    · rw [if_pos rfl, abs_of_nonpos (by linarith)]
      ring
  rw [Datum.ofFields, if_neg finite, Datum.twice, Datum.ofExact, magnitude, mul_left_comm]
  exact if_congr (twice_lt_bound small) rfl rfl

theorem datum_floatTwice (uf : BitVec 32) : datum (floatTwice uf) = (datum uf).twice := by
  have packed := packed_fields uf
  generalize signBit uf = s, expField uf = e, fraction uf = f at packed
  have small := packed.1
  have frac := packed.2.1
  rw [packed.datum]
  rcases (by omega : e = 0 ∨ (e ≠ 0 ∧ e < 254) ∨ e = 254 ∨ e = 255) with rfl | ⟨least, most⟩ | rfl | rfl
  · rw [packed.floatTwice_subnormal.datum, twice_fields (by decide) frac, if_pos (by decide), Datum.ofFields,
      if_neg (by omega), fieldValue_subnormal frac]
  · rw [(packed.floatTwice_normal least most).datum, twice_fields (by omega) frac, if_pos most, Datum.ofFields,
      if_neg (by omega), fieldValue_succ least]
  · rw [packed.floatTwice_overflow.datum, twice_fields (by decide) frac, if_neg (by decide)]
    rfl
  · rw [packed.floatTwice_top, packed.datum]
    unfold Datum.ofFields
    rw [if_pos rfl]
    split <;> rfl

/-- A NaN is given back as it is, whatever its sign and its fraction. -/
theorem floats_of_nan (nan : datum uf = .nan) : floatNeg uf = uf ∧ floatTwice uf = uf := by
  have packed := packed_fields uf
  have fields : expField uf = 255 ∧ fraction uf ≠ 0 := by
    unfold datum at nan
    split at nan
    · next top =>
      refine ⟨top, fun zero => ?_⟩
      rw [if_pos zero] at nan
      cases nan
    · cases nan
  refine ⟨if_neg fun number => packed.number_iff.mp number fields, ?_⟩
  rw [fields.1] at packed
  exact packed.floatTwice_top

theorem datum_unique {q : BitVec 32} {d : Datum} (meaning : datum q = d) (nan : datum uf = .nan → q = uf)
    (number : datum uf ≠ .nan → d ≠ .nan) : r = q ↔ datum r = d ∧ (datum uf = .nan → r = uf) := by
  constructor
  · rintro rfl
    exact ⟨meaning, nan⟩
  · rintro ⟨same, kept⟩
    by_cases noNumber : datum uf = .nan
    · exact (kept noNumber).trans (nan noNumber).symm
    · exact datum_inj (meaning ▸ number noNumber) (same.trans meaning.symm)

/-- `float_neg` and `float_twice` give the one single that stands for the negated or doubled number, rounded to
nearest, with the sign of a zero and with an infinity from the bound on, and give a NaN back. -/
theorem floats_exact (uf r : BitVec 32) :
    (r = floatNeg uf ↔ datum r = (datum uf).neg ∧ (datum uf = .nan → r = uf)) ∧
      (r = floatTwice uf ↔ datum r = (datum uf).twice ∧ (datum uf = .nan → r = uf)) := by
  refine ⟨datum_unique (datum_floatNeg uf) (fun nan => (floats_of_nan nan).1) fun number => ?_,
    datum_unique (datum_floatTwice uf) (fun nan => (floats_of_nan nan).2) fun number => ?_⟩
  · cases value : datum uf with
    | nan => exact absurd value number
    | infinity => exact Datum.noConfusion
    | finite => exact Datum.noConfusion
  · cases value : datum uf with
    | nan => exact absurd value number
    | infinity => exact Datum.noConfusion
    | finite s v =>
      rw [Datum.twice, Datum.ofExact]
      split <;> exact Datum.noConfusion

end Operations

end Splab.Bits
