import Mathlib

namespace Splab.CString

/-! The scanning functions of C on the bytes from an address on. `none` means that the
scan has not ended when the bytes are at their end, so that the result depends on what lies behind them. -/

/-- The distance to the first byte that satisfies `p`, or nothing if the string ends before. -/
def find (p : UInt8 → Bool) : List UInt8 → Option (Option Nat)
  | [] => none
  | b :: rest => if p b then some (some 0) else if b = 0 then some none else (find p rest).map (·.map (· + 1))

def strchr (s : List UInt8) (c : UInt8) : Option (Option Nat) := find (· = c) s

def strpbrk (s accept : List UInt8) : Option (Option Nat) := find (· ∈ accept) s

/-- Whether the comparison of the first bytes with a literal, all of whose characters count, gives 0. -/
def agrees (fold : UInt8 → UInt8) : List UInt8 → List UInt8 → Option Bool
  | _, [] => some true
  | [], _ :: _ => none
  | b :: s, c :: literal => if fold b = fold c then agrees fold s literal else some false

def tolower (b : UInt8) : UInt8 := if 65 ≤ b ∧ b ≤ 90 then b + 32 else b

def strncmp (s literal : List UInt8) : Option Bool := agrees id s literal

def strncasecmp (s literal : List UInt8) : Option Bool := agrees tolower s literal

def isspace (b : UInt8) : Bool := b = 32 || (9 ≤ b && b ≤ 13)

def isdigit (b : UInt8) : Bool := 48 ≤ b && b ≤ 57

def sign : UInt8 → Bool := fun b => b = 43 || b = 45

/-- The value of decimal digits. -/
def digitsValue (digits : List UInt8) : Nat := digits.foldl (fun v b => 10 * v + (b.toNat - 48)) 0

def skipSign : List UInt8 → List UInt8
  | [] => []
  | b :: rest => if sign b then rest else b :: rest

/-- The conversion of a number to a `long` of 64 bits, which is clipped, and of that to an `int`. -/
def toInt (value : Int) : Int := (max (-2 ^ 63) (min value (2 ^ 63 - 1))).bmod (2 ^ 32)

def atoi (s : List UInt8) : Option Int :=
  let body := s.dropWhile isspace
  let digits := skipSign body
  if digits.dropWhile isdigit = [] then none
  else
    let value : Int := digitsValue (digits.takeWhile isdigit)
    some (toInt (if body.head? = some 45 then -value else value))

section Scans
variable {p : UInt8 → Bool} {fold : UInt8 → UInt8} {s t literal pre : List UInt8} {c : UInt8}

/-- What a scan has found does not depend on what lies behind. -/
theorem find_append {r : Option Nat} (found : find p s = some r) : find p (s ++ t) = some r := by
  induction s generalizing r with
  | nil => cases found
  | cons b rest ih =>
    rw [List.cons_append, find]
    rw [find] at found
    split_ifs at found ⊢
    · exact found
    · exact found
    · obtain ⟨r', inner, rfl⟩ := Option.map_eq_some_iff.mp found
      rw [ih inner]
      rfl

theorem find_hit (here : p c = true) (before : ∀ b ∈ pre, p b = false ∧ b ≠ 0) :
    find p (pre ++ c :: t) = some (some pre.length) := by
  induction pre with
  | nil => rw [List.nil_append, find, if_pos here, List.length_nil]
  | cons b rest ih =>
    obtain ⟨⟨other, nonzero⟩, later⟩ := List.forall_mem_cons.mp before
    rw [List.cons_append, find, other, if_neg (by decide), if_neg nonzero, ih later]
    rfl

/-- A search succeeds at the first hit, with no zero byte before it. -/
theorem find_eq_some {i : Nat} : find p s = some (some i) ↔
    ∃ pre c t, s = pre ++ c :: t ∧ pre.length = i ∧ p c = true ∧ ∀ b ∈ pre, p b = false ∧ b ≠ 0 := by
  constructor
  · intro found
    induction s generalizing i with
    | nil => cases found
    | cons b rest ih =>
      rw [find] at found
      split_ifs at found with here zero
      · cases found
        exact ⟨[], b, rest, rfl, rfl, here, nofun⟩
      · cases found
      · obtain ⟨r, inner, eq⟩ := Option.map_eq_some_iff.mp found
        obtain ⟨j, rfl, rfl⟩ := Option.map_eq_some_iff.mp eq
        obtain ⟨pre, c, t, rfl, rfl, hit, before⟩ := ih inner
        exact ⟨b :: pre, c, t, rfl, rfl, hit,
          List.forall_mem_cons.mpr ⟨⟨Bool.eq_false_iff.mpr here, zero⟩, before⟩⟩
  · rintro ⟨pre, c, t, rfl, rfl, here, before⟩
    exact find_hit here before

/-- What is not in a string is not found. -/
theorem find_miss (other : p 0 = false) (before : ∀ b ∈ pre, p b = false ∧ b ≠ 0) :
    find p (pre ++ 0 :: t) = some none := by
  induction pre with
  | nil => rw [List.nil_append, find, other, if_neg (by decide), if_pos rfl]
  | cons b rest ih =>
    obtain ⟨⟨differs, nonzero⟩, later⟩ := List.forall_mem_cons.mp before
    rw [List.cons_append, find, differs, if_neg (by decide), if_neg nonzero, ih later]
    rfl

/-- A search that has not ended has met neither a hit nor a zero byte. -/
theorem find_eq_none : find p s = none ↔ ∀ b ∈ s, p b = false ∧ b ≠ 0 := by
  induction s with
  | nil => exact iff_of_true rfl (List.forall_mem_nil _)
  | cons b rest ih =>
    rw [find, List.forall_mem_cons]
    split_ifs with here zero
    · exact iff_of_false (by simp) fun all => by simp [here] at all
    · exact iff_of_false (by simp) fun all => all.1.2 zero
    · rw [Option.map_eq_none_iff, ih, and_iff_right ⟨Bool.eq_false_iff.mpr here, zero⟩]

/-- A byte that is looked for is found, or one before it. -/
theorem find_exists (here : p c = true) (before : 0 ∉ pre) :
    ∃ i ≤ pre.length, find p (pre ++ c :: t) = some (some i) := by
  induction pre with
  | nil => exact ⟨0, le_rfl, by rw [List.nil_append, find, if_pos here]⟩
  | cons b rest ih =>
    obtain ⟨nonzero, later⟩ := List.ne_and_not_mem_of_not_mem_cons before
    obtain ⟨i, bound, found⟩ := ih later
    rw [List.cons_append, find, found, if_neg nonzero.symm]
    split
    · exact ⟨0, Nat.zero_le _, rfl⟩
    · exact ⟨i + 1, Nat.succ_le_succ bound, rfl⟩

theorem agrees_append {r : Bool} (decided : agrees fold s literal = some r) :
    agrees fold (s ++ t) literal = some r := by
  induction literal generalizing s with
  | nil =>
    rw [agrees] at decided ⊢
    exact decided
  | cons c literal ih =>
    cases s with
    | nil => cases decided
    | cons b rest =>
      rw [List.cons_append, agrees]
      rw [agrees] at decided
      split_ifs at decided ⊢
      · exact ih decided
      · exact decided

/-- A byte that does not occur in the literal ends the comparison. -/
theorem agrees_ends (mem : c ∈ s) (other : ∀ l ∈ literal, fold c ≠ fold l) : agrees fold s literal ≠ none := by
  induction literal generalizing s with
  | nil => simp [agrees]
  | cons l literal ih =>
    obtain ⟨differs, later⟩ := List.forall_mem_cons.mp other
    cases s with
    | nil => cases mem
    | cons b rest =>
      rw [agrees]
      split_ifs with same
      · rcases List.mem_cons.mp mem with rfl | inside
        · exact absurd same differs
        · exact ih inside later
      · simp

/-- A string that is long enough is compared to the end of the literal. -/
theorem agrees_long (long : literal.length ≤ s.length) : agrees fold s literal ≠ none := by
  induction literal generalizing s with
  | nil => simp [agrees]
  | cons l literal ih =>
    cases s with
    | nil => simp at long
    | cons b rest =>
      rw [agrees]
      split_ifs
      · exact ih (by simpa using long)
      · simp

/-- A comparison that has not ended goes on with the next character, or that one is the last. -/
theorem agrees_next (undecided : agrees fold s literal = none) : ∃ b, agrees fold (s ++ [b]) literal = none ∨
    agrees fold (s ++ [b]) literal = some true ∧ s.length + 1 = literal.length := by
  induction literal generalizing s with
  | nil => simp [agrees] at undecided
  | cons l literal ih =>
    cases s with
    | nil =>
      refine ⟨l, ?_⟩
      rw [List.nil_append, agrees, if_pos rfl]
      cases literal with
      | nil => exact .inr ⟨by rw [agrees], rfl⟩
      | cons l' literal => exact .inl rfl
    | cons b rest =>
      rw [agrees] at undecided
      split_ifs at undecided with same
      obtain ⟨c, next⟩ := ih undecided
      refine ⟨c, ?_⟩
      rw [List.cons_append, agrees, if_pos same]
      simpa using next

theorem agrees_eq_true : agrees fold s literal = some true ↔
    literal.length ≤ s.length ∧ (s.take literal.length).map fold = literal.map fold := by
  induction literal generalizing s with
  | nil => simp [agrees]
  | cons c literal ih =>
    cases s with
    | nil => simp [agrees]
    | cons b rest =>
      rw [agrees]
      split_ifs with same
      · rw [ih]
        simp [same]
      · simp [same]

theorem agrees_eq_true_iff : agrees fold s literal = some true ↔ literal.map fold <+: s.map fold := by
  rw [agrees_eq_true, List.prefix_iff_eq_take, List.length_map, ← List.map_take]
  refine ⟨fun ⟨_, same⟩ => same.symm, fun same => ⟨?_, same.symm⟩⟩
  have length := congrArg List.length same
  rw [List.length_map, List.length_map, List.length_take] at length
  omega

/-- A difference is found unless one of the two goes on where the other one ends. -/
theorem agrees_eq_false_iff : agrees fold s literal = some false ↔
    ¬literal.map fold <+: s.map fold ∧ ¬s.map fold <+: literal.map fold := by
  induction literal generalizing s with
  | nil => simp [agrees]
  | cons c literal ih =>
    cases s with
    | nil => simp [agrees]
    | cons b rest =>
      rw [agrees]
      split_ifs with same
      · rw [ih]
        simp [List.cons_prefix_cons, same]
      · simp [List.cons_prefix_cons, same, Ne.symm same]

/-- It is open as long as the string is a start of the literal. -/
theorem agrees_eq_none_iff : agrees fold s literal = none ↔
    ¬literal.map fold <+: s.map fold ∧ s.map fold <+: literal.map fold := by
  rcases result : agrees fold s literal with _ | _ | _
  · have other : ¬literal.map fold <+: s.map fold := fun starts => by
      rw [agrees_eq_true_iff.mpr starts] at result
      cases result
    refine iff_of_true rfl ⟨other, ?_⟩
    by_contra part
    rw [agrees_eq_false_iff.mpr ⟨other, part⟩] at result
    cases result
  · exact iff_of_false (by simp) fun both => (agrees_eq_false_iff.mp result).2 both.2
  · exact iff_of_false (by simp) fun both => both.1 (agrees_eq_true_iff.mp result)

end Scans

section Numbers
variable {s t : List UInt8}

theorem dropWhile_append_of_ne {p : UInt8 → Bool} (left : s.dropWhile p ≠ []) :
    (s ++ t).dropWhile p = s.dropWhile p ++ t := by
  rw [List.dropWhile_append, if_neg (by simpa using left)]

theorem takeWhile_append_of_ne {p : UInt8 → Bool} (left : s.dropWhile p ≠ []) :
    (s ++ t).takeWhile p = s.takeWhile p := by
  rw [List.takeWhile_append, if_neg]
  intro whole
  have split := congrArg List.length (List.takeWhile_append_dropWhile (p := p) (l := s))
  rw [List.length_append, whole] at split
  exact left (List.eq_nil_of_length_eq_zero (by omega))

theorem skipSign_append (nonempty : s ≠ []) : skipSign (s ++ t) = skipSign s ++ t := by
  cases s with
  | nil => exact absurd rfl nonempty
  | cons b rest =>
    rw [List.cons_append, skipSign, skipSign]
    split <;> rfl

theorem atoi_append {n : Int} (read : atoi s = some n) : atoi (s ++ t) = some n := by
  unfold atoi at read ⊢
  simp only at read ⊢
  split at read
  · cases read
  · next digits =>
    have body : s.dropWhile isspace ≠ [] := by
      intro empty
      rw [empty] at digits
      exact digits rfl
    rw [dropWhile_append_of_ne body, skipSign_append body, dropWhile_append_of_ne digits, takeWhile_append_of_ne digits,
      List.head?_append_of_ne_nil _ body, if_neg (List.append_ne_nil_of_left_ne_nil digits t)]
    exact read

/-- A byte that cannot be a part of a number ends the scan. -/
theorem atoi_stop {c : UInt8} (space : isspace c = false) (plus : sign c = false) (digit : isdigit c = false) :
    atoi (s ++ c :: t) ≠ none := by
  have stops : ∀ {p : UInt8 → Bool} (r : List UInt8), p c = false → (r ++ c :: t).dropWhile p ≠ [] := by
    intro p r other empty
    have all := List.dropWhile_eq_nil_iff.mp empty c (by simp)
    rw [other] at all
    cases all
  have tail : ∃ r, (s ++ c :: t).dropWhile isspace = r ++ c :: t := by
    rw [List.dropWhile_append]
    split
    · refine ⟨[], ?_⟩
      rw [List.dropWhile_cons, space]
      rfl
    · exact ⟨_, rfl⟩
  obtain ⟨r, body⟩ := tail
  have digits : ∃ q, skipSign (r ++ c :: t) = q ++ c :: t := by
    cases r with
    | nil =>
      refine ⟨[], ?_⟩
      rw [List.nil_append, skipSign, plus]
      rfl
    | cons b rest => exact ⟨_, skipSign_append (List.cons_ne_nil b rest)⟩
  obtain ⟨q, digits⟩ := digits
  unfold atoi
  simp only [body, digits]
  rw [if_neg (stops q digit)]
  exact Option.some_ne_none _

theorem digit_plain {d : UInt8} (digit : isdigit d = true) : isspace d = false ∧ sign d = false ∧ d ≠ 45 := by
  unfold isdigit at digit
  unfold isspace sign
  simp only [Bool.and_eq_true, decide_eq_true_eq, Bool.or_eq_false_iff, decide_eq_false_iff_not, Bool.and_eq_false_iff,
    UInt8.le_iff_toNat_le, ← UInt8.toNat_inj, ne_eq] at digit ⊢
  simp only [UInt8.reduceToNat] at digit ⊢
  omega

/-- Behind blanks, a sign and digits there is something else. -/
def NumberEnds (s : List UInt8) : Prop := (skipSign (s.dropWhile isspace)).dropWhile isdigit ≠ []

instance : DecidablePred NumberEnds := fun _ => inferInstanceAs (Decidable (_ ≠ _))

theorem atoi_isSome : (∃ n, atoi s = some n) ↔ NumberEnds s := by
  unfold atoi NumberEnds
  simp only
  split
  · next empty => exact iff_of_false (by simp) fun more => more empty
  · next more => exact iff_of_true ⟨_, rfl⟩ more

/-- A number that has not ended goes on with more digits. -/
theorem atoi_unended (unended : atoi s = none) (digits : ∀ b ∈ t, isdigit b = true) : atoi (s ++ t) = none := by
  have all : (skipSign (s.dropWhile isspace)).dropWhile isdigit = [] := by
    by_contra more
    simp only [atoi, if_neg more] at unended
    cases unended
  have rest : (skipSign ((s ++ t).dropWhile isspace)).dropWhile isdigit = [] := by
    by_cases blank : s.dropWhile isspace = []
    · rw [List.dropWhile_append, blank, List.isEmpty_nil, if_pos rfl]
      cases t with
      | nil => rfl
      | cons d t =>
        obtain ⟨space, plus, _⟩ := digit_plain (digits d List.mem_cons_self)
        rw [List.dropWhile_cons_of_neg (by simp [space]), skipSign, plus]
        exact List.dropWhile_eq_nil_iff.mpr digits
    · rw [dropWhile_append_of_ne blank, skipSign_append blank, List.dropWhile_eq_nil_iff]
      intro b mem
      rcases List.mem_append.mp mem with inside | later
      · exact List.dropWhile_eq_nil_iff.mp all b inside
      · exact digits b later
  simp only [atoi, rest, if_true]

theorem toInt_small {n : Nat} (small : n < 2 ^ 31) : toInt n = n := by
  unfold toInt
  rw [Int.bmod_def]
  split <;> omega

/-- A number without a sign, behind blanks. -/
theorem atoi_digits {blanks digits : List UInt8} {c : UInt8} (spaces : ∀ b ∈ blanks, isspace b = true)
    (nonempty : digits ≠ []) (all : ∀ b ∈ digits, isdigit b = true) (other : isdigit c = false) :
    atoi (blanks ++ digits ++ c :: t) = some (toInt (digitsValue digits)) := by
  obtain ⟨d, rest, rfl⟩ := List.exists_cons_of_ne_nil nonempty
  obtain ⟨space, plus, minus⟩ := digit_plain (all d List.mem_cons_self)
  have body : (blanks ++ (d :: rest) ++ c :: t).dropWhile isspace = (d :: rest) ++ c :: t := by
    rw [List.append_assoc, List.dropWhile_append_of_pos spaces, List.cons_append, List.dropWhile_cons, space]
    rfl
  have digits : skipSign ((d :: rest) ++ c :: t) = (d :: rest) ++ c :: t := by
    rw [List.cons_append, skipSign, plus]
    rfl
  have stop : ((d :: rest) ++ c :: t).dropWhile isdigit = c :: t := by
    rw [List.dropWhile_append_of_pos all, List.dropWhile_cons, other]
    rfl
  have run : ((d :: rest) ++ c :: t).takeWhile isdigit = d :: rest := by
    rw [List.takeWhile_append_of_pos all, List.takeWhile_cons, other]
    exact List.append_nil _
  unfold atoi
  simp only [body, digits, stop, run]
  rw [if_neg (List.cons_ne_nil _ _), if_neg]
  simpa using minus

end Numbers

end Splab.CString
