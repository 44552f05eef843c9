import Splab.Shell.Jobs

namespace Splab.Shell

def skipSpaces (buf : List Char) : List Char := buf.dropWhile (· = ' ')

/-- One round of the loop of `parseline`: the argument at the start of `buf` and what follows
its delimiter, or nothing if the delimiter is missing. -/
def nextArg (buf : List Char) : Option (List Char × List Char) :=
  let delim := if buf.head? = some '\'' then '\'' else ' '
  let buf := if buf.head? = some '\'' then buf.tail else buf
  if delim ∈ buf then some (buf.takeWhile (· ≠ delim), (buf.dropWhile (· ≠ delim)).tail) else none

/-- The loop of `parseline`, with a bound on its rounds. -/
def parseArgs : Nat → List Char → List (List Char)
  | 0, _ => []
  | fuel + 1, buf =>
    match nextArg buf with
    | some (arg, rest) => arg :: parseArgs fuel (skipSpaces rest)
    | none => []

/-- The strings that `parseline` stores from `argv[0]` on, a final `&` included. -/
def splitLine (cmdline : List Char) : List (List Char) :=
  -- the trailing newline becomes a space
  let buf := skipSpaces (cmdline.dropLast ++ [' '])
  parseArgs (buf.length + 1) buf

/-- The result of `parseline`, with the strings of `argv` up to its `NULL`. -/
def parseline (cmdline : List Char) : Bool × List (List Char) :=
  let argv := splitLine cmdline
  match argv.getLast? with
  | none => (true, [])
  | some last => if last.head? = some '&' then (true, argv.dropLast) else (false, argv)

def isspace (c : Char) : Bool := c = ' ' || ('\t' ≤ c && c ≤ '\r')

/-- `strtol(s, &ptr, 10)` with a `long` of 64 bits, and the string at `ptr`. -/
def strtol (s : List Char) : Int × List Char :=
  let body := s.dropWhile isspace
  let digits := if body.head? = some '-' ∨ body.head? = some '+' then body.tail else body
  let run := digits.takeWhile Char.isDigit
  if run = [] then (0, s)
  else
    let value : Int := run.foldl (fun v c => 10 * v + (c.toNat - '0'.toNat : Nat)) 0
    let signed := if body.head? = some '-' then -value else value
    (max (-2 ^ 63) (min signed (2 ^ 63 - 1)), digits.dropWhile Char.isDigit)

section Rounds
variable {buf arg rest : List Char} {fuel : Nat}

theorem nextArg_length (next : nextArg buf = some (arg, rest)) : rest.length < buf.length := by
  unfold nextArg at next
  generalize (if buf.head? = some '\'' then '\'' else ' ') = delim at next
  have tail : (if buf.head? = some '\'' then buf.tail else buf).length ≤ buf.length := by
    split <;> simp
  generalize (if buf.head? = some '\'' then buf.tail else buf) = buf' at next tail
  simp only at next
  split at next
  · next inside =>
    cases next
    have nonempty : buf'.dropWhile (· ≠ delim) ≠ [] := by
      rw [ne_eq, List.dropWhile_eq_nil_iff]
      exact fun all => by simpa using all delim inside
    have short := List.length_dropWhile_le (p := fun c => decide (c ≠ delim)) buf'
    have := List.length_pos_iff.mpr nonempty
    rw [List.length_tail]
    omega
  · cases next

/-- A round for each character is enough. -/
theorem parseArgs_enough (enough : buf.length < fuel) : parseArgs fuel buf = parseArgs (buf.length + 1) buf := by
  induction fuel using Nat.strong_induction_on generalizing buf with
  | _ fuel ih =>
    obtain ⟨fuel, rfl⟩ : ∃ m, fuel = m + 1 := ⟨fuel - 1, by omega⟩
    rw [parseArgs, parseArgs]
    cases next : nextArg buf with
    | none => rfl
    | some pair =>
      obtain ⟨arg, rest⟩ := pair
      have less := nextArg_length next
      have short : (skipSpaces rest).length ≤ rest.length := List.length_dropWhile_le ..
      have first : parseArgs fuel (skipSpaces rest) = _ := ih fuel (by omega) (by omega)
      have second : parseArgs buf.length (skipSpaces rest) = _ := ih buf.length (by omega) (by omega)
      simp only [first, second]

end Rounds

end Splab.Shell
