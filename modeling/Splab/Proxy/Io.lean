import Splab.Lib.Runs

namespace Splab.Proxy

/-- `MAXLINE` of csapp.h. -/
def maxLine : Nat := 8192

/-- An access behind the end of a buffer, and the use of a null pointer. -/
inductive Fault
  | overrun
  | nullPtr
  deriving DecidableEq, Repr

/-- The peers of the two sockets `sockfd` and `newfd`. -/
inductive Side
  | client
  | server
  deriving DecidableEq, Repr

/-- What a call of `write` is going to do: fail, or take at most one byte more than the given number. -/
inductive Accept
  | failed
  | upTo (more : Nat)
  deriving DecidableEq, Repr

/-- What a peer has been sent, and the next calls of `write`. After them every call takes all bytes. -/
structure Output where
  sent : List UInt8
  writes : List Accept

/-- The state of a proxy thread. The input is what calls of `read` return: a byte, a failure, and the end of
the file when the list is empty. `dialled` is the address that the thread has connected to, `log` what it
has written to the log. -/
structure Conn where
  input : Side → List (Option UInt8)
  output : Side → Output
  buf : List UInt8
  dialled : Option (List UInt8 × Nat)
  log : Option (List UInt8 × Int)

abbrev Thread := EStateM Fault Conn

def Conn.withInput (s : Conn) (fd : Side) (input : List (Option UInt8)) : Conn :=
  { s with input := Function.update s.input fd input }

def Conn.withOutput (s : Conn) (fd : Side) (output : Output) : Conn :=
  { s with output := Function.update s.output fd output }

def Conn.withBuf (s : Conn) (buf : List UInt8) : Conn := { s with buf := buf }

/-- The result of `read` for one byte. -/
inductive Got
  | byte (b : UInt8)
  | eof
  | failed

/-- `read(fd, buf + i, 1)`. -/
def read (fd : Side) (i : Nat) : Thread Got := fun s =>
  match s.input fd with
  | [] => .ok .eof s
  | none :: rest => .ok .failed (s.withInput fd rest)
  | some b :: rest =>
    if i < s.buf.length then .ok (.byte b) ((s.withInput fd rest).withBuf (s.buf.set i b)) else .error .overrun s

/-- The loop of `readline`, with the rounds that are left. -/
def readlineLoop (fd : Side) : Nat → Nat → Thread Int
  | 0, i => pure i
  | left + 1, i => do
    match ← read fd i with
    | .byte b => if b = 10 then pure (i + 1 : Nat) else readlineLoop fd left (i + 1)
    | .eof => pure 0
    | .failed => pure (-1)

def readline (fd : Side) (len : Nat) : Thread Int := readlineLoop fd len 0

/-- The loop of `writebuf` for the bytes that are left, and whether all of them were taken. -/
def sendAll : List Accept → List UInt8 → List UInt8 → Bool × Output
  | writes, sent, [] => (true, ⟨sent, writes⟩)
  | [], sent, b :: data => (true, ⟨sent ++ b :: data, []⟩)
  | .failed :: writes, sent, _ :: _ => (false, ⟨sent, writes⟩)
  | .upTo more :: writes, sent, b :: data => sendAll writes (sent ++ b :: data.take more) (data.drop more)

def writebuf (fd : Side) (len : Nat) : Thread Int := fun s =>
  let (done, output) := sendAll (s.output fd).writes (s.output fd).sent (s.buf.take len)
  .ok (if done then len else -1) (s.withOutput fd output)

/-- How `readline` comes to an end. -/
inductive Stop
  | line
  | eof
  | failed
  deriving DecidableEq, Repr

def Stop.result (stop : Stop) (length : Nat) : Int :=
  match stop with
  | .line => length
  | .eof => 0
  | .failed => -1

/-- The bytes that `readline` stores, how it ends, and the input that is left. -/
def takeLine : Nat → List (Option UInt8) → List UInt8 × Stop × List (Option UInt8)
  | 0, input => ([], .line, input)
  | _ + 1, [] => ([], .eof, [])
  | _ + 1, none :: rest => ([], .failed, rest)
  | left + 1, some b :: rest =>
    if b = 10 then ([b], .line, rest)
    else
      let (bytes, stop, rest) := takeLine left rest
      (b :: bytes, stop, rest)

/-- The buffer with new bytes at its start. -/
def overwrite (buf bytes : List UInt8) : List UInt8 := bytes ++ buf.drop bytes.length

section Reading
variable {s : Conn} {fd : Side} {left i len : Nat} {input rest : List (Option UInt8)} {bytes buf : List UInt8}
  {stop : Stop}

theorem Conn.withInput_self (same : s.input fd = input) : s.withInput fd input = s := by
  unfold withInput
  rw [← same, Function.update_eq_self]

theorem read_eof (input : s.input fd = []) : read fd i s = .ok .eof s := by
  rw [read, input]

theorem read_failed (input : s.input fd = none :: rest) : read fd i s = .ok .failed (s.withInput fd rest) := by
  rw [read, input]

theorem read_byte {b : UInt8} (input : s.input fd = some b :: rest) (room : i < s.buf.length) :
    read fd i s = .ok (.byte b) ((s.withInput fd rest).withBuf (s.buf.set i b)) := by
  rw [read, input]
  exact if_pos room

theorem takeLine_length (line : takeLine left input = (bytes, stop, rest)) : bytes.length ≤ left := by
  induction left generalizing input bytes with
  | zero =>
    cases line
    exact le_rfl
  | succ left ih =>
    match input with
    | [] => cases line; exact Nat.zero_le _
    | none :: _ => cases line; exact Nat.zero_le _
    | some b :: input =>
      rw [takeLine] at line
      split at line
      · cases line
        exact Nat.succ_le_succ (Nat.zero_le _)
      · cases line
        exact Nat.succ_le_succ (ih rfl)

theorem takeLine_rest (line : takeLine left input = (bytes, stop, rest)) :
    bytes.length + rest.length ≤ input.length := by
  induction left generalizing input bytes with
  | zero =>
    cases line
    exact (Nat.zero_add _).le
  | succ left ih =>
    match input with
    | [] =>
      cases line
      exact le_rfl
    | none :: input =>
      cases line
      simp
    | some b :: input =>
      rw [takeLine] at line
      split at line
      · cases line
        simp [Nat.add_comm]
      · rcases inner : takeLine left input with ⟨bytes', stop', rest'⟩
        rw [inner] at line
        cases line
        have shorter := ih inner
        simp only [List.length_cons]
        omega

theorem takeLine_nonempty {input rest : List (Option UInt8)} {bytes : List UInt8}
    (line : takeLine maxLine input = (bytes, .line, rest)) : bytes ≠ [] := by
  match input with
  | [] => cases line
  | none :: _ => cases line
  | some b :: input =>
    have first : (takeLine maxLine (some b :: input)).1 = bytes := congrArg Prod.fst line
    rw [← first, maxLine, takeLine]
    split <;> exact List.cons_ne_nil _ _

theorem set_split {b : UInt8} (inside : i < buf.length) :
    (buf.set i b).take (i + 1) ++ bytes ++ (buf.set i b).drop (i + 1 + bytes.length) =
      buf.take i ++ b :: bytes ++ buf.drop (i + (b :: bytes).length) := by
  have head : (buf.set i b).take (i + 1) = buf.take i ++ [b] := by
    rw [List.take_add_one, List.take_set_of_le le_rfl, List.getElem?_set_self inside, Option.toList_some]
  have tail : (buf.set i b).drop (i + 1 + bytes.length) = buf.drop (i + 1 + bytes.length) :=
    List.drop_set_of_lt (by omega)
  rw [head, tail, List.length_cons, Nat.add_right_comm, ← Nat.add_assoc]
  simp

theorem readlineLoop_run (room : i + left ≤ s.buf.length) (line : takeLine left (s.input fd) = (bytes, stop, rest)) :
    readlineLoop fd left i s = .ok (stop.result (i + bytes.length))
      ((s.withInput fd rest).withBuf (s.buf.take i ++ bytes ++ s.buf.drop (i + bytes.length))) := by
  have same : ∀ (t : Conn) i, t.withBuf (t.buf.take i ++ [] ++ t.buf.drop (i + ([] : List UInt8).length)) = t := by
    intro t i
    simp [Conn.withBuf]
  induction left generalizing i s bytes with
  | zero =>
    cases line
    rw [readlineLoop, Conn.withInput_self rfl, same]
    rfl
  | succ left ih =>
    rw [readlineLoop, bind_run]
    cases input : s.input fd with
    | nil =>
      rw [input] at line
      cases line
      rw [read_eof input, Conn.withInput_self input, same]
      rfl
    | cons event more =>
      rw [input] at line
      cases event with
      | none =>
        cases line
        rw [read_failed input]
        exact congrArg (EStateM.Result.ok (-1)) (same (s.withInput fd rest) i).symm
      | some b =>
        rw [read_byte input (by omega)]
        rw [takeLine] at line
        split at line
        · next newline =>
          cases line
          simp only [newline, if_true]
          rw [List.set_eq_take_append_cons_drop, if_pos (by omega)]
          simp only [List.append_assoc, List.singleton_append, List.length_singleton]
          rfl
        · next other =>
          simp only [other, if_false]
          rcases tail : takeLine left more with ⟨bytes', stop', rest'⟩
          rw [tail] at line
          cases line
          have next := ih (s := (s.withInput fd more).withBuf (s.buf.set i b)) (i := i + 1)
            (by simp only [Conn.withBuf, List.length_set]; omega) (by simpa [Conn.withInput, Conn.withBuf] using tail)
          rw [next]
          simp only [Conn.withBuf, set_split (show i < s.buf.length by omega)]
          simp only [Conn.withInput, Function.update_idem, List.length_cons]
          rw [Nat.add_assoc, Nat.add_comm 1]

/-- `readline` puts the line at the start of the buffer and leaves what was behind it. -/
theorem readline_run (room : len ≤ s.buf.length) (line : takeLine len (s.input fd) = (bytes, stop, rest)) :
    readline fd len s = .ok (stop.result bytes.length) ((s.withInput fd rest).withBuf (overwrite s.buf bytes)) := by
  have run := readlineLoop_run (i := 0) (by omega) line
  simpa [readline, overwrite] using run

theorem overwrite_length (size : buf.length = len) (short : bytes.length ≤ len) :
    (overwrite buf bytes).length = len := by
  unfold overwrite
  rw [List.length_append, List.length_drop]
  omega

theorem take_overwrite : (overwrite buf bytes).take bytes.length = bytes := List.take_left

/-- A line of the stream is taken as a whole. -/
theorem takeLine_line {line : List UInt8} (inside : 10 ∉ line) (short : line.length < len) :
    takeLine len ((line ++ [10]).map some ++ rest) = (line ++ [10], .line, rest) := by
  induction line generalizing len with
  | nil =>
    match len with
    | len + 1 => rfl
  | cons b line ih =>
    match len with
    | len + 1 =>
      obtain ⟨other, inside⟩ := List.ne_and_not_mem_of_not_mem_cons inside
      simp only [List.cons_append, List.map_cons, takeLine]
      rw [if_neg other.symm, ih inside (by simpa using short)]

end Reading

section Writing
variable {writes : List Accept} {sent data : List UInt8}

/-- If no call fails, everything is sent, however the calls cut it. -/
theorem sendAll_clean (clean : .failed ∉ writes) :
    ∃ later, .failed ∉ later ∧ sendAll writes sent data = (true, ⟨sent ++ data, later⟩) := by
  fun_induction sendAll writes sent data with
  | case1 writes sent => exact ⟨writes, clean, by rw [List.append_nil]⟩
  | case2 sent b data => exact ⟨[], List.not_mem_nil, rfl⟩
  | case3 writes => exact absurd List.mem_cons_self clean
  | case4 more writes sent b data ih =>
    obtain ⟨later, clean, all⟩ := ih fun mem => clean (List.mem_cons_of_mem _ mem)
    refine ⟨later, clean, ?_⟩
    rw [all, List.append_assoc, List.cons_append, List.take_append_drop]

end Writing

end Splab.Proxy
