import Splab.Proxy.Streams

namespace Splab.Proxy

/-- The outcomes of `write` that are left when a buffer of `n` bytes was written; nothing, if a call fails. -/
def afterWrite : List Accept → Nat → Option (List Accept)
  | writes, 0 => some writes
  | [], _ + 1 => some []
  | .failed :: _, _ + 1 => none
  | .upTo more :: writes, n + 1 => afterWrite writes (n - more)

/-- The same for `count` buffers of `len` bytes. -/
def afterWrites (writes : List Accept) (len : Nat) : Nat → Option (List Accept)
  | 0 => some writes
  | count + 1 => (afterWrite writes len).bind fun later => afterWrites later len count

/-- The bytes that can be read before a failure or the end of the file. -/
def leading (input : List (Option UInt8)) : Nat := (input.takeWhile Option.isSome).length

/-- The limit on the bytes to copy is reached. -/
def Reaches (limit : Option Nat) (input : List (Option UInt8)) : Prop := ∃ n ∈ limit, n ≤ leading input

instance (limit : Option Nat) (input : List (Option UInt8)) : Decidable (Reaches limit input) :=
  match limit with
  | none => .isFalse (by simp [Reaches])
  | some n => decidable_of_iff (n ≤ leading input) (by simp [Reaches])

/-- The number of bytes that are read. -/
def copied (limit : Option Nat) (input : List (Option UInt8)) : Nat := limit.elim (leading input) (min (leading input))

/-- A call of `read` fails before the limit is reached. -/
def ReadFails (limit : Option Nat) (input : List (Option UInt8)) : Prop :=
  ¬Reaches limit input ∧ input[leading input]? = some none

instance (limit : Option Nat) (input : List (Option UInt8)) : Decidable (ReadFails limit input) :=
  inferInstanceAs (Decidable (_ ∧ _))

/-- How often a full buffer of `len` bytes is written in the loop, when `waiting` bytes are in it at first: not
for the last byte, where the limit ends the loop before. -/
def flushes (limit : Option Nat) (len : Nat) (input : List (Option UInt8)) (waiting : Nat) : Nat :=
  if Reaches limit input then (waiting + copied limit input - 1) / len else (waiting + copied limit input) / len

/-- What a run of `relay_content` comes to: a failure of `write` in the loop, a failure of `read`, a failure of
the last `writebuf`, or none. -/
inductive Ending
  | flush
  | read
  | last
  | whole
  deriving DecidableEq, Repr

def ending (limit : Option Nat) (len : Nat) (input : List (Option UInt8)) (writes : List Accept) (waiting : Nat) :
    Ending :=
  match afterWrites writes len (flushes limit len input waiting) with
  | none => .flush
  | some later =>
    if ReadFails limit input then .read
    else
      match afterWrite later (waiting + copied limit input - flushes limit len input waiting * len) with
      | none => .last
      | some _ => .whole

section Writes
variable {writes later : List Accept} {sent data : List UInt8}

@[simp]
theorem afterWrite_zero : afterWrite writes 0 = some writes := by
  cases writes <;> rfl

/-- A buffer that is written, is written as a whole. -/
theorem sendAll_eq_of_some (wrote : afterWrite writes data.length = some later) :
    sendAll writes sent data = (true, ⟨sent ++ data, later⟩) ∧ later.count .failed = writes.count .failed := by
  fun_induction sendAll writes sent data with
  | case1 writes sent =>
    rw [List.length_nil, afterWrite_zero] at wrote
    cases wrote
    exact ⟨by rw [List.append_nil], rfl⟩
  | case2 sent b data =>
    cases wrote
    exact ⟨rfl, rfl⟩
  | case3 writes => cases wrote
  | case4 more writes sent b data ih =>
    rw [List.length_cons, afterWrite] at wrote
    obtain ⟨all, count⟩ := ih (by rwa [List.length_drop])
    refine ⟨?_, by rw [count, List.count_cons_of_ne (by simp)]⟩
    rw [all, List.append_assoc, List.cons_append, List.take_append_drop]

/-- Otherwise a failed call has been made. -/
theorem sendAll_of_none (lost : afterWrite writes data.length = none) :
    (sendAll writes sent data).1 = false ∧
      (sendAll writes sent data).2.writes.count .failed < writes.count .failed := by
  fun_induction sendAll writes sent data with
  | case1 writes sent => simp at lost
  | case2 sent b data => cases lost
  | case3 writes => exact ⟨rfl, by simp⟩
  | case4 more writes sent b data ih =>
    rw [List.length_cons, afterWrite] at lost
    obtain ⟨failed, count⟩ := ih (by rwa [List.length_drop])
    exact ⟨failed, by rwa [List.count_cons_of_ne (by simp)]⟩

end Writes

section Ends
variable {limit : Option Nat} {len j : Nat} {input rest : List (Option UInt8)} {writes : List Accept} {b : UInt8}

/-- At the limit only the last write is left. -/
theorem ending_stop (low : 1 ≤ len) (small : j ≤ len) : ending (some 0) len input writes j =
    if (afterWrite writes j).isSome then .whole else .last := by
  have reached : Reaches (some 0) input := ⟨0, rfl, Nat.zero_le _⟩
  have none' : copied (some 0) input = 0 := Nat.min_zero _
  have flush : flushes (some 0) len input j = 0 := by
    rw [flushes, if_pos reached, none', Nat.div_eq_of_lt (by omega)]
  rw [ending, flush, none', afterWrites]
  simp only [ReadFails, reached, not_true_eq_false, false_and, if_false, Nat.zero_mul, Nat.add_zero, Nat.sub_zero]
  cases afterWrite writes j <;> rfl

/-- A full buffer is written before the next byte is read. -/
theorem ending_full (low : 1 ≤ len) (going : limit ≠ some 0) : ending limit len input writes len =
    match afterWrite writes len with
    | none => .flush
    | some later => ending limit len input later 0 := by
  have flush : flushes limit len input len = flushes limit len input 0 + 1 := by
    unfold flushes
    split
    · next reached =>
      obtain ⟨n, eq, le⟩ := reached
      have positive : 1 ≤ copied limit input := by
        rw [Option.mem_def.mp eq, copied, Option.elim_some]
        have : n ≠ 0 := fun zero => going (by rw [Option.mem_def.mp eq, zero])
        omega
      rw [Nat.zero_add, ← Nat.add_div_left _ (by omega)]
      congr 1
      omega
    · rw [Nat.zero_add, Nat.add_div_left _ (by omega)]
  have left : len + copied limit input - (flushes limit len input 0 + 1) * len =
      0 + copied limit input - flushes limit len input 0 * len := by
    rw [Nat.add_mul, Nat.one_mul]
    omega
  rw [ending, flush, left, afterWrites]
  cases afterWrite writes len with
  | none => rfl
  | some later => rfl

theorem not_reaches (going : limit ≠ some 0) (none' : leading input = 0) : ¬Reaches limit input := by
  rintro ⟨n, eq, le⟩
  rw [none', Nat.le_zero] at le
  exact going (by rw [Option.mem_def.mp eq, le])

theorem copied_eq_zero (none' : leading input = 0) : copied limit input = 0 := by
  cases limit <;> simp [copied, none']

/-- Without a byte to be read the buffer stays as it is. -/
theorem ending_idle (going : limit ≠ some 0) (less : j < len) (none' : leading input = 0) :
    ending limit len input writes j = if input[0]? = some none then .read
      else if (afterWrite writes j).isSome then .whole else .last := by
  have flush : flushes limit len input j = 0 := by
    rw [flushes, if_neg (not_reaches going none'), copied_eq_zero none', Nat.add_zero, Nat.div_eq_of_lt less]
  have fails : ReadFails limit input ↔ input[0]? = some none := by
    rw [ReadFails, none', and_iff_right (not_reaches going none')]
  rw [ending, flush, copied_eq_zero none', afterWrites]
  simp only [fails, Nat.zero_mul, Nat.add_zero, Nat.sub_zero]
  split
  · rfl
  · cases afterWrite writes j <;> rfl

theorem leading_cons : leading (some b :: rest) = leading rest + 1 := rfl

theorem reaches_cons (going : limit ≠ some 0) : Reaches limit (some b :: rest) ↔ Reaches (limit.map (· - 1)) rest := by
  cases limit with
  | none => simp [Reaches]
  | some n =>
    have : n ≠ 0 := fun zero => going (by rw [zero])
    simp only [Reaches, Option.map_some, Option.mem_def, Option.some.injEq, exists_eq_left', leading_cons]
    omega

theorem copied_cons (going : limit ≠ some 0) : copied limit (some b :: rest) = copied (limit.map (· - 1)) rest + 1 := by
  cases limit with
  | none => rfl
  | some n =>
    have : n ≠ 0 := fun zero => going (by rw [zero])
    simp only [copied, Option.map_some, Option.elim_some, leading_cons]
    omega

/-- A byte goes into the buffer. -/
theorem ending_byte (going : limit ≠ some 0) : ending limit len (some b :: rest) writes j =
    ending (limit.map (· - 1)) len rest writes (j + 1) := by
  have total : j + copied limit (some b :: rest) = j + 1 + copied (limit.map (· - 1)) rest := by
    rw [copied_cons going]
    omega
  have flush : flushes limit len (some b :: rest) j = flushes (limit.map (· - 1)) len rest (j + 1) := by
    simp only [flushes, reaches_cons going, total]
  have fails : ReadFails limit (some b :: rest) ↔ ReadFails (limit.map (· - 1)) rest := by
    rw [ReadFails, ReadFails, reaches_cons going, leading_cons, List.getElem?_cons_succ]
  rw [ending, ending, flush, total]
  simp only [fails]

end Ends

/-- A call that failed has been made, of `read` or of `write`. -/
def Lost (input : List (Option UInt8)) (out : Output) (input' : List (Option UInt8)) (out' : Output) : Prop :=
  input'.count none < input.count none ∨ out'.writes.count .failed < out.writes.count .failed

/-- The result of `pour`, for each way to end. -/
def Outcome (limit : Option Nat) (len : Nat) (input : List (Option UInt8)) (out : Output) (waiting : List UInt8)
    (i : Int) (result : Int × List (Option UInt8) × Output) : Prop :=
  match ending limit len input out.writes waiting.length with
  | .flush | .read => result.1 = -1 ∧ Lost input out result.2.1 result.2.2
  | .last => result.1 = (i + copied limit input).bmod (2 ^ 32) ∧ Lost input out result.2.1 result.2.2
  | .whole => result.1 = (i + copied limit input).bmod (2 ^ 32) ∧ ¬Lost input out result.2.1 result.2.2 ∧
      result.2.2.sent.length = out.sent.length + waiting.length + copied limit input

section Pour
variable {content i : Int} {len : Nat} {input rest : List (Option UInt8)} {out : Output} {waiting : List UInt8}
  {later : List Accept} {b : UInt8}

/-- The end of a run: what waits in the buffer is written, and the result is not looked at. -/
theorem outcome_last {limit : Option Nat} (range : IntRange i) (none' : copied limit input = 0)
    (ends : ending limit len input out.writes waiting.length =
      if (afterWrite out.writes waiting.length).isSome then .whole else .last) :
    Outcome limit len input out waiting i (i, input, (sendAll out.writes out.sent waiting).2) := by
  rw [Outcome, ends, none', bmod_range range]
  cases wrote : afterWrite out.writes waiting.length with
  | none => exact ⟨rfl, .inr (sendAll_of_none wrote).2⟩
  | some later =>
    obtain ⟨all, count⟩ := @sendAll_eq_of_some _ _ out.sent _ wrote
    rw [all]
    exact ⟨rfl, by simp [Lost, count], by simp⟩

theorem outcome_stop (low : 1 ≤ len) (small : waiting.length ≤ len) (wide : IntRange content) (range : IntRange i)
    (stop : content ≠ 0 ∧ i = content) :
    Outcome (limitLeft content i) len input out waiting i (pour content len input out waiting i) := by
  have run : pour content len input out waiting i = (i, input, (sendAll out.writes out.sent waiting).2) := by
    rw [pour]
    exact if_pos stop
  rw [run, (limitLeft_eq_zero wide range stop.1).mpr stop.2]
  exact outcome_last range (Nat.min_zero _) (ending_stop low small)

/-- A step that loses nothing passes the outcome on. -/
theorem Outcome.step {limit limit' : Option Nat} {input' : List (Option UInt8)} {out' : Output} {waiting' : List UInt8}
    {i' : Int} {result : Int × List (Option UInt8) × Output}
    (later : Outcome limit' len input' out' waiting' i' result)
    (ends : ending limit len input out.writes waiting.length = ending limit' len input' out'.writes waiting'.length)
    (reads : input'.count none = input.count none) (writes : out'.writes.count .failed = out.writes.count .failed)
    (counts : (i' + copied limit' input').bmod (2 ^ 32) = (i + copied limit input).bmod (2 ^ 32))
    (bytes : out'.sent.length + waiting'.length + copied limit' input' =
      out.sent.length + waiting.length + copied limit input) :
    Outcome limit len input out waiting i result := by
  unfold Outcome Lost at later ⊢
  rw [ends]
  rwa [reads, writes, counts, bytes] at later

/-- A full buffer is written first. -/
theorem outcome_full (low : 1 ≤ len) (full : waiting.length = len) (wide : IntRange content) (range : IntRange i)
    (going : ¬(content ≠ 0 ∧ i = content))
    (emptied : ∀ out : Output, Outcome (limitLeft content i) len input out [] i (pour content len input out [] i)) :
    Outcome (limitLeft content i) len input out waiting i (pour content len input out waiting i) := by
  have ends := @ending_full (limitLeft content i) len input out.writes low (limitLeft_going wide range going)
  cases wrote : afterWrite out.writes len with
  | none =>
    rw [← full] at wrote
    obtain ⟨failed, count⟩ := @sendAll_of_none _ out.sent _ wrote
    have run : pour content len input out waiting i = (-1, input, (sendAll out.writes out.sent waiting).2) := by
      rw [pour]
      simp only [if_neg going, full, failed, and_self, if_true]
    rw [full] at wrote
    rw [Outcome, full, ends, wrote, run]
    exact ⟨rfl, .inr count⟩
  | some later =>
    rw [wrote] at ends
    rw [← full] at wrote
    obtain ⟨all, count⟩ := @sendAll_eq_of_some _ _ out.sent _ wrote
    have run : pour content len input out waiting i = pour content len input ⟨out.sent ++ waiting, later⟩ [] i := by
      rw [pour, pour]
      simp [going, full, all, show ¬0 = len by omega]
    rw [run]
    refine (emptied ⟨out.sent ++ waiting, later⟩).step (by rw [full]; exact ends) rfl count rfl ?_
    simp

theorem pour_room (going : ¬(content ≠ 0 ∧ i = content)) (less : waiting.length < len) :
    pour content len input out waiting i = match input with
      | [] => (i, [], (sendAll out.writes out.sent waiting).2)
      | none :: rest => (-1, rest, out)
      | some b :: rest => pour content len rest out (waiting ++ [b]) ((i + 1).bmod (2 ^ 32)) := by
  have space : ¬waiting.length = len := by omega
  rcases input with _ | ⟨_ | b, rest⟩ <;> rw [pour] <;> simp only [if_neg going, space, false_and, if_false]

/-- What `pour` comes to is known beforehand from the stream and from the outcomes of `write`. -/
theorem pour_outcome (low : 1 ≤ len) (small : waiting.length ≤ len) (wide : IntRange content) (range : IntRange i) :
    Outcome (limitLeft content i) len input out waiting i (pour content len input out waiting i) := by
  induction input generalizing out waiting i with
  | nil =>
    by_cases stop : content ≠ 0 ∧ i = content
    · exact outcome_stop low small wide range stop
    have room : ∀ (out : Output) (waiting : List UInt8), waiting.length < len →
        Outcome (limitLeft content i) len [] out waiting i (pour content len [] out waiting i) := by
      intro out waiting less
      rw [pour_room stop less]
      exact outcome_last range (copied_eq_zero rfl) (ending_idle (limitLeft_going wide range stop) less rfl)
    by_cases full : waiting.length = len
    · exact outcome_full low full wide range stop fun out => room out [] low
    · exact room out waiting (by omega)
  | cons event rest ih =>
    by_cases stop : content ≠ 0 ∧ i = content
    · exact outcome_stop low small wide range stop
    have going := limitLeft_going wide range stop
    have room : ∀ (out : Output) (waiting : List UInt8), waiting.length < len →
        Outcome (limitLeft content i) len (event :: rest) out waiting i
          (pour content len (event :: rest) out waiting i) := by
      intro out waiting less
      rw [pour_room stop less]
      cases event with
      | none =>
        rw [Outcome, ending_idle going less rfl, List.getElem?_cons_zero, if_pos rfl]
        exact ⟨rfl, .inl (by simp)⟩
      | some b =>
        have next : IntRange ((i + 1).bmod (2 ^ 32)) := intRange_bmod
        have later := @ih _ out (waiting ++ [b]) (by simpa using less) next
        rw [limitLeft_succ wide range stop] at later
        refine later.step ?_ ?_ rfl ?_ ?_
        · rw [ending_byte going, List.length_append, List.length_singleton]
        · rw [List.count_cons_of_ne (by simp)]
        · rw [copied_cons going, Int.bmod_add_bmod, Nat.cast_succ, add_assoc, add_comm 1]
        · rw [copied_cons going, List.length_append, List.length_singleton]
          omega
    by_cases full : waiting.length = len
    · exact outcome_full low full wide range stop fun out => room out [] low
    · exact room out waiting (by omega)

end Pour

section Reports
variable {s : Conn} {source target : Side} {content : Int} {len : Nat}

/-- `relay_content` reports failures: a count says that there was none and how many bytes were sent, and after
a failure the result is -1. -/
def Reports (source target : Side) (content : Int) (len : Nat) (s : Conn) : Prop :=
  ∀ r s', relayContent source target content len s = .ok r s' →
    (0 ≤ r → ¬Lost (s.input source) (s.output target) (s'.input source) (s'.output target) ∧
      ((s'.output target).sent.length : Int) = (s.output target).sent.length + r) ∧
    (Lost (s.input source) (s.output target) (s'.input source) (s'.output target) → r = -1)

/-- What the streams must be like for that: the last `writebuf` does not fail, and the count fits in an `int`. -/
def Reportable (content : Int) (len : Nat) (input : List (Option UInt8)) (writes : List Accept) : Prop :=
  let count := copied (bodyLimit content) input
  match ending (bodyLimit content) len input writes 0 with
  | .flush | .read => True
  | .last => (count : Int).bmod (2 ^ 32) = -1
  | .whole => 0 ≤ (count : Int).bmod (2 ^ 32) → count < 2 ^ 31

/-- A run without an array: no byte is read, or one is stored behind its end. -/
theorem relayContent_empty (size : s.buf.length = 0) : relayContent source target content 0 s =
    match s.input source with
    | [] => .ok 0 s
    | none :: rest => .ok (-1) (s.withInput source rest)
    | some _ :: _ => .error .overrun s := by
  have going : ¬(content ≠ 0 ∧ (0 : Int) = content) := fun stop => stop.1 stop.2.symm
  have nothing : ∀ writes sent, sendAll writes sent [] = (true, ⟨sent, writes⟩) := by
    intro writes sent
    cases writes <;> rfl
  rw [relayContent, relayContentLoop, if_neg going, bind_run, @makeRoom_full _ source target _ _ rfl]
  simp only [List.take_zero, nothing, if_true]
  rw [after_self, bind_run]
  cases stream : s.input source with
  | nil =>
    rw [read_eof stream]
    simp only [@finish_run _ source, List.take_zero, nothing]
    exact congrArg _ after_self
  | cons event rest =>
    cases event with
    | none =>
      rw [read_failed stream]
      rfl
    | some b =>
      have behind : read source 0 s = .error .overrun s := by
        simp only [read, stream, size, lt_irrefl, if_false]
      rw [behind]

theorem reports_empty (size : s.buf.length = 0) : Reports source target content 0 s := by
  intro r s' run
  rw [relayContent_empty size] at run
  split at run
  · cases run
    exact ⟨fun _ => ⟨by simp [Lost], by simp⟩, fun lost => absurd lost (by simp [Lost])⟩
  · cases run
    exact ⟨fun count => absurd count (by decide), fun _ => rfl⟩
  · cases run

/-- The count is what was copied, as long as an `int` holds it. -/
theorem bmod_eq_iff {k : Nat} (count : 0 ≤ (k : Int).bmod (2 ^ 32)) :
    (k : Int).bmod (2 ^ 32) = k ↔ k < 2 ^ 31 := by
  constructor
  · intro same
    have range := @intRange_bmod k
    unfold IntRange at range
    omega
  · intro small
    rw [Int.bmod_eq_of_le] <;> omega

/-- What a run has to satisfy, for its result and what it leaves. -/
theorem reports_iff_of_run {r : Int} {input : List (Option UInt8)} {out : Output} {buf : List UInt8}
    (run : relayContent source target content len s = .ok r (s.after source target input out buf)) :
    Reports source target content len s ↔
      (0 ≤ r → ¬Lost (s.input source) (s.output target) input out ∧
        (out.sent.length : Int) = (s.output target).sent.length + r) ∧
      (Lost (s.input source) (s.output target) input out → r = -1) := by
  unfold Reports
  rw [run]
  constructor
  · intro all
    simpa only [after_input, after_output] using all _ _ rfl
  · rintro this r' s' ⟨⟩
    simpa only [after_input, after_output] using this

/-- Each way to end decides whether the failures are reported. -/
theorem Outcome.reported_iff {r : Int} {input input' : List (Option UInt8)} {out out' : Output}
    (outcome : Outcome (bodyLimit content) len input out [] 0 (r, input', out')) :
    ((0 ≤ r → ¬Lost input out input' out' ∧ (out'.sent.length : Int) = out.sent.length + r) ∧
      (Lost input out input' out' → r = -1)) ↔ Reportable content len input out.writes := by
  unfold Outcome at outcome
  unfold Reportable
  rw [List.length_nil, zero_add] at outcome
  simp only
  cases ends : ending (bodyLimit content) len input out.writes 0 with
  | flush | read =>
    rw [ends] at outcome
    obtain ⟨rfl, lost⟩ := outcome
    exact iff_of_true ⟨fun count => absurd count (by decide), fun _ => rfl⟩ trivial
  | last =>
    simp only [ends] at outcome
    obtain ⟨result, lost⟩ := outcome
    rw [← result]
    refine ⟨fun reports => reports.2 lost, fun failure => ⟨fun count => ?_, fun _ => failure⟩⟩
    omega
  | whole =>
    simp only [ends] at outcome
    obtain ⟨result, kept, bytes⟩ := outcome
    rw [← result]
    refine ⟨fun reports count => ?_, fun small => ⟨fun count => ⟨kept, ?_⟩, fun lost => absurd lost kept⟩⟩
    · have sent := (reports.1 count).2
      rw [result] at count
      rw [← bmod_eq_iff count, ← result]
      omega
    · have eq := small count
      rw [result] at count
      rw [← bmod_eq_iff count, ← result] at eq
      omega

/-- `relay_content` reports failures in those runs and in no others. An empty buffer, which the model takes for a
fault, is never passed. -/
theorem relayContent_reports_iff (wide : IntRange content) (size : s.buf.length = len) :
    Reports source target content len s ↔
      len = 0 ∨ Reportable content len (s.input source) (s.output target).writes := by
  rcases Nat.eq_zero_or_pos len with rfl | low
  · exact iff_of_true (reports_empty size) (.inl rfl)
  have limit : limitLeft content 0 = bodyLimit content := by
    rw [limitLeft, sub_zero]
    rfl
  have outcome := @pour_outcome content 0 len (s.input source) (s.output target) [] low (Nat.zero_le _) wide
    (by unfold IntRange; omega)
  rcases poured : pour content len (s.input source) (s.output target) [] 0 with ⟨r, input, out⟩
  obtain ⟨buf, -, run⟩ := relayContent_run low size.ge poured
  rw [limit, poured] at outcome
  rw [or_iff_right (by omega), reports_iff_of_run run, outcome.reported_iff]

/-- A connection whose server sends `a`, to a client that does not take it. -/
def lostConn : Conn where
  input := fun
    | .client => []
    | .server => [some 97]
  output := fun
    | .client => ⟨[], [.failed]⟩
    | .server => ⟨[], []⟩
  buf := [0]
  dialled := none
  log := none

theorem relayContent_reports_lost : Reports .server .client 1 1 lostConn ↔
    1 = 0 ∨ Reportable 1 1 (lostConn.input .server) (lostConn.output .client).writes :=
  relayContent_reports_iff (by unfold IntRange; decide) rfl

/-- The last `writebuf` fails, and a count is returned. -/
theorem relayContent_hides_failure : ¬∀ (source target : Side) (content : Int) (len : Nat) (s : Conn),
    IntRange content → s.buf.length = len → Reports source target content len s := by
  intro reports
  have lost := reports .server .client 1 1 lostConn (by unfold IntRange; decide) rfl
  have run : relayContent .server .client 1 1 lostConn = .ok 1 (lostConn.after .server .client [] ⟨[], []⟩ [97]) := by
    rfl
  exact ((lost _ _ run).1 (by decide)).1 (.inr (by decide))

end Reports

end Splab.Proxy
