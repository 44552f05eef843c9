import Splab.Proxy.Parse

namespace Splab.Proxy

/-- A scan of the buffer, which may crash the thread. -/
def scanBuf {α : Type} (f : List UInt8 → Except Fault α) : Thread α := fun s =>
  match f s.buf with
  | .ok a => .ok a s
  | .error fault => .error fault s

/-- The loop of `relay_header`, with its result and `*content`. -/
def relayHeaderLoop (source target : Side) : Nat → Int → Int → Thread (Int × Int)
  -- not reached: every round but the last one takes a byte
  | 0, _, content => pure (-1, content)
  | fuel + 1, sum, content => do
    let len ← readline source maxLine
    if len < 0 then pure (-1, content)
    else do
      let length ← scanBuf headerLength
      let content := length.getD content
      if len = 0 then pure (sum, content)
      else do
        let res ← writebuf target len.toNat
        if res < 0 then pure (-1, content)
        else do
          let last ← scanBuf lastLine
          if last then pure (sum + len, content) else relayHeaderLoop source target fuel (sum + len) content

def relayHeader (source target : Side) : Thread (Int × Int) := fun s =>
  relayHeaderLoop source target ((s.input source).length + 1) 0 0 s

/-- The end of `relay_content`. -/
def finish (target : Side) (i : Int) (j : Nat) : Thread Int := do
  let _ ← writebuf target j
  pure i

/-- A full buffer is written; nothing, if that fails. -/
def makeRoom (target : Side) (len j : Nat) : Thread (Option Nat) :=
  if j = len then do
    let res ← writebuf target j
    pure (if res < 0 then none else some 0)
  else pure (some j)

/-- The loop of `relay_content`. -/
def relayContentLoop (source target : Side) (content : Int) (len : Nat) : Nat → Int → Nat → Thread Int
  -- not reached, as above
  | 0, _, _ => pure (-1)
  | fuel + 1, i, j =>
    if content ≠ 0 ∧ i = content then finish target i j
    else do
      match ← makeRoom target len j with
      | none => pure (-1)
      | some j =>
        match ← read source j with
        | .failed => pure (-1)
        | .eof => finish target i j
        | .byte _ => relayContentLoop source target content len fuel ((i + 1).bmod (2 ^ 32)) (j + 1)

def relayContent (source target : Side) (content : Int) (len : Nat) : Thread Int := fun s =>
  relayContentLoop source target content len ((s.input source).length + 1) 0 0 s

/-- What `relay_content` does with the bytes that wait in the buffer: its result, and what is left of the input
and of the output. -/
def pour (content : Int) (len : Nat) :
    List (Option UInt8) → Output → List UInt8 → Int → Int × List (Option UInt8) × Output
  | input, out, waiting, i =>
    let written := sendAll out.writes out.sent waiting
    if content ≠ 0 ∧ i = content then (i, input, written.2)
    else if waiting.length = len ∧ written.1 = false then (-1, input, written.2)
    else
      let out := if waiting.length = len then written.2 else out
      let waiting := if waiting.length = len then [] else waiting
      match input with
      | [] => (i, [], (sendAll out.writes out.sent waiting).2)
      | none :: rest => (-1, rest, out)
      | some b :: rest => pour content len rest out (waiting ++ [b]) ((i + 1).bmod (2 ^ 32))

/-- The state after something was read from `source` and written to `target`. -/
def Conn.after (s : Conn) (source target : Side) (input : List (Option UInt8)) (output : Output) (buf : List UInt8) :
    Conn :=
  { s with
    input := Function.update s.input source input
    output := Function.update s.output target output
    buf := buf }

section Content
variable {s : Conn} {source target : Side} {content i : Int} {len j fuel : Nat} {buf : List UInt8}

@[simp]
theorem after_input {input : List (Option UInt8)} {output : Output} :
    (s.after source target input output buf).input source = input :=
  Function.update_self ..

@[simp]
theorem after_output {input : List (Option UInt8)} {output : Output} :
    (s.after source target input output buf).output target = output :=
  Function.update_self ..

@[simp]
theorem after_buf {input : List (Option UInt8)} {output : Output} :
    (s.after source target input output buf).buf = buf := rfl

theorem after_after {input input' : List (Option UInt8)} {output output' : Output} {buf' : List UInt8} :
    (s.after source target input output buf).after source target input' output' buf' =
      s.after source target input' output' buf' := by
  simp only [Conn.after, Function.update_idem]

theorem after_self : s.after source target (s.input source) (s.output target) s.buf = s := by
  simp only [Conn.after, Function.update_eq_self]

theorem writebuf_run : writebuf target j s =
    .ok (if (sendAll (s.output target).writes (s.output target).sent (s.buf.take j)).1 then (j : Int) else -1)
      (s.after source target (s.input source)
        (sendAll (s.output target).writes (s.output target).sent (s.buf.take j)).2 s.buf) := by
  simp only [writebuf, Conn.withOutput, Conn.after, Function.update_eq_self]

theorem finish_run : finish target i j s =
    .ok i (s.after source target (s.input source)
      (sendAll (s.output target).writes (s.output target).sent (s.buf.take j)).2 s.buf) := by
  rw [finish, bind_run, @writebuf_run s source]
  rfl

theorem makeRoom_full (full : j = len) : makeRoom target len j s =
    .ok (if (sendAll (s.output target).writes (s.output target).sent (s.buf.take j)).1 then some 0 else none)
      (s.after source target (s.input source)
        (sendAll (s.output target).writes (s.output target).sent (s.buf.take j)).2 s.buf) := by
  rw [makeRoom, if_pos full, bind_run, @writebuf_run s source]
  cases (sendAll (s.output target).writes (s.output target).sent (s.buf.take j)).1
  · rfl
  · simp only [if_true]
    rw [if_neg (by omega)]
    rfl

/-- A round of `relay_content` with room in the buffer. -/
theorem relayContentLoop_room (goes : ¬(content ≠ 0 ∧ i = content)) (short : j ≠ len) :
    relayContentLoop source target content len (fuel + 1) i j = (do
      match ← read source j with
      | .failed => pure (-1)
      | .eof => finish target i j
      | .byte _ => relayContentLoop source target content len fuel ((i + 1).bmod (2 ^ 32)) (j + 1)) := by
  rw [relayContentLoop, if_neg goes, makeRoom, if_neg short]
  rfl

/-- The end of a round of `relay_content`, from the call of `read` on. -/
theorem relayContent_read {next : Nat → Thread Int} {out : Output} {k : Nat} (room : k < s.buf.length) :
    (do
      match ← read source k with
      | .failed => pure (-1)
      | .eof => finish target i k
      | .byte _ => next (k + 1) : Thread Int) (s.after source target (s.input source) out s.buf) =
      match s.input source with
      | [] => .ok i (s.after source target [] (sendAll out.writes out.sent (s.buf.take k)).2 s.buf)
      | none :: rest => .ok (-1) (s.after source target rest out s.buf)
      | some b :: rest => next (k + 1) (s.after source target rest out (s.buf.set k b)) := by
  rw [bind_run]
  cases stream : s.input source with
  | nil =>
    rw [read_eof after_input]
    simp only [@finish_run _ source, after_input, after_output, after_buf, after_after]
  | cons event rest =>
    cases event with
    | none =>
      rw [read_failed after_input]
      simp only [Conn.withInput, Conn.after, Function.update_idem]
      rfl
    | some b =>
      rw [read_byte after_input (by simpa using room)]
      simp only [Conn.withInput, Conn.withBuf, Conn.after, Function.update_idem]

/-- A round of `relay_content`. -/
theorem relayContentLoop_round (low : 1 ≤ len) (room : len ≤ s.buf.length) (small : j ≤ len) :
    relayContentLoop source target content len (fuel + 1) i j s =
      let written := sendAll (s.output target).writes (s.output target).sent (s.buf.take j)
      if content ≠ 0 ∧ i = content then .ok i (s.after source target (s.input source) written.2 s.buf)
      else if j = len ∧ written.1 = false then .ok (-1) (s.after source target (s.input source) written.2 s.buf)
      else
        let k := if j = len then 0 else j
        let out := if j = len then written.2 else s.output target
        match s.input source with
        | [] => .ok i (s.after source target [] (sendAll out.writes out.sent (s.buf.take k)).2 s.buf)
        | none :: rest => .ok (-1) (s.after source target rest out s.buf)
        | some b :: rest =>
          relayContentLoop source target content len fuel ((i + 1).bmod (2 ^ 32)) (k + 1)
            (s.after source target rest out (s.buf.set k b)) := by
  have reading : ∀ {out k}, k < len → _ := fun {out k} inside =>
    @relayContent_read s source target i (relayContentLoop source target content len fuel ((i + 1).bmod (2 ^ 32))) out k
      (by omega)
  rw [relayContentLoop]
  by_cases stop : content ≠ 0 ∧ i = content
  · simp only [if_pos stop]
    exact finish_run
  · simp only [if_neg stop]
    rw [bind_run]
    by_cases full : j = len
    · rw [makeRoom_full full]
      simp only [full, true_and, if_true]
      cases done : (sendAll (s.output target).writes (s.output target).sent (s.buf.take len)).1 with
      | false => rfl
      | true => exact reading low
    · rw [makeRoom, if_neg full]
      simp only [full, false_and, if_false]
      have same := @reading (s.output target) j (by omega)
      rw [after_self] at same
      exact same

/-- `relay_content` gets on as if it had no buffer. -/
theorem relayContentLoop_run {r : Int} {input : List (Option UInt8)} {output : Output}
    (enough : (s.input source).length < fuel) (low : 1 ≤ len) (room : len ≤ s.buf.length) (small : j ≤ len)
    (poured : pour content len (s.input source) (s.output target) (s.buf.take j) i = (r, input, output)) :
    ∃ buf, buf.length = s.buf.length ∧
      relayContentLoop source target content len fuel i j s = .ok r (s.after source target input output buf) := by
  induction fuel generalizing s i j with
  | zero => omega
  | succ fuel ih =>
    have waiting : (s.buf.take j).length = j := by
      rw [List.length_take]
      omega
    rw [relayContentLoop_round low room small]
    rw [pour] at poured
    simp only [waiting] at poured
    by_cases stop : content ≠ 0 ∧ i = content
    · rw [if_pos stop] at poured
      cases poured
      exact ⟨s.buf, rfl, if_pos stop⟩
    · simp only [if_neg stop] at poured ⊢
      by_cases lost : j = len ∧ (sendAll (s.output target).writes (s.output target).sent (s.buf.take j)).1 = false
      · rw [if_pos lost] at poured
        cases poured
        exact ⟨s.buf, rfl, if_pos lost⟩
      · rw [if_neg lost] at poured ⊢
        have kept : (if j = len then [] else s.buf.take j) = s.buf.take (if j = len then 0 else j) := by
          split <;> rfl
        rw [kept] at poured
        have inside : (if j = len then 0 else j) < len := by
          split <;> omega
        generalize (if j = len then 0 else j) = k at poured inside ⊢
        generalize (if j = len then (sendAll (s.output target).writes (s.output target).sent (s.buf.take j)).2
          else s.output target) = out at poured ⊢
        cases stream : s.input source with
        | nil =>
          rw [stream] at poured
          cases poured
          exact ⟨s.buf, rfl, rfl⟩
        | cons event rest =>
          rw [stream] at poured enough
          cases event with
          | none =>
            cases poured
            exact ⟨s.buf, rfl, rfl⟩
          | some b =>
            have stored : (s.buf.set k b).take (k + 1) = s.buf.take k ++ [b] := by
              rw [List.take_add_one, List.take_set_of_le le_rfl, List.getElem?_set_self (by omega), Option.toList_some]
            obtain ⟨buf, length, run⟩ := @ih (s.after source target rest out (s.buf.set k b)) _ (k + 1)
              (by simpa using enough) (by simpa using room) inside (by simpa [stored] using poured)
            rw [after_after] at run
            exact ⟨buf, by simpa using length, run⟩

/-- `relay_content` works on the streams only. -/
theorem relayContent_run {r : Int} {input : List (Option UInt8)} {output : Output} (low : 1 ≤ len)
    (room : len ≤ s.buf.length)
    (poured : pour content len (s.input source) (s.output target) [] 0 = (r, input, output)) :
    ∃ buf, buf.length = s.buf.length ∧
      relayContent source target content len s = .ok r (s.after source target input output buf) :=
  relayContentLoop_run (Nat.lt_succ_self _) low room (Nat.zero_le _) poured

end Content

section Header
variable {s : Conn} {source target : Side} {content sum : Int} {fuel : Nat} {bytes : List UInt8} {stop : Stop}
  {rest : List (Option UInt8)}

/-- A round of `relay_header`. -/
theorem relayHeaderLoop_round (size : s.buf.length = maxLine)
    (line : takeLine maxLine (s.input source) = (bytes, stop, rest)) (nonempty : stop = .line → bytes ≠ []) :
    relayHeaderLoop source target (fuel + 1) sum content s =
      let buf := overwrite s.buf bytes
      let read := s.after source target rest (s.output target) buf
      match stop with
      | .failed => .ok (-1, content) read
      | .eof =>
        match headerLength buf with
        | .error fault => .error fault read
        | .ok n => .ok (sum, n.getD content) read
      | .line =>
        match headerLength buf with
        | .error fault => .error fault read
        | .ok n =>
          let (done, out) := sendAll (s.output target).writes (s.output target).sent bytes
          let wrote := s.after source target rest out buf
          if done then
            match lastLine buf with
            | .error fault => .error fault wrote
            | .ok true => .ok (sum + bytes.length, n.getD content) wrote
            | .ok false => relayHeaderLoop source target fuel (sum + bytes.length) (n.getD content) wrote
          else .ok (-1, n.getD content) wrote := by
  have read : (s.withInput source rest).withBuf (overwrite s.buf bytes) =
      s.after source target rest (s.output target) (overwrite s.buf bytes) := by
    simp only [Conn.withInput, Conn.withBuf, Conn.after, Function.update_eq_self]
  rw [relayHeaderLoop, bind_run, readline_run (le_of_eq size.symm) line, read]
  cases stop with
  | failed => rfl
  | eof =>
    have ended : ¬Stop.eof.result bytes.length < 0 := by simp [Stop.result]
    simp only
    rw [if_neg ended, bind_run, scanBuf, after_buf]
    cases headerLength (overwrite s.buf bytes) with
    | error fault => rfl
    | ok n => rfl
  | line =>
    have positive : 0 < bytes.length := List.length_pos_iff.mpr (nonempty rfl)
    have some : ¬Stop.line.result bytes.length < 0 := by simp [Stop.result]
    have more : ¬Stop.line.result bytes.length = 0 := by simp only [Stop.result]; omega
    simp only
    rw [if_neg some, bind_run, scanBuf, after_buf]
    cases headerLength (overwrite s.buf bytes) with
    | error fault => rfl
    | ok n =>
      rcases all : sendAll (s.output target).writes (s.output target).sent bytes with ⟨done, out⟩
      have wrote : writebuf target (Stop.line.result bytes.length).toNat
          (s.after source target rest (s.output target) (overwrite s.buf bytes)) =
          .ok (if done then (bytes.length : Int) else -1) (s.after source target rest out (overwrite s.buf bytes)) := by
        rw [@writebuf_run _ source]
        simp only [after_input, after_output, after_buf, after_after, Stop.result, Int.toNat_natCast, take_overwrite,
          all]
      simp only
      rw [if_neg more, bind_run, wrote]
      cases done with
      | false => rfl
      | true =>
        simp only [if_true]
        rw [if_neg (by omega), bind_run, scanBuf, after_buf]
        cases lastLine (overwrite s.buf bytes) with
        | error fault => rfl
        | ok last => cases last <;> rfl

end Header

end Splab.Proxy
