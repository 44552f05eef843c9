import Splab.Proxy.Descriptors

namespace Splab.Proxy

/-! What `process` has still to do behind each call, as one computation. -/

/-- The loop of `relay_header`, with as many rounds as there can be. -/
def headerLoop (source target : Side) (sum content : Int) : Thread (Int × Int) := fun s =>
  relayHeaderLoop source target ((s.input source).length + 1) sum content s

/-- The loop of `relay_content`. -/
def contentLoop (source target : Side) (content i : Int) (j : Nat) : Thread Int := fun s =>
  relayContentLoop source target content maxLine ((s.input source).length + 1) i j s

/-- The loop of `writebuf` for the bytes that are left. -/
def sendLeft (target : Side) (left : List UInt8) : Thread Bool := fun s =>
  let (done, output) := sendAll (s.output target).writes (s.output target).sent left
  .ok done (s.withOutput target output)

/-- A call of `read`, with the byte not yet stored. -/
def Conn.reads (s : Conn) (fd : Side) : Got × Conn :=
  match s.input fd with
  | [] => (.eof, s)
  | none :: rest => (.failed, s.withInput fd rest)
  | some b :: rest => (.byte b, s.withInput fd rest)

/-- Behind the call of `readline` for the request line, up to `open_serverfd`, with the length of the line. -/
def received (scratch : Scratch) (len : Int) : Thread (Option (Parsed × Nat)) :=
  if 0 < len then do
    match ← scanBuf parseRequest with
    | none => pure none
    | some target => pure (some (target.store scratch, len.toNat))
  else pure none

/-- `process` up to `open_serverfd`. -/
def receiveRequest (scratch : Scratch) : Thread (Option (Parsed × Nat)) := do
  let len ← readline .client maxLine
  received scratch len

/-- `process` from `open_serverfd` to the response. -/
def forwardRequest (parsed : Parsed) (len : Nat) : Thread Unit := do
  let _ ← writebuf .server len
  sendRest parsed

/-- The log entry. -/
def logEntry (parsed : Parsed) (sum : Int) : Thread Unit :=
  if sum ≠ 0 then writeLog (cstring parsed.uri) sum else pure ()

/-- The second half. -/
def replyRest (parsed : Parsed) : Thread Unit := do
  let sum ← relayResponse parsed
  logEntry parsed sum

/-- Behind `relay_content`. -/
def Relay.contentRest (r : Relay) (len : Int) : Thread Unit :=
  match r.half with
  | .request => replyRest r.parsed
  | .response _ sum => logEntry r.parsed (if 0 < len then (sum + len).bmod (2 ^ 32) else sum)

/-- Behind `relay_header`. -/
def Relay.headerRest (r : Relay) (content : Int) : Thread Unit :=
  match r.half with
  | .request => do
    let post ← scanBuf fun _ => isPost r.parsed.method
    if post ∧ content ≠ 0 then do
      let len ← contentLoop r.source r.target content 0 0
      r.contentRest len
    else replyRest r.parsed
  | .response msg sum => do
    let head ← scanBuf fun _ => isHead r.parsed.method
    if head = false ∧ 2 ≤ msg.tdiv 100 ∧ msg ≠ 204 ∧ msg ≠ 304 then do
      let len ← contentLoop r.source r.target content 0 0
      r.contentRest len
    else logEntry r.parsed sum

/-- The next round of `relay_header`, and what follows. -/
def Relay.headerLines (r : Relay) (sum content : Int) : Thread Unit := do
  let (_, content) ← headerLoop r.source r.target sum content
  r.headerRest content

/-- Behind `writebuf`. -/
def Write.rest (call : Write) (done : Bool) : Thread Unit :=
  match call with
  | .line r => r.headerLines 0 0
  | .header r sum content =>
    if done then do
      let last ← scanBuf lastLine
      if last then r.headerRest content else r.headerLines sum content
    else r.headerRest content
  | .full r content i =>
    if done then do
      let len ← contentLoop r.source r.target content i 0
      r.contentRest len
    else r.contentRest (-1)
  | .last r i => r.contentRest i

/-- The call of `writebuf` with the bytes that are left, and what follows. -/
def Write.sends (call : Write) (left : List UInt8) : Thread Unit := do
  let done ← sendLeft call.relay.target left
  call.rest done

/-- Behind `readline`. -/
def Line.rest (call : Line) (len : Int) : Thread Unit :=
  match call with
  | .request => pure ()
  | .header r sum content =>
    if len < 0 then r.headerRest content
    else do
      let length ← scanBuf headerLength
      let content := length.getD content
      if len = 0 then r.headerRest content
      else do
        let left ← scanBuf fun buf => pure (buf.take len.toNat)
        (Write.header r (sum + len) content).sends left
  | .reply parsed newfd =>
    if 0 < len then do
      let msg ← scanBuf parseResponse
      let left ← scanBuf fun buf => pure (buf.take len.toNat)
      (Write.line ⟨.response msg len, parsed, newfd⟩).sends left
    else pure ()

/-- What is left to do at a stage of the transfer. -/
def Stage.rest : Stage → Thread Unit
  | .readline call i => do
    let len ← readlineLoop call.side (maxLine - i) i
    call.rest len
  | .writebuf call left => call.sends left
  | .relayContent r content i j => do
    let len ← contentLoop r.source r.target content i j
    r.contentRest len
  | .lockLogfile parsed _ sum => writeLog (cstring parsed.uri) sum
  | _ => pure ()

/-- What is left to do when the thread goes on at a stage or crashes. -/
def resumed (next : Except Fault Stage) : Thread Unit := fun s =>
  match next with
  | .ok stage => stage.rest s
  | .error fault => .error fault s

/-- The places of the buffer at which a call of `read` can be. -/
def Stage.Inside : Stage → Prop
  | .readline _ i => i < maxLine
  | .relayContent _ _ _ j => j ≤ maxLine
  | _ => True

section Loops
variable {source target fd : Side} {s : Conn} {sum content i : Int} {j fuel : Nat} {α : Type}

/-- More rounds than there are bytes make no difference. -/
theorem relayHeaderLoop_fuel {fuel' : Nat} (size : s.buf.length = maxLine) (enough : (s.input source).length < fuel)
    (enough' : (s.input source).length < fuel') :
    relayHeaderLoop source target fuel sum content s = relayHeaderLoop source target fuel' sum content s := by
  induction fuel generalizing fuel' s sum content with
  | zero => omega
  | succ fuel ih =>
    obtain ⟨fuel', rfl⟩ : ∃ n, fuel' = n + 1 := ⟨fuel' - 1, by omega⟩
    rcases line : takeLine maxLine (s.input source) with ⟨bytes, stop, rest⟩
    have nonempty : stop = .line → bytes ≠ [] := by
      rintro rfl
      exact takeLine_nonempty line
    rw [relayHeaderLoop_round size line nonempty, relayHeaderLoop_round size line nonempty]
    cases stop with
    | failed => rfl
    | eof => rfl
    | line =>
      simp only
      cases headerLength (overwrite s.buf bytes) with
      | error fault => rfl
      | ok n =>
        simp only
        rcases sendAll (s.output target).writes (s.output target).sent bytes with ⟨done, out⟩
        cases done with
        | false => rfl
        | true =>
          simp only [if_true]
          cases lastLine (overwrite s.buf bytes) with
          | error fault => rfl
          | ok last =>
            cases last with
            | true => rfl
            | false =>
              have shorter := takeLine_rest line
              have positive := List.length_pos_iff.mpr (nonempty rfl)
              refine ih ?_ ?_ ?_
              · rw [after_buf]
                exact overwrite_length size (takeLine_length line)
              · rw [after_input]
                omega
              · rw [after_input]
                omega

/-- What `relay_header` does with the result of `readline`, before the next round. -/
def headerRound (target : Side) (sum content len : Int) (next : Int → Int → Thread (Int × Int)) :
    Thread (Int × Int) :=
  if len < 0 then pure (-1, content)
  else do
    let length ← scanBuf headerLength
    let content := length.getD content
    if len = 0 then pure (sum, content)
    else do
      let res ← writebuf target len.toNat
      if res < 0 then pure (-1, content)
      else do
        let last ← scanBuf lastLine
        if last then pure (sum + len, content) else next (sum + len) content

/-- The next round begins with the same buffer and input. -/
theorem headerRound_congr {len : Int} {next next' : Int → Int → Thread (Int × Int)}
    (same : len > 0 → ∀ sum content out, next sum content (s.withOutput target out) =
      next' sum content (s.withOutput target out)) :
    headerRound target sum content len next s = headerRound target sum content len next' s := by
  unfold headerRound
  split
  · rfl
  · next low =>
    rw [bind_run, bind_run, scanBuf]
    cases headerLength s.buf with
    | error fault => rfl
    | ok length =>
      simp only
      split
      · rfl
      · next nonzero =>
        rw [bind_run, bind_run, writebuf]
        simp only
        rcases sendAll (s.output target).writes (s.output target).sent (s.buf.take len.toNat) with ⟨done, out⟩
        cases done with
        | false => rfl
        | true =>
          have all : ¬((len.toNat : Int) < 0) := by omega
          simp only [if_true]
          rw [if_neg all, if_neg all, bind_run, bind_run, scanBuf]
          cases lastLine (s.withOutput target out).buf with
          | error fault => rfl
          | ok last =>
            cases last with
            | true => rfl
            | false => exact same (by omega) _ _ _

/-- The loop of `relay_header` begins with a round. -/
theorem headerLoop_eq (size : s.buf.length = maxLine) : headerLoop source target sum content s =
    (readline source maxLine >>= fun len =>
      headerRound target sum content len (headerLoop source target)) s := by
  rcases line : takeLine maxLine (s.input source) with ⟨bytes, stop, rest⟩
  have unfolded : headerLoop source target sum content s = (readline source maxLine >>= fun len =>
      headerRound target sum content len (relayHeaderLoop source target (s.input source).length)) s := rfl
  rw [unfolded, bind_run, bind_run, readline_run (le_of_eq size.symm) line]
  refine headerRound_congr fun more sum content out => ?_
  have ended : stop = .line := by
    cases stop with
    | line => rfl
    | eof => exact absurd more (lt_irrefl 0)
    | failed => exact absurd more (by simp [Stop.result])
  subst ended
  have shorter := takeLine_rest line
  have positive := List.length_pos_iff.mpr (takeLine_nonempty line)
  have left : ((((s.withInput source rest).withBuf (overwrite s.buf bytes)).withOutput target out).input source) =
      rest := Function.update_self ..
  refine relayHeaderLoop_fuel (overwrite_length size (takeLine_length line)) ?_ ?_
  · rw [left]
    omega
  · exact Nat.lt_succ_self _

theorem sendLeft_nil : sendLeft target [] s = .ok true s := by
  have nothing : sendAll (s.output target).writes (s.output target).sent [] = (true, s.output target) := by
    cases writes : (s.output target).writes <;> rw [sendAll, ← writes]
  rw [sendLeft, nothing]
  exact congrArg (EStateM.Result.ok true) (by rw [Conn.withOutput, Function.update_eq_self])

theorem sendLeft_more {b : UInt8} {data : List UInt8} {more : Nat} {writes : List Accept}
    (accepts : (s.output target).writes = .upTo more :: writes) : sendLeft target (b :: data) s =
      sendLeft target (data.drop more)
        (s.withOutput target ⟨(s.output target).sent ++ b :: data.take more, writes⟩) := by
  simp only [sendLeft, accepts, sendAll, Conn.withOutput, Function.update_self, Function.update_idem]

theorem sendLeft_fails {b : UInt8} {data : List UInt8} {writes : List Accept}
    (fails : (s.output target).writes = .failed :: writes) : sendLeft target (b :: data) s =
      .ok false (s.withOutput target ⟨(s.output target).sent, writes⟩) := by
  simp only [sendLeft, fails, sendAll]

/-- `writebuf` in terms of its loop. -/
theorem writebuf_sendLeft {n : Nat} {k : Int → Thread α} :
    (writebuf target n >>= k) s = (sendLeft target (s.buf.take n) >>= fun done => k (if done then n else -1)) s := by
  rw [bind_run, bind_run]
  rfl

/-- A round of the loop of `readline`. -/
theorem readlineLoop_round {i : Nat} {got : Got} {s' : Conn} (inside : i < maxLine) (size : s.buf.length = maxLine)
    (reads : s.reads fd = (got, s')) : readlineLoop fd (maxLine - i) i s =
      match lineRound s.buf i got with
      | (buf, none) => readlineLoop fd (maxLine - (i + 1)) (i + 1) (s'.withBuf buf)
      | (buf, some len) => .ok len (s'.withBuf buf) := by
  obtain ⟨left, rounds⟩ : ∃ left, maxLine - i = left + 1 := ⟨maxLine - i - 1, by omega⟩
  have fewer : maxLine - (i + 1) = left := by omega
  rw [rounds, fewer, readlineLoop, bind_run]
  unfold Conn.reads at reads
  cases input : s.input fd with
  | nil =>
    rw [input] at reads
    cases reads
    rw [read_eof input]
    rfl
  | cons event rest =>
    rw [input] at reads
    cases event with
    | none =>
      cases reads
      rw [read_failed input]
      rfl
    | some b =>
      cases reads
      rw [read_byte input (by omega)]
      simp only [lineRound]
      by_cases newline : b = 10
      · rw [if_pos newline, if_pos (.inl newline)]
        rfl
      · rw [if_neg newline]
        by_cases last : i + 1 = maxLine
        · have none : left = 0 := by omega
          rw [if_pos (.inr last), none]
          rfl
        · rw [if_neg (by simp [newline, last])]

/-- The content has been read. -/
theorem contentLoop_whole (stops : content ≠ 0 ∧ i = content) : contentLoop source target content i j s =
    (sendLeft target (s.buf.take j) >>= fun _ => pure i) s := by
  rw [contentLoop, relayContentLoop, if_pos stops, finish, writebuf_sendLeft]

/-- The buffer is full. -/
theorem contentLoop_full (goes : ¬(content ≠ 0 ∧ i = content)) : contentLoop source target content i maxLine s =
    (sendLeft target (s.buf.take maxLine) >>= fun done =>
      if done then contentLoop source target content i 0 else pure (-1)) s := by
  rw [contentLoop, relayContentLoop, if_neg goes, makeRoom, if_pos rfl, bind_run, writebuf_sendLeft, bind_run, bind_run]
  simp only [sendLeft]
  rcases sendAll (s.output target).writes (s.output target).sent (s.buf.take maxLine) with ⟨done, out⟩
  cases done with
  | false => rfl
  | true =>
    have positive : ¬((maxLine : Int) < 0) := by decide
    have empty : (0 : Nat) ≠ maxLine := by decide
    simp only [if_true]
    rw [contentLoop, relayContentLoop, if_neg goes, makeRoom, if_neg empty, if_neg positive]
    rfl

/-- What `relay_content` does with the result of a call of `read`. -/
def contentRound (source target : Side) (content i : Int) (j : Nat) (s : Conn) : Got → EStateM.Result Fault Conn Int
  | .byte b => contentLoop source target content ((i + 1).bmod (2 ^ 32)) (j + 1) (s.withBuf (s.buf.set j b))
  | .eof => (sendLeft target (s.buf.take j) >>= fun _ => pure i) s
  | .failed => .ok (-1) s

/-- A byte is read, the end of the file, or nothing. -/
theorem contentLoop_reads {got : Got} {s' : Conn} (goes : ¬(content ≠ 0 ∧ i = content)) (room : j < s.buf.length)
    (short : j ≠ maxLine) (reads : s.reads source = (got, s')) :
    contentLoop source target content i j s = contentRound source target content i j s' got := by
  rw [contentLoop, relayContentLoop_room goes short, bind_run]
  unfold Conn.reads at reads
  cases input : s.input source with
  | nil =>
    rw [input] at reads
    cases reads
    rw [read_eof input]
    simp only
    rw [finish, writebuf_sendLeft, contentRound]
  | cons event rest =>
    rw [input] at reads
    cases event with
    | none =>
      cases reads
      rw [read_failed input]
      rfl
    | some b =>
      cases reads
      have left : (((s.withInput source rest).withBuf (s.buf.set j b)).input source) = rest := Function.update_self ..
      rw [read_byte input room]
      simp only
      rw [contentRound, contentLoop]
      exact congrArg (fun n => relayContentLoop source target content maxLine (n + 1) _ _ _)
        (congrArg List.length left).symm

end Loops

section Rest
variable {s : Conn} {r : Relay} {sum content msg len : Int} {parsed : Parsed} {newfd : Nat} {scratch : Scratch}
  {connects : Bool} {next : Stage} {fault : Fault} {done : Bool}

/-- What is left behind `relay_header` begins with its next line. -/
theorem headerLines_eq (size : s.buf.length = maxLine) : r.headerLines sum content s =
    (readline r.source maxLine >>= (Line.header r sum content).rest) s := by
  rw [Relay.headerLines, bind_run, headerLoop_eq size, bind_run, bind_run]
  cases readline r.source maxLine s with
  | error fault s' => rfl
  | ok len s' =>
    simp only
    rw [headerRound, Line.rest]
    by_cases failed : len < 0
    · rw [if_pos failed, if_pos failed]
      rfl
    · rw [if_neg failed, if_neg failed, bind_run, bind_run, scanBuf]
      cases headerLength s'.buf with
      | error fault => rfl
      | ok length =>
        simp only
        by_cases ended : len = 0
        · rw [if_pos ended, if_pos ended]
          rfl
        · rw [if_neg ended, if_neg ended, writebuf_sendLeft]
          change _ = (sendLeft r.target (s'.buf.take len.toNat) >>=
            (Write.header r (sum + len) (length.getD content)).rest) s'
          rw [bind_run, bind_run, sendLeft]
          simp only
          rcases sendAll (s'.output r.target).writes (s'.output r.target).sent (s'.buf.take len.toNat) with ⟨done, out⟩
          cases done with
          | false => rfl
          | true =>
            have all : ¬((len.toNat : Int) < 0) := by omega
            simp only [if_true, Write.rest]
            rw [if_neg all, bind_run, bind_run, scanBuf]
            cases lastLine (s'.withOutput r.target out).buf with
            | error fault => rfl
            | ok last => cases last <;> rfl

/-- The first half behind the request line. -/
theorem sendRest_headerLines :
    (sendRest parsed >>= fun _ => replyRest parsed) s = Relay.headerLines ⟨.request, parsed, newfd⟩ 0 0 s := by
  have header : relayHeader .client .server s = headerLoop .client .server 0 0 s := rfl
  rw [sendRest, bind_assoc, Relay.headerLines, bind_run, bind_run, header]
  simp only [Relay.source, Relay.target]
  cases headerLoop .client .server 0 0 s with
  | error fault s' => rfl
  | ok header s' =>
    simp only [Relay.headerRest]
    rw [bind_assoc, bind_run, bind_run, scanBuf]
    cases isPost parsed.method with
    | error fault => rfl
    | ok post =>
      simp only
      split
      · rw [bind_assoc]
        rfl
      · rfl

/-- The second half behind the status line. -/
theorem relayRest_headerLines :
    (relayRest parsed msg len >>= logEntry parsed) s = Relay.headerLines ⟨.response msg len, parsed, newfd⟩ 0 0 s := by
  have header : relayHeader .server .client s = headerLoop .server .client 0 0 s := rfl
  rw [relayRest, bind_assoc, Relay.headerLines, bind_run, bind_run, header]
  simp only [Relay.source, Relay.target]
  cases headerLoop .server .client 0 0 s with
  | error fault s' => rfl
  | ok header s' =>
    simp only [Relay.headerRest]
    rw [bind_assoc, bind_run, bind_run, scanBuf]
    cases isHead parsed.method with
    | error fault => rfl
    | ok head =>
      simp only
      split
      · rw [bind_assoc]
        rfl
      · rfl

/-- The second half. -/
theorem replyRest_eq : replyRest parsed s = (Stage.readline (.reply parsed newfd) 0).rest s := by
  rw [replyRest, relayResponse, bind_assoc, bind_run]
  change _ = (readline .server maxLine >>= (Line.reply parsed newfd).rest) s
  rw [bind_run]
  cases readline .server maxLine s with
  | error fault s' => rfl
  | ok len s' =>
    simp only [Line.rest]
    split
    · rw [bind_assoc, bind_run, bind_run, scanBuf]
      cases parseResponse s'.buf with
      | error fault => rfl
      | ok msg =>
        simp only
        rw [bind_assoc, writebuf_sendLeft]
        change _ = (sendLeft .client (s'.buf.take len.toNat) >>= fun _ =>
          Relay.headerLines ⟨.response msg len, parsed, newfd⟩ 0 0) s'
        rw [bind_run, bind_run]
        exact relayRest_headerLines
    · rfl

theorem relayed_rest : (relayed parsed newfd sum).rest s = logEntry parsed sum s := by
  unfold relayed logEntry
  split <;> rfl

theorem Relay.contentRest_eq : r.contentRest len s = (r.afterContent len).rest s := by
  obtain ⟨half, parsed, newfd⟩ := r
  cases half with
  | request => exact replyRest_eq
  | response msg sum => exact relayed_rest.symm

/-- Behind a header the computation goes on at the next stage. -/
theorem Relay.headerRest_eq : r.headerRest content s = resumed (r.afterHeader content) s := by
  obtain ⟨half, parsed, newfd⟩ := r
  cases half with
  | request =>
    simp only [headerRest, afterHeader]
    rw [bind_run, scanBuf]
    cases isPost parsed.method with
    | error fault => rfl
    | ok post =>
      change _ = Stage.rest (if _ then _ else _) s
      simp only
      split
      · rfl
      · exact replyRest_eq
  | response msg sum =>
    simp only [headerRest, afterHeader]
    rw [bind_run, scanBuf]
    cases isHead parsed.method with
    | error fault => rfl
    | ok head =>
      change _ = Stage.rest (if _ then _ else _) s
      simp only
      split
      · rfl
      · exact relayed_rest.symm

/-- Behind `writebuf` too. -/
theorem Write.rest_eq {call : Write} (size : s.buf.length = maxLine) :
    call.rest done s = resumed (call.after s.buf done) s := by
  cases call with
  | line r => exact headerLines_eq size
  | header r sum content =>
    rw [rest, after]
    cases done with
    | false => exact Relay.headerRest_eq
    | true =>
      simp only [if_true]
      rw [bind_run, scanBuf]
      cases lastLine s.buf with
      | error fault => rfl
      | ok last =>
        cases last with
        | true => exact Relay.headerRest_eq
        | false => exact headerLines_eq size
  | full r content i =>
    rw [rest, after]
    cases done with
    | false => exact Relay.contentRest_eq
    | true => rfl
  | last r i => exact Relay.contentRest_eq

/-- And behind `readline`, except for the request line. -/
theorem Line.rest_eq {call : Line} (behind : call ≠ .request) :
    call.rest len s = resumed (call.after scratch s.buf len) s := by
  cases call with
  | request => exact absurd rfl behind
  | header r sum content =>
    rw [rest, after]
    by_cases failed : len < 0
    · rw [if_pos failed, if_pos failed]
      exact Relay.headerRest_eq
    · rw [if_neg failed, if_neg failed, bind_run, scanBuf]
      cases headerLength s.buf with
      | error fault => rfl
      | ok length =>
        change _ = resumed (if len = 0 then r.afterHeader (length.getD content) else _) s
        simp only
        by_cases ended : len = 0
        · rw [if_pos ended, if_pos ended]
          exact Relay.headerRest_eq
        · rw [if_neg ended, if_neg ended]
          rfl
  | reply parsed newfd =>
    rw [rest, after]
    by_cases positive : 0 < len
    · rw [if_pos positive, if_pos positive, bind_run, scanBuf]
      cases parseResponse s.buf <;> rfl
    · have unlogged : logEntry parsed 0 s = .ok () s := rfl
      rw [if_neg positive, if_neg positive]
      exact unlogged.symm.trans (@relayed_rest s 0 parsed newfd).symm

theorem Line.rest_ok {call : Line} (behind : call ≠ .request) (after : call.after scratch s.buf len = .ok next) :
    call.rest len s = next.rest s :=
  (Line.rest_eq behind).trans (congrArg (resumed · s) after)

theorem Line.rest_error {call : Line} (behind : call ≠ .request)
    (after : call.after scratch s.buf len = .error fault) : call.rest len s = .error fault s :=
  (Line.rest_eq behind).trans (congrArg (resumed · s) after)

theorem Write.rest_ok {call : Write} (size : s.buf.length = maxLine) (after : call.after s.buf done = .ok next) :
    call.rest done s = next.rest s :=
  (Write.rest_eq size).trans (congrArg (resumed · s) after)

theorem Write.rest_error {call : Write} (size : s.buf.length = maxLine)
    (after : call.after s.buf done = .error fault) : call.rest done s = .error fault s :=
  (Write.rest_eq size).trans (congrArg (resumed · s) after)

/-- A round of `readline` before the last one, and the last one, with what follows. -/
theorem readline_more {α : Type} {fd : Side} {i : Nat} {got : Got} {s' : Conn} {buf : List UInt8} {k : Int → Thread α}
    (inside : i < maxLine) (size : s.buf.length = maxLine) (reads : s.reads fd = (got, s'))
    (round : lineRound s.buf i got = (buf, none)) : (readlineLoop fd (maxLine - i) i >>= k) s =
      (readlineLoop fd (maxLine - (i + 1)) (i + 1) >>= k) (s'.withBuf buf) := by
  rw [bind_run, readlineLoop_round inside size reads, round]
  simp only [bind_run]

theorem readline_last {α : Type} {fd : Side} {i : Nat} {got : Got} {s' : Conn} {buf : List UInt8} {k : Int → Thread α}
    (inside : i < maxLine) (size : s.buf.length = maxLine) (reads : s.reads fd = (got, s'))
    (round : lineRound s.buf i got = (buf, some len)) :
    (readlineLoop fd (maxLine - i) i >>= k) s = k len (s'.withBuf buf) := by
  rw [bind_run, readlineLoop_round inside size reads, round]

/-- `relay_content` has read all bytes of the content. -/
theorem rest_whole {i : Int} {j : Nat} (stops : content ≠ 0 ∧ i = content) :
    (Stage.relayContent r content i j).rest s = (Stage.writebuf (.last r i) (s.buf.take j)).rest s := by
  change (contentLoop r.source r.target content i j >>= r.contentRest) s =
    (sendLeft r.target (s.buf.take j) >>= fun _ => r.contentRest i) s
  rw [bind_run, contentLoop_whole stops, bind_run, bind_run]
  rfl

/-- Its buffer is full. -/
theorem rest_full {i : Int} (goes : ¬(content ≠ 0 ∧ i = content)) :
    (Stage.relayContent r content i maxLine).rest s =
      (Stage.writebuf (.full r content i) (s.buf.take maxLine)).rest s := by
  change (contentLoop r.source r.target content i maxLine >>= r.contentRest) s =
    (sendLeft r.target (s.buf.take maxLine) >>= (Write.full r content i).rest) s
  rw [bind_run, contentLoop_full goes, bind_run, bind_run]
  simp only [sendLeft]
  cases (sendAll (s.output r.target).writes (s.output r.target).sent (s.buf.take maxLine)).1 <;> rfl

/-- It reads a byte, the end of the file, or nothing. -/
theorem rest_byte {i : Int} {j : Nat} {b : UInt8} {s' : Conn} (goes : ¬(content ≠ 0 ∧ i = content))
    (room : j < s.buf.length) (short : j ≠ maxLine) (reads : s.reads r.source = (.byte b, s')) :
    (Stage.relayContent r content i j).rest s =
      (Stage.relayContent r content ((i + 1).bmod (2 ^ 32)) (j + 1)).rest (s'.withBuf (s'.buf.set j b)) := by
  change (contentLoop r.source r.target content i j >>= r.contentRest) s = _
  rw [bind_run, contentLoop_reads goes room short reads]
  exact bind_run.symm

theorem rest_eof {i : Int} {j : Nat} {s' : Conn} (goes : ¬(content ≠ 0 ∧ i = content)) (room : j < s.buf.length)
    (short : j ≠ maxLine) (reads : s.reads r.source = (.eof, s')) :
    (Stage.relayContent r content i j).rest s = (Stage.writebuf (.last r i) (s'.buf.take j)).rest s' := by
  change (contentLoop r.source r.target content i j >>= r.contentRest) s =
    (sendLeft r.target (s'.buf.take j) >>= fun _ => r.contentRest i) s'
  rw [bind_run, contentLoop_reads goes room short reads]
  simp only [bind_run]
  rfl

theorem rest_failed {i : Int} {j : Nat} {s' : Conn} (goes : ¬(content ≠ 0 ∧ i = content)) (room : j < s.buf.length)
    (short : j ≠ maxLine) (reads : s.reads r.source = (.failed, s')) :
    (Stage.relayContent r content i j).rest s = (r.afterContent (-1)).rest s' := by
  change (contentLoop r.source r.target content i j >>= r.contentRest) s = _
  rw [bind_run, contentLoop_reads goes room short reads]
  exact Relay.contentRest_eq

end Rest

section Receiving
variable {s s' : Conn} {parsed : Parsed} {len : Nat} {size : Int} {scratch : Scratch} {connects : Bool} {next : Stage}
  {fault : Fault} {newfd : Option Nat}

theorem Stage.Begins.inside (begins : next.Begins newfd) : next.Inside := by
  have positive : 0 < maxLine := by decide
  cases begins with
  | readline call => exact positive
  | relayContent r content i => exact Nat.zero_le _
  | _ => trivial

/-- Behind the request line the thread asks for the host or gives up. -/
theorem received_ok (after : Line.request.after scratch s.buf size = .ok next) :
    (∃ parsed len, next = .lockSyscall parsed len ∧ received scratch size s = .ok (some (parsed, len)) s) ∨
      next = .closeClient ∧ received scratch size s = .ok none s := by
  rw [Line.after] at after
  rw [received]
  by_cases positive : 0 < size
  · rw [if_pos positive] at after ⊢
    rw [bind_run, scanBuf]
    cases parse : parseRequest s.buf with
    | error fault =>
      rw [parse] at after
      cases after
    | ok target =>
      rw [parse] at after
      cases target with
      | none =>
        cases after
        exact .inr ⟨rfl, rfl⟩
      | some target =>
        cases after
        exact .inl ⟨_, _, rfl, rfl⟩
  · rw [if_neg positive] at after ⊢
    cases after
    exact .inr ⟨rfl, rfl⟩

theorem received_error (after : Line.request.after scratch s.buf size = .error fault) :
    received scratch size s = .error fault s := by
  rw [Line.after] at after
  rw [received]
  by_cases positive : 0 < size
  · rw [if_pos positive] at after ⊢
    rw [bind_run, scanBuf]
    cases parse : parseRequest s.buf with
    | error fault =>
      rw [parse] at after
      cases after
      rfl
    | ok target =>
      rw [parse] at after
      cases target <;> cases after
  · rw [if_neg positive] at after
    cases after

/-- The first half is what comes before `open_serverfd`, this, and what comes behind it. -/
theorem sendRequest_eq : sendRequest scratch connects = (do
    match ← receiveRequest scratch with
    | none => pure none
    | some (parsed, len) =>
      if ← openServerfd connects (cstring parsed.hostname) parsed.port then do
        forwardRequest parsed len
        pure (some parsed)
      else pure none) := by
  funext s
  rw [sendRequest, receiveRequest, bind_run, bind_run, bind_run]
  cases readline .client maxLine s with
  | error fault s => rfl
  | ok len s =>
    simp only [received]
    split
    · rw [bind_run, bind_run]
      cases scanBuf parseRequest s with
      | error fault s => rfl
      | ok target s =>
        cases target with
        | none => rfl
        | some target =>
          simp only [forwardRequest, bind_assoc]
          rfl
    · rfl

theorem process_refused (run : receiveRequest scratch s = .ok none s') : process scratch connects s = .ok () s' := by
  rw [process, sendRequest_eq, bind_run, bind_run, run]
  rfl

theorem process_crash (run : receiveRequest scratch s = .error fault s') :
    process scratch connects s = .error fault s' := by
  rw [process, sendRequest_eq, bind_run, bind_run, run]

theorem process_unreached (run : receiveRequest scratch s = .ok (some (parsed, len)) s') :
    process scratch false s = .ok () (s'.dial none) := by
  rw [process, sendRequest_eq, bind_run, bind_run, run]
  rfl

/-- Behind `open_serverfd` the request line is sent first. -/
theorem process_reached {newfd : Nat} (run : receiveRequest scratch s = .ok (some (parsed, len)) s') :
    process scratch true s =
      (Stage.writebuf (.line ⟨.request, parsed, newfd⟩) (s'.buf.take len)).rest
        (s'.dial (some (cstring parsed.hostname, (parsed.port % 2 ^ 16).toNat))) := by
  have forwarded : process scratch true s = (forwardRequest parsed len >>= fun _ => replyRest parsed)
      (s'.dial (some (cstring parsed.hostname, (parsed.port % 2 ^ 16).toNat))) := by
    rw [process, sendRequest_eq, bind_run, bind_run, run]
    simp only
    rw [bind_run, openServerfd]
    simp only [if_true]
    rw [bind_run, bind_run]
    cases forwardRequest parsed len (s'.dial (some (cstring parsed.hostname, (parsed.port % 2 ^ 16).toNat))) <;> rfl
  rw [forwarded, forwardRequest, bind_assoc, writebuf_sendLeft]
  change _ = (sendLeft .server (s'.buf.take len) >>= fun _ =>
    Relay.headerLines ⟨.request, parsed, newfd⟩ 0 0) (s'.dial _)
  rw [bind_run, bind_run]
  exact sendRest_headerLines

/-- Nothing is connected before. -/
theorem receiveRequest_dialled {result : Option (Parsed × Nat)} (room : maxLine ≤ s.buf.length)
    (run : receiveRequest scratch s = .ok result s') : s'.dialled = s.dialled := by
  rcases line : takeLine maxLine (s.input .client) with ⟨bytes, stop, rest⟩
  rw [receiveRequest, bind_run, readline_run room line] at run
  simp only [received] at run
  split at run
  · rw [bind_run, scanBuf] at run
    split at run
    · next target mid scan =>
      split at scan
      · cases scan
        split at run <;> cases run <;> rfl
      · cases scan
    · cases run
  · cases run
    rfl

end Receiving

section Onward
variable {source target : Side} {s s' t : Conn}

/-- Input has been read and bytes have been sent. -/
structure Conn.Onward (s s' : Conn) : Prop where
  input : ∀ side, s'.input side <:+ s.input side
  sent : ∀ side, (s.output side).sent <+: (s'.output side).sent
  writes : ∀ side, (s'.output side).writes <:+ (s.output side).writes

theorem Conn.Onward.refl : s.Onward s := ⟨fun _ => List.suffix_rfl, fun _ => List.prefix_rfl, fun _ => List.suffix_rfl⟩

theorem Conn.Onward.trans (first : s.Onward s') (second : s'.Onward t) : s.Onward t where
  input side := (second.input side).trans (first.input side)
  sent side := (first.sent side).trans (second.sent side)
  writes side := (second.writes side).trans (first.writes side)

theorem sendAll_onward {writes : List Accept} {sent data : List UInt8} :
    sent <+: (sendAll writes sent data).2.sent ∧ (sendAll writes sent data).2.writes <:+ writes := by
  fun_induction sendAll writes sent data with
  | case1 writes sent => exact ⟨List.prefix_rfl, List.suffix_rfl⟩
  | case2 sent b data => exact ⟨List.prefix_append _ _, List.suffix_rfl⟩
  | case3 writes => exact ⟨List.prefix_rfl, List.suffix_cons _ _⟩
  | case4 more writes sent b data ih =>
    exact ⟨(List.prefix_append _ _).trans ih.1, ih.2.trans (List.suffix_cons _ _)⟩

theorem onward_output {data : List UInt8} :
    s.Onward (s.withOutput target (sendAll (s.output target).writes (s.output target).sent data).2) := by
  refine ⟨fun _ => List.suffix_rfl, fun side => ?_, fun side => ?_⟩
  · by_cases same : side = target
    · subst same
      simpa [Conn.withOutput] using sendAll_onward.1
    · simp [Conn.withOutput, same]
  · by_cases same : side = target
    · subst same
      simpa [Conn.withOutput] using sendAll_onward.2
    · simp [Conn.withOutput, same]

theorem onward_stepwise : Stepwise source target Conn.Onward where
  refl _ := .refl
  trans := .trans
  input {s event rest} input := by
    refine ⟨fun side => ?_, fun _ => List.prefix_rfl, fun _ => List.suffix_rfl⟩
    by_cases same : side = source
    · subst same
      simp [Conn.withInput, input]
    · simp [Conn.withInput, same]
  buf _ _ _ := ⟨fun _ => List.suffix_rfl, fun _ => List.prefix_rfl, fun _ => List.suffix_rfl⟩
  output _ _ := onward_output
  dial _ _ := ⟨fun _ => List.suffix_rfl, fun _ => List.prefix_rfl, fun _ => List.suffix_rfl⟩

theorem onward_writeLog {uri : List UInt8} {size : Int} : Steps Conn.Onward (writeLog uri size) :=
  fun _ => ⟨fun _ => List.suffix_rfl, fun _ => List.prefix_rfl, fun _ => List.suffix_rfl⟩

theorem onward_pure {α : Type} (a : α) : Steps Conn.Onward (pure a : Thread α) := ends_pure (fun _ => .refl) a

theorem onward_bind {α β : Type} {x : Thread α} {f : α → Thread β} (first : Steps Conn.Onward x)
    (rest : ∀ a, Steps Conn.Onward (f a)) : Steps Conn.Onward (x >>= f) :=
  Ends.bind .trans .trans first rest

theorem onward_headerLoop {sum content : Int} : Steps Conn.Onward (headerLoop source target sum content) :=
  fun s => onward_stepwise.relayHeaderLoop ((s.input source).length + 1) sum content s

theorem onward_contentLoop {content i : Int} {j : Nat} : Steps Conn.Onward (contentLoop source target content i j) :=
  fun s => onward_stepwise.relayContentLoop content maxLine ((s.input source).length + 1) i j s

theorem onward_logEntry {parsed : Parsed} {sum : Int} : Steps Conn.Onward (logEntry parsed sum) :=
  .ite onward_writeLog (onward_pure _)

theorem onward_replyRest {parsed : Parsed} : Steps Conn.Onward (replyRest parsed) :=
  onward_bind (onward_stepwise.relayResponse parsed) fun _ => onward_logEntry

theorem Relay.onward_content (r : Relay) (len : Int) : Steps Conn.Onward (r.contentRest len) := by
  unfold contentRest
  split
  · exact onward_replyRest
  · exact onward_logEntry

theorem Relay.onward_header (r : Relay) (content : Int) : Steps Conn.Onward (r.headerRest content) := by
  have body : Steps Conn.Onward (contentLoop r.source r.target content 0 0 >>= r.contentRest) :=
    onward_bind onward_contentLoop r.onward_content
  unfold headerRest
  split
  · exact onward_bind (@onward_stepwise .client .server |>.scanBuf _) fun _ => .ite body onward_replyRest
  · exact onward_bind (@onward_stepwise .client .server |>.scanBuf _) fun _ => .ite body onward_logEntry

theorem Relay.onward_lines (r : Relay) (sum content : Int) : Steps Conn.Onward (r.headerLines sum content) :=
  onward_bind onward_headerLoop fun _ => r.onward_header _

theorem Write.onward (call : Write) (done : Bool) : Steps Conn.Onward (call.rest done) := by
  cases call with
  | line r => exact r.onward_lines 0 0
  | header r sum content =>
    refine .ite (onward_bind (@onward_stepwise .client .server |>.scanBuf _) fun last => ?_) (r.onward_header _)
    exact .ite (r.onward_header _) (r.onward_lines _ _)
  | full r content i => exact .ite (onward_bind onward_contentLoop r.onward_content) (r.onward_content _)
  | last r i => exact r.onward_content i

theorem Write.onward_sends (call : Write) (left : List UInt8) : Steps Conn.Onward (call.sends left) :=
  onward_bind (fun _ => onward_output) call.onward

theorem Line.onward (call : Line) (len : Int) : Steps Conn.Onward (call.rest len) := by
  cases call with
  | request => exact onward_pure _
  | header r sum content =>
    refine .ite (r.onward_header _) (onward_bind (@onward_stepwise .client .server |>.scanBuf _) fun length => ?_)
    exact .ite (r.onward_header _) (onward_bind (@onward_stepwise .client .server |>.scanBuf _) fun _ =>
      Write.onward_sends _ _)
  | reply parsed newfd =>
    refine .ite (onward_bind (@onward_stepwise .client .server |>.scanBuf _) fun msg => ?_) (onward_pure _)
    exact onward_bind (@onward_stepwise .client .server |>.scanBuf _) fun _ => Write.onward_sends _ _

/-- What is left to do reads and sends only. -/
theorem Stage.onward (stage : Stage) : Steps Conn.Onward stage.rest := by
  cases stage with
  | readline call i =>
    exact onward_bind (@onward_stepwise call.side call.side |>.readlineLoop _ _) call.onward
  | writebuf call left => exact call.onward_sends left
  | relayContent r content i j => exact onward_bind onward_contentLoop r.onward_content
  | lockLogfile parsed newfd sum => exact onward_writeLog
  | _ => exact onward_pure _

theorem onward_received {scratch : Scratch} {len : Int} : Steps Conn.Onward (received scratch len) := by
  refine .ite (onward_bind (@onward_stepwise .client .server |>.scanBuf _) fun target => ?_) (onward_pure _)
  cases target with
  | none => exact onward_pure _
  | some target => exact onward_pure _

theorem onward_receiving {scratch : Scratch} {left i : Nat} :
    Steps Conn.Onward (readlineLoop .client left i >>= received scratch) :=
  onward_bind (@onward_stepwise .client .server |>.readlineLoop _ _) fun _ => onward_received

/-- What follows the request line reads and sends only. -/
theorem onward_process {scratch : Scratch} {connects : Bool} (s : Conn) :
    (finalState (receiveRequest scratch s)).Onward (finalState (process scratch connects s)) := by
  rw [process, sendRequest_eq, bind_assoc]
  refine Steps.final_bind (fun _ => .refl) (fun result => ?_) s
  refine onward_bind ?_ fun parsed => ?_
  · cases result with
    | none => exact onward_pure _
    | some request =>
      have forwards : Steps Conn.Onward (forwardRequest request.1 request.2) :=
        onward_bind (@onward_stepwise .client .server |>.writebuf _) fun _ => onward_stepwise.sendRest _
      refine onward_bind (fun s => @onward_stepwise .client .server |>.dial s _) fun connected => ?_
      exact .ite (onward_bind forwards fun _ => onward_pure _) (onward_pure _)
  · cases parsed with
    | none => exact onward_pure _
    | some parsed => exact onward_replyRest

end Onward

end Splab.Proxy
