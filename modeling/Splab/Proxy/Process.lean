import Splab.Proxy.Relay

namespace Splab.Proxy

/-- A local array of `process`. -/
structure Buffer where
  bytes : List UInt8
  size : bytes.length = maxLine

/-- The arrays of `process` before anything is written to them. -/
structure Scratch where
  buf : Buffer
  uri : Buffer
  hostname : Buffer
  method : Buffer

def Buffer.fill (b : UInt8) : Buffer := ⟨List.replicate maxLine b, List.length_replicate⟩

def Scratch.fill (b : UInt8) : Scratch := ⟨.fill b, .fill b, .fill b, .fill b⟩

/-- What the peers do in the run of a proxy thread: their bytes, how far they take ours, and whether
the connection to the server succeeds. -/
structure Net where
  input : Side → List (Option UInt8)
  writes : Side → List Accept
  connects : Bool

/-- The arrays after `parse_request`. -/
structure Parsed where
  uri : List UInt8
  hostname : List UInt8
  method : List UInt8
  port : Int

/-- The copies that `parse_request` makes: only `method` is left without a terminating zero byte. -/
def Target.store (t : Target) (scratch : Scratch) : Parsed where
  uri := overwrite scratch.uri.bytes (t.uri ++ [0])
  hostname := overwrite scratch.hostname.bytes (t.hostname ++ [0])
  method := overwrite scratch.method.bytes t.method
  port := t.port

/-- The string at the start of an array. -/
def cstring (buf : List UInt8) : List UInt8 := buf.takeWhile (· ≠ 0)

def Conn.dial (s : Conn) (address : Option (List UInt8 × Nat)) : Conn := { s with dialled := address }

/-- `open_serverfd`: the address is the name and the port as an unsigned number of 16 bits. -/
def openServerfd (connects : Bool) (hostname : List UInt8) (port : Int) : Thread Bool := fun s =>
  .ok connects (s.dial (if connects then some (hostname, (port % 2 ^ 16).toNat) else none))

/-- The first half of `process` from the header of the request on. -/
def sendRest (parsed : Parsed) : Thread Unit := do
  let (_, content) ← relayHeader .client .server
  let post ← scanBuf fun _ => isPost parsed.method
  if post ∧ content ≠ 0 then do
    let _ ← relayContent .client .server content maxLine
    pure ()
  else pure ()

/-- The first half of `process`: the request is sent to the server. -/
def sendRequest (scratch : Scratch) (connects : Bool) : Thread (Option Parsed) := do
  let len ← readline .client maxLine
  if 0 < len then do
    match ← scanBuf parseRequest with
    | none => pure none
    | some target =>
      let parsed := target.store scratch
      let connected ← openServerfd connects (cstring parsed.hostname) parsed.port
      if connected then do
        let _ ← writebuf .server len.toNat
        sendRest parsed
        pure (some parsed)
      else pure none
  else pure none

/-- The second half from the header of the response on; its first line has `len` bytes. -/
def relayRest (parsed : Parsed) (msg len : Int) : Thread Int := do
  let (_, content) ← relayHeader .server .client
  let head ← scanBuf fun _ => isHead parsed.method
  if head = false ∧ 2 ≤ msg.tdiv 100 ∧ msg ≠ 204 ∧ msg ≠ 304 then do
    let body ← relayContent .server .client content maxLine
    pure (if 0 < body then (len + body).bmod (2 ^ 32) else len)
  else pure len

/-- The second half: the response is sent to the client. The result is `sum`. -/
def relayResponse (parsed : Parsed) : Thread Int := do
  let len ← readline .server maxLine
  if 0 < len then do
    let msg ← scanBuf parseResponse
    let _ ← writebuf .client len.toNat
    relayRest parsed msg len
  else pure 0

/-- The log entry, with the numbers that `format_log_entry` gets. -/
def writeLog (uri : List UInt8) (size : Int) : Thread Unit :=
  modify fun s => { s with log := some (uri, size) }

def process (scratch : Scratch) (connects : Bool) : Thread Unit := do
  match ← sendRequest scratch connects with
  | none => pure ()
  | some parsed =>
    let sum ← relayResponse parsed
    if sum ≠ 0 then writeLog (cstring parsed.uri) sum else pure ()

/-- The state of a thread when it starts. -/
def Net.start (net : Net) (scratch : Scratch) : Conn where
  input := net.input
  output side := ⟨[], net.writes side⟩
  buf := scratch.buf.bytes
  dialled := none
  log := none

/-- The state in which a thread ends, also by a crash. -/
def Net.exchange (net : Net) (scratch : Scratch) : Conn := finalState (process scratch net.connects (net.start scratch))

/-- What a step keeps that reads from `source` and writes to `target` only. -/
structure Conn.Framed (source target : Side) (s s' : Conn) : Prop where
  input : ∀ fd ≠ source, s'.input fd = s.input fd
  output : ∀ fd ≠ target, s'.output fd = s.output fd
  size : s'.buf.length = s.buf.length

/-- The steps of a computation read from `source` and write to `target` only. -/
abbrev Frames {α : Type} (source target : Side) (x : Thread α) : Prop :=
  Ends (Conn.Framed source target) (fun s _ s' => s.Framed source target s') x

/-- A relation between the states before and after that the steps of a thread keep when it reads from
`source`, writes to `target` and connects to a server. -/
structure Stepwise (source target : Side) (R : Conn → Conn → Prop) : Prop where
  refl : ∀ s, R s s
  trans : ∀ {a b c}, R a b → R b c → R a c
  input : ∀ {s event rest}, s.input source = event :: rest → R s (s.withInput source rest)
  buf : ∀ s buf, buf.length = s.buf.length → R s (s.withBuf buf)
  output : ∀ s data, R s (s.withOutput target (sendAll (s.output target).writes (s.output target).sent data).2)
  dial : ∀ s address, R s (s.dial address)

/-- The relation holds between the first and the last state of every run, also of one that ends with a crash. -/
abbrev Steps {α : Type} (R : Conn → Conn → Prop) (x : Thread α) : Prop := Ends R (fun s _ s' => R s s') x

section Steps
variable {α β : Type} {source target : Side} {R : Conn → Conn → Prop} {x : Thread α} {f : α → Thread β}

theorem Steps.final (steps : Steps R x) (s : Conn) : R s (finalState (x s)) := by
  have last := steps s
  cases run : x s with
  | ok a s' =>
    rw [run] at last
    exact last
  | error fault s' =>
    rw [run] at last
    exact last

/-- The rest of a computation goes on where its first part has ended. -/
theorem Steps.final_bind (refl : ∀ s, R s s) (rest : ∀ a, Steps R (f a)) (s : Conn) :
    R (finalState (x s)) (finalState ((x >>= f) s)) := by
  rw [bind_run]
  cases x s with
  | ok a s' => exact (rest a).final s'
  | error fault s' => exact refl s'

theorem Steps.ite {c : Prop} [Decidable c] {y : Thread α} (yes : Steps R x) (no : Steps R y) :
    Steps R (if c then x else y) := by
  split
  · exact yes
  · exact no

namespace Stepwise

theorem pure (steps : Stepwise source target R) (a : α) : Steps R (pure a : Thread α) := ends_pure steps.refl a

theorem bind (steps : Stepwise source target R) (first : Steps R x) (rest : ∀ a, Steps R (f a)) : Steps R (x >>= f) :=
  Ends.bind steps.trans steps.trans first rest

theorem read (steps : Stepwise source target R) (i : Nat) : Steps R (read source i) := by
  intro s
  rw [Proxy.read]
  cases input : s.input source with
  | nil => exact steps.refl s
  | cons event rest =>
    cases event with
    | none => exact steps.input input
    | some b =>
      by_cases room : i < s.buf.length
      · simp only [if_pos room]
        exact steps.trans (steps.input input) (steps.buf _ _ List.length_set)
      · simp only [if_neg room]
        exact steps.refl s

theorem readlineLoop (steps : Stepwise source target R) (left i : Nat) : Steps R (readlineLoop source left i) := by
  induction left generalizing i with
  | zero => exact steps.pure _
  | succ left ih =>
    refine steps.bind (steps.read i) fun got => ?_
    cases got with
    | byte b => exact (steps.pure _).ite (ih (i + 1))
    | eof => exact steps.pure _
    | failed => exact steps.pure _

theorem readline (steps : Stepwise source target R) (len : Nat) : Steps R (readline source len) :=
  steps.readlineLoop len 0

theorem writebuf (steps : Stepwise source target R) (len : Nat) : Steps R (writebuf target len) :=
  fun s => steps.output s _

theorem scanBuf (steps : Stepwise source target R) (scan : List UInt8 → Except Fault α) : Steps R (scanBuf scan) := by
  intro s
  rw [Proxy.scanBuf]
  cases scan s.buf with
  | ok a => exact steps.refl s
  | error fault => exact steps.refl s

theorem relayHeaderLoop (steps : Stepwise source target R) (fuel : Nat) (sum content : Int) :
    Steps R (relayHeaderLoop source target fuel sum content) := by
  induction fuel generalizing sum content with
  | zero => exact steps.pure _
  | succ fuel ih =>
    refine steps.bind (steps.readline _) fun len => (steps.pure _).ite ?_
    refine steps.bind (steps.scanBuf _) fun length => (steps.pure _).ite ?_
    refine steps.bind (steps.writebuf _) fun res => (steps.pure _).ite ?_
    exact steps.bind (steps.scanBuf _) fun last => (steps.pure _).ite (ih _ _)

theorem relayHeader (steps : Stepwise source target R) : Steps R (relayHeader source target) :=
  fun s => steps.relayHeaderLoop ((s.input source).length + 1) 0 0 s

theorem finish (steps : Stepwise source target R) (i : Int) (j : Nat) : Steps R (finish target i j) :=
  steps.bind (steps.writebuf j) fun _ => steps.pure i

theorem relayContentLoop (steps : Stepwise source target R) (content : Int) (len fuel : Nat) (i : Int) (j : Nat) :
    Steps R (relayContentLoop source target content len fuel i j) := by
  induction fuel generalizing i j with
  | zero => exact steps.pure _
  | succ fuel ih =>
    have room : Steps R (makeRoom target len j) :=
      (steps.bind (steps.writebuf j) fun _ => steps.pure _).ite (steps.pure _)
    refine (steps.finish i j).ite (steps.bind room fun place => ?_)
    cases place with
    | none => exact steps.pure _
    | some j =>
      refine steps.bind (steps.read j) fun got => ?_
      cases got with
      | byte b => exact ih _ _
      | eof => exact steps.finish i j
      | failed => exact steps.pure _

theorem relayContent (steps : Stepwise source target R) (content : Int) (len : Nat) :
    Steps R (relayContent source target content len) :=
  fun s => steps.relayContentLoop content len ((s.input source).length + 1) 0 0 s

theorem sendRest (steps : Stepwise .client .server R) (parsed : Parsed) : Steps R (sendRest parsed) := by
  refine steps.bind steps.relayHeader fun header => steps.bind (steps.scanBuf _) fun post => .ite ?_ (steps.pure _)
  exact steps.bind (steps.relayContent _ _) fun _ => steps.pure _

theorem sendRequest (steps : Stepwise .client .server R) (scratch : Scratch) (connects : Bool) :
    Steps R (sendRequest scratch connects) := by
  refine steps.bind (steps.readline _) fun len => .ite (steps.bind (steps.scanBuf _) fun target => ?_) (steps.pure _)
  cases target with
  | none => exact steps.pure _
  | some target =>
    have opened : Steps R (openServerfd connects (cstring (target.store scratch).hostname) target.port) :=
      fun s => steps.dial s _
    refine steps.bind opened fun connected => .ite ?_ (steps.pure _)
    exact steps.bind (steps.writebuf _) fun _ => steps.bind (steps.sendRest _) fun _ => steps.pure _

theorem relayRest (steps : Stepwise .server .client R) (parsed : Parsed) (msg len : Int) :
    Steps R (relayRest parsed msg len) := by
  refine steps.bind steps.relayHeader fun header => steps.bind (steps.scanBuf _) fun head => .ite ?_ (steps.pure _)
  exact steps.bind (steps.relayContent _ _) fun _ => steps.pure _

theorem relayResponse (steps : Stepwise .server .client R) (parsed : Parsed) : Steps R (relayResponse parsed) := by
  refine steps.bind (steps.readline _) fun len => .ite (steps.bind (steps.scanBuf _) fun msg => ?_) (steps.pure _)
  exact steps.bind (steps.writebuf _) fun _ => steps.relayRest _ _ _

end Stepwise

end Steps

section Frames
variable {source target : Side} {s s' t : Conn}

theorem Conn.Framed.refl : s.Framed source target s := ⟨fun _ _ => rfl, fun _ _ => rfl, rfl⟩

theorem Conn.Framed.trans (first : s.Framed source target s') (second : s'.Framed source target t) :
    s.Framed source target t where
  input fd other := (second.input fd other).trans (first.input fd other)
  output fd other := (second.output fd other).trans (first.output fd other)
  size := second.size.trans first.size

theorem framed_stepwise : Stepwise source target (Conn.Framed source target) where
  refl _ := .refl
  trans := .trans
  input _ := ⟨fun _ ne => Function.update_of_ne ne _ _, fun _ _ => rfl, rfl⟩
  buf _ _ size := ⟨fun _ _ => rfl, fun _ _ => rfl, size⟩
  output _ _ := ⟨fun _ _ => rfl, fun _ ne => Function.update_of_ne ne _ _, rfl⟩
  dial _ _ := ⟨fun _ _ => rfl, fun _ _ => rfl, rfl⟩

theorem frames_sendRequest (scratch : Scratch) (connects : Bool) :
    Frames .client .server (sendRequest scratch connects) := framed_stepwise.sendRequest scratch connects

theorem frames_relayResponse (parsed : Parsed) : Frames .server .client (relayResponse parsed) :=
  framed_stepwise.relayResponse parsed

end Frames

section FirstLine
variable {s : Conn} {scratch : Scratch} {connects : Bool} {parsed : Parsed} {bytes : List UInt8} {stop : Stop}
  {rest : List (Option UInt8)}

@[simp]
theorem dial_input {address : Option (List UInt8 × Nat)} : (s.dial address).input = s.input := rfl

@[simp]
theorem dial_output {address : Option (List UInt8 × Nat)} : (s.dial address).output = s.output := rfl

@[simp]
theorem dial_buf {address : Option (List UInt8 × Nat)} : (s.dial address).buf = s.buf := rfl

theorem dial_after {address : Option (List UInt8 × Nat)} {source target : Side} {output : Output} {buf : List UInt8} :
    (s.dial address).after source target rest output buf = (s.after source target rest output buf).dial address := rfl

theorem writebuf_line {source target : Side} {buf : List UInt8} (line : s.buf = overwrite buf bytes) :
    ∃ n, writebuf target bytes.length s = .ok n (s.after source target (s.input source)
      (sendAll (s.output target).writes (s.output target).sent bytes).2 s.buf) := by
  rw [@writebuf_run s source, line, take_overwrite]
  exact ⟨_, rfl⟩

/-- The request half up to the header. -/
theorem sendRequest_line (size : s.buf.length = maxLine)
    (line : takeLine maxLine (s.input .client) = (bytes, stop, rest)) (nonempty : stop = .line → bytes ≠ []) :
    sendRequest scratch connects s =
      let buf := overwrite s.buf bytes
      let read := s.after .client .server rest (s.output .server) buf
      if stop = .line then
        match parseRequest buf with
        | .error fault => .error fault read
        | .ok none => .ok none read
        | .ok (some target) =>
          let parsed := target.store scratch
          if connects then
            let out := (sendAll (s.output .server).writes (s.output .server).sent bytes).2
            (do sendRest parsed; pure (some parsed) : Thread (Option Parsed))
              ((s.after .client .server rest out buf).dial
                (some (cstring parsed.hostname, (target.port % 2 ^ 16).toNat)))
          else .ok none (read.dial none)
      else .ok none read := by
  have read : (s.withInput .client rest).withBuf (overwrite s.buf bytes) =
      s.after .client .server rest (s.output .server) (overwrite s.buf bytes) := by
    simp only [Conn.withInput, Conn.withBuf, Conn.after, Function.update_eq_self]
  rw [sendRequest, bind_run, readline_run (le_of_eq size.symm) line, read]
  cases stop with
  | failed => rfl
  | eof => rfl
  | line =>
    have positive : 0 < bytes.length := List.length_pos_iff.mpr (nonempty rfl)
    have more : 0 < Stop.line.result bytes.length := by simpa [Stop.result] using positive
    simp only
    rw [if_pos more, if_pos trivial, bind_run, scanBuf, after_buf]
    cases parseRequest (overwrite s.buf bytes) with
    | error fault => rfl
    | ok target =>
      cases target with
      | none => rfl
      | some target =>
        simp only
        rw [bind_run, openServerfd]
        cases connects with
        | false => rfl
        | true =>
          simp only [if_true]
          obtain ⟨n, wrote⟩ := @writebuf_line
            ((s.after .client .server rest (s.output .server) (overwrite s.buf bytes)).dial
              (some (cstring (target.store scratch).hostname, (target.port % 2 ^ 16).toNat))) bytes .client .server
                s.buf rfl
          simp only [dial_input, dial_output, dial_buf, after_input, after_output, after_buf, dial_after,
            after_after] at wrote
          exact bind_of_runs ⟨n, _, wrote, rfl, rfl⟩

/-- The arrays for the response half come from the request line. -/
theorem sendRequest_parsed {s' : Conn} (size : s.buf.length = maxLine)
    (line : takeLine maxLine (s.input .client) = (bytes, .line, rest)) (nonempty : bytes ≠ [])
    (run : sendRequest scratch connects s = .ok (some parsed) s') :
    ∃ target, parseRequest (overwrite s.buf bytes) = .ok (some target) ∧ parsed = target.store scratch := by
  rw [sendRequest_line size line fun _ => nonempty] at run
  simp only [if_true] at run
  cases parse : parseRequest (overwrite s.buf bytes) with
  | error fault =>
    rw [parse] at run
    cases run
  | ok target =>
    rw [parse] at run
    cases target with
    | none => cases run
    | some target =>
      refine ⟨target, rfl, ?_⟩
      cases connects with
      | false => cases run
      | true =>
        obtain ⟨_, _, _, run⟩ := bind_eq_ok.mp run
        cases run
        rfl

/-- The response half up to the header. -/
theorem relayResponse_line (size : s.buf.length = maxLine)
    (line : takeLine maxLine (s.input .server) = (bytes, stop, rest)) (nonempty : stop = .line → bytes ≠ []) :
    relayResponse parsed s =
      let buf := overwrite s.buf bytes
      let read := s.after .server .client rest (s.output .client) buf
      if stop = .line then
        match parseResponse buf with
        | .error fault => .error fault read
        | .ok msg =>
          relayRest parsed msg bytes.length
            (s.after .server .client rest (sendAll (s.output .client).writes (s.output .client).sent bytes).2 buf)
      else .ok 0 read := by
  have read : (s.withInput .server rest).withBuf (overwrite s.buf bytes) =
      s.after .server .client rest (s.output .client) (overwrite s.buf bytes) := by
    simp only [Conn.withInput, Conn.withBuf, Conn.after, Function.update_eq_self]
  rw [relayResponse, bind_run, readline_run (le_of_eq size.symm) line, read]
  cases stop with
  | failed => rfl
  | eof => rfl
  | line =>
    have positive : 0 < bytes.length := List.length_pos_iff.mpr (nonempty rfl)
    have more : 0 < Stop.line.result bytes.length := by simpa [Stop.result] using positive
    simp only
    rw [if_pos more, if_pos trivial, bind_run, scanBuf, after_buf]
    cases parseResponse (overwrite s.buf bytes) with
    | error fault => rfl
    | ok msg =>
      obtain ⟨n, wrote⟩ := @writebuf_line (s.after .server .client rest (s.output .client) (overwrite s.buf bytes))
        bytes .server .client s.buf rfl
      simp only [after_input, after_output, after_buf, after_after] at wrote
      exact bind_of_runs ⟨n, _, wrote, rfl, rfl⟩

/-- The request half behind the header. -/
theorem sendRest_header {sum content : Int} {s' : Conn}
    (header : relayHeader .client .server s = .ok (sum, content) s') :
    sendRest parsed s = match isPost parsed.method with
      | .error fault => .error fault s'
      | .ok post =>
        if post ∧ content ≠ 0 then
          (do let _ ← relayContent .client .server content maxLine; pure () : Thread Unit) s'
        else .ok () s' := by
  refine (bind_of_runs ⟨_, _, header, rfl, rfl⟩).trans ?_
  simp only
  rw [bind_run, scanBuf]
  cases isPost parsed.method with
  | error fault => rfl
  | ok post =>
    simp only
    split <;> rfl

/-- The response half behind the header. -/
theorem relayRest_header {sum content msg len : Int} {s' : Conn}
    (header : relayHeader .server .client s = .ok (sum, content) s') :
    relayRest parsed msg len s = match isHead parsed.method with
      | .error fault => .error fault s'
      | .ok head =>
        if head = false ∧ 2 ≤ msg.tdiv 100 ∧ msg ≠ 204 ∧ msg ≠ 304 then
          (do
            let body ← relayContent .server .client content maxLine
            pure (if 0 < body then (len + body).bmod (2 ^ 32) else len) : Thread Int) s'
        else .ok len s' := by
  refine (bind_of_runs ⟨_, _, header, rfl, rfl⟩).trans ?_
  simp only
  rw [bind_run, scanBuf]
  cases isHead parsed.method with
  | error fault => rfl
  | ok head =>
    simp only
    split <;> rfl

end FirstLine

section Exchange
variable {net : Net} {scratch : Scratch} {parsed : Parsed} {s : Conn}

/-- What follows the request half adds to the bytes for the client at most. -/
theorem exchange_sent (sent : sendRequest scratch net.connects (net.start scratch) = .ok (some parsed) s) :
    (net.exchange scratch).output = (finalState (relayResponse parsed s)).output ∧
      (net.exchange scratch).dialled = (finalState (relayResponse parsed s)).dialled := by
  unfold Net.exchange process
  rw [bind_run, sent]
  simp only
  rw [bind_run]
  cases relayResponse parsed s with
  | error fault s' => exact ⟨rfl, rfl⟩
  | ok sum s' =>
    simp only
    split <;> exact ⟨rfl, rfl⟩

/-- If there is no response half, the request half is all. -/
theorem exchange_unsent
    (unsent : ∀ parsed s, sendRequest scratch net.connects (net.start scratch) ≠ .ok (some parsed) s) :
    net.exchange scratch = finalState (sendRequest scratch net.connects (net.start scratch)) := by
  unfold Net.exchange process
  rw [bind_run]
  cases run : sendRequest scratch net.connects (net.start scratch) with
  | error fault s' => rfl
  | ok result s' =>
    cases result with
    | none => rfl
    | some parsed => exact absurd run (unsent parsed s')

/-- The server gets its bytes in the request half. -/
theorem exchange_server : ((net.exchange scratch).output .server) =
    (finalState (sendRequest scratch net.connects (net.start scratch))).output .server := by
  by_cases sent : ∃ parsed s, sendRequest scratch net.connects (net.start scratch) = .ok (some parsed) s
  · obtain ⟨parsed, s, run⟩ := sent
    rw [(exchange_sent run).1, run]
    have framed := frames_relayResponse parsed s
    cases response : relayResponse parsed s with
    | error fault s' =>
      rw [response] at framed
      exact framed.output .server (by decide)
    | ok sum s' =>
      rw [response] at framed
      exact framed.output .server (by decide)
  · rw [exchange_unsent]
    intro parsed s run
    exact sent ⟨parsed, s, run⟩

end Exchange

end Splab.Proxy
