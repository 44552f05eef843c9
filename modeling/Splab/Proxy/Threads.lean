import Splab.Lib.Threads
import Splab.Proxy.LogEntries

namespace Splab.Proxy
open CString

/-- The 16 bytes of a `struct sockaddr_in`. -/
structure Sockaddr where
  bytes : List UInt8
  size : bytes.length = 16

/-- `sin_addr.s_addr`, on a little-endian machine. -/
def Sockaddr.sinAddr (a : Sockaddr) : UInt32 :=
  (a.bytes.drop 4).take 4 |>.foldr (fun b v => v <<< 8 ||| b.toUInt32) 0

/-- An address of which `accept` has stored the first bytes only. -/
def Sockaddr.store (old new : Sockaddr) (len : Nat) : Sockaddr where
  bytes := new.bytes.take len ++ old.bytes.drop len
  size := by
    rw [List.length_append, List.length_take, List.length_drop, old.size, new.size]
    omega

/-- A connection that `main` accepts: the address of the client, the arrays of the thread before it starts, and what
the calls that the thread makes once are going to give: `pthread_detach`, `gethostbyname`, `socket`, `connect`, and
`localtime` of the current time. -/
structure Session where
  peer : Sockaddr
  scratch : Scratch
  detaches : Bool
  resolve : List UInt8 → Option UInt32
  socket : Bool
  connects : Bool
  now : List UInt8

/-- What a call of `write` is going to do: take at most one byte more than the given number, or fail. If it fails
because the connection is broken it raises SIGPIPE, which ends the process. -/
inductive Taking
  | upTo (more : Nat)
  | failed
  | broken
  deriving DecidableEq

/-- The same for a process that ignores SIGPIPE. -/
def Taking.accept : Taking → Accept
  | .upTo more => .upTo more
  | .failed | .broken => .failed

/-- A socket: what calls of `read` have given, what has arrived for the next ones, and whether the end of the file is
behind it; what calls of `write` have done, what is decided about the next ones, and the bytes written. -/
structure Stream where
  given : List (Option UInt8)
  unread : List (Option UInt8)
  closed : Bool
  taken : List Taking
  untaken : List Taking
  sent : List UInt8

/-- What the peer of a socket does: it sends bytes, or lets a call of `read` fail, it closes its side, or it decides
about calls of `write`. It may as well do nothing for ever. -/
inductive Peer
  | sends (events : List (Option UInt8))
  | closes
  | takes (outcomes : List Taking)

def Stream.peer (s : Stream) : Peer → Stream
  | .sends events => if s.closed then s else { s with unread := s.unread ++ events }
  | .closes => { s with closed := true }
  | .takes outcomes => { s with untaken := s.untaken ++ outcomes }

/-- A call of `read` for one byte. As long as nothing has arrived it does not return. -/
def Stream.call (s : Stream) : Option (Got × Stream) :=
  match s.unread with
  | [] => if s.closed then some (.eof, s) else none
  | none :: rest => some (.failed, { s with given := s.given ++ [none], unread := rest })
  | some b :: rest => some (.byte b, { s with given := s.given ++ [some b], unread := rest })

/-- How `writebuf` gets on: some bytes are left, it returns, or the process gets a signal. -/
inductive Round
  | more (left : List UInt8)
  | returns (done : Bool)
  | killed

/-- A call of `write` has had this outcome. -/
def Stream.takes (s : Stream) (taking : Taking) (rest : List Taking) : Stream :=
  { s with taken := s.taken ++ [taking], untaken := rest }

/-- A round of `writebuf` with the bytes that are left. A call of `write` does not return before its peer lets it. -/
def Stream.round (s : Stream) (left : List UInt8) : Option (Round × Stream) :=
  match left, s.untaken with
  | [], _ => some (.returns true, s)
  | _ :: _, [] => none
  | b :: data, .upTo more :: rest =>
    some (.more (data.drop more), { s.takes (.upTo more) rest with sent := s.sent ++ b :: data.take more })
  | _ :: _, .failed :: rest => some (.returns false, s.takes .failed rest)
  | _ :: _, .broken :: rest => some (.killed, s.takes .broken rest)

/-- The half of `process` in which a thread is, with `msg` and `sum` in the second one. -/
inductive Half
  | request
  | response (msg sum : Int)

/-- Where a header and a body are relayed. -/
structure Relay where
  half : Half
  parsed : Parsed
  newfd : Nat

def Relay.source (r : Relay) : Side :=
  match r.half with
  | .request => .client
  | .response _ _ => .server

def Relay.target (r : Relay) : Side :=
  match r.half with
  | .request => .server
  | .response _ _ => .client

/-- The calls of `readline`: for the request line, in `relay_header`, and for the status line. -/
inductive Line
  | request
  | header (r : Relay) (sum content : Int)
  | reply (parsed : Parsed) (newfd : Nat)

def Line.side : Line → Side
  | .request => .client
  | .header r _ _ => r.source
  | .reply _ _ => .server

def Line.newfd : Line → Option Nat
  | .request => none
  | .header r _ _ => some r.newfd
  | .reply _ newfd => some newfd

/-- The calls of `writebuf`: for a first line, in `relay_header`, for a full buffer, and at the end of
`relay_content`. -/
inductive Write
  | line (r : Relay)
  | header (r : Relay) (sum content : Int)
  | full (r : Relay) (content i : Int)
  | last (r : Relay) (i : Int)

def Write.relay : Write → Relay
  | .line r | .header r _ _ | .full r _ _ | .last r _ => r

/-- Where a thread is in `process`, with the local variables that are still used. A step is a call of the system, with
what the thread does on its own up to the next one. -/
inductive Stage
  | detach
  | readline (call : Line) (i : Nat)
  | writebuf (call : Write) (left : List UInt8)
  | relayContent (r : Relay) (content i : Int) (j : Nat)
  | lockSyscall (parsed : Parsed) (len : Nat)
  | resolve (parsed : Parsed) (len : Nat)
  | copy (parsed : Parsed) (len : Nat)
  | unlockSyscall (parsed : Parsed) (len : Nat) (address : Option UInt32)
  | socket (parsed : Parsed) (len : Nat) (address : UInt32)
  | connect (parsed : Parsed) (len : Nat) (address : UInt32) (newfd : Nat)
  | lockLogfile (parsed : Parsed) (newfd : Nat) (sum : Int)
  | localtime (parsed : Parsed) (newfd : Nat) (sum : Int)
  | format (parsed : Parsed) (newfd : Nat) (sum : Int)
  | print (parsed : Parsed) (newfd : Nat) (sum : Int)
  | append (parsed : Parsed) (newfd : Nat) (sum : Int)
  | unlockLogfile (newfd : Nat)
  | closeServer (newfd : Nat)
  | closeClient
  | done

/-- The end of the second half. -/
def relayed (parsed : Parsed) (newfd : Nat) (sum : Int) : Stage :=
  if sum ≠ 0 then .lockLogfile parsed newfd sum else .closeServer newfd

/-- Behind `relay_header`. -/
def Relay.afterHeader (r : Relay) (content : Int) : Except Fault Stage :=
  match r.half with
  | .request => do
    let post ← isPost r.parsed.method
    pure (if post ∧ content ≠ 0 then .relayContent r content 0 0 else .readline (.reply r.parsed r.newfd) 0)
  | .response msg sum => do
    let head ← isHead r.parsed.method
    pure (if head = false ∧ 2 ≤ msg.tdiv 100 ∧ msg ≠ 204 ∧ msg ≠ 304 then .relayContent r content 0 0
      else relayed r.parsed r.newfd sum)

/-- Behind `relay_content`. -/
def Relay.afterContent (r : Relay) (len : Int) : Stage :=
  match r.half with
  | .request => .readline (.reply r.parsed r.newfd) 0
  | .response _ sum => relayed r.parsed r.newfd (if 0 < len then (sum + len).bmod (2 ^ 32) else sum)

/-- Behind `readline`, with its result. -/
def Line.after (call : Line) (scratch : Scratch) (buf : List UInt8) (len : Int) : Except Fault Stage :=
  match call with
  | .request =>
    if 0 < len then do
      match ← parseRequest buf with
      | none => pure .closeClient
      | some target => pure (.lockSyscall (target.store scratch) len.toNat)
    else pure .closeClient
  | .header r sum content =>
    if len < 0 then r.afterHeader content
    else do
      let length ← headerLength buf
      let content := length.getD content
      if len = 0 then r.afterHeader content
      else pure (.writebuf (.header r (sum + len) content) (buf.take len.toNat))
  | .reply parsed newfd =>
    if 0 < len then do
      let msg ← parseResponse buf
      pure (.writebuf (.line ⟨.response msg len, parsed, newfd⟩) (buf.take len.toNat))
    else pure (relayed parsed newfd 0)

/-- Behind `writebuf`, which has written everything or not. -/
def Write.after (call : Write) (buf : List UInt8) (done : Bool) : Except Fault Stage :=
  match call with
  | .line r => pure (.readline (.header r 0 0) 0)
  | .header r sum content =>
    if done then do
      let last ← lastLine buf
      if last then r.afterHeader content else pure (.readline (.header r sum content) 0)
    else r.afterHeader content
  | .full r content i => pure (if done then .relayContent r content i 0 else r.afterContent (-1))
  | .last r i => pure (r.afterContent i)

/-- A thread, with its own copy of the address of its client. `dialled` and `log` are what it has asked `connect` and
`format_log_entry` for. -/
structure Worker where
  session : Session
  sockfd : Nat
  client : UInt32
  buf : List UInt8
  dialled : Option (List UInt8 × Nat)
  log : Option (List UInt8 × Int)
  stage : Stage

/-- What an open descriptor stands for: a file of `main`, or a socket of the thread with this number. -/
inductive File
  | main
  | socket (side : Side) (thread : Nat)
  deriving DecidableEq

/-- A `FILE` of stdio: what has got into the file, and what is still in its buffer. -/
structure Stdio where
  file : List UInt8
  pending : List UInt8

/-- All that has been printed. -/
def Stdio.printed (f : Stdio) : List UInt8 := f.file ++ f.pending

/-- `fprintf`, which passes some of the bytes in its buffer on. -/
def Stdio.print (f : Stdio) (text : List UInt8) (through : Nat) : Stdio :=
  ⟨f.file ++ (f.pending ++ text).take through, (f.pending ++ text).drop through⟩

/-- How a thread ends the process: by a crash, or by the signal of a call of `write`. -/
inductive Cause
  | fault
  | sigpipe
  deriving DecidableEq

/-- What the threads share: the variables `client` and `size` of `main`, the descriptors and the sockets behind them
with the addresses they are connected to, the mutexes with the threads that hold them, the static data of
`gethostbyname` and `localtime`, the standard output and the log, which is never flushed. `crashed` is the thread that
has ended the process. The broken-down time of `localtime` is the text that `strftime` makes of it. -/
structure Shared where
  accepted : Nat
  client : Sockaddr
  size : Int
  table : Nat → Option File
  streams : File → Stream
  remote : File → Option (UInt32 × Nat)
  syscall : Option Nat
  logfile : Option Nat
  hostent : Option UInt32
  tm : List UInt8
  stdout : Stdio
  log : Stdio
  crashed : Option (Nat × Cause)

def Shared.withStream (g : Shared) (file : File) (s : Stream) : Shared :=
  { g with streams := Function.update g.streams file s }

def Shared.openFile (g : Shared) (fd : Nat) (file : File) : Shared :=
  { g with table := Function.update g.table fd (some file) }

def Shared.close (g : Shared) (fd : Nat) : Shared := { g with table := Function.update g.table fd none }

/-- The file behind one of the two descriptors of a thread. -/
def Worker.file (w : Worker) (g : Shared) (newfd : Option Nat) : Side → Option File
  | .client => g.table w.sockfd
  | .server => newfd.bind g.table

def Worker.goto (w : Worker) (stage : Stage) : Worker := { w with stage := stage }

def Worker.withBuf (w : Worker) (buf : List UInt8) : Worker := { w with buf := buf }

/-- A round of the loop of `readline`: the buffer, and the result if the round is the last one. -/
def lineRound (buf : List UInt8) (i : Nat) : Got → List UInt8 × Option Int
  | .byte b => (buf.set i b, if b = 10 ∨ i + 1 = maxLine then some (i + 1 : Nat) else none)
  | .eof => (buf, some 0)
  | .failed => (buf, some (-1))

/-- What the thread does next, or its crash, which ends the process. -/
def Worker.go (w : Worker) (t : Nat) (g : Shared) : Except Fault Stage → Worker × Shared
  | .ok stage => (w.goto stage, g)
  | .error _ => (w, { g with crashed := some (t, .fault) })

/-- The next step of a thread. When it opens a socket, `fd` is the descriptor that it gets, and when it prints,
`through` is how much gets into the file. -/
def Worker.work (w : Worker) (t fd through : Nat) (g : Shared) : Option (Worker × Shared) :=
  match w.stage with
  | .detach => some (w.goto (if w.session.detaches then .readline .request 0 else .closeClient), g)
  | .readline call i => do
    let file ← w.file g call.newfd call.side
    let (got, s) ← (g.streams file).call
    let g := g.withStream file s
    let (buf, len) := lineRound w.buf i got
    let w := w.withBuf buf
    match len with
    | none => some (w.goto (.readline call (i + 1)), g)
    | some len => some (w.go t g (call.after w.session.scratch w.buf len))
  | .writebuf call left => do
    let file ← w.file g (some call.relay.newfd) call.relay.target
    let (round, s) ← (g.streams file).round left
    let g := g.withStream file s
    match round with
    | .more left => some (w.goto (.writebuf call left), g)
    | .returns done => some (w.go t g (call.after w.buf done))
    | .killed => some (w, { g with crashed := some (t, .sigpipe) })
  | .relayContent r content i j =>
    if content ≠ 0 ∧ i = content then some (w.goto (.writebuf (.last r i) (w.buf.take j)), g)
    else if j = maxLine then some (w.goto (.writebuf (.full r content i) (w.buf.take j)), g)
    else do
      let file ← w.file g (some r.newfd) r.source
      let (got, s) ← (g.streams file).call
      let g := g.withStream file s
      match got with
      | .byte b => some ((w.withBuf (w.buf.set j b)).goto (.relayContent r content ((i + 1).bmod (2 ^ 32)) (j + 1)), g)
      | .eof => some (w.goto (.writebuf (.last r i) (w.buf.take j)), g)
      | .failed => some (w.goto (r.afterContent (-1)), g)
  | .lockSyscall parsed len =>
    if g.syscall = none then some (w.goto (.resolve parsed len), { g with syscall := some t }) else none
  | .resolve parsed len =>
    let host := w.session.resolve (cstring parsed.hostname)
    some (w.goto (if host = none then .unlockSyscall parsed len none else .copy parsed len), { g with hostent := host })
  | .copy parsed len => g.hostent.map fun address => (w.goto (.unlockSyscall parsed len (some address)), g)
  | .unlockSyscall parsed len address =>
    some (w.goto (match address with | none => .closeClient | some address => .socket parsed len address),
      { g with syscall := none })
  | .socket parsed len address =>
    if w.session.socket = false then some (w.goto .closeClient, g)
    else if g.table fd = none then
      some (w.goto (.connect parsed len address fd), g.openFile fd (.socket .server t))
    else none
  | .connect parsed len address newfd => do
    let server ← g.table newfd
    let port := (parsed.port % 2 ^ 16).toNat
    if w.session.connects then
      some ({ w with
          dialled := some (cstring parsed.hostname, port)
          stage := .writebuf (.line ⟨.request, parsed, newfd⟩) (w.buf.take len) },
        { g with remote := Function.update g.remote server (some (address, port)) })
    else some (w.goto (.closeServer newfd), g)
  | .lockLogfile parsed newfd sum =>
    if g.logfile = none then some (w.goto (.localtime parsed newfd sum), { g with logfile := some t }) else none
  | .localtime parsed newfd sum => some (w.goto (.format parsed newfd sum), { g with tm := w.session.now })
  | .format parsed newfd sum =>
    let entry := formatLogEntry g.tm w.client (cstring parsed.uri) sum
    if entry.length + 1 ≤ maxLine then
      some ({ w with buf := overwrite w.buf (entry ++ [0]), stage := .print parsed newfd sum }, g)
    else some (w, { g with crashed := some (t, .fault) })
  | .print parsed newfd sum =>
    some (w.goto (.append parsed newfd sum), { g with stdout := g.stdout.print (cstring w.buf ++ [10]) through })
  | .append parsed newfd sum =>
    some ({ w with log := some (cstring parsed.uri, sum), stage := .unlockLogfile newfd },
      { g with log := g.log.print (cstring w.buf ++ [10]) through })
  | .unlockLogfile newfd => some (w.goto (.closeServer newfd), { g with logfile := none })
  | .closeServer newfd => some (w.goto .closeClient, g.close newfd)
  | .closeClient => some (w.goto .done, g.close w.sockfd)
  | .done => none

/-- The steps of the system. `main` accepts a connection, for which it gets the descriptor `fd`, and tries to
create a thread; when this fails the descriptor stays open. A thread makes its next step. A peer of a thread does
something. -/
inductive Act
  | accept (fd : Nat) (session : Session) (created : Bool)
  | work (fd through : Nat)
  | peer (side : Side) (event : Peer)

/-- The new thread, with its own copy of what `main` has in `client`. -/
def Session.worker (session : Session) (fd : Nat) (client : Sockaddr) : Worker where
  session := session
  sockfd := fd
  client := client.sinAddr
  buf := session.scratch.buf.bytes
  dialled := none
  log := none
  stage := .detach

/-- A socket before its peer has done anything. -/
def Stream.fresh : Stream := ⟨[], [], false, [], [], []⟩

/-- A connection is accepted: its socket, and the one that its thread may open later. Only `size` bytes of the address
are stored, and then `size` is that of the address. -/
def Shared.accept (g : Shared) (t fd : Nat) (peer : Sockaddr) : Shared :=
  { g.openFile fd (.socket .client t) with
    accepted := g.accepted + 1
    client := g.client.store peer g.size.toNat
    size := 16
    streams := fun file => match file with
      | .main => g.streams .main
      | .socket _ u => if u = t then .fresh else g.streams file }

/-- A peer of a thread does something. -/
def Shared.peer (g : Shared) (t : Nat) (side : Side) (event : Peer) : Shared :=
  g.withStream (.socket side t) ((g.streams (.socket side t)).peer event)

/-- The threads are numbered as their connections are. With a negative `size` every call of `accept` fails. -/
def act : Action Nat Act (Option Worker) Shared := fun t a own g =>
  if g.crashed = none then
    match a, own with
    | .accept fd session created, none =>
      if t = g.accepted ∧ g.table fd = none ∧ 0 ≤ g.size then
        let next := g.accept t fd session.peer
        some (if created then some (session.worker fd next.client) else none, next)
      else none
    | .work fd through, some w => (w.work t fd through g).map fun next => (some next.1, next.2)
    | .peer side event, own => if t < g.accepted then some (own, g.peer t side event) else none
    | _, _ => none
  else none

/-- The process. -/
abbrev Process := Threads Nat (Option Worker) Shared

def Process.step : Process → Nat × Act → Option Process := Threads.step act

/-- The process before the loop of `main`, with the descriptors that are open, and with what the variables `client`
and `size` happen to hold. -/
def Process.start (opened : Finset Nat) (client : Sockaddr) (size : Int) : Process where
  own _ := none
  shared :=
    { accepted := 0
      client := client
      size := size
      table := fun fd => if fd ∈ opened then some .main else none
      streams := fun _ => .fresh
      remote := fun _ => none
      syscall := none
      logfile := none
      hostent := none
      tm := []
      stdout := ⟨[], []⟩
      log := ⟨[], []⟩
      crashed := none }

/-- A client at 127.0.0.1, in a network with two hosts. -/
def visitor : Session where
  peer := ⟨[2, 0, 0, 80, 127, 0, 0, 1, 0, 0, 0, 0, 0, 0, 0, 0], rfl⟩
  scratch := .fill 0
  detaches := true
  resolve name := if name = ascii "a" then some 7 else if name = ascii "b" then some 8 else none
  socket := true
  connects := true
  now := epoch

/-- The peers of a thread: a request, and an answer with a body that ends with the connection. -/
def peerActs (t : Nat) (request answer : List UInt8) : List (Nat × Act) :=
  [(t, .peer .client (.sends (request.map some))), (t, .peer .server (.takes (List.replicate 4 (.upTo maxLine)))),
    (t, .peer .server (.sends (answer.map some))), (t, .peer .server .closes),
    (t, .peer .client (.takes (List.replicate 3 (.upTo maxLine))))]

/-- Two connections whose threads take turns until the first one has ended. -/
def twoActs : List (Nat × Act) :=
  [(0, .accept 3 visitor true), (1, .accept 4 visitor true)] ++
    peerActs 0 (ascii "GET http://a \n\r\n") (ascii "H 200\n\r\nX") ++
    peerActs 1 (ascii "POST http://b:81 \nContent-Length: 1\r\n\r\nY") (ascii "H 200\n\r\nZZ") ++
    (List.replicate 51 [(0, .work 5 0), (1, .work 6 100)]).flatten ++ List.replicate 30 (1, .work 6 100)

/-- The process of these connections, with zero bytes in `client` and `size`. -/
def twoStart : Process := .start {0, 1, 2} ⟨List.replicate 16 0, rfl⟩ 0

theorem twoActs_run : (exec Process.step twoStart twoActs).isSome = true := by decide +kernel

def twoEnd : Process := (exec Process.step twoStart twoActs).get twoActs_run

theorem two_run : exec Process.step twoStart twoActs = some twoEnd := (Option.some_get _).symm

theorem twoEnd_started : (twoEnd.own 0).isSome = true ∧ (twoEnd.own 1).isSome = true := by decide +kernel

def firstWorker : Worker := (twoEnd.own 0).get twoEnd_started.1

def secondWorker : Worker := (twoEnd.own 1).get twoEnd_started.2

theorem first_own : twoEnd.own 0 = some firstWorker := (Option.some_get _).symm

theorem second_own : twoEnd.own 1 = some secondWorker := (Option.some_get _).symm

end Splab.Proxy
