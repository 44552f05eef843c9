import Splab.Proxy.Transfers

namespace Splab.Proxy

/-- What the peers of a thread do: what its calls of `read` and those of `write` give. -/
structure Peers where
  input : Side → List (Option UInt8)
  takes : Side → List Taking

def Peers.nothing : Peers := ⟨fun _ => [], fun _ => []⟩

/-- What the peers of a thread have done so far, and what they may do later. -/
def Shared.peers (g : Shared) (t : Nat) (later : Peers) : Peers where
  input side := (g.streams (.socket side t)).given ++ ((g.streams (.socket side t)).unread ++ later.input side)
  takes side := (g.streams (.socket side t)).taken ++ ((g.streams (.socket side t)).untaken ++ later.takes side)

/-- Nothing comes behind the end of a file. -/
def Shared.Allows (g : Shared) (t : Nat) (later : Peers) : Prop :=
  ∀ side, (g.streams (.socket side t)).closed = true → later.input side = []

/-- The connection of a thread with these peers, as its own sockets and its arrays have it. -/
def Shared.conn (g : Shared) (t : Nat) (w : Worker) (later : Peers) : Conn where
  input side := (g.streams (.socket side t)).unread ++ later.input side
  output side := ⟨(g.streams (.socket side t)).sent,
    ((g.streams (.socket side t)).untaken ++ later.takes side).map Taking.accept⟩
  buf := w.buf
  dialled := w.dialled
  log := w.log

section Alone
variable (v : Session) (p : Peers)

def Session.start : Conn := Net.start ⟨p.input, fun side => (p.takes side).map Taking.accept, v.connects⟩ v.scratch

/-- The request line of a connection, as its thread reads and stores it. -/
def Session.request : Option Parsed :=
  match receiveRequest v.scratch (v.start p) with
  | .ok (some (parsed, _)) _ => some parsed
  | _ => none

/-- The address that the request line of a connection asks for. -/
def Session.target : Option (UInt32 × Nat) :=
  (v.request p).bind fun parsed =>
    (v.resolve (cstring parsed.hostname)).map fun address => (address, (parsed.port % 2 ^ 16).toNat)

/-- Whether `open_serverfd` gives a descriptor for this connection. -/
def Session.reaches : Bool := (v.target p).isSome && v.socket && v.connects

/-- What the thread would do if it were the only one, in a process that ignores SIGPIPE. -/
def Session.run : EStateM.Result Fault Conn Unit :=
  if v.detaches then process v.scratch (v.reaches p) (v.start p) else .ok () (v.start p)

/-- How the connection would end then. -/
def Session.alone : Conn := finalState (v.run p)

end Alone

/-- How `writebuf` goes on behind a round when SIGPIPE is ignored. -/
def Round.goes (side : Side) (s : Conn) : Round → EStateM.Result Fault Conn Bool
  | .more rest => sendLeft side rest s
  | .returns done => .ok done s
  | .killed => .ok false s

/-- How far a thread has come in what it would do alone. -/
def Stage.At (stage : Stage) (v : Session) (p : Peers) (s : Conn) : Prop :=
  match stage with
  | .detach => s = v.start p
  | .readline .request i => v.detaches = true ∧
    (readlineLoop .client (maxLine - i) i >>= received v.scratch) s = receiveRequest v.scratch (v.start p)
  | .lockSyscall parsed len | .resolve parsed len | .copy parsed len | .unlockSyscall parsed len _
  | .socket parsed len _ =>
    v.detaches = true ∧ receiveRequest v.scratch (v.start p) = .ok (some (parsed, len)) s
  | .connect parsed len _ _ =>
    v.detaches = true ∧ receiveRequest v.scratch (v.start p) = .ok (some (parsed, len)) s ∧ v.socket = true
  | .readline _ _ | .writebuf _ _ | .relayContent .. =>
    v.detaches = true ∧ v.reaches p = true ∧ stage.rest s = v.run p
  | .lockLogfile parsed _ sum | .localtime parsed _ sum | .format parsed _ sum | .print parsed _ sum
  | .append parsed _ sum => v.detaches = true ∧ v.reaches p = true ∧
    ∃ buf, v.run p = .ok () { s.withBuf buf with log := some (cstring parsed.uri, sum) }
  | .unlockLogfile _ | .closeServer _ | .closeClient | .done => ∃ buf, v.run p = .ok () (s.withBuf buf)

/-- The thread would crash alone too: in the transfer, or because its log entry is too long for `buf`. -/
def Worker.Crashes (w : Worker) (p : Peers) : Prop :=
  (∃ fault s, w.session.run p = .error fault s) ∨ ∃ uri size,
    (w.session.alone p).log = some (uri, size) ∧ maxLine < (formatLogEntry w.session.now w.client uri size).length + 1

/-- The thread has come as far as it would get alone, and there it crashes; the entry may be missing in the log. -/
structure Worker.Faults (w : Worker) (p : Peers) (s : Conn) : Prop where
  cut : ∃ buf log, w.session.alone p = { s.withBuf buf with log := log }
  crashes : w.Crashes p

/-- The last call of `write` has found a broken connection, and alone the thread would make this call as well. -/
def Worker.Breaks (w : Worker) (t : Nat) (g : Shared) (later : Peers) : Prop :=
  (g.conn t w later).Onward (w.session.alone (g.peers t later)) ∧
    ∃ side made, (g.streams (.socket side t)).taken = made ++ [.broken]

/-- A thread does on its own sockets what it would do alone, also when it crashes. -/
structure Worker.Follows (w : Worker) (t : Nat) (g : Shared) (later : Peers) : Prop where
  runs : (∀ cause, g.crashed ≠ some (t, cause)) → w.stage.At w.session (g.peers t later) (g.conn t w later)
  faults : g.crashed = some (t, .fault) → w.Faults (g.peers t later) (g.conn t w later)
  breaks : g.crashed = some (t, .sigpipe) → w.Breaks t g later
  unended : ∀ cause, g.crashed = some (t, cause) → w.stage ≠ .done

def Follows (t : Nat) (own : Option Worker) (g : Shared) : Prop :=
  ∀ w ∈ own, ∀ later, g.Allows t later → w.Follows t g later

/-- The array of a thread keeps its size, and the thread stays inside of it. -/
def Sized (_ : Nat) (own : Option Worker) (_ : Shared) : Prop :=
  ∀ w ∈ own, w.buf.length = maxLine ∧ w.stage.Inside

section Sockets
variable {w w' : Worker} {t u fd through : Nat} {g g' : Shared} {own own' : Option Worker} {a : Act} {s : Stream}
  {side : Side} {stage : Stage} {later : Peers} {file : File} {got : Got}

@[simp]
theorem streams_self : (g.withStream file s).streams file = s := Function.update_self ..

theorem streams_of_ne {file' : File} (ne : file' ≠ file) : (g.withStream file s).streams file' = g.streams file' :=
  Function.update_of_ne ne _ _

/-- The files of a thread are its own sockets. -/
theorem Owns.behind (owns : Owns t (some w) g) (here : w.stage = stage) (running : stage.ended = false)
    (atFile : w.file g stage.newfd side = some file) : file = .socket side t := by
  subst here
  cases side with
  | client => exact Option.some.inj (atFile.symm.trans (owns.sockfd running))
  | server =>
    obtain ⟨fd, newfd, atFile⟩ := Option.bind_eq_some_iff.mp atFile
    exact Option.some.inj (atFile.symm.trans (owns.newfd newfd))

theorem withStream_self : g.withStream file (g.streams file) = g := by
  rw [Shared.withStream, Function.update_eq_self]

/-- Only what is left to read has changed. -/
theorem conn_withInput (sent : s.sent = (g.streams (.socket side t)).sent)
    (untaken : s.untaken = (g.streams (.socket side t)).untaken) :
    (g.withStream (.socket side t) s).conn t w later =
      (g.conn t w later).withInput side (s.unread ++ later.input side) := by
  unfold Shared.conn Conn.withInput
  congr 1 <;> funext side'
  · by_cases same : side' = side
    · subst same
      simp
    · simp [same, streams_of_ne]
  · by_cases same : side' = side
    · subst same
      rw [streams_self, sent, untaken]
    · rw [streams_of_ne (by simp [same])]

/-- Only what is written has changed. -/
theorem conn_withOutput (unread : s.unread = (g.streams (.socket side t)).unread) :
    (g.withStream (.socket side t) s).conn t w later = (g.conn t w later).withOutput side
      ⟨s.sent, (s.untaken ++ later.takes side).map Taking.accept⟩ := by
  unfold Shared.conn Conn.withOutput
  congr 1 <;> funext side'
  · by_cases same : side' = side
    · subst same
      rw [streams_self, unread]
    · rw [streams_of_ne (by simp [same])]
  · by_cases same : side' = side
    · subst same
      simp
    · simp [same, streams_of_ne]

theorem peers_withStream
    (input : s.given ++ s.unread = (g.streams (.socket side t)).given ++ (g.streams (.socket side t)).unread)
    (takes : s.taken ++ s.untaken = (g.streams (.socket side t)).taken ++ (g.streams (.socket side t)).untaken) :
    (g.withStream (.socket side t) s).peers t later = g.peers t later := by
  simp only [Shared.peers, ← List.append_assoc]
  congr 1 <;> funext side'
  · by_cases same : side' = side
    · subst same
      rw [streams_self, input]
    · rw [streams_of_ne (by simp [same])]
  · by_cases same : side' = side
    · subst same
      rw [streams_self, takes]
    · rw [streams_of_ne (by simp [same])]

/-- A call of `read` gives what it would give alone. -/
theorem call_alone (reads : (g.streams (.socket side t)).call = some (got, s)) (allows : g.Allows t later) :
    (g.conn t w later).reads side = (got, (g.withStream (.socket side t) s).conn t w later) ∧
      (g.withStream (.socket side t) s).peers t later = g.peers t later := by
  have ended := allows side
  unfold Stream.call at reads
  unfold Conn.reads
  split at reads
  · next none =>
    obtain ⟨closed, made⟩ := Option.ite_none_right_eq_some.mp reads
    cases made
    have input : (g.conn t w later).input side = [] := by simp [Shared.conn, none, ended closed]
    simp only [input, withStream_self, and_self]
  · next rest unread =>
    obtain ⟨rfl, made⟩ := Prod.mk.inj (Option.some.inj reads)
    have input : (g.conn t w later).input side = none :: (rest ++ later.input side) := by simp [Shared.conn, unread]
    have same : (g.withStream (.socket side t) s).conn t w later = _ := conn_withInput (made ▸ rfl) (made ▸ rfl)
    rw [same, input]
    exact ⟨made ▸ rfl, peers_withStream (by simp [← made, unread]) (made ▸ rfl)⟩
  · next b rest unread =>
    obtain ⟨rfl, made⟩ := Prod.mk.inj (Option.some.inj reads)
    have input : (g.conn t w later).input side = some b :: (rest ++ later.input side) := by
      simp [Shared.conn, unread]
    have same : (g.withStream (.socket side t) s).conn t w later = _ := conn_withInput (made ▸ rfl) (made ▸ rfl)
    rw [same, input]
    exact ⟨made ▸ rfl, peers_withStream (by simp [← made, unread]) (made ▸ rfl)⟩

/-- A call of `write` has been made. -/
theorem conn_takes {taking : Taking} {rest : List Taking}
    (untaken : (g.streams (.socket side t)).untaken = taking :: rest) (taken : s.untaken = rest)
    (unread : s.unread = (g.streams (.socket side t)).unread) :
    ((g.conn t w later).output side).writes = taking.accept :: (rest ++ later.takes side).map Taking.accept ∧
      (g.withStream (.socket side t) s).conn t w later = (g.conn t w later).withOutput side
        ⟨s.sent, (rest ++ later.takes side).map Taking.accept⟩ := by
  refine ⟨by simp [Shared.conn, untaken], ?_⟩
  rw [conn_withOutput unread, taken]

/-- And so does a call of `write`, except that the signal of a broken connection is ignored. -/
theorem round_alone {round : Round} {left : List UInt8}
    (writes : (g.streams (.socket side t)).round left = some (round, s)) :
    (g.withStream (.socket side t) s).peers t later = g.peers t later ∧
      sendLeft side left (g.conn t w later) = round.goes side ((g.withStream (.socket side t) s).conn t w later) := by
  unfold Stream.round at writes
  split at writes
  · cases writes
    rw [withStream_self]
    exact ⟨rfl, sendLeft_nil⟩
  · cases writes
  · next untaken =>
    obtain ⟨rfl, made⟩ := Prod.mk.inj (Option.some.inj writes)
    have same := @conn_takes w t g s side later _ _ untaken (made ▸ rfl) (made ▸ rfl)
    rw [same.2]
    refine ⟨peers_withStream (made ▸ rfl) (by simp [← made, untaken, Stream.takes]), (sendLeft_more same.1).trans ?_⟩
    rw [← made]
    rfl
  · next untaken =>
    obtain ⟨rfl, made⟩ := Prod.mk.inj (Option.some.inj writes)
    have same := @conn_takes w t g s side later _ _ untaken (made ▸ rfl) (made ▸ rfl)
    rw [same.2]
    refine ⟨peers_withStream (made ▸ rfl) (by simp [← made, untaken, Stream.takes]), (sendLeft_fails same.1).trans ?_⟩
    rw [← made]
    rfl
  · next untaken =>
    obtain ⟨rfl, made⟩ := Prod.mk.inj (Option.some.inj writes)
    have same := @conn_takes w t g s side later _ _ untaken (made ▸ rfl) (made ▸ rfl)
    rw [same.2]
    refine ⟨peers_withStream (made ▸ rfl) (by simp [← made, untaken, Stream.takes]), (sendLeft_fails same.1).trans ?_⟩
    rw [← made]
    rfl

theorem round_killed {stream : Stream} {left : List UInt8} (killed : stream.round left = some (.killed, s)) :
    s.taken = stream.taken ++ [.broken] := by
  unfold Stream.round at killed
  split at killed <;> cases killed
  rfl

end Sockets

section Steps
variable {w w' : Worker} {t u fd through : Nat} {g g' : Shared} {own own' other : Option Worker} {a : Act} {s : Conn}
  {side : Side} {stage next : Stage} {later p : Peers} {v : Session} {newfd : Option Nat}

/-- A thread that has just left a call is as far as what is left to do. -/
theorem Stage.Begins.at (begins : next.Begins newfd) (opened : newfd ≠ none) (detaches : v.detaches = true)
    (reaches : v.reaches p = true) (rest : next.rest s = v.run p) : next.At v p s := by
  cases begins with
  | readline call =>
    cases call with
    | request => exact absurd rfl opened
    | header => exact ⟨detaches, reaches, rest⟩
    | reply => exact ⟨detaches, reaches, rest⟩
  | writebuf | relayContent => exact ⟨detaches, reaches, rest⟩
  | lockSyscall | closeClient => exact absurd rfl opened
  | lockLogfile parsed newfd sum => exact ⟨detaches, reaches, s.buf, rest.symm⟩
  | closeServer => exact ⟨s.buf, rest.symm⟩

theorem Line.at_after {call : Line} {scratch : Scratch} {len : Int} (rest : call.rest len s = v.run p)
    (after : call.after scratch s.buf len = .ok next) (opened : call.newfd ≠ none) (detaches : v.detaches = true)
    (reaches : v.reaches p = true) : next.At v p s := by
  have behind : call ≠ .request := by
    rintro rfl
    exact opened rfl
  exact (Line.begins after).at opened detaches reaches ((Line.rest_ok behind after).symm.trans rest)

theorem run_reaches (detaches : v.detaches = true) (reaches : v.reaches p = true) :
    v.run p = process v.scratch true (v.start p) := by
  rw [Session.run, if_pos detaches, reaches]

theorem target_of_receive {parsed : Parsed} {len : Nat} {address : Option UInt32}
    (received : receiveRequest v.scratch (v.start p) = .ok (some (parsed, len)) s)
    (resolved : v.resolve (cstring parsed.hostname) = address) :
    v.target p = address.map fun address => (address, (parsed.port % 2 ^ 16).toNat) := by
  rw [Session.target, Session.request, received]
  simp only [Option.bind_some, resolved]

/-- If `open_serverfd` fails, the exchange is over. -/
theorem run_unreached {parsed : Parsed} {len : Nat} (detaches : v.detaches = true)
    (received : receiveRequest v.scratch (v.start p) = .ok (some (parsed, len)) s) (fails : v.reaches p = false) :
    v.run p = .ok () (s.withBuf s.buf) := by
  have undialled : s.dialled = none := receiveRequest_dialled v.scratch.buf.size.ge received
  rw [Session.run, if_pos detaches, fails, process_unreached received]
  change EStateM.Result.ok () { s with dialled := none } = .ok () s
  rw [← undialled]

theorem call_closed {stream stream' : Stream} {got : Got} (reads : stream.call = some (got, stream')) :
    stream'.closed = stream.closed := by
  unfold Stream.call at reads
  split at reads
  · cases (Option.ite_none_right_eq_some.mp reads).2
    rfl
  · cases reads
    rfl
  · cases reads
    rfl

theorem round_closed {stream stream' : Stream} {round : Round} {left : List UInt8}
    (writes : stream.round left = some (round, stream')) : stream'.closed = stream.closed := by
  unfold Stream.round at writes
  split at writes <;> cases writes <;> rfl

/-- A thread does not close the side of its peers. -/
theorem Worker.Moves.closed (moves : w.Moves t fd through g w' g') (file : File) :
    (g'.streams file).closed = (g.streams file).closed := by
  have same : ∀ {file' stream}, stream.closed = (g.streams file').closed →
      ((g.withStream file' stream).streams file).closed = (g.streams file).closed := by
    intro file' stream kept
    by_cases here : file = file'
    · subst here
      rw [streams_self, kept]
    · rw [streams_of_ne here]
  cases moves with
  | read _ _ reads => exact same (call_closed reads)
  | line _ _ reads => exact same (call_closed reads)
  | lineCrash _ _ reads => exact same (call_closed reads)
  | byte _ _ _ _ reads => exact same (call_closed reads)
  | eof _ _ _ _ reads => exact same (call_closed reads)
  | failed _ _ _ _ reads => exact same (call_closed reads)
  | write _ _ writes => exact same (round_closed writes)
  | written _ _ writes => exact same (round_closed writes)
  | writeCrash _ _ writes => exact same (round_closed writes)
  | killed _ _ writes => exact same (round_closed writes)
  | _ => rfl

/-- A step of a thread does not change what its peers do. -/
theorem Worker.Moves.peers (moves : w.Moves t fd through g w' g') (owns : Owns t (some w) g)
    (allows : g.Allows t later) : g'.peers t later = g.peers t later := by
  cases moves with
  | @read call i file got stream buf stage atFile reads =>
    cases owns.behind stage rfl atFile
    exact (@call_alone w _ _ _ _ _ _ reads allows).2
  | @line call i file got stream buf len next stage atFile reads =>
    cases owns.behind stage rfl atFile
    exact (@call_alone w _ _ _ _ _ _ reads allows).2
  | @lineCrash call i file got stream buf len fault stage atFile reads =>
    cases owns.behind stage rfl atFile
    exact (@call_alone w _ _ _ _ _ _ reads allows).2
  | byte stage _ _ atFile reads | eof stage _ _ atFile reads | failed stage _ _ atFile reads =>
    cases owns.behind stage rfl atFile
    exact (@call_alone w _ _ _ _ _ _ reads allows).2
  | write stage atFile writes | written stage atFile writes | writeCrash stage atFile writes
  | killed stage atFile writes =>
    cases owns.behind stage rfl atFile
    exact (@round_alone w _ _ _ _ later _ _ writes).1
  | _ => rfl

/-- A step of a thread takes it further in what it would do alone. -/
theorem Worker.Moves.at (moves : w.Moves t fd through g w' g') (owns : Owns t (some w) g)
    (asked : w.stage.Asked w.session g) (size : w.buf.length = maxLine) (inside : w.stage.Inside)
    (allows : g.Allows t later) (here : w.stage.At w.session (g.peers t later) (g.conn t w later))
    (runs : g'.crashed = none) : w'.stage.At w'.session (g'.peers t later) (g'.conn t w' later) := by
  cases moves with
  | detach stage detaches =>
    rw [stage] at here
    exact ⟨detaches, congrArg (receiveRequest w.session.scratch) here⟩
  | noDetach stage fails =>
    rw [stage] at here
    refine ⟨w.buf, (if_neg (Bool.eq_false_iff.mp fails)).trans (congrArg (EStateM.Result.ok ()) ?_)⟩
    exact here.symm
  | @read call i file got stream buf stage atFile reads round =>
    rw [stage] at here inside
    cases owns.behind stage rfl atFile
    obtain ⟨alone, peers⟩ := @call_alone w _ _ _ _ _ _ reads allows
    change (Stage.readline call (i + 1)).At w.session _ _
    rw [peers]
    cases call with
    | request => exact ⟨here.1, (readline_more inside size alone round).symm.trans here.2⟩
    | header => exact ⟨here.1, here.2.1, (readline_more inside size alone round).symm.trans here.2.2⟩
    | reply => exact ⟨here.1, here.2.1, (readline_more inside size alone round).symm.trans here.2.2⟩
  | @line call i file got stream buf len next stage atFile reads round after =>
    rw [stage] at here inside
    cases owns.behind stage rfl atFile
    obtain ⟨alone, peers⟩ := @call_alone w _ _ _ _ _ _ reads allows
    change next.At w.session _ _
    rw [peers]
    cases call with
    | request =>
      have last := (readline_last inside size alone round).symm.trans here.2
      rcases received_ok (s := (Shared.conn _ t w later).withBuf buf) after with
        ⟨parsed, len, rfl, received⟩ | ⟨rfl, received⟩
      · exact ⟨here.1, last.symm.trans received⟩
      · exact ⟨buf, (if_pos here.1).trans (process_refused (last.symm.trans received))⟩
    | header | reply =>
      have last := (readline_last inside size alone round).symm.trans here.2.2
      exact Line.at_after last after (Option.some_ne_none _) here.1 here.2.1
  | @write call left rest file stream stage atFile writes =>
    rw [stage] at here
    cases owns.behind stage rfl atFile
    obtain ⟨peers, alone⟩ := @round_alone w _ _ _ _ later _ _ writes
    change (Stage.writebuf call rest).At w.session _ _
    rw [peers]
    refine ⟨here.1, here.2.1, Eq.trans ?_ here.2.2⟩
    change (sendLeft _ rest >>= call.rest) _ = (sendLeft _ left >>= call.rest) _
    rw [bind_run, bind_run, alone]
    rfl
  | @written call left file done stream next stage atFile writes after =>
    rw [stage] at here
    cases owns.behind stage rfl atFile
    obtain ⟨peers, alone⟩ := @round_alone w _ _ _ _ later _ _ writes
    change next.At w.session _ _
    rw [peers]
    refine (Write.begins after).at nofun here.1 here.2.1 (Eq.trans ?_ here.2.2)
    change _ = (sendLeft _ left >>= call.rest) _
    rw [bind_run, alone]
    exact (Write.rest_ok size after).symm
  | whole stage stops =>
    rw [stage] at here
    exact ⟨here.1, here.2.1, (rest_whole stops).symm.trans here.2.2⟩
  | full stage goes =>
    rw [stage] at here
    exact ⟨here.1, here.2.1, (rest_full goes).symm.trans here.2.2⟩
  | @byte r content i j file b stream stage goes short atFile reads =>
    rw [stage] at here inside
    cases owns.behind stage rfl atFile
    obtain ⟨alone, peers⟩ := @call_alone w _ _ _ _ _ _ reads allows
    have room : j < w.buf.length := size ▸ lt_of_le_of_ne inside short
    change (Stage.relayContent r content _ (j + 1)).At w.session _ _
    rw [peers]
    exact ⟨here.1, here.2.1, (rest_byte goes room short alone).symm.trans here.2.2⟩
  | @eof r content i j file stream stage goes short atFile reads =>
    rw [stage] at here inside
    cases owns.behind stage rfl atFile
    obtain ⟨alone, peers⟩ := @call_alone w _ _ _ _ _ _ reads allows
    have room : j < w.buf.length := size ▸ lt_of_le_of_ne inside short
    change (Stage.writebuf (.last r i) (w.buf.take j)).At w.session _ _
    rw [peers]
    exact ⟨here.1, here.2.1, (rest_eof goes room short alone).symm.trans here.2.2⟩
  | @failed r content i j file stream stage goes short atFile reads =>
    rw [stage] at here inside
    cases owns.behind stage rfl atFile
    obtain ⟨alone, peers⟩ := @call_alone w _ _ _ _ _ _ reads allows
    have room : j < w.buf.length := size ▸ lt_of_le_of_ne inside short
    change (r.afterContent (-1)).At w.session _ _
    rw [peers]
    exact Relay.begins_content.at nofun here.1 here.2.1 ((rest_failed goes room short alone).symm.trans here.2.2)
  | lockSyscall stage | resolve stage | resolveFails stage | copy stage | unlockSyscall stage =>
    rw [stage] at here
    exact here
  | socket stage opens =>
    rw [stage] at here
    exact ⟨here.1, here.2, opens⟩
  | noHost stage =>
    rw [stage] at here asked
    have fails : w.session.reaches (g.peers t later) = false := by
      rw [Session.reaches, target_of_receive here.2 asked]
      rfl
    exact ⟨_, run_unreached here.1 here.2 fails⟩
  | socketFails stage fails =>
    rw [stage] at here
    have fails : w.session.reaches (g.peers t later) = false := by
      rw [Session.reaches, fails, Bool.and_false, Bool.false_and]
    exact ⟨_, run_unreached here.1 here.2 fails⟩
  | connectFails stage fails =>
    rw [stage] at here
    have fails : w.session.reaches (g.peers t later) = false := by
      rw [Session.reaches, fails, Bool.and_false]
    exact ⟨_, run_unreached here.1 here.2.1 fails⟩
  | @connect parsed len newfd address server stage atFile connects =>
    rw [stage] at here asked
    have reaches : w.session.reaches (g.peers t later) = true := by
      rw [Session.reaches, target_of_receive here.2.1 asked, here.2.2, connects]
      rfl
    refine ⟨here.1, reaches, ?_⟩
    exact (process_reached here.2.1).symm.trans (run_reaches here.1 reaches).symm
  | lockLogfile stage | localtime stage =>
    rw [stage] at here
    exact here
  | format stage =>
    rw [stage] at here
    exact here
  | print stage =>
    rw [stage] at here
    exact here
  | append stage =>
    rw [stage] at here
    obtain ⟨-, -, buf, run⟩ := here
    exact ⟨buf, run⟩
  | unlockLogfile stage | closeServer stage | closeClient stage =>
    rw [stage] at here
    exact here
  | lineCrash | writeCrash | killed | formatCrash => cases runs

/-- A thread has not read or written more than it would alone. -/
theorem Stage.At.onward (here : stage.At v p s) : s.Onward (v.alone p) := by
  have behind : v.detaches = true → (finalState (receiveRequest v.scratch (v.start p))).Onward (v.alone p) := by
    intro detaches
    rw [Session.alone, Session.run, if_pos detaches]
    exact onward_process _
  have transfer : v.detaches = true ∧ v.reaches p = true ∧ stage.rest s = v.run p → s.Onward (v.alone p) := by
    intro here
    rw [Session.alone, ← here.2.2]
    exact stage.onward.final s
  have same : ∀ {buf log}, v.run p = .ok () { s.withBuf buf with log := log } → s.Onward (v.alone p) := by
    intro buf log run
    rw [Session.alone, run]
    exact ⟨fun _ => List.suffix_rfl, fun _ => List.prefix_rfl, fun _ => List.suffix_rfl⟩
  cases stage with
  | detach =>
    rw [show s = v.start p from here]
    by_cases detaches : v.detaches = true
    · exact (onward_receiving.final _).trans (behind detaches)
    · rw [Session.alone, Session.run, if_neg detaches]
      exact .refl
  | readline call i =>
    cases call with
    | request =>
      have last := (@onward_receiving v.scratch (maxLine - i) i).final s
      rw [here.2] at last
      exact last.trans (behind here.1)
    | header | reply => exact transfer here
  | writebuf | relayContent => exact transfer here
  | lockSyscall | resolve | copy | unlockSyscall | socket =>
    have last := behind here.1
    rw [here.2] at last
    exact last
  | connect =>
    have last := behind here.1
    rw [here.2.1] at last
    exact last
  | lockLogfile | localtime | format | print | append =>
    obtain ⟨-, -, buf, run⟩ := here
    exact same run
  | unlockLogfile | closeServer | closeClient | done =>
    obtain ⟨buf, run⟩ := here
    rw [Session.alone, run]
    exact ⟨fun _ => List.suffix_rfl, fun _ => List.prefix_rfl, fun _ => List.suffix_rfl⟩

/-- A crash in the transfer would happen alone too. -/
theorem Worker.faults_of_run (buf : List UInt8) {fault : Fault}
    (crash : w.session.run p = .error fault (s.withBuf buf)) : w.Faults p s :=
  ⟨⟨buf, s.log, congrArg finalState crash⟩, .inl ⟨_, _, crash⟩⟩

theorem Worker.Moves.faults (moves : w.Moves t fd through g w' g') (owns : Owns t (some w) g)
    (asked : w.stage.Asked w.session g) (size : w.buf.length = maxLine) (inside : w.stage.Inside)
    (allows : g.Allows t later) (here : w.stage.At w.session (g.peers t later) (g.conn t w later))
    (runs : g.crashed = none) (crashed : g'.crashed = some (t, .fault)) :
    w'.Faults (g'.peers t later) (g'.conn t w' later) := by
  cases moves with
  | @lineCrash call i file got stream buf len fault stage atFile reads round after =>
    rw [stage] at here inside
    cases owns.behind stage rfl atFile
    obtain ⟨alone, peers⟩ := @call_alone w _ _ _ _ _ _ reads allows
    change Worker.Faults _ (Shared.peers (g.withStream _ _) t later) (Shared.conn (g.withStream _ _) t _ later)
    rw [peers]
    cases call with
    | request =>
      have last := (readline_last inside size alone round).symm.trans here.2
      exact Worker.faults_of_run buf ((if_pos here.1).trans (process_crash (last.symm.trans (received_error after))))
    | header | reply =>
      have last := (readline_last inside size alone round).symm.trans here.2.2
      exact Worker.faults_of_run buf (last.symm.trans (Line.rest_error (fun same => by cases same) after))
  | @writeCrash call left file done stream fault stage atFile writes after =>
    rw [stage] at here
    cases owns.behind stage rfl atFile
    obtain ⟨peers, alone⟩ := @round_alone w _ _ _ _ later _ _ writes
    change Worker.Faults _ (Shared.peers (g.withStream _ _) t later) (Shared.conn (g.withStream _ _) t _ later)
    rw [peers]
    have sent : w.session.run (g.peers t later) = call.rest done _ := here.2.2.symm.trans (by
      change (sendLeft _ left >>= call.rest) _ = _
      rw [bind_run, alone]
      rfl)
    exact Worker.faults_of_run w.buf (sent.trans (Write.rest_error size after))
  | @formatCrash parsed newfd sum stage long =>
    rw [stage] at here asked
    obtain ⟨-, -, buf, run⟩ := here
    refine ⟨⟨buf, _, congrArg finalState run⟩, .inr ⟨cstring parsed.uri, sum, congrArg (Conn.log ∘ finalState) run, ?_⟩⟩
    rw [← asked]
    exact not_le.mp long
  | killed => cases crashed
  | _ => cases runs.symm.trans crashed

/-- So would the call that finds a broken connection. -/
theorem Worker.Moves.breaks (moves : w.Moves t fd through g w' g') (owns : Owns t (some w) g)
    (here : w.stage.At w.session (g.peers t later) (g.conn t w later))
    (runs : g.crashed = none) (crashed : g'.crashed = some (t, .sigpipe)) : w'.Breaks t g' later := by
  cases moves with
  | @killed call left file stream stage atFile writes =>
    rw [stage] at here
    cases owns.behind stage rfl atFile
    obtain ⟨peers, alone⟩ := @round_alone w _ _ _ _ later _ _ writes
    refine ⟨?_, call.relay.target, (g.streams (.socket call.relay.target t)).taken, ?_⟩
    · have sent : w.session.run (g.peers t later) = call.rest false _ := here.2.2.symm.trans (by
        change (sendLeft _ left >>= call.rest) _ = _
        rw [bind_run, alone]
        rfl)
      change Conn.Onward (Shared.conn (g.withStream _ _) t w later)
        (w.session.alone (Shared.peers (g.withStream _ _) t later))
      rw [peers, Session.alone, sent]
      exact (call.onward false).final _
    · exact (congrArg Stream.taken streams_self).trans (round_killed writes)
  | lineCrash | writeCrash | formatCrash => cases crashed
  | _ => cases runs.symm.trans crashed

theorem Worker.Moves.unended {cause : Cause} (moves : w.Moves t fd through g w' g') (runs : g.crashed = none)
    (crashed : g'.crashed = some (t, cause)) : w'.stage ≠ .done := by
  cases moves with
  | lineCrash stage | writeCrash stage | formatCrash stage | killed stage =>
    change w.stage ≠ .done
    rw [stage]
    exact nofun
  | _ => cases runs.symm.trans crashed

/-- What a peer is going to do, when it first does this. -/
def Peer.first (event : Peer) (stream : Stream) (side : Side) (later : Peers) : Peers :=
  match event with
  | .sends events =>
    if stream.closed then later
    else { later with input := Function.update later.input side (events ++ later.input side) }
  | .closes => later
  | .takes outcomes => { later with takes := Function.update later.takes side (outcomes ++ later.takes side) }

/-- What a peer does is the beginning of what it may do later. -/
theorem peer_streams {event : Peer} (side' : Side) :
    ((g.peer t side event).streams (.socket side' t)).given = (g.streams (.socket side' t)).given ∧
    ((g.peer t side event).streams (.socket side' t)).taken = (g.streams (.socket side' t)).taken ∧
    ((g.peer t side event).streams (.socket side' t)).sent = (g.streams (.socket side' t)).sent ∧
    ((g.peer t side event).streams (.socket side' t)).unread ++ later.input side' =
      (g.streams (.socket side' t)).unread ++
        (event.first (g.streams (.socket side t)) side later).input side' ∧
    ((g.peer t side event).streams (.socket side' t)).untaken ++ later.takes side' =
      (g.streams (.socket side' t)).untaken ++
        (event.first (g.streams (.socket side t)) side later).takes side' := by
  unfold Shared.peer Peer.first Stream.peer
  by_cases same : side' = side
  · subst same
    rw [streams_self]
    cases event with
    | closes => exact ⟨rfl, rfl, rfl, rfl, rfl⟩
    | takes outcomes => simp
    | sends events => cases (g.streams (.socket side' t)).closed <;> simp
  · rw [streams_of_ne (by simp [same])]
    cases event with
    | closes => exact ⟨rfl, rfl, rfl, rfl, rfl⟩
    | takes outcomes => simp [same]
    | sends events => cases (g.streams (.socket side t)).closed <;> simp [same]

theorem peer_allows {event : Peer} (allows : (g.peer t side event).Allows t later) :
    g.Allows t (event.first (g.streams (.socket side t)) side later) := by
  intro side' closed
  have ended : ((g.peer t side event).streams (.socket side' t)).closed = true := by
    unfold Shared.peer
    by_cases same : side' = side
    · subst same
      rw [streams_self]
      cases event with
      | closes => rfl
      | takes outcomes => exact closed
      | sends events => simp [Stream.peer, closed]
    · rw [streams_of_ne (by simp [same])]
      exact closed
  have nothing := allows side' ended
  unfold Peer.first
  cases event with
  | closes => exact nothing
  | takes outcomes => exact nothing
  | sends events =>
    simp only
    split
    · exact nothing
    · next open_ =>
      have other : side' ≠ side := by
        rintro rfl
        exact open_ closed
      simpa [other] using nothing

theorem peer_later {event : Peer} :
    (g.peer t side event).peers t later = g.peers t (event.first (g.streams (.socket side t)) side later) ∧
      (g.peer t side event).conn t w later = g.conn t w (event.first (g.streams (.socket side t)) side later) := by
  have same := @peer_streams t g side later event
  unfold Shared.peers Shared.conn
  constructor
  · congr 1 <;> funext side'
    · rw [(same side').1, (same side').2.2.2.1]
    · rw [(same side').2.1, (same side').2.2.2.2]
  · congr 1 <;> funext side'
    · exact (same side').2.2.2.1
    · rw [(same side').2.2.1, (same side').2.2.2.2]

/-- The other threads and their peers use other sockets. -/
theorem act_streams (next : act t a own g = some (own', g')) (owns : Owns t own g) (ne : u ≠ t) (side : Side) :
    g'.streams (.socket side u) = g.streams (.socket side u) := by
  obtain ⟨-, ⟨fd, session, created, rfl, rfl, rfl, -, rfl, rfl⟩ | ⟨fd, through, w, w', rfl, rfl, rfl, moves⟩ |
    ⟨side', event, rfl, known, rfl, rfl⟩⟩ := act_cases next
  · exact if_neg ne
  · cases moves with
    | @read call i file got stream buf stage atFile =>
      cases owns.behind stage rfl atFile
      exact streams_of_ne (by simp [ne])
    | @line call i file got stream buf len next stage atFile =>
      cases owns.behind stage rfl atFile
      exact streams_of_ne (by simp [ne])
    | @lineCrash call i file got stream buf len fault stage atFile =>
      cases owns.behind stage rfl atFile
      exact streams_of_ne (by simp [ne])
    | byte stage _ _ atFile | eof stage _ _ atFile | failed stage _ _ atFile =>
      cases owns.behind stage rfl atFile
      exact streams_of_ne (by simp [ne])
    | write stage atFile | written stage atFile | writeCrash stage atFile | killed stage atFile =>
      cases owns.behind stage rfl atFile
      exact streams_of_ne (by simp [ne])
    | _ => rfl
  · exact streams_of_ne (by simp [ne])

theorem lineRound_inside {buf buf' : List UInt8} {i : Nat} {got : Got} (inside : i < maxLine)
    (round : lineRound buf i got = (buf', none)) : i + 1 < maxLine := by
  cases got with
  | byte b =>
    have goes : ¬(b = 10 ∨ i + 1 = maxLine) := by
      intro stops
      rw [lineRound, if_pos stops] at round
      cases round
    exact lt_of_le_of_ne inside fun last => goes (.inr last)
  | eof | failed => cases round

theorem Worker.Moves.sized (moves : w.Moves t fd through g w' g') (size : w.buf.length = maxLine)
    (inside : w.stage.Inside) : w'.buf.length = maxLine ∧ w'.stage.Inside := by
  have line : ∀ {i got buf len}, lineRound w.buf i got = (buf, len) → buf.length = maxLine := by
    intro i got buf len round
    cases got <;> cases round <;> simp [size]
  cases moves with
  | read stage _ _ round =>
    refine ⟨line round, ?_⟩
    rw [stage] at inside
    exact lineRound_inside inside round
  | line _ _ _ round after => exact ⟨line round, (Line.begins after).inside⟩
  | lineCrash stage _ _ round => exact ⟨line round, inside⟩
  | written _ _ _ after => exact ⟨size, (Write.begins after).inside⟩
  | byte stage _ short =>
    rw [stage] at inside
    exact ⟨List.length_set.trans size, lt_of_le_of_ne inside short⟩
  | failed => exact ⟨size, Relay.begins_content.inside⟩
  | format stage fits => exact ⟨overwrite_length size (by simpa using fits), trivial⟩
  | writeCrash | formatCrash | killed => exact ⟨size, inside⟩
  | detach => exact ⟨size, show 0 < maxLine by decide⟩
  | _ => exact ⟨size, trivial⟩

theorem accept_alone {session : Session} {client : Sockaddr} :
    (session.worker fd client).stage.At session ((g.accept t fd session.peer).peers t later)
      ((g.accept t fd session.peer).conn t (session.worker fd client) later) := by
  have fresh : ∀ side, (g.accept t fd session.peer).streams (.socket side t) = .fresh := fun _ => if_pos rfl
  change Shared.conn _ t _ later = session.start _
  simp only [Shared.conn, Shared.peers, Session.start, fresh]
  rfl

theorem sized_outline : Outline act (fun _ _ _ => True) Sized where
  keeps _ sized next := by
    obtain ⟨-, ⟨fd, session, created, rfl, rfl, rfl, -, rfl, rfl⟩ | ⟨fd, through, w, w', rfl, rfl, rfl, moves⟩ |
      ⟨side', event, rfl, known, rfl, rfl⟩⟩ := act_cases next
    · rintro w mem
      cases created with
      | false => exact absurd mem (Option.not_mem_none w)
      | true =>
        cases mem
        exact ⟨session.scratch.buf.size, trivial⟩
    · rintro _ ⟨⟩
      exact moves.sized (sized w rfl).1 (sized w rfl).2
    · exact sized
  stable _ _ _ _ there _ := there

theorem follows_outline : Outline act (fun t own g => Orderly t own g ∧ Sized t own g) Follows where
  keeps known follows next := by
    obtain ⟨runs, ⟨fd, session, created, rfl, rfl, rfl, -, rfl, rfl⟩ | ⟨fd, through, w, w', rfl, rfl, rfl, moves⟩ |
      ⟨side', event, rfl, -, rfl, rfl⟩⟩ := act_cases next
    · rintro w mem later allows
      cases created with
      | false => exact absurd mem (Option.not_mem_none w)
      | true =>
        cases mem
        refine ⟨fun _ => accept_alone, fun crash => ?_, fun crash => ?_, fun cause crash => ?_⟩
        · cases runs.symm.trans crash
        · cases runs.symm.trans crash
        · cases runs.symm.trans crash
    · rintro _ ⟨⟩ later allows
      obtain ⟨size, inside⟩ := known.2 w rfl
      have asked := known.1.asked w rfl
      have before : Shared.Allows _ _ later := fun side closed => allows side ((moves.closed _).trans closed)
      have here := (follows w rfl later before).runs fun cause crash => by cases runs.symm.trans crash
      refine ⟨fun goes => ?_, fun crash => ?_, fun crash => ?_, fun cause crash => moves.unended runs crash⟩
      · refine moves.at known.1.owns asked size inside before here ?_
        rcases moves.crashed with same | ⟨cause, crash⟩
        · exact same.trans runs
        · exact absurd crash (goes cause)
      · exact moves.faults known.1.owns asked size inside before here runs crash
      · exact moves.breaks known.1.owns here runs crash
    · rintro w mem later allows
      have here := (follows w mem _ (peer_allows allows)).runs fun cause crash => by cases runs.symm.trans crash
      refine ⟨fun _ => ?_, fun crash => ?_, fun crash => ?_, fun cause crash => ?_⟩
      · obtain ⟨peers, conn⟩ := @peer_later w _ _ _ later event
        rw [peers, conn]
        exact here
      · cases runs.symm.trans crash
      · cases runs.symm.trans crash
      · cases runs.symm.trans crash
  stable ne known _ _ there next := by
    rintro w mem later allows
    obtain ⟨runs, crashed⟩ := act_crashed next
    have streams := act_streams next known.1.owns ne
    have before : Shared.Allows _ _ later := fun side closed =>
      allows side ((congrArg Stream.closed (streams side)).trans closed)
    have here := (there w mem later before).runs fun cause crash => by cases runs.symm.trans crash
    refine ⟨fun _ => ?_, fun crash => ?_, fun crash => ?_, fun cause crash => ?_⟩
    · simpa only [Shared.peers, Shared.conn, streams] using here
    · exact absurd crash (act_uncrashed next ne)
    · exact absurd crash (act_uncrashed next ne)
    · exact absurd crash (act_uncrashed next ne)

end Steps

section Runs
variable {opened : Finset Nat} {client : Sockaddr} {size : Int} {acts : List (Nat × Act)} {s : Process} {t : Nat}
  {w : Worker} {later : Peers}

/-- What holds of every thread in every state of the process. -/
theorem follows (run : exec Process.step (.start opened client size) acts = some s) :
    s.All fun t own g => (Orderly t own g ∧ Sized t own g) ∧ Follows t own g := by
  have outline := (orderly_outline.and (sized_outline.weaken fun _ _ _ _ => trivial)).and
    (follows_outline.weaken fun _ _ _ known => known.2)
  refine (outline.always (fun t => ?_) acts).last s run
  exact ⟨⟨orderly_start t, fun w mem => absurd mem (Option.not_mem_none w)⟩,
    fun w mem => absurd mem (Option.not_mem_none w)⟩

/-- However the threads are interleaved, and whatever their peers do later, a thread has read from its client and its
server and written to them no more than it would as the only thread; and one that has ended, or has crashed, exactly
this. A crash would happen alone as well, and so would the call of `write` that finds a broken connection. -/
theorem isolated (run : exec Process.step (.start opened client size) acts = some s) (own : s.own t = some w)
    (allows : s.shared.Allows t later) :
    (s.shared.conn t w later).Onward (w.session.alone (s.shared.peers t later)) ∧
    (w.stage = .done ∨ s.shared.crashed = some (t, .fault) →
      (s.shared.conn t w later).input = (w.session.alone (s.shared.peers t later)).input ∧
        (s.shared.conn t w later).output = (w.session.alone (s.shared.peers t later)).output) ∧
    (w.stage = .done → (∀ cause, s.shared.crashed ≠ some (t, cause)) →
      w.session.run (s.shared.peers t later) = .ok () (w.session.alone (s.shared.peers t later))) ∧
    (s.shared.crashed = some (t, .fault) → w.Crashes (s.shared.peers t later)) ∧
    (s.shared.crashed = some (t, .sigpipe) →
      ∃ side made, (s.shared.streams (.socket side t)).taken = made ++ [.broken]) := by
  have known := (follows run t).2 w own later allows
  by_cases crashed : ∃ cause, s.shared.crashed = some (t, cause)
  · obtain ⟨cause, crashed⟩ := crashed
    have running := known.unended cause crashed
    cases cause with
    | fault =>
      obtain ⟨⟨buf, log, alone⟩, crashes⟩ := known.faults crashed
      rw [alone]
      refine ⟨⟨fun _ => List.suffix_rfl, fun _ => List.prefix_rfl, fun _ => List.suffix_rfl⟩, fun _ => ⟨rfl, rfl⟩,
        fun done => absurd done running, fun _ => crashes, fun pipe => ?_⟩
      cases crashed.symm.trans pipe
    | sigpipe =>
      obtain ⟨onward, broken⟩ := known.breaks crashed
      refine ⟨onward, fun ended => ?_, fun done => absurd done running, fun fault => ?_, fun _ => broken⟩
      · rcases ended with done | fault
        · exact absurd done running
        · cases crashed.symm.trans fault
      · cases crashed.symm.trans fault
  · have goes : ∀ cause, s.shared.crashed ≠ some (t, cause) := fun cause crash => crashed ⟨cause, crash⟩
    have here := known.runs goes
    refine ⟨here.onward, fun ended => ?_, fun done _ => ?_, fun crash => absurd crash (goes _),
      fun crash => absurd crash (goes _)⟩
    · rw [ended.resolve_right (goes _)] at here
      obtain ⟨buf, run⟩ := here
      rw [Session.alone, run]
      exact ⟨rfl, rfl⟩
    · rw [done] at here
      obtain ⟨buf, run⟩ := here
      rw [Session.alone, run]
      rfl

theorem done_of_ended {stage : Stage} (ended : stage.ended = true) : stage = .done := by
  cases stage <;> first | rfl | cases ended

theorem second_done : secondWorker.stage = .done := done_of_ended (by decide +kernel)

theorem isolated_two : ((secondWorker.session.alone (twoEnd.shared.peers 1 .nothing)).output .server).sent =
      ascii "POST http://b:81 \nContent-Length: 1\r\n\r\nY" ∧
    ((secondWorker.session.alone (twoEnd.shared.peers 1 .nothing)).output .client).sent = ascii "H 200\n\r\nZZ" := by
  have allows : twoEnd.shared.Allows 1 .nothing := fun _ _ => rfl
  have output := ((isolated two_run second_own allows).2.1 (.inl second_done)).2
  rw [← output]
  decide +kernel

end Runs

end Splab.Proxy
