import Splab.Proxy.Threads

namespace Splab.Proxy

/-- The steps of a thread, one by one. -/
inductive Worker.Moves (w : Worker) (t fd through : Nat) (g : Shared) : Worker → Shared → Prop
  | detach (stage : w.stage = .detach) (detaches : w.session.detaches = true) :
    w.Moves t fd through g (w.goto (.readline .request 0)) g
  | noDetach (stage : w.stage = .detach) (fails : w.session.detaches = false) :
    w.Moves t fd through g (w.goto .closeClient) g
  | read {call : Line} {i : Nat} {file : File} {got : Got} {s : Stream} {buf : List UInt8}
    (stage : w.stage = .readline call i) (atFile : w.file g call.newfd call.side = some file)
    (reads : (g.streams file).call = some (got, s)) (round : lineRound w.buf i got = (buf, none)) :
    w.Moves t fd through g ((w.withBuf buf).goto (.readline call (i + 1))) (g.withStream file s)
  | line {call : Line} {i : Nat} {file : File} {got : Got} {s : Stream} {buf : List UInt8} {len : Int} {next : Stage}
    (stage : w.stage = .readline call i) (atFile : w.file g call.newfd call.side = some file)
    (reads : (g.streams file).call = some (got, s)) (round : lineRound w.buf i got = (buf, some len))
    (after : call.after w.session.scratch buf len = .ok next) :
    w.Moves t fd through g ((w.withBuf buf).goto next) (g.withStream file s)
  | lineCrash {call : Line} {i : Nat} {file : File} {got : Got} {s : Stream} {buf : List UInt8} {len : Int}
    {fault : Fault}
    (stage : w.stage = .readline call i) (atFile : w.file g call.newfd call.side = some file)
    (reads : (g.streams file).call = some (got, s)) (round : lineRound w.buf i got = (buf, some len))
    (after : call.after w.session.scratch buf len = .error fault) :
    w.Moves t fd through g (w.withBuf buf) { g.withStream file s with crashed := some (t, .fault) }
  | write {call : Write} {left rest : List UInt8} {file : File} {s : Stream} (stage : w.stage = .writebuf call left)
    (atFile : w.file g (some call.relay.newfd) call.relay.target = some file)
    (round : (g.streams file).round left = some (.more rest, s)) :
    w.Moves t fd through g (w.goto (.writebuf call rest)) (g.withStream file s)
  | written {call : Write} {left : List UInt8} {file : File} {done : Bool} {s : Stream} {next : Stage}
    (stage : w.stage = .writebuf call left)
    (atFile : w.file g (some call.relay.newfd) call.relay.target = some file)
    (round : (g.streams file).round left = some (.returns done, s)) (after : call.after w.buf done = .ok next) :
    w.Moves t fd through g (w.goto next) (g.withStream file s)
  | writeCrash {call : Write} {left : List UInt8} {file : File} {done : Bool} {s : Stream} {fault : Fault}
    (stage : w.stage = .writebuf call left)
    (atFile : w.file g (some call.relay.newfd) call.relay.target = some file)
    (round : (g.streams file).round left = some (.returns done, s)) (after : call.after w.buf done = .error fault) :
    w.Moves t fd through g w { g.withStream file s with crashed := some (t, .fault) }
  | killed {call : Write} {left : List UInt8} {file : File} {s : Stream} (stage : w.stage = .writebuf call left)
    (atFile : w.file g (some call.relay.newfd) call.relay.target = some file)
    (round : (g.streams file).round left = some (.killed, s)) :
    w.Moves t fd through g w { g.withStream file s with crashed := some (t, .sigpipe) }
  | whole {r : Relay} {content i : Int} {j : Nat} (stage : w.stage = .relayContent r content i j)
    (stops : content ≠ 0 ∧ i = content) :
    w.Moves t fd through g (w.goto (.writebuf (.last r i) (w.buf.take j))) g
  | full {r : Relay} {content i : Int} (stage : w.stage = .relayContent r content i maxLine)
    (goes : ¬(content ≠ 0 ∧ i = content)) :
    w.Moves t fd through g (w.goto (.writebuf (.full r content i) (w.buf.take maxLine))) g
  | byte {r : Relay} {content i : Int} {j : Nat} {file : File} {b : UInt8} {s : Stream}
    (stage : w.stage = .relayContent r content i j) (goes : ¬(content ≠ 0 ∧ i = content)) (room : j ≠ maxLine)
    (atFile : w.file g (some r.newfd) r.source = some file) (reads : (g.streams file).call = some (.byte b, s)) :
    w.Moves t fd through g ((w.withBuf (w.buf.set j b)).goto (.relayContent r content ((i + 1).bmod (2 ^ 32)) (j + 1)))
      (g.withStream file s)
  | eof {r : Relay} {content i : Int} {j : Nat} {file : File} {s : Stream}
    (stage : w.stage = .relayContent r content i j) (goes : ¬(content ≠ 0 ∧ i = content)) (room : j ≠ maxLine)
    (atFile : w.file g (some r.newfd) r.source = some file) (reads : (g.streams file).call = some (.eof, s)) :
    w.Moves t fd through g (w.goto (.writebuf (.last r i) (w.buf.take j))) (g.withStream file s)
  | failed {r : Relay} {content i : Int} {j : Nat} {file : File} {s : Stream}
    (stage : w.stage = .relayContent r content i j) (goes : ¬(content ≠ 0 ∧ i = content)) (room : j ≠ maxLine)
    (atFile : w.file g (some r.newfd) r.source = some file) (reads : (g.streams file).call = some (.failed, s)) :
    w.Moves t fd through g (w.goto (r.afterContent (-1))) (g.withStream file s)
  | lockSyscall {parsed : Parsed} {len : Nat} (stage : w.stage = .lockSyscall parsed len) (free : g.syscall = none) :
    w.Moves t fd through g (w.goto (.resolve parsed len)) { g with syscall := some t }
  | resolve {parsed : Parsed} {len : Nat} {address : UInt32} (stage : w.stage = .resolve parsed len)
    (known : w.session.resolve (cstring parsed.hostname) = some address) :
    w.Moves t fd through g (w.goto (.copy parsed len)) { g with hostent := some address }
  | resolveFails {parsed : Parsed} {len : Nat} (stage : w.stage = .resolve parsed len)
    (unknown : w.session.resolve (cstring parsed.hostname) = none) :
    w.Moves t fd through g (w.goto (.unlockSyscall parsed len none)) { g with hostent := none }
  | copy {parsed : Parsed} {len : Nat} {address : UInt32} (stage : w.stage = .copy parsed len)
    (host : g.hostent = some address) : w.Moves t fd through g (w.goto (.unlockSyscall parsed len (some address))) g
  | unlockSyscall {parsed : Parsed} {len : Nat} {address : UInt32}
    (stage : w.stage = .unlockSyscall parsed len (some address)) :
    w.Moves t fd through g (w.goto (.socket parsed len address)) { g with syscall := none }
  | noHost {parsed : Parsed} {len : Nat} (stage : w.stage = .unlockSyscall parsed len none) :
    w.Moves t fd through g (w.goto .closeClient) { g with syscall := none }
  | socket {parsed : Parsed} {len : Nat} {address : UInt32} (stage : w.stage = .socket parsed len address)
    (opens : w.session.socket = true) (fresh : g.table fd = none) :
    w.Moves t fd through g (w.goto (.connect parsed len address fd)) (g.openFile fd (.socket .server t))
  | socketFails {parsed : Parsed} {len : Nat} {address : UInt32} (stage : w.stage = .socket parsed len address)
    (fails : w.session.socket = false) : w.Moves t fd through g (w.goto .closeClient) g
  | connect {parsed : Parsed} {len newfd : Nat} {address : UInt32} {server : File}
    (stage : w.stage = .connect parsed len address newfd) (atFile : g.table newfd = some server)
    (connects : w.session.connects = true) :
    w.Moves t fd through g
      { w with
        dialled := some (cstring parsed.hostname, (parsed.port % 2 ^ 16).toNat)
        stage := .writebuf (.line ⟨.request, parsed, newfd⟩) (w.buf.take len) }
      { g with remote := Function.update g.remote server (some (address, (parsed.port % 2 ^ 16).toNat)) }
  | connectFails {parsed : Parsed} {len newfd : Nat} {address : UInt32}
    (stage : w.stage = .connect parsed len address newfd) (fails : w.session.connects = false) :
    w.Moves t fd through g (w.goto (.closeServer newfd)) g
  | lockLogfile {parsed : Parsed} {newfd : Nat} {sum : Int} (stage : w.stage = .lockLogfile parsed newfd sum)
    (free : g.logfile = none) :
    w.Moves t fd through g (w.goto (.localtime parsed newfd sum)) { g with logfile := some t }
  | localtime {parsed : Parsed} {newfd : Nat} {sum : Int} (stage : w.stage = .localtime parsed newfd sum) :
    w.Moves t fd through g (w.goto (.format parsed newfd sum)) { g with tm := w.session.now }
  | format {parsed : Parsed} {newfd : Nat} {sum : Int} (stage : w.stage = .format parsed newfd sum)
    (fits : (formatLogEntry g.tm w.client (cstring parsed.uri) sum).length + 1 ≤ maxLine) :
    w.Moves t fd through g
      { w with
        buf := overwrite w.buf (formatLogEntry g.tm w.client (cstring parsed.uri) sum ++ [0])
        stage := .print parsed newfd sum } g
  | formatCrash {parsed : Parsed} {newfd : Nat} {sum : Int} (stage : w.stage = .format parsed newfd sum)
    (long : ¬(formatLogEntry g.tm w.client (cstring parsed.uri) sum).length + 1 ≤ maxLine) :
    w.Moves t fd through g w { g with crashed := some (t, .fault) }
  | print {parsed : Parsed} {newfd : Nat} {sum : Int} (stage : w.stage = .print parsed newfd sum) :
    w.Moves t fd through g (w.goto (.append parsed newfd sum))
      { g with stdout := g.stdout.print (cstring w.buf ++ [10]) through }
  | append {parsed : Parsed} {newfd : Nat} {sum : Int} (stage : w.stage = .append parsed newfd sum) :
    w.Moves t fd through g { w with log := some (cstring parsed.uri, sum), stage := .unlockLogfile newfd }
      { g with log := g.log.print (cstring w.buf ++ [10]) through }
  | unlockLogfile {newfd : Nat} (stage : w.stage = .unlockLogfile newfd) :
    w.Moves t fd through g (w.goto (.closeServer newfd)) { g with logfile := none }
  | closeServer {newfd : Nat} (stage : w.stage = .closeServer newfd) :
    w.Moves t fd through g (w.goto .closeClient) (g.close newfd)
  | closeClient (stage : w.stage = .closeClient) :
    w.Moves t fd through g (w.goto .done) (g.close w.sockfd)

section Inversion
variable {w w' : Worker} {t fd through : Nat} {g g' : Shared} {own own' : Option Worker} {a : Act}

theorem Worker.work_moves (next : w.work t fd through g = some (w', g')) : w.Moves t fd through g w' g' := by
  cases stage : w.stage with
  | detach =>
    simp only [work, stage] at next
    cases detaches : w.session.detaches with
    | true =>
      rw [detaches] at next
      cases next
      exact .detach stage detaches
    | false =>
      rw [detaches] at next
      cases next
      exact .noDetach stage detaches
  | readline call i =>
    simp only [work, stage] at next
    obtain ⟨file, atFile, next⟩ := Option.bind_eq_some_iff.mp next
    obtain ⟨⟨got, s⟩, reads, next⟩ := Option.bind_eq_some_iff.mp next
    rcases round : lineRound w.buf i got with ⟨buf, len⟩
    simp only [round] at next
    cases len with
    | none =>
      cases next
      exact .read stage atFile reads round
    | some len =>
      cases after : call.after w.session.scratch buf len with
      | ok stage' =>
        have made : (w.withBuf buf).go t (g.withStream file s) (.ok stage') = (w', g') := after ▸ Option.some.inj next
        cases made
        exact .line stage atFile reads round after
      | error fault =>
        have made : (w.withBuf buf).go t (g.withStream file s) (.error fault) = (w', g') :=
          after ▸ Option.some.inj next
        cases made
        exact .lineCrash stage atFile reads round after
  | writebuf call left =>
    simp only [work, stage] at next
    obtain ⟨file, atFile, next⟩ := Option.bind_eq_some_iff.mp next
    obtain ⟨⟨made, s⟩, round, next⟩ := Option.bind_eq_some_iff.mp next
    cases made with
    | more rest =>
      cases next
      exact .write stage atFile round
    | returns done =>
      cases after : call.after w.buf done with
      | ok stage' =>
        simp only [after] at next
        cases next
        exact .written stage atFile round after
      | error fault =>
        simp only [after] at next
        cases next
        exact .writeCrash stage atFile round after
    | killed =>
      cases next
      exact .killed stage atFile round
  | relayContent r content i j =>
    simp only [work, stage] at next
    by_cases stops : content ≠ 0 ∧ i = content
    · rw [if_pos stops] at next
      cases next
      exact .whole stage stops
    · rw [if_neg stops] at next
      by_cases full : j = maxLine
      · subst full
        rw [if_pos rfl] at next
        cases next
        exact .full stage stops
      · rw [if_neg full] at next
        obtain ⟨file, atFile, next⟩ := Option.bind_eq_some_iff.mp next
        obtain ⟨⟨got, s⟩, reads, next⟩ := Option.bind_eq_some_iff.mp next
        cases got with
        | byte b =>
          cases next
          exact .byte stage stops full atFile reads
        | eof =>
          cases next
          exact .eof stage stops full atFile reads
        | failed =>
          cases next
          exact .failed stage stops full atFile reads
  | lockSyscall parsed len =>
    simp only [work, stage] at next
    obtain ⟨free, next⟩ := Option.ite_none_right_eq_some.mp next
    cases next
    exact .lockSyscall stage free
  | resolve parsed len =>
    simp only [work, stage] at next
    cases host : w.session.resolve (cstring parsed.hostname) with
    | none =>
      rw [host] at next
      cases next
      exact .resolveFails stage host
    | some address =>
      rw [host] at next
      cases next
      exact .resolve stage host
  | copy parsed len =>
    simp only [work, stage] at next
    obtain ⟨address, host, next⟩ := Option.map_eq_some_iff.mp next
    cases next
    exact .copy stage host
  | unlockSyscall parsed len address =>
    simp only [work, stage] at next
    cases next
    cases address with
    | none => exact .noHost stage
    | some address => exact .unlockSyscall stage
  | socket parsed len address =>
    simp only [work, stage] at next
    cases opens : w.session.socket with
    | false =>
      rw [opens] at next
      cases next
      exact .socketFails stage opens
    | true =>
      rw [opens] at next
      obtain ⟨fresh, next⟩ := Option.ite_none_right_eq_some.mp next
      cases next
      exact .socket stage opens fresh
  | connect parsed len address newfd =>
    simp only [work, stage] at next
    obtain ⟨server, atFile, next⟩ := Option.bind_eq_some_iff.mp next
    cases connects : w.session.connects with
    | true =>
      rw [connects] at next
      cases next
      exact .connect stage atFile connects
    | false =>
      rw [connects] at next
      cases next
      exact .connectFails stage connects
  | lockLogfile parsed newfd sum =>
    simp only [work, stage] at next
    obtain ⟨free, next⟩ := Option.ite_none_right_eq_some.mp next
    cases next
    exact .lockLogfile stage free
  | localtime parsed newfd sum =>
    simp only [work, stage] at next
    cases next
    exact .localtime stage
  | format parsed newfd sum =>
    simp only [work, stage] at next
    split at next
    · next fits =>
      cases next
      exact .format stage fits
    · next long =>
      cases next
      exact .formatCrash stage long
  | print parsed newfd sum =>
    simp only [work, stage] at next
    cases next
    exact .print stage
  | append parsed newfd sum =>
    simp only [work, stage] at next
    cases next
    exact .append stage
  | unlockLogfile newfd =>
    simp only [work, stage] at next
    cases next
    exact .unlockLogfile stage
  | closeServer newfd =>
    simp only [work, stage] at next
    cases next
    exact .closeServer stage
  | closeClient =>
    simp only [work, stage] at next
    cases next
    exact .closeClient stage
  | done =>
    simp only [work, stage, reduceCtorEq] at next

/-- The steps of the system are those of `main`, which has its turn only for a new number, those of the threads, and
those of their peers. -/
theorem act_cases (next : act t a own g = some (own', g')) : g.crashed = none ∧
    ((∃ fd session created, a = .accept fd session created ∧ own = none ∧ t = g.accepted ∧ g.table fd = none ∧
      g' = g.accept t fd session.peer ∧ own' = (if created then some (session.worker fd g'.client) else none)) ∨
    (∃ fd through w w', a = .work fd through ∧ own = some w ∧ own' = some w' ∧ w.Moves t fd through g w' g') ∨
    ∃ side event, a = .peer side event ∧ t < g.accepted ∧ own' = own ∧ g' = g.peer t side event) := by
  obtain ⟨running, next⟩ := Option.ite_none_right_eq_some.mp next
  refine ⟨running, ?_⟩
  cases a with
  | accept fd session created =>
    cases own with
    | some w => cases next
    | none =>
      obtain ⟨⟨first, fresh, _⟩, next⟩ := Option.ite_none_right_eq_some.mp next
      cases next
      exact .inl ⟨fd, session, created, rfl, rfl, first, fresh, rfl, rfl⟩
  | work fd through =>
    cases own with
    | none => cases next
    | some w =>
      obtain ⟨⟨w', g'⟩, made, next⟩ := Option.map_eq_some_iff.mp next
      cases next
      exact .inr (.inl ⟨fd, through, w, w', rfl, rfl, rfl, Worker.work_moves made⟩)
  | peer side event =>
    obtain ⟨known, next⟩ := Option.ite_none_right_eq_some.mp next
    cases next
    exact .inr (.inr ⟨side, event, rfl, known, rfl, rfl⟩)

end Inversion

section Kept
variable {w w' : Worker} {t u fd through : Nat} {g g' : Shared} {own own' : Option Worker} {a : Act}

theorem Worker.Moves.session (moves : w.Moves t fd through g w' g') : w'.session = w.session := by
  cases moves <;> rfl

theorem Worker.Moves.client (moves : w.Moves t fd through g w' g') : w'.client = w.client := by
  cases moves <;> rfl

/-- The variables of `main` are its own. -/
theorem Worker.Moves.main (moves : w.Moves t fd through g w' g') :
    g'.accepted = g.accepted ∧ g'.client = g.client ∧ g'.size = g.size := by
  cases moves <;> exact ⟨rfl, rfl, rfl⟩

theorem Worker.Moves.crashed (moves : w.Moves t fd through g w' g') :
    g'.crashed = g.crashed ∨ ∃ cause, g'.crashed = some (t, cause) := by
  cases moves with
  | lineCrash | writeCrash | formatCrash | killed => exact .inr ⟨_, rfl⟩
  | _ => exact .inl rfl

theorem act_crashed (next : act t a own g = some (own', g')) :
    g.crashed = none ∧ (g'.crashed = none ∨ ∃ cause, g'.crashed = some (t, cause)) := by
  obtain ⟨runs, ⟨fd, session, created, rfl, rfl, -, -, rfl, rfl⟩ | ⟨fd, through, w, w', rfl, rfl, rfl, moves⟩ |
    ⟨side, event, rfl, known, rfl, rfl⟩⟩ := act_cases next
  · exact ⟨runs, .inl runs⟩
  · exact ⟨runs, moves.crashed.imp_left fun same => same.trans runs⟩
  · exact ⟨runs, .inl runs⟩

/-- A thread ends the process by its own steps only. -/
theorem act_uncrashed {cause : Cause} (next : act t a own g = some (own', g')) (ne : u ≠ t) :
    g'.crashed ≠ some (u, cause) := by
  intro crash
  rcases (act_crashed next).2 with none | ⟨cause', crashed⟩
  · cases none.symm.trans crash
  · exact ne (congrArg Prod.fst (Option.some.inj (crash.symm.trans crashed)))

end Kept

end Splab.Proxy
