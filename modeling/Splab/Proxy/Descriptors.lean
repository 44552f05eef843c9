import Splab.Proxy.Moves

namespace Splab.Proxy

def Stage.inSyscall : Stage → Bool
  | .resolve .. | .copy .. | .unlockSyscall .. => true
  | _ => false

def Stage.inLogfile : Stage → Bool
  | .localtime .. | .format .. | .print .. | .append .. | .unlockLogfile .. => true
  | _ => false

/-- The mutex `syscall`. -/
def syscallLock : Lock Nat (Option Worker) Shared where
  holder := Shared.syscall
  Inside own := ∃ w ∈ own, w.stage.inSyscall = true

/-- The mutex `logfile`. -/
def logfileLock : Lock Nat (Option Worker) Shared where
  holder := Shared.logfile
  Inside own := ∃ w ∈ own, w.stage.inLogfile = true

/-- The descriptor `newfd`, while it is open. -/
def Stage.newfd : Stage → Option Nat
  | .readline call _ => call.newfd
  | .writebuf call _ => some call.relay.newfd
  | .relayContent r _ _ _ => some r.newfd
  | .connect _ _ _ newfd | .lockLogfile _ newfd _ | .localtime _ newfd _ | .format _ newfd _ | .print _ newfd _
  | .append _ newfd _ | .unlockLogfile newfd | .closeServer newfd => some newfd
  | _ => none

def Stage.ended : Stage → Bool
  | .done => true
  | _ => false

/-- The descriptors that a thread has not closed yet. -/
def Worker.descriptor (w : Worker) : Side → Option Nat
  | .client => if w.stage.ended then none else some w.sockfd
  | .server => w.stage.newfd

/-- The open descriptors for the sockets of one number. Without a thread it can be the one that `main` has
left open. -/
def held (own : Option Worker) (leak : Option Nat) : Side → Option Nat :=
  match own with
  | some w => w.descriptor
  | none => fun
    | .client => leak
    | .server => none

/-- The descriptors that stand for the sockets of a thread are those that it has not closed yet. -/
def Owns (t : Nat) (own : Option Worker) (g : Shared) : Prop :=
  ∃ leak : Option Nat, (∀ fd side, g.table fd = some (.socket side t) ↔ held own leak side = some fd) ∧
    (t < g.accepted ↔ own ≠ none ∨ leak ≠ none)

/-- What a thread takes from static data is the answer to what it has asked for itself. -/
def Stage.Asked (stage : Stage) (session : Session) (g : Shared) : Prop :=
  match stage with
  | .copy parsed _ => session.resolve (cstring parsed.hostname) ≠ none ∧
    g.hostent = session.resolve (cstring parsed.hostname)
  | .unlockSyscall parsed _ address => session.resolve (cstring parsed.hostname) = address
  | .socket parsed _ address | .connect parsed _ address _ =>
    session.resolve (cstring parsed.hostname) = some address
  | .format _ _ _ => g.tm = session.now
  | _ => True

def Asked (_ : Nat) (own : Option Worker) (g : Shared) : Prop := ∀ w ∈ own, w.stage.Asked w.session g

/-- What holds of a thread and the shared state whatever is transferred. -/
structure Orderly (t : Nat) (own : Option Worker) (g : Shared) : Prop where
  syscall : syscallLock.Held t own g
  logfile : logfileLock.Held t own g
  owns : Owns t own g
  asked : Asked t own g

/-- The stages outside the sections of both mutexes, with the descriptor of the server. -/
inductive Stage.Idle : Option Nat → Stage → Prop
  | readline (call : Line) (i : Nat) : Idle call.newfd (.readline call i)
  | writebuf (call : Write) (left : List UInt8) : Idle (some call.relay.newfd) (.writebuf call left)
  | relayContent (r : Relay) (content i : Int) (j : Nat) : Idle (some r.newfd) (.relayContent r content i j)
  | lockSyscall (parsed : Parsed) (len : Nat) : Idle none (.lockSyscall parsed len)
  | lockLogfile (parsed : Parsed) (newfd : Nat) (sum : Int) : Idle (some newfd) (.lockLogfile parsed newfd sum)
  | closeServer (newfd : Nat) : Idle (some newfd) (.closeServer newfd)
  | closeClient : Idle none .closeClient

/-- Those at which a thread is when it has just left another call. -/
inductive Stage.Begins : Option Nat → Stage → Prop
  | readline (call : Line) : Begins call.newfd (.readline call 0)
  | writebuf (call : Write) (left : List UInt8) : Begins (some call.relay.newfd) (.writebuf call left)
  | relayContent (r : Relay) (content i : Int) : Begins (some r.newfd) (.relayContent r content i 0)
  | lockSyscall (parsed : Parsed) (len : Nat) : Begins none (.lockSyscall parsed len)
  | lockLogfile (parsed : Parsed) (newfd : Nat) (sum : Int) : Begins (some newfd) (.lockLogfile parsed newfd sum)
  | closeServer (newfd : Nat) : Begins (some newfd) (.closeServer newfd)
  | closeClient : Begins none .closeClient

section Idle
variable {r : Relay} {scratch : Scratch} {buf : List UInt8} {next : Stage} {newfd : Option Nat}

theorem begins_relayed {parsed : Parsed} {newfd : Nat} {sum : Int} :
    (relayed parsed newfd sum).Begins (some newfd) := by
  unfold relayed
  split
  · exact .lockLogfile ..
  · exact .closeServer _

theorem Relay.begins_header {content : Int} (after : r.afterHeader content = .ok next) :
    next.Begins (some r.newfd) := by
  unfold afterHeader at after
  split at after
  · obtain ⟨post, _, after⟩ := bind_ok after
    cases after
    split
    · exact .relayContent ..
    · exact .readline (.reply _ _)
  · obtain ⟨head, _, after⟩ := bind_ok after
    cases after
    split
    · exact .relayContent ..
    · exact begins_relayed

theorem Relay.begins_content {len : Int} : (r.afterContent len).Begins (some r.newfd) := by
  unfold afterContent
  split
  · exact .readline (.reply _ _)
  · exact begins_relayed

theorem Line.begins {call : Line} {len : Int} (after : call.after scratch buf len = .ok next) :
    next.Begins call.newfd := by
  unfold Line.after at after
  split at after
  · split at after
    · obtain ⟨target, _, after⟩ := bind_ok after
      cases target with
      | none =>
        cases after
        exact .closeClient
      | some target =>
        cases after
        exact .lockSyscall ..
    · cases after
      exact .closeClient
  · split at after
    · exact Relay.begins_header after
    · obtain ⟨length, _, after⟩ := bind_ok after
      simp only at after
      split at after
      · exact Relay.begins_header after
      · cases after
        exact .writebuf (.header _ _ _) _
  · split at after
    · obtain ⟨msg, _, after⟩ := bind_ok after
      cases after
      exact .writebuf (.line ⟨.response msg len, _, _⟩) _
    · cases after
      exact begins_relayed

theorem Write.begins {call : Write} {done : Bool} (after : call.after buf done = .ok next) :
    next.Begins (some call.relay.newfd) := by
  unfold Write.after at after
  split at after
  · cases after
    exact .readline (.header _ _ _)
  · split at after
    · obtain ⟨last, _, after⟩ := bind_ok after
      split at after
      · exact Relay.begins_header after
      · cases after
        exact .readline (.header _ _ _)
    · exact Relay.begins_header after
  · cases after
    split
    · exact .relayContent ..
    · exact Relay.begins_content
  · cases after
    exact Relay.begins_content

theorem Stage.Begins.idle (begins : next.Begins newfd) : next.Idle newfd := by
  cases begins with
  | readline call => exact .readline call 0
  | writebuf call left => exact .writebuf call left
  | relayContent r content i => exact .relayContent r content i 0
  | lockSyscall parsed len => exact .lockSyscall parsed len
  | lockLogfile parsed newfd sum => exact .lockLogfile parsed newfd sum
  | closeServer newfd => exact .closeServer newfd
  | closeClient => exact .closeClient

theorem Stage.Idle.free (idle : next.Idle newfd) : next.inSyscall = false ∧ next.inLogfile = false := by
  cases idle <;> exact ⟨rfl, rfl⟩

theorem Stage.Idle.newfd_eq (idle : next.Idle newfd) : next.newfd = newfd := by
  cases idle <;> rfl

theorem Stage.Idle.running (idle : next.Idle newfd) : next.ended = false := by
  cases idle <;> rfl

theorem Stage.Idle.asked {session : Session} {g : Shared} (idle : next.Idle newfd) : next.Asked session g := by
  cases idle <;> trivial

/-- A thread that stays outside of the sections keeps its descriptors. -/
theorem Stage.Idle.descriptor {w w' : Worker} (idle' : w'.stage.Idle newfd) (idle : w.stage.Idle newfd)
    (same : w'.sockfd = w.sockfd) : w'.descriptor = w.descriptor := by
  funext side
  cases side with
  | client => simp only [Worker.descriptor, idle.running, idle'.running, same]
  | server => simp only [Worker.descriptor, idle.newfd_eq, idle'.newfd_eq]

end Idle

section Locks
variable {w w' : Worker} {t fd through : Nat} {g g' : Shared} {own own' : Option Worker} {a : Act}

@[simp]
theorem goto_stage {stage : Stage} : (w.goto stage).stage = stage := rfl

@[simp]
theorem goto_session {stage : Stage} : (w.goto stage).session = w.session := rfl

@[simp]
theorem goto_sockfd {stage : Stage} : (w.goto stage).sockfd = w.sockfd := rfl

theorem inside_syscall : syscallLock.Inside (some w) ↔ w.stage.inSyscall = true := by
  simp [syscallLock]

theorem inside_syscall_congr (same : w'.stage.inSyscall = w.stage.inSyscall) :
    syscallLock.Inside (some w') ↔ syscallLock.Inside (some w) := by
  rw [inside_syscall, inside_syscall, same]

theorem inside_logfile : logfileLock.Inside (some w) ↔ w.stage.inLogfile = true := by
  simp [logfileLock]

theorem inside_logfile_congr (same : w'.stage.inLogfile = w.stage.inLogfile) :
    logfileLock.Inside (some w') ↔ logfileLock.Inside (some w) := by
  rw [inside_logfile, inside_logfile, same]

theorem outside_none : ¬syscallLock.Inside none ∧ ¬logfileLock.Inside none := by
  simp [syscallLock, logfileLock]

theorem accept_outside {fd : Nat} {session : Session} {client : Sockaddr} {created : Bool} :
    (¬syscallLock.Inside (if created then some (session.worker fd client) else none)) ∧
      ¬logfileLock.Inside (if created then some (session.worker fd client) else none) := by
  cases created with
  | false => exact outside_none
  | true =>
    simp only [if_true, inside_syscall, inside_logfile]
    exact ⟨Bool.false_ne_true, Bool.false_ne_true⟩

theorem Worker.Moves.syscall_use (moves : w.Moves t fd through g w' g') :
    syscallLock.Use t (some w) g (some w') g' := by
  cases moves with
  | lockSyscall stage free => exact .take free (inside_syscall.mpr rfl) rfl
  | unlockSyscall stage | noHost stage =>
    exact .give (inside_syscall.mpr (by rw [stage]; rfl)) (by rw [inside_syscall]; exact Bool.false_ne_true) rfl
  | line stage _ _ _ after =>
    exact .keep (inside_syscall_congr (by rw [stage]; exact (Line.begins after).idle.free.1)) rfl
  | written stage _ _ after =>
    exact .keep (inside_syscall_congr (by rw [stage]; exact (Write.begins after).idle.free.1)) rfl
  | failed stage => exact .keep (inside_syscall_congr (by rw [stage]; exact Relay.begins_content.idle.free.1)) rfl
  | _ =>
    refine .keep (inside_syscall_congr ?_) rfl
    first
    | rfl
    | rw [‹w.stage = _›]; rfl

theorem Worker.Moves.logfile_use (moves : w.Moves t fd through g w' g') :
    logfileLock.Use t (some w) g (some w') g' := by
  cases moves with
  | lockLogfile stage free => exact .take free (inside_logfile.mpr rfl) rfl
  | unlockLogfile stage =>
    exact .give (inside_logfile.mpr (by rw [stage]; rfl)) (by rw [inside_logfile]; exact Bool.false_ne_true) rfl
  | line stage _ _ _ after =>
    exact .keep (inside_logfile_congr (by rw [stage]; exact (Line.begins after).idle.free.2)) rfl
  | written stage _ _ after =>
    exact .keep (inside_logfile_congr (by rw [stage]; exact (Write.begins after).idle.free.2)) rfl
  | failed stage => exact .keep (inside_logfile_congr (by rw [stage]; exact Relay.begins_content.idle.free.2)) rfl
  | _ =>
    refine .keep (inside_logfile_congr ?_) rfl
    first
    | rfl
    | rw [‹w.stage = _›]; rfl

theorem act_uses (next : act t a own g = some (own', g')) :
    syscallLock.Use t own g own' g' ∧ logfileLock.Use t own g own' g' := by
  obtain ⟨-, ⟨fd, session, created, rfl, rfl, -, -, rfl, rfl⟩ | ⟨fd, through, w, w', rfl, rfl, rfl, moves⟩ |
    ⟨side, event, rfl, known, rfl, rfl⟩⟩ := act_cases next
  · exact ⟨.keep (iff_of_false accept_outside.1 outside_none.1) rfl,
      .keep (iff_of_false accept_outside.2 outside_none.2) rfl⟩
  · exact ⟨moves.syscall_use, moves.logfile_use⟩
  · exact ⟨.keep Iff.rfl rfl, .keep Iff.rfl rfl⟩

end Locks

section Tables
variable {g : Shared} {fd fd' : Nat} {file file' : File}

theorem openFile_table_of_ne (fresh : g.table fd = none) (ne : file' ≠ file) :
    (g.openFile fd file).table fd' = some file' ↔ g.table fd' = some file' := by
  change Function.update g.table fd (some file) fd' = _ ↔ _
  rcases eq_or_ne fd' fd with rfl | other
  · rw [Function.update_self, fresh, Option.some.injEq]
    exact iff_of_false ne.symm nofun
  · rw [Function.update_of_ne other]

theorem openFile_table (new : ∀ fd', g.table fd' ≠ some file) :
    (g.openFile fd file).table fd' = some file ↔ fd = fd' := by
  change Function.update g.table fd (some file) fd' = _ ↔ _
  rcases eq_or_ne fd' fd with rfl | other
  · rw [Function.update_self]
    exact iff_of_true rfl rfl
  · rw [Function.update_of_ne other]
    exact iff_of_false (new fd') other.symm

theorem close_table_of_ne (here : g.table fd = some file) (ne : file' ≠ file) :
    (g.close fd).table fd' = some file' ↔ g.table fd' = some file' := by
  change Function.update g.table fd none fd' = _ ↔ _
  rcases eq_or_ne fd' fd with rfl | other
  · rw [Function.update_self, here, Option.some.injEq]
    exact iff_of_false nofun ne.symm
  · rw [Function.update_of_ne other]

theorem close_table (only : ∀ fd', g.table fd' = some file → fd' = fd) : (g.close fd).table fd' ≠ some file := by
  change Function.update g.table fd none fd' ≠ _
  rcases eq_or_ne fd' fd with rfl | other
  · rw [Function.update_self]
    exact nofun
  · rw [Function.update_of_ne other]
    exact fun here => other (only fd' here)

end Tables

section Descriptors
variable {w w' : Worker} {t u fd through : Nat} {g g' : Shared} {own own' other : Option Worker} {a : Act} {side : Side}

theorem Owns.iff (owns : Owns t (some w) g) : g.table fd = some (.socket side t) ↔ w.descriptor side = some fd := by
  obtain ⟨leak, files, -⟩ := owns
  exact files fd side

theorem Owns.accepted (owns : Owns t (some w) g) : t < g.accepted := by
  obtain ⟨leak, -, accepted⟩ := owns
  exact accepted.mpr (.inl (Option.some_ne_none w))

theorem owns_of_iff (files : ∀ fd side, g.table fd = some (.socket side t) ↔ w.descriptor side = some fd)
    (accepted : t < g.accepted) : Owns t (some w) g :=
  ⟨none, files, iff_of_true accepted (.inl (Option.some_ne_none w))⟩

theorem Owns.sockfd (owns : Owns t (some w) g) (open_ : w.stage.ended = false) :
    g.table w.sockfd = some (.socket .client t) := by
  rw [owns.iff, Worker.descriptor, open_]
  rfl

theorem Owns.newfd (owns : Owns t (some w) g) (opened : w.stage.newfd = some fd) :
    g.table fd = some (.socket .server t) := by
  rw [owns.iff, Worker.descriptor, opened]

theorem Owns.idle {newfd : Option Nat} {file : File} {s : Stream} (owns : Owns t (some w) g)
    (idle' : w'.stage.Idle newfd) (idle : w.stage.Idle newfd) (same : w'.sockfd = w.sockfd) :
    Owns t (some w') (g.withStream file s) :=
  owns_of_iff (fun _ _ => Stage.Idle.descriptor idle' idle same ▸ owns.iff) owns.accepted

/-- A thread opens, uses and closes its own descriptors only. -/
theorem Worker.Moves.owns (moves : w.Moves t fd through g w' g') (owns : Owns t (some w) g) : Owns t (some w') g' := by
  cases moves with
  | socket stage opens fresh =>
    refine owns_of_iff (fun fd' side => ?_) owns.accepted
    cases side with
    | client =>
      rw [openFile_table_of_ne fresh (by simp), owns.iff, Worker.descriptor, Worker.descriptor, stage]
      rfl
    | server =>
      rw [openFile_table, Worker.descriptor]
      · exact Option.some_inj.symm
      · intro fd' here
        rw [owns.iff, Worker.descriptor, stage] at here
        cases here
  | @closeServer newfd stage =>
    have here := owns.newfd (show w.stage.newfd = some newfd by rw [stage]; rfl)
    refine owns_of_iff (fun fd' side => ?_) owns.accepted
    cases side with
    | client =>
      rw [close_table_of_ne here (by simp), owns.iff, Worker.descriptor, Worker.descriptor, stage]
      rfl
    | server =>
      refine iff_of_false (close_table fun fd' there => ?_) nofun
      rw [owns.iff, Worker.descriptor, stage] at there
      exact (Option.some.inj there).symm
  | closeClient stage =>
    have here := owns.sockfd (by rw [stage]; rfl)
    refine owns_of_iff (fun fd' side => ?_) owns.accepted
    cases side with
    | client =>
      refine iff_of_false (close_table fun fd' there => ?_) nofun
      rw [owns.iff, Worker.descriptor, stage] at there
      exact (Option.some.inj there).symm
    | server =>
      rw [close_table_of_ne here (by simp), owns.iff, Worker.descriptor, Worker.descriptor, stage]
      rfl
  | line stage _ _ _ after => exact owns.idle (Line.begins after).idle (stage ▸ .readline _ _) rfl
  | written stage _ _ after => exact owns.idle (Write.begins after).idle (stage ▸ .writebuf _ _) rfl
  | failed stage => exact owns.idle Relay.begins_content.idle (stage ▸ .relayContent ..) rfl
  | _ =>
    refine owns_of_iff (fun fd' side => owns.iff.trans ?_) owns.accepted
    first
    | exact Iff.rfl
    | rw [Worker.descriptor.eq_def, Worker.descriptor.eq_def, ‹w.stage = _›]; exact Iff.rfl

theorem Worker.Moves.owns_other (moves : w.Moves t fd through g w' g') (ne : u ≠ t) (owns : Owns t (some w) g)
    (there : Owns u other g) : Owns u other g' := by
  have same : (∀ fd side, g'.table fd = some (.socket side u) ↔ g.table fd = some (.socket side u)) ∧
      g'.accepted = g.accepted := by
    cases moves with
    | socket stage opens fresh => exact ⟨fun fd' side => openFile_table_of_ne fresh (by simp [ne]), rfl⟩
    | @closeServer newfd stage =>
      have here := owns.newfd (show w.stage.newfd = some newfd by rw [stage]; rfl)
      exact ⟨fun fd' side => close_table_of_ne here (by simp [ne]), rfl⟩
    | closeClient stage =>
      have here := owns.sockfd (by rw [stage]; rfl)
      exact ⟨fun fd' side => close_table_of_ne here (by simp [ne]), rfl⟩
    | _ => exact ⟨fun fd' side => Iff.rfl, rfl⟩
  obtain ⟨leak, files, accepted⟩ := there
  exact ⟨leak, fun fd' side => (same.1 fd' side).trans (files fd' side), same.2 ▸ accepted⟩

theorem accept_other (ne : u ≠ g.accepted) {peer : Sockaddr} (fresh : g.table fd = none) (there : Owns u other g) :
    Owns u other (g.accept g.accepted fd peer) := by
  obtain ⟨leak, files, accepted⟩ := there
  refine ⟨leak, fun fd' side => (openFile_table_of_ne fresh (by simp [ne])).trans (files fd' side), ?_⟩
  rw [← accepted]
  change u < g.accepted + 1 ↔ u < g.accepted
  omega

theorem accept_owns {session : Session} {client : Sockaddr} {created : Bool} (fresh : g.table fd = none)
    (owns : Owns g.accepted none g) : Owns g.accepted (if created then some (session.worker fd client) else none)
      (g.accept g.accepted fd session.peer) := by
  obtain ⟨leak, files, accepted⟩ := owns
  have unleaked : leak = none := by
    by_contra some
    exact absurd (accepted.mpr (.inr some)) (lt_irrefl _)
  have new : ∀ fd' side, g.table fd' ≠ some (.socket side g.accepted) := by
    intro fd' side here
    have held := (files fd' side).mp here
    rw [unleaked] at held
    cases side <;> cases held
  have server : ∀ fd', (g.accept g.accepted fd session.peer).table fd' ≠ some (.socket .server g.accepted) :=
    fun fd' here => new fd' .server ((openFile_table_of_ne fresh (by simp)).mp here)
  have client : ∀ fd', (g.accept g.accepted fd session.peer).table fd' = some (.socket .client g.accepted) ↔ fd = fd' :=
    fun fd' => openFile_table fun fd' => new fd' .client
  have counted : g.accepted < (g.accept g.accepted fd session.peer).accepted := Nat.lt_succ_self _
  cases created with
  | true =>
    refine owns_of_iff (fun fd' side => ?_) counted
    cases side with
    | client => exact (client fd').trans Option.some_inj.symm
    | server => exact iff_of_false (server fd') nofun
  | false =>
    refine ⟨some fd, fun fd' side => ?_, iff_of_true counted (.inr (Option.some_ne_none fd))⟩
    cases side with
    | client => exact (client fd').trans Option.some_inj.symm
    | server => exact iff_of_false (server fd') nofun

theorem owns_outline : Outline act (fun _ _ _ => True) Owns where
  keeps _ owns next := by
    obtain ⟨-, ⟨fd, session, created, rfl, rfl, rfl, fresh, rfl, rfl⟩ |
      ⟨fd, through, w, w', rfl, rfl, rfl, moves⟩ | ⟨side, event, rfl, known, rfl, rfl⟩⟩ := act_cases next
    · exact accept_owns fresh owns
    · exact moves.owns owns
    · exact owns
  stable ne _ _ owns there next := by
    obtain ⟨-, ⟨fd, session, created, rfl, rfl, rfl, fresh, rfl, rfl⟩ |
      ⟨fd, through, w, w', rfl, rfl, rfl, moves⟩ | ⟨side, event, rfl, known, rfl, rfl⟩⟩ := act_cases next
    · exact accept_other ne fresh there
    · exact moves.owns_other ne owns there
    · exact there

end Descriptors

section Statics
variable {w w' : Worker} {t u fd through : Nat} {g g' : Shared} {own own' other : Option Worker} {a : Act}

/-- Only a thread that holds the mutex changes the data of `gethostbyname`. -/
theorem Worker.Moves.hostent (moves : w.Moves t fd through g w' g') (outside : w.stage.inSyscall = false) :
    g'.hostent = g.hostent := by
  cases moves with
  | resolve stage | resolveFails stage =>
    rw [stage] at outside
    cases outside
  | _ => rfl

theorem Worker.Moves.tm (moves : w.Moves t fd through g w' g') (outside : w.stage.inLogfile = false) :
    g'.tm = g.tm := by
  cases moves with
  | localtime stage =>
    rw [stage] at outside
    cases outside
  | _ => rfl

theorem act_hostent (next : act t a own g = some (own', g')) (outside : ¬syscallLock.Inside own) :
    g'.hostent = g.hostent := by
  obtain ⟨-, ⟨fd, session, created, rfl, rfl, -, -, rfl, rfl⟩ | ⟨fd, through, w, w', rfl, rfl, rfl, moves⟩ |
    ⟨side, event, rfl, known, rfl, rfl⟩⟩ := act_cases next
  · rfl
  · exact moves.hostent (Bool.eq_false_iff.mpr (inside_syscall.not.mp outside))
  · rfl

theorem act_tm (next : act t a own g = some (own', g')) (outside : ¬logfileLock.Inside own) : g'.tm = g.tm := by
  obtain ⟨-, ⟨fd, session, created, rfl, rfl, -, -, rfl, rfl⟩ | ⟨fd, through, w, w', rfl, rfl, rfl, moves⟩ |
    ⟨side, event, rfl, known, rfl, rfl⟩⟩ := act_cases next
  · rfl
  · exact moves.tm (Bool.eq_false_iff.mpr (inside_logfile.not.mp outside))
  · rfl

theorem Worker.Moves.asked (moves : w.Moves t fd through g w' g') (asked : w.stage.Asked w.session g) :
    w'.stage.Asked w'.session g' := by
  cases moves with
  | resolve stage known => exact ⟨by simp [known], known.symm⟩
  | resolveFails stage unknown => exact unknown
  | copy stage host =>
    rw [stage] at asked
    exact asked.2.symm.trans host
  | unlockSyscall stage | socket stage =>
    rw [stage] at asked
    exact asked
  | localtime stage => rfl
  | formatCrash stage =>
    rw [stage] at asked ⊢
    exact asked
  | lineCrash stage | writeCrash stage | killed stage =>
    change w.stage.Asked w.session _
    rw [stage]
    trivial
  | line _ _ _ _ after => exact (Line.begins after).idle.asked
  | written _ _ _ after => exact (Write.begins after).idle.asked
  | failed => exact Relay.begins_content.idle.asked
  | _ => trivial

theorem asked_outline : Outline act
    (fun t own g => syscallLock.Held t own g ∧ logfileLock.Held t own g) Asked where
  keeps _ asked next := by
    obtain ⟨-, ⟨fd, session, created, rfl, rfl, -, -, rfl, rfl⟩ | ⟨fd, through, w, w', rfl, rfl, rfl, moves⟩ |
      ⟨side, event, rfl, known, rfl, rfl⟩⟩ := act_cases next
    · cases created with
      | false => exact fun w mem => absurd mem (Option.not_mem_none w)
      | true =>
        rintro w ⟨⟩
        trivial
    · rintro _ ⟨⟩
      exact moves.asked (asked w rfl)
    · exact asked
  stable ne known other _ there next := by
    rintro w ⟨⟩
    have asked := there w rfl
    cases stage : w.stage with
    | copy parsed len =>
      rw [stage] at asked
      have inside := inside_syscall.mpr (show w.stage.inSyscall = true by rw [stage]; rfl)
      have same := known.1.guarded ne other.1 inside (act_hostent next)
      exact ⟨asked.1, same.trans asked.2⟩
    | format parsed newfd sum =>
      rw [stage] at asked
      have inside := inside_logfile.mpr (show w.stage.inLogfile = true by rw [stage]; rfl)
      exact (known.2.guarded ne other.2 inside (act_tm next)).trans asked
    | unlockSyscall | socket | connect =>
      rw [stage] at asked
      exact asked
    | _ => trivial

end Statics

section Orderly
variable {opened : Finset Nat} {client : Sockaddr} {size : Int} {acts : List (Nat × Act)} {s : Process}

theorem orderly_outline : Outline act (fun _ _ _ => True) Orderly := by
  have locks : Outline act (fun _ _ _ => True) fun t own g => syscallLock.Held t own g ∧ logfileLock.Held t own g :=
    (Lock.outline fun _ next => (act_uses next).1).and (Lock.outline fun _ next => (act_uses next).2)
  refine ((locks.and (asked_outline.weaken fun _ _ _ known => known.2)).and
    (owns_outline.weaken fun _ _ _ _ => trivial)).congr fun t own g => ?_
  exact ⟨fun all => ⟨⟨⟨all.syscall, all.logfile⟩, all.asked⟩, all.owns⟩,
    fun all => ⟨all.1.1.1, all.1.1.2, all.2, all.1.2⟩⟩

theorem orderly_start : (Process.start opened client size).All Orderly := by
  intro t
  refine ⟨iff_of_false outside_none.1 nofun, iff_of_false outside_none.2 nofun, ⟨none, fun fd side => ?_, ?_⟩,
    fun w mem => absurd mem (Option.not_mem_none w)⟩
  · simp only [Process.start, held]
    cases side <;> split <;> simp
  · simp [Process.start]

/-- In every interleaving the threads keep order. -/
theorem orderly (run : exec Process.step (.start opened client size) acts = some s) : s.All Orderly :=
  (orderly_outline.always orderly_start acts).last s run

end Orderly

end Splab.Proxy
