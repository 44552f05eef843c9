import Splab.Lib.Transitions
import Splab.Shell.Parse

namespace Splab.Shell

/-- What a child process does, as far as the kernel tells the shell about it. A stop is reported once. -/
inductive Life
  | running
  | stopped (reported : Bool)
  | exited
  | signaled
  deriving DecidableEq, Repr

/-- A child that the shell has not reaped yet. `blocked` says that it has SIGCHLD blocked, `execed` that it
has got as far as `execve`. `stopSeen` is no kernel state: the last change that `waitpid` reported
is a stop, and no SIGCONT was sent since. -/
structure Child where
  pid : Int
  life : Life
  execed : Bool
  blocked : Bool
  stopSeen : Bool
  deriving DecidableEq, Repr

/-- There is a status change that `waitpid` with `WUNTRACED` would report. -/
def Child.changed (c : Child) : Bool :=
  match c.life with
  | .running => false
  | .stopped reported => !reported
  | .exited | .signaled => true

/-- The ways in which the shell leaves the model: `strcmp` of a null pointer, a write
behind the end of `argv`, and a null pointer for a job. -/
inductive Crash
  | nullArgv
  | overrun
  | nullJob
  deriving DecidableEq, Repr

/-- The statement that the main flow executes next. -/
inductive Pc
  | prompt
  | evalBlock (bg : Bool) (cmdline : List Char)
  | evalFork (bg : Bool) (cmdline : List Char)
  | evalAdd (pid : Int) (bg : Bool) (cmdline : List Char)
  | evalPrint (pid : Int)
  | evalUnblock (pid : Int) (bg : Bool)
  | bgfgPid (fg : Bool) (slot : Fin maxJobs)
  | bgfgTest (fg : Bool) (slot : Fin maxJobs) (pid : Int)
  | bgfgKill (fg : Bool) (slot : Fin maxJobs) (pid : Int)
  | bgfgWrite (fg : Bool) (slot : Fin maxJobs) (pid : Int)
  | waitLookup (pid : Int)
  | waitTest (slot : Fin maxJobs) (pid : Int)
  | aboutToPause (slot : Fin maxJobs) (pid : Int)
  | paused (slot : Fin maxJobs) (pid : Int)
  | exited
  | crashed (crash : Crash)
  deriving DecidableEq, Repr

/-- The shell with its children. `pending` and `blocked` are about SIGCHLD. -/
structure Sh where
  table : Table
  children : List Child
  pending : Bool
  blocked : Bool
  pc : Pc

def initSh : Sh := ⟨initTable, [], false, false, .prompt⟩

/-- The job that `do_bgfg` works on, and how it goes on with it. -/
def bgfgTarget (jobs : Jobs) (fg : Bool) (argv : List (List Char)) : Pc :=
  match argv[1]? with
  | none => .prompt
  | some arg =>
    if arg.head? = some '%' then
      let (jid, ptr) := strtol arg.tail
      if ptr ≠ [] then .prompt
      else match getjobjid jobs (wrapInt jid) with
        | none => .prompt
        | some slot => .bgfgPid fg slot
    else
      let (pid, ptr) := strtol arg
      if ptr ≠ [] then .prompt
      else match getjobpid jobs (wrapInt pid) with
        | none => .prompt
        | some slot => .bgfgTest fg slot (wrapInt pid)

/-- `eval` up to its first system call, with `builtin_cmd` and the lookup of `do_bgfg`. -/
def evalStart (jobs : Jobs) (cmdline : List Char) : Pc :=
  let (bg, argv) := parseline cmdline
  if maxArgs ≤ (splitLine cmdline).length then .crashed .overrun
  else match argv.head? with
    | none => .crashed .nullArgv
    | some name =>
      if name = "quit".toList then .exited
      else if name = "jobs".toList then .prompt
      else if name = "bg".toList ∨ name = "fg".toList then bgfgTarget jobs (name = "fg".toList) argv
      else .evalBlock bg cmdline

/-- A line that `fgets` can deliver. -/
def ReadableLine (cmdline : List Char) : Prop := cmdline ≠ [] ∧ cmdline.length < maxLine ∧ '\x00' ∉ cmdline

instance {cmdline : List Char} : Decidable (ReadableLine cmdline) := inferInstanceAs (Decidable (_ ∧ _ ∧ _))

def setState (jobs : Jobs) (slot : Fin maxJobs) (state : JobState) : Jobs :=
  Function.update jobs slot { jobs slot with state := state }

/-- The child with this process id after `f`. -/
def onChild (children : List Child) (pid : Int) (f : Child → Child) : List Child :=
  children.map fun c => if c.pid = pid then f c else c

/-- SIGCONT resumes a stopped child. -/
def Child.continued (c : Child) : Child :=
  { c with
    life := match c.life with
      | .stopped _ => .running
      | life => life
    stopSeen := false }

/-- A statement of the main flow, with what its system call returns. After a successful `kill` the
kernel may also send SIGCHLD for the resumed child. -/
inductive MainAct
  | line (cmdline : List Char) (allocated : Bool)
  | eof
  | next
  | forked (result : Option Int)
  | killed (ok notify : Bool)

def Sh.mainStep (s : Sh) (act : MainAct) : Option Sh :=
  match s.pc, act with
  | .prompt, .eof => some { s with pc := .exited }
  | .prompt, .line cmdline allocated =>
    if ReadableLine cmdline then
      some { s with pc := if allocated then evalStart s.table.jobs cmdline else .prompt }
    else none
  | .evalBlock bg cmdline, .next => some { s with blocked := true, pc := .evalFork bg cmdline }
  | .evalFork _ _, .forked none => some { s with pc := .prompt }
  | .evalFork bg cmdline, .forked (some pid) =>
    if 0 < pid ∧ ∀ c ∈ s.children, c.pid ≠ pid then
      some { s with
        children := ⟨pid, .running, false, s.blocked, false⟩ :: s.children
        pc := .evalAdd pid bg cmdline }
    else none
  | .evalAdd pid bg cmdline, .next =>
    some { s with
      table := (addjob s.table pid (if bg then .bg else .fg) cmdline).1
      pc := if bg then .evalPrint pid else .evalUnblock pid bg }
  | .evalPrint pid, .next =>
    some { s with pc := if getjobpid s.table.jobs pid = none then .crashed .nullJob else .evalUnblock pid true }
  | .evalUnblock pid bg, .next => some { s with blocked := false, pc := if bg then .prompt else .waitLookup pid }
  | .bgfgPid fg slot, .next => some { s with pc := .bgfgTest fg slot (s.table.jobs slot).pid }
  | .bgfgTest fg slot pid, .next =>
    some { s with pc := if (s.table.jobs slot).state = .st then .bgfgKill fg slot pid else .bgfgWrite fg slot pid }
  | .bgfgKill fg slot pid, .killed true notify =>
    some { s with
      children := onChild s.children pid Child.continued
      pending := s.pending || notify
      pc := .bgfgWrite fg slot pid }
  | .bgfgKill _ _ _, .killed false _ => some { s with pc := .prompt }
  | .bgfgWrite fg slot pid, .next =>
    some { s with
      table := { s.table with jobs := setState s.table.jobs slot (if fg then .fg else .bg) }
      pc := if fg then .waitLookup pid else .prompt }
  | .waitLookup pid, .next =>
    some { s with pc := match getjobpid s.table.jobs pid with
      | none => .prompt
      | some slot => .waitTest slot pid }
  | .waitTest slot pid, .next =>
    some { s with pc :=
      if (s.table.jobs slot).pid = pid ∧ (s.table.jobs slot).state = .fg then .aboutToPause slot pid else .prompt }
  | .aboutToPause slot pid, .next => some { s with pc := .paused slot pid }
  | _, _ => none

/-- What a child does of its own or by a signal from elsewhere. -/
inductive ChildEvent
  | exec
  | exit
  | kill
  | stop
  | cont (notify : Bool)

/-- The child after the event, and whether the kernel sends SIGCHLD to the shell. -/
def Child.event (c : Child) : ChildEvent → Option (Child × Bool)
  | .exec => if c.life = .running ∧ c.execed = false then some ({ c with execed := true }, false) else none
  | .exit => if c.life = .running then some ({ c with life := .exited }, true) else none
  | .kill =>
    if c.life = .running ∨ c.life = .stopped true ∨ c.life = .stopped false then
      some ({ c with life := .signaled }, true)
    else none
  | .stop => if c.life = .running then some ({ c with life := .stopped false }, true) else none
  | .cont notify => some (c.continued, notify)

def Sh.childStep (s : Sh) (pid : Int) (event : ChildEvent) : Option Sh :=
  (s.children.find? fun c => c.pid = pid).bind fun c => (c.event event).map fun (c', notify) =>
    { s with children := onChild s.children pid fun _ => c', pending := s.pending || notify }

/-- `waitpid` reaps a dead child, and remembers of a stopped one that its stop is reported. -/
def waited (children : List Child) (c : Child) : List Child :=
  match c.life with
  | .stopped _ => onChild children c.pid fun c => { c with life := .stopped true, stopSeen := true }
  | _ => children.filter fun d => d.pid ≠ c.pid

/-- One round of the loop of `sigchld_handler`, for the child that `waitpid` returned. -/
def Sh.handle (s : Sh) (c : Child) : Sh :=
  match c.life, getjobpid s.table.jobs c.pid with
  | .signaled, none | .stopped _, none => { s with children := waited s.children c, pc := .crashed .nullJob }
  | .stopped _, some slot =>
    { s with
      table := { s.table with jobs := setState s.table.jobs slot .st }
      children := waited s.children c }
  | _, _ => { s with table := (deletejob s.table c.pid).1, children := waited s.children c }

/-- `sigchld_handler`, when `waitpid` reports the children in the given order. -/
def Sh.sigchldHandler (s : Sh) : List Int → Option Sh
  | [] => if maxjid s.table.jobs = 0 ∨ s.children.all fun c => !c.changed then some s else none
  | pid :: rest =>
    if maxjid s.table.jobs = 0 then none
    else (s.children.find? fun c => c.pid = pid && c.changed).bind fun c =>
      if (s.handle c).pc = .crashed .nullJob then (if rest = [] then some (s.handle c) else none)
      else (s.handle c).sigchldHandler rest

/-- Where the main flow goes on after a signal handler: only `pause` notices it. -/
def Pc.resumed : Pc → Pc
  | .paused slot pid => .waitTest slot pid
  | pc => pc

def Pc.alive : Pc → Bool
  | .exited | .crashed _ => false
  | _ => true

/-- A step of the whole system: a statement of the main flow, an event of a child, the delivery of a pending SIGCHLD
with the order in which `waitpid` reports, the handler of SIGINT or SIGTSTP, or that of SIGQUIT. What the
first two do to the foreground job are events of the child. -/
inductive Act
  | main (act : MainAct)
  | child (pid : Int) (event : ChildEvent)
  | deliver (order : List Int)
  | interrupt
  | quit

def Sh.step (s : Sh) : Act → Option Sh
  | .main act => s.mainStep act
  | .child pid event => s.childStep pid event
  | .deliver order =>
    if s.pending = true ∧ s.blocked = false ∧ s.pc.alive = true then
      Sh.sigchldHandler { s with pending := false, pc := s.pc.resumed } order
    else none
  | .interrupt => if s.pc.alive = true then some { s with pc := s.pc.resumed } else none
  | .quit => if s.pc.alive = true then some { s with pc := .exited } else none

end Splab.Shell
