import Splab.Shell.JobStates

namespace Splab.Shell

/-- The signals of ctrl-c and ctrl-z. -/
inductive Key
  | sigint
  | sigtstp
  deriving DecidableEq

/-- What the signal does to a child that does not catch it. -/
def Key.event : Key → ChildEvent
  | .sigint => .kill
  | .sigtstp => .stop

def fgpid (jobs : Jobs) : Int :=
  match firstSlot jobs fun job => job.state = .fg with
  | some i => (jobs i).pid
  | none => 0

/-- A call of a handler that passes its signal on, with what `fgpid` has returned to it. -/
structure Handler where
  key : Key
  pid : Option Int

def sigintHandler : Handler := ⟨.sigint, none⟩
def sigtstpHandler : Handler := ⟨.sigtstp, none⟩

/-- The shell with the handlers that have not returned, the innermost first. -/
structure Terminal where
  sh : Sh
  handlers : List Handler

def Terminal.start : Terminal := ⟨initSh, []⟩

/-- A step of the shell and its children, the delivery of a key's signal, and the two calls of its handler. The call
of `kill` hits the child or does not: it fails, or the child catches the signal or keeps it for later. -/
inductive KeyAct
  | shell (act : Act)
  | press (key : Key)
  | fgpid
  | kill (hit : Bool)

/-- The innermost handler returns. -/
def Terminal.return (t : Terminal) (sh : Sh) (outer : List Handler) : Terminal :=
  { t with sh := { sh with pc := sh.pc.resumed }, handlers := outer }

/-- The main flow waits while there are handlers, SIGCHLD is handled also on top of them, and a signal
is blocked while its own handler runs. -/
def Terminal.step (t : Terminal) : KeyAct → Option Terminal
  | .shell .interrupt => none
  | .shell (.main act) => if t.handlers = [] then (t.sh.step (.main act)).map fun sh => { t with sh := sh } else none
  | .shell act => (t.sh.step act).map fun sh => { t with sh := sh }
  | .press key =>
    if t.sh.pc.alive = true ∧ ∀ h ∈ t.handlers, h.key ≠ key then
      some { t with handlers := (match key with
        | .sigint => sigintHandler
        | .sigtstp => sigtstpHandler) :: t.handlers }
    else none
  | .fgpid =>
    match t.sh.pc.alive, t.handlers with
    | true, ⟨key, none⟩ :: outer => some { t with handlers := ⟨key, some (fgpid t.sh.table.jobs)⟩ :: outer }
    | _, _ => none
  | .kill hit =>
    match t.sh.pc.alive, t.handlers with
    | true, ⟨key, some pid⟩ :: outer =>
      if pid ≠ 0 ∧ hit = true then (t.sh.childStep pid key.event).map fun sh => t.return sh outer
      else some (t.return t.sh outer)
    | _, _ => none

/-- What a step of the terminal does. -/
inductive Terminal.Moves (t : Terminal) : Terminal → Prop
  | shell {act sh} (next : t.sh.step act = some sh) (idle : ∀ main, act = .main main → t.handlers = []) :
    t.Moves { t with sh := sh }
  | press {key} : t.Moves { t with handlers := ⟨key, none⟩ :: t.handlers }
  | fgpid {key outer} (handlers : t.handlers = ⟨key, none⟩ :: outer) :
    t.Moves { t with handlers := ⟨key, some (fgpid t.sh.table.jobs)⟩ :: outer }
  | miss {key pid outer} (alive : t.sh.pc.alive = true) (handlers : t.handlers = ⟨key, some pid⟩ :: outer) :
    t.Moves (t.return t.sh outer)
  | hit {key pid outer sh} (alive : t.sh.pc.alive = true) (handlers : t.handlers = ⟨key, some pid⟩ :: outer)
      (nonzero : pid ≠ 0) (hit : t.sh.childStep pid key.event = some sh) : t.Moves (t.return sh outer)

/-- A process that the main flow waits for as the foreground job. -/
def Pc.awaits (pc : Pc) (pid : Int) : Prop := ∃ slot, pc.foreground slot pid

/-- In every run an entry in the foreground is the one that the main flow waits for, unless it is no job at all. -/
structure WaitsInv (s : Sh) : Prop where
  base : Base s
  foreground : ∀ i, (s.table.jobs i).state = .fg → (s.table.jobs i).pid = 0 ∨ s.pc.foreground i (s.table.jobs i).pid
  target : ∀ slot pid, s.pc.target = some (slot, pid) → (s.table.jobs slot).pid = pid ∨ (s.table.jobs slot).pid = 0

section Waits
variable {s s' : Sh} {c : Child} {pid : Int}

theorem WaitsInv.handled (inv : WaitsInv s) (unblocked : s.blocked = false) (mem : c ∈ s.children)
    (handled : Handled s c s') : WaitsInv s' ∧ s'.blocked = false := by
  obtain ⟨base, blocked⟩ := inv.base.handled unblocked mem handled
  have positive := inv.base.agree.positive c mem
  have entry : ∀ i, s'.table.jobs i = s.table.jobs i ∨ s'.table.jobs i = clearjob ∨
      s'.table.jobs i = { s.table.jobs i with state := .st } := by
    intro i
    by_cases own : (s.table.jobs i).pid = c.pid
    · exact .inr (handled.own inv.base.agree.distinct positive own)
    · exact .inl (handled.frame own)
  refine ⟨⟨base, fun i foreground => ?_, fun slot pid target => ?_⟩, blocked⟩
  · have same : s'.table.jobs i = s.table.jobs i := by
      rcases entry i with same | cleared | stopped
      · exact same
      · rw [cleared] at foreground
        cases foreground
      · rw [stopped] at foreground
        cases foreground
    rw [same] at foreground ⊢
    rcases handled.pc with pc | crashed
    · rw [pc]
      exact inv.foreground i foreground
    · rw [crashed]
      exact .inr trivial
  · rcases handled.pc with pc | crashed
    · rw [pc] at target
      rcases entry slot with same | cleared | stopped
      · rw [same]
        exact inv.target slot pid target
      · rw [cleared]
        exact .inr rfl
      · rw [stopped]
        exact inv.target slot pid target
    · rw [crashed] at target
      cases target

theorem WaitsInv.goto (inv : WaitsInv s) (base : Base s') (table : s'.table = s.table)
    (foreground : ∀ i, (s.table.jobs i).pid ≠ 0 → (s.table.jobs i).state = .fg →
      s.pc.foreground i (s.table.jobs i).pid → s'.pc.foreground i (s.table.jobs i).pid)
    (target : ∀ slot pid, s'.pc.target = some (slot, pid) →
      s.pc.target = some (slot, pid) ∨ (s.table.jobs slot).pid = pid) : WaitsInv s' where
  base := base
  foreground i state := by
    rw [table] at state ⊢
    by_cases free : (s.table.jobs i).pid = 0
    · exact .inl free
    · exact .inr (foreground i free state ((inv.foreground i state).resolve_left free))
  target slot pid here := by
    rw [table]
    rcases target slot pid here with before | same
    · exact inv.target slot pid before
    · exact .inl same

/-- Outside of the wait for a foreground job only free entries can be marked as one. -/
theorem WaitsInv.background (inv : WaitsInv s) (outside : ∀ i pid, ¬s.pc.foreground i pid) (i : Fin maxJobs)
    (state : (s.table.jobs i).state = .fg) : (s.table.jobs i).pid = 0 :=
  (inv.foreground i state).resolve_right (outside i _)

theorem WaitsInv.mainStep (inv : WaitsInv s) {act : MainAct} (next : MainStep s act s') : WaitsInv s' := by
  have base := inv.base.mainStep next
  cases next with
  | eof => exact inv.goto base rfl (fun _ _ _ _ => trivial) fun _ _ target => by cases target
  | @line cmdline here =>
    have none := inv.background fun i pid => by rw [here]; exact id
    refine inv.goto base rfl (fun i occupied state => absurd (none i state) occupied) ?_
    have eval := evalStart_cases s.table.jobs cmdline
    generalize evalStart s.table.jobs cmdline = pc at eval ⊢
    cases eval with
    | pid found =>
      intro slot pid target
      cases target
      exact .inr found
    | _ => exact fun _ _ target => by cases target
  | noMemory here | block here | forkFailed here | forked here | print here | printNull here | killFailed here =>
    have none := inv.background fun i pid => by rw [here]; exact id
    exact inv.goto base rfl (fun i occupied state => absurd (none i state) occupied) fun _ _ target => by cases target
  | @add pid bg cmdline here =>
    have none := inv.background fun i pid => by rw [here]; exact id
    have between := inv.base.between
    rw [Between, here] at between
    obtain ⟨_, ⟨c, mem, same⟩, _, _⟩ := between
    have positive := inv.base.agree.positive c mem
    rcases addjob_cases s.table (if bg then .bg else .fg) cmdline (show 1 ≤ pid by omega) with
      ⟨i, free, filled⟩ | ⟨_, full⟩
    · rw [filled] at base ⊢
      refine ⟨base, forall_update (P := fun j job => job.state = .fg → job.pid = 0 ∨ Pc.foreground j job.pid _) ?_
        fun j _ state => .inl (none j state), by cases bg <;> simp [Pc.target]⟩
      intro state
      cases bg with
      | true => cases state
      | false => exact .inr rfl
    · rw [full] at base ⊢
      refine inv.goto base rfl (fun i occupied state => absurd (none i state) occupied) ?_
      cases bg <;> simp [Pc.target]
  | @unblock pid bg here =>
    refine inv.goto base rfl (fun i _ _ waited => ?_) ?_
    · rw [here] at waited
      cases bg <;> exact waited
    · cases bg <;> simp [Pc.target]
  | readPid here =>
    have none := inv.background fun i pid => by rw [here]; exact id
    refine inv.goto base rfl (fun i occupied state => absurd (none i state) occupied) fun slot pid target => ?_
    cases target
    exact .inr rfl
  | stopped here | notStopped here | kill here =>
    have none := inv.background fun i pid => by rw [here]; exact id
    refine inv.goto base rfl (fun i occupied state => absurd (none i state) occupied) fun slot pid target => ?_
    rw [here]
    exact .inl target
  | @write fg slot pid here =>
    have none := inv.background fun i pid => by rw [here]; exact id
    have entry := inv.target slot pid (by rw [here]; rfl)
    refine ⟨base, forall_update (P := fun j job => job.state = .fg → job.pid = 0 ∨ Pc.foreground j job.pid _) ?_
      fun j _ state => .inl (none j state), by cases fg <;> simp [Pc.target]⟩
    intro state
    cases fg with
    | false => cases state
    | true => exact entry.symm
  | @lookup slot pid here found =>
    obtain ⟨same, positive⟩ := getjobpid_eq_some found
    refine inv.goto base rfl (fun i occupied _ waited => ?_) fun _ _ target => by cases target
    rw [here] at waited
    have waited : (s.table.jobs i).pid = pid := waited
    exact ⟨inv.base.agree.distinct i slot occupied (by omega) (waited.trans same.symm), waited⟩
  | @lookupNull pid here none =>
    refine inv.goto base rfl (fun i occupied _ waited => ?_) fun _ _ target => by cases target
    rw [here] at waited
    have waited : (s.table.jobs i).pid = pid := waited
    obtain ⟨c, mem, same⟩ := inv.base.agree.listed i occupied
    have positive := inv.base.agree.positive c mem
    exact absurd waited ((getjobpid_eq_none (by omega)).mp none i)
  | waiting here | pause here =>
    refine inv.goto base rfl (fun i _ _ waited => ?_) fun _ _ target => by cases target
    rw [here] at waited
    exact waited
  | done here done =>
    refine inv.goto base rfl (fun i _ state waited => ?_) fun _ _ target => by cases target
    rw [here] at waited
    obtain ⟨rfl, same⟩ := waited
    exact done ⟨same, state⟩

theorem WaitsInv.step (inv : WaitsInv s) {act : Act} (next : s.step act = some s') : WaitsInv s' := by
  have base := inv.base.step next
  cases step_cases next with
  | main next => exact inv.mainStep next
  | child => exact inv.goto base rfl (fun _ _ _ => id) fun _ _ => .inl
  | deliver unblocked ran =>
    have start : WaitsInv { s with pending := false, pc := s.pc.resumed } :=
      inv.goto ⟨inv.base.agree, inv.base.between.resumed⟩ rfl (fun i _ _ waited => by simpa using waited)
        fun slot pid target => .inl (by simpa using target)
    have keep := sigchldHandler_keeps (I := fun s => WaitsInv s ∧ s.blocked = false) ⟨start, unblocked⟩ ran
    exact (keep fun s c s' both mem _ handled => both.1.handled both.2 mem handled).1
  | interrupt =>
    exact inv.goto base rfl (fun i _ _ waited => by simpa using waited) fun slot pid target =>
      .inl (by simpa using target)
  | quit => exact inv.goto base rfl (fun _ _ _ _ => trivial) nofun

theorem waitsInv_initSh : WaitsInv initSh where
  base := base_initSh
  foreground _ := nofun
  target _ _ := nofun

end Waits

section Terminal
variable {t t' : Terminal} {s s' : Sh} {jobs : Jobs} {test : Job → Bool} {i : Fin maxJobs} {pid : Int} {act : Act}

theorem firstSlot_eq_iff : firstSlot jobs test = some i ↔ test (jobs i) = true ∧ ∀ j < i, test (jobs j) = false := by
  unfold firstSlot
  rw [List.find?_eq_some_iff_getElem]
  refine and_congr_right fun _ => ⟨?_, fun before => ⟨i, by simp, by simp, fun j less => ?_⟩⟩
  · rintro ⟨n, inside, rfl, before⟩ j less
    simpa using before j (by simpa using Fin.lt_def.mp less)
  · simpa using before ⟨j, less.trans i.isLt⟩ less

/-- `fgpid` returns the process id of the first entry in the foreground. -/
theorem fgpid_cases : fgpid jobs = 0 ∧ (∀ i, (jobs i).state ≠ .fg) ∨ ∃ i, (jobs i).state = .fg ∧
    (∀ j < i, (jobs j).state ≠ .fg) ∧ fgpid jobs = (jobs i).pid := by
  unfold fgpid
  cases found : firstSlot jobs fun job => job.state = .fg with
  | none =>
    rw [firstSlot_eq_none] at found
    exact .inl ⟨rfl, fun i => of_decide_eq_false (found i)⟩
  | some i =>
    obtain ⟨here, before⟩ := firstSlot_eq_iff.mp found
    exact .inr ⟨i, of_decide_eq_true here, fun j less => of_decide_eq_false (before j less), rfl⟩

/-- What `fgpid` returns is no process or the one that the main flow waits for. -/
theorem WaitsInv.fgpid (inv : WaitsInv s) :
    Shell.fgpid s.table.jobs = 0 ∨ 0 < Shell.fgpid s.table.jobs ∧ s.pc.awaits (Shell.fgpid s.table.jobs) := by
  rcases @fgpid_cases s.table.jobs with ⟨zero, _⟩ | ⟨i, state, _, here⟩
  · exact .inl zero
  · rw [here]
    by_cases free : (s.table.jobs i).pid = 0
    · exact .inl free
    · obtain ⟨c, mem, same⟩ := inv.base.agree.listed i free
      have positive := inv.base.agree.positive c mem
      exact .inr ⟨by omega, i, (inv.foreground i state).resolve_left free⟩

/-- The main flow waits for one process at a time. -/
theorem Pc.foreground_unique {pc : Pc} {j : Fin maxJobs} {other : Int} (alive : pc.alive = true)
    (one : pc.foreground i pid) (two : pc.foreground j other) : pid = other := by
  unfold Pc.foreground at one two
  split at one
  · exact one.trans two.symm
  · exact one.trans two.symm
  · exact one.2.trans two.2.symm
  · exact one.2.trans two.2.symm
  · exact one.2.trans two.2.symm
  · cases alive
  · cases alive
  · exact absurd one id

theorem Pc.awaits_resumed {pc : Pc} : pc.resumed.awaits pid ↔ pc.awaits pid := by
  unfold Pc.awaits
  simp only [Pc.foreground_resumed]

/-- While the main flow does not move, it waits for the same process. -/
theorem awaits_step (next : s.step act = some s') (other : ∀ main, act ≠ .main main) (awaits : s.pc.awaits pid) :
    s'.pc.awaits pid := by
  cases step_cases next with
  | main => exact absurd rfl (other _)
  | child => exact awaits
  | deliver unblocked ran =>
    rcases sigchldHandler_pc ran with same | crashed
    · rw [same]
      exact Pc.awaits_resumed.mpr awaits
    · rw [crashed]
      exact ⟨⟨0, by decide⟩, trivial⟩
  | interrupt => exact Pc.awaits_resumed.mpr awaits
  | quit => exact ⟨⟨0, by decide⟩, trivial⟩

/-- The handlers of the keys know no process but the one that the main flow waits for. -/
structure TerminalInv (t : Terminal) : Prop where
  waits : WaitsInv t.sh
  handlers : ∀ h ∈ t.handlers, ∀ pid, h.pid = some pid → pid = 0 ∨ 0 < pid ∧ t.sh.pc.awaits pid

theorem terminal_cases {act : KeyAct} (next : t.step act = some t') : t.Moves t' := by
  unfold Terminal.step at next
  split at next
  · cases next
  · split at next
    · next idle =>
      obtain ⟨s, moved, rfl⟩ := Option.map_eq_some_iff.mp next
      exact .shell moved fun _ _ => idle
    · cases next
  · next other =>
    obtain ⟨s, moved, rfl⟩ := Option.map_eq_some_iff.mp next
    exact .shell moved fun main same => absurd same (other main)
  · next key =>
    split at next <;> cases next
    cases key <;> exact .press
  · split at next
    · next handlers =>
      cases next
      exact .fgpid handlers
    · cases next
  · split at next
    · next alive handlers =>
      split at next
      · next sent =>
        obtain ⟨s, hit, rfl⟩ := Option.map_eq_some_iff.mp next
        exact .hit alive handlers sent.1 hit
      · cases next
        exact .miss alive handlers
    · cases next

theorem childStep_pc {event : ChildEvent} (next : s.childStep pid event = some s') : s'.pc = s.pc := by
  obtain ⟨c, _, next⟩ := Option.bind_eq_some_iff.mp next
  obtain ⟨_, _, rfl⟩ := Option.map_eq_some_iff.mp next
  rfl

/-- To the shell without handlers, a key is an event of the child, if it hits, and a signal that wakes up `pause`. -/
theorem Terminal.Moves.refines (moves : t.Moves t') : ∃ acts, exec Sh.step t.sh acts = some t'.sh := by
  have woken : ∀ s : Sh, s.pc.alive = true → ∀ outer, s.step .interrupt = some (t.return s outer).sh :=
    fun s alive outer => if_pos alive
  cases moves with
  | @shell act s next idle => exact ⟨[act], by rw [exec, next]; rfl⟩
  | press => exact ⟨[], rfl⟩
  | fgpid => exact ⟨[], rfl⟩
  | @miss key pid outer alive => exact ⟨[.interrupt], by rw [exec, woken _ alive outer]; rfl⟩
  | @hit key pid outer s alive _ _ hit =>
    refine ⟨[.child pid key.event, .interrupt], ?_⟩
    have first : t.sh.step (.child pid key.event) = some s := hit
    rw [exec, first]
    change exec Sh.step s [.interrupt] = _
    rw [exec, woken s ((childStep_pc hit).symm ▸ alive) outer]
    rfl

theorem TerminalInv.step (inv : TerminalInv t) {act : KeyAct} (next : t.step act = some t') : TerminalInv t' := by
  have moves := terminal_cases next
  refine ⟨?_, ?_⟩
  · obtain ⟨acts, run⟩ := moves.refines
    exact (always_of_keep (fun _ _ _ inv next => WaitsInv.step inv next) inv.waits acts).last _ run
  · have outside : ∀ {outer : List Handler}, (∀ h ∈ outer, h ∈ t.handlers) → ∀ s : Sh, s.pc = t.sh.pc →
        ∀ h ∈ outer, ∀ pid, h.pid = some pid → pid = 0 ∨ 0 < pid ∧ s.pc.resumed.awaits pid := by
      intro outer sub s pc h mem pid here
      rw [pc, Pc.awaits_resumed]
      exact inv.handlers h (sub h mem) pid here
    cases moves with
    | @shell act s moved idle =>
      intro h mem pid here
      refine (inv.handlers h mem pid here).imp_right fun ⟨positive, awaits⟩ => ⟨positive, ?_⟩
      refine awaits_step moved (fun main same => ?_) awaits
      rw [idle main same] at mem
      cases mem
    | press => exact List.forall_mem_cons.mpr ⟨nofun, inv.handlers⟩
    | @fgpid key outer handlers =>
      refine List.forall_mem_cons.mpr ⟨fun pid here => ?_, fun h mem => inv.handlers h ?_⟩
      · cases here
        exact inv.waits.fgpid
      · rw [handlers]
        exact List.mem_cons_of_mem _ mem
    | miss _ handlers => exact outside (fun h mem => handlers ▸ List.mem_cons_of_mem _ mem) _ rfl
    | hit _ handlers _ hit => exact outside (fun h mem => handlers ▸ List.mem_cons_of_mem _ mem) _ (childStep_pc hit)

end Terminal

/-- In every run and every nesting of the handlers, what ctrl-c and ctrl-z pass on goes to no process but the one that
the main flow waits for in the foreground. A foreground job gets it unless `do_bgfg` has marked an earlier entry as
the foreground job after its own job was gone. -/
theorem keys_reach_foreground (acts : List KeyAct) :
    Always Terminal.step (fun t =>
      (∀ h ∈ t.handlers, ∀ pid, h.pid = some pid → pid = 0 ∨ 0 < pid ∧ t.sh.pc.awaits pid) ∧
        (t.sh.pc.alive = true → ∀ i, (t.sh.table.jobs i).pid ≠ 0 → (t.sh.table.jobs i).state = .fg →
          (fgpid t.sh.table.jobs = (t.sh.table.jobs i).pid ↔
            ∀ j < i, ¬((t.sh.table.jobs j).pid = 0 ∧ (t.sh.table.jobs j).state = .fg)))) Terminal.start acts := by
  have start : TerminalInv .start := ⟨waitsInv_initSh, fun h mem => absurd mem List.not_mem_nil⟩
  refine (always_of_keep (fun _ _ _ inv next => TerminalInv.step inv next) start acts).imp fun t inv =>
    ⟨inv.handlers, fun alive i occupied state => ?_⟩
  rcases @fgpid_cases t.sh.table.jobs with ⟨_, unmarked⟩ | ⟨k, stateK, before, here⟩
  · exact absurd state (unmarked i)
  · rw [here]
    constructor
    · intro same j less both
      obtain rfl := inv.waits.base.agree.distinct k i (by omega) occupied same
      exact before j less both.2
    · intro clear
      rcases lt_trichotomy k i with less | rfl | more
      · have occupiedK : (t.sh.table.jobs k).pid ≠ 0 := fun free => clear k less ⟨free, stateK⟩
        exact Pc.foreground_unique alive ((inv.waits.foreground k stateK).resolve_left occupiedK)
          ((inv.waits.foreground i state).resolve_left occupied)
      · rfl
      · exact absurd state (before i more)

/-- The first job exits while `fg` brings it to the foreground. Then `fg` waits for the second, and ctrl-c is lost. -/
def lostKeyRun : List KeyAct :=
  [.main (.line "ls &\n".toList true), .main .next, .main (.forked (some 5)), .main .next, .main .next, .main .next,
    .main (.line "ls &\n".toList true), .main .next, .main (.forked (some 6)), .main .next, .main .next, .main .next,
    .main (.line "fg %1\n".toList true), .main .next, .main .next, .child 5 .exit, .deliver [5], .main .next,
    .main .next, .main (.line "fg %2\n".toList true), .main .next, .main .next, .main .next, .main .next].map .shell ++
  [.press .sigint, .fgpid]

example : ((exec Terminal.step Terminal.start lostKeyRun).map fun t =>
    (t.sh.pc, (t.handlers.map Handler.pid))) = some (.waitTest ⟨1, by decide⟩ 6, [some 0]) := by
  decide +kernel

end Splab.Shell
