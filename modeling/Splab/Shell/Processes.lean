import Splab.Shell.Steps

namespace Splab.Shell

/-- Every job belongs to a child of the shell, and no two of them to the same one. -/
structure Agree (children : List Child) (jobs : Jobs) : Prop where
  positive : ∀ c ∈ children, 0 < c.pid
  distinct : Distinct Job.pid jobs
  listed : ∀ i, (jobs i).pid ≠ 0 → ∃ c ∈ children, c.pid = (jobs i).pid

/-- From the call of `fork` to that of `addjob` the handler does not run. -/
def Between (s : Sh) : Prop :=
  match s.pc with
  | .evalFork _ _ => s.blocked = true
  | .evalAdd pid _ _ => s.blocked = true ∧ (∃ c ∈ s.children, c.pid = pid) ∧ (∀ i, (s.table.jobs i).pid ≠ pid) ∧
      ∀ c ∈ s.children, c.pid = pid → c.stopSeen = false
  | _ => True

structure Base (s : Sh) : Prop where
  agree : Agree s.children s.table.jobs
  between : Between s

/-- The children after a step that neither creates nor reaps one. -/
structure SamePids (children children' : List Child) : Prop where
  origin : ∀ d ∈ children', ∃ c ∈ children, c.pid = d.pid
  kept : ∀ c ∈ children, ∃ d ∈ children', d.pid = c.pid

/-- The step moreover reports no stop. -/
structure Follows (children children' : List Child) : Prop extends SamePids children children' where
  seen : ∀ d ∈ children', d.stopSeen = true → ∃ c ∈ children, c.pid = d.pid ∧ c.stopSeen = true

section Children
variable {c c' : Child} {children children' : List Child} {event : ChildEvent} {notify : Bool} {pid : Int}
  {f : Child → Child}

theorem Child.event_keeps (next : c.event event = some (c', notify)) :
    c'.pid = c.pid ∧ c'.blocked = c.blocked ∧ (c'.stopSeen = true → c.stopSeen = true) ∧
      (c'.execed = true → c.execed = true ∨ event = .exec) := by
  cases event with
  | exec =>
    rw [Child.event] at next
    split at next
    · cases next
      exact ⟨rfl, rfl, id, fun _ => .inr rfl⟩
    · cases next
  | exit | kill | stop =>
    rw [Child.event] at next
    split at next
    · cases next
      exact ⟨rfl, rfl, id, .inl⟩
    · cases next
  | cont notify =>
    cases next
    exact ⟨rfl, rfl, nofun, .inl⟩

theorem samePids_onChild (pids : ∀ c ∈ children, c.pid = pid → (f c).pid = pid) :
    SamePids children (onChild children pid f) where
  origin d mem := by
    obtain ⟨c, inside, rfl⟩ := mem_onChild.mp mem
    refine ⟨c, inside, ?_⟩
    split
    · next same => exact same.trans (pids c inside same).symm
    · rfl
  kept c mem := by
    refine ⟨_, mem_onChild.mpr ⟨c, mem, rfl⟩, ?_⟩
    split
    · next same => exact (pids c mem same).trans same.symm
    · rfl

theorem follows_onChild (pids : ∀ c ∈ children, c.pid = pid → (f c).pid = pid)
    (seen : ∀ c ∈ children, c.pid = pid → (f c).stopSeen = true →
      ∃ d ∈ children, d.pid = pid ∧ d.stopSeen = true) : Follows children (onChild children pid f) where
  toSamePids := samePids_onChild pids
  seen d mem stop := by
    obtain ⟨c, inside, rfl⟩ := mem_onChild.mp mem
    split at stop
    · next same =>
      obtain ⟨d, other, eq, stopped⟩ := seen c inside same stop
      refine ⟨d, other, ?_, stopped⟩
      rw [if_pos same]
      exact eq.trans (pids c inside same).symm
    · next other => exact ⟨c, inside, by rw [if_neg other], stop⟩

theorem Follows.refl : Follows children children where
  origin c mem := ⟨c, mem, rfl⟩
  kept c mem := ⟨c, mem, rfl⟩
  seen c mem stop := ⟨c, mem, rfl, stop⟩

theorem follows_continued : Follows children (onChild children pid Child.continued) :=
  follows_onChild (fun _ _ same => same) fun _ _ _ seen => by cases seen

theorem follows_event (mem : c ∈ children) (same : c.pid = pid) (next : c.event event = some (c', notify)) :
    Follows children (onChild children pid fun _ => c') := by
  obtain ⟨pids, _, seen, _⟩ := Child.event_keeps next
  exact follows_onChild (fun _ _ _ => pids.trans same) fun _ _ _ stop => ⟨c, mem, same, seen stop⟩

end Children

section Lists
variable {children children' : List Child} {jobs : Jobs} {t : Table} {slot : Fin maxJobs} {state : JobState}
  {cmdline : List Char} {pid : Int}

theorem setState_pid (i : Fin maxJobs) : (setState jobs slot state i).pid = (jobs i).pid := by
  refine forall_update (P := fun i job => job.pid = (jobs i).pid) ?_ (fun _ _ => rfl) i
  rfl

theorem Agree.setState (agree : Agree children jobs) : Agree children (setState jobs slot state) where
  positive := agree.positive
  distinct i j := by
    rw [setState_pid, setState_pid]
    exact agree.distinct i j
  listed i := by
    rw [setState_pid]
    exact agree.listed i

theorem Agree.samePids (agree : Agree children jobs) (samePids : SamePids children children') :
    Agree children' jobs where
  positive d mem := by
    obtain ⟨c, inside, same⟩ := samePids.origin d mem
    have := agree.positive c inside
    omega
  distinct := agree.distinct
  listed i occupied := by
    obtain ⟨c, mem, same⟩ := agree.listed i occupied
    obtain ⟨d, inside, eq⟩ := samePids.kept c mem
    exact ⟨d, inside, eq.trans same⟩

theorem Agree.fork (agree : Agree children jobs) {c : Child} (positive : 0 < c.pid) :
    Agree (c :: children) jobs where
  positive := List.forall_mem_cons.mpr ⟨positive, agree.positive⟩
  distinct := agree.distinct
  listed i occupied :=
    have ⟨d, mem, same⟩ := agree.listed i occupied
    ⟨d, List.mem_cons_of_mem _ mem, same⟩

theorem Agree.addjob (agree : Agree children t.jobs) (child : ∃ c ∈ children, c.pid = pid)
    (unlisted : ∀ i, (t.jobs i).pid ≠ pid) : Agree children (Shell.addjob t pid state cmdline).1.jobs := by
  obtain ⟨c, mem, same⟩ := child
  have positive := agree.positive c mem
  rcases addjob_cases t state cmdline (show 1 ≤ pid by omega) with
    ⟨i, _, filled⟩ | ⟨_, full⟩
  · rw [filled]
    exact {
      positive := agree.positive
      distinct := agree.distinct.update fun _ j _ _ => unlisted j
      listed := forall_update (P := fun _ job => job.pid ≠ 0 → ∃ c ∈ children, c.pid = job.pid)
        (fun _ => ⟨c, mem, same⟩) fun j _ => agree.listed j }
  · rw [full]
    exact agree

theorem Agree.reaped (agree : Agree children jobs) (none : ∀ i, (jobs i).pid ≠ pid) :
    Agree (children.filter fun d => d.pid ≠ pid) jobs where
  positive c mem := agree.positive c (List.mem_of_mem_filter mem)
  distinct := agree.distinct
  listed i occupied := by
    obtain ⟨d, inside, same⟩ := agree.listed i occupied
    exact ⟨d, List.mem_filter.mpr ⟨inside, decide_eq_true (same ▸ none i)⟩, same⟩

theorem samePids_stopped :
    SamePids children (onChild children pid fun c => { c with life := .stopped true, stopSeen := true }) :=
  samePids_onChild fun _ _ same => same

/-- A reaped child and its job disappear together. -/
theorem Agree.deletejob (agree : Agree children t.jobs) (child : ∃ c ∈ children, c.pid = pid) :
    Agree (children.filter fun d => d.pid ≠ pid) (Shell.deletejob t pid).1.jobs := by
  obtain ⟨c, mem, same⟩ := child
  have positive := agree.positive c mem
  rcases deletejob_cases t pid with ⟨i, here, _, cleared⟩ | ⟨none, unchanged⟩
  · rw [cleared]
    have cut : Agree children (Function.update t.jobs i clearjob) := {
      positive := agree.positive
      distinct := agree.distinct.update fun occupied => absurd rfl occupied
      listed := forall_update (P := fun _ job => job.pid ≠ 0 → ∃ c ∈ children, c.pid = job.pid)
        (fun occupied => absurd rfl occupied) fun j _ => agree.listed j }
    refine cut.reaped (forall_update (P := fun _ job => job.pid ≠ pid) (by simp only [clearjob]; omega) ?_)
    intro j other eq
    exact other (agree.distinct j i (by omega) (by omega) (eq.trans here.symm))
  · rw [unchanged]
    refine agree.reaped fun i eq => ?_
    have := none i eq
    omega

end Lists

section Steps
variable {s s' : Sh} {act : Act}

theorem Between.unblocked {t : Sh} (between : Between s) (unblocked : s.blocked = false) (same : t.pc = s.pc) :
    Between t := by
  rw [Between] at between ⊢
  rw [same]
  split
  · next here =>
    rw [here] at between
    cases unblocked.symm.trans between
  · next here =>
    rw [here] at between
    cases unblocked.symm.trans between.1
  · trivial

theorem between_evalStart {jobs : Jobs} {cmdline : List Char} (eval : EvalStart jobs cmdline s.pc) : Between s := by
  rw [Between]
  split
  · next here => rw [here] at eval; cases eval
  · next here => rw [here] at eval; cases eval
  · trivial

theorem Between.resumed (between : Between s) {pending : Bool} :
    Between { s with pending := pending, pc := s.pc.resumed } := by
  rw [Between] at between ⊢
  cases here : s.pc <;> rw [here] at between <;> exact between

theorem Base.mainStep {act : MainAct} (base : Base s) (next : MainStep s act s') : Base s' := by
  cases next with
  | eof | noMemory | forkFailed | print | printNull | readPid | stopped | notStopped | killFailed | lookup | lookupNull
  | waiting | done | pause => exact ⟨base.agree, trivial⟩
  | line => exact ⟨base.agree, between_evalStart (evalStart_cases _ _)⟩
  | block => exact ⟨base.agree, rfl⟩
  | @forked bg cmdline pid here positive fresh =>
    have between := base.between
    rw [Between, here] at between
    refine ⟨base.agree.fork positive, between, ⟨_, List.mem_cons_self, rfl⟩, fun i same => ?_, ?_⟩
    · obtain ⟨c, mem, eq⟩ := base.agree.listed i (by simp only at same; omega)
      exact fresh c mem (eq.trans same)
    · exact List.forall_mem_cons.mpr ⟨fun _ => rfl, fun c mem same => absurd same (fresh c mem)⟩
  | @add pid bg cmdline here =>
    have between := base.between
    rw [Between, here] at between
    obtain ⟨_, child, unlisted, _⟩ := between
    refine ⟨base.agree.addjob child unlisted, ?_⟩
    cases bg <;> trivial
  | @unblock pid bg =>
    refine ⟨base.agree, ?_⟩
    cases bg <;> trivial
  | kill => exact ⟨base.agree.samePids follows_continued.toSamePids, trivial⟩
  | @write fg =>
    refine ⟨base.agree.setState, ?_⟩
    cases fg <;> trivial

theorem Base.follows (base : Base s) {children : List Child} {pending : Bool} (follows : Follows s.children children) :
    Base { s with children := children, pending := pending } := by
  refine ⟨base.agree.samePids follows.toSamePids, ?_⟩
  have between := base.between
  rw [Between] at between ⊢
  split
  · next here =>
    rw [here] at between
    exact between
  · next here =>
    rw [here] at between
    obtain ⟨blocked, ⟨c, mem, same⟩, unlisted, running⟩ := between
    obtain ⟨d, inside, eq⟩ := follows.kept c mem
    refine ⟨blocked, ⟨d, inside, eq.trans same⟩, unlisted, fun d mem same => ?_⟩
    refine Bool.eq_false_iff.mpr fun stop => ?_
    obtain ⟨c, inside, eq, seen⟩ := follows.seen d mem stop
    exact Bool.eq_false_iff.mp (running c inside (eq.trans same)) seen
  · trivial

theorem Base.handled {c : Child} (base : Base s) (unblocked : s.blocked = false) (mem : c ∈ s.children)
    (handled : Handled s c s') : Base s' ∧ s'.blocked = false := by
  cases handled with
  | reaped => exact ⟨⟨base.agree.deletejob ⟨c, mem, rfl⟩, base.between.unblocked unblocked rfl⟩, unblocked⟩
  | stopped found =>
    exact ⟨⟨base.agree.setState.samePids samePids_stopped, base.between.unblocked unblocked rfl⟩, unblocked⟩
  | lost none =>
    have unlisted := (getjobpid_eq_none (base.agree.positive c mem)).mp none
    refine ⟨⟨?_, trivial⟩, unblocked⟩
    simp only [waited]
    split
    · exact base.agree.samePids samePids_stopped
    · exact base.agree.reaped unlisted

theorem Base.step (base : Base s) (next : s.step act = some s') : Base s' := by
  cases step_cases next with
  | main next => exact base.mainStep next
  | child mem same changed => exact base.follows (follows_event mem same changed)
  | deliver unblocked ran =>
    have start : Base { s with pending := false, pc := s.pc.resumed } := ⟨base.agree, base.between.resumed⟩
    have keep := sigchldHandler_keeps (I := fun s => Base s ∧ s.blocked = false) ⟨start, unblocked⟩ ran
    exact (keep fun s c s' inv mem _ handled => inv.1.handled inv.2 mem handled).1
  | interrupt => exact ⟨base.agree, base.between.resumed⟩
  | quit => exact ⟨base.agree, trivial⟩

theorem base_initSh : Base initSh where
  agree := ⟨nofun, fun _ _ occupied => absurd rfl occupied, fun _ occupied => absurd rfl occupied⟩
  between := trivial

end Steps

end Splab.Shell
