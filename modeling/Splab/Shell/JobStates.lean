import Splab.Shell.Processes

namespace Splab.Shell

/-- The entry is clear or describes a job. -/
def Job.WellFormed (job : Job) : Prop :=
  (job.pid = 0 ∧ job.jid = 0 ∧ job.state = .undef) ∨
    (0 < job.pid ∧ 0 < job.jid ∧ (job.state = .fg ∨ job.state = .bg ∨ job.state = .st))

instance {job : Job} : Decidable job.WellFormed := inferInstanceAs (Decidable (_ ∨ _))

/-- The job list describes what the shell was told. -/
structure Consistent (s : Sh) : Prop where
  entries : ∀ i, (s.table.jobs i).WellFormed
  single : ∀ i j, (s.table.jobs i).state = .fg → (s.table.jobs j).state = .fg → i = j
  stops : ∀ c ∈ s.children, c.stopSeen = true → ∀ i, (s.table.jobs i).pid = c.pid → (s.table.jobs i).state = .st

/-- `do_bgfg` writes only to a job that is still there and not reported as stopped. Moreover a
new job gets a positive id, also when the `int` has overflowed. -/
def UpToDate (s : Sh) : Act → Prop
  | .main .next =>
    match s.pc with
    | .bgfgWrite _ slot pid =>
      (s.table.jobs slot).pid = pid ∧ pid ≠ 0 ∧ ∀ c ∈ s.children, c.pid = pid → c.stopSeen = false
    | .evalAdd _ _ _ => (∃ i, (s.table.jobs i).pid = 0) → 0 < s.table.nextjid
    | _ => True
  | _ => True

/-- Whether the main flow allows an entry to be in the foreground. -/
def Pc.foreground (slot : Fin maxJobs) (pid : Int) : Pc → Prop
  | .evalUnblock waited false | .waitLookup waited => pid = waited
  | .waitTest i waited | .aboutToPause i waited | .paused i waited => slot = i ∧ pid = waited
  | .exited | .crashed _ => True
  | _ => False

/-- The entry that `do_bgfg` works on, with the process id that it has read. -/
def Pc.target : Pc → Option (Fin maxJobs × Int)
  | .bgfgTest _ slot pid | .bgfgKill _ slot pid | .bgfgWrite _ slot pid => some (slot, pid)
  | _ => none

structure StatesInv (s : Sh) : Prop extends Consistent s where
  base : Base s
  foreground : ∀ i, (s.table.jobs i).state = .fg → s.pc.foreground i (s.table.jobs i).pid
  target : ∀ slot pid, s.pc.target = some (slot, pid) → (s.table.jobs slot).pid = pid ∨ (s.table.jobs slot).pid = 0

section States
variable {s s' : Sh} {c : Child} {i slot : Fin maxJobs} {pid : Int} {jobs : Jobs} {pc : Pc}

@[simp]
theorem Pc.foreground_resumed : pc.resumed.foreground slot pid = pc.foreground slot pid := by
  cases pc <;> rfl

@[simp]
theorem Pc.target_resumed : pc.resumed.target = pc.target := by
  cases pc <;> rfl

theorem wellFormed_clearjob : clearjob.WellFormed := .inl ⟨rfl, rfl, rfl⟩

theorem Job.WellFormed.setState {job : Job} {state : JobState} (wellFormed : job.WellFormed) (occupied : job.pid ≠ 0)
    (kind : state = .fg ∨ state = .bg ∨ state = .st) : Job.WellFormed { job with state := state } := by
  rcases wellFormed with clear | ⟨pid, jid, _⟩
  · exact absurd clear.1 occupied
  · exact .inr ⟨pid, jid, kind⟩

theorem Job.WellFormed.occupied {job : Job} (wellFormed : job.WellFormed) (foreground : job.state = .fg) :
    0 < job.pid := by
  rcases wellFormed with ⟨_, _, undef⟩ | ⟨positive, _⟩
  · cases undef.symm.trans foreground
  · exact positive

theorem StatesInv.handled (inv : StatesInv s) (unblocked : s.blocked = false) (mem : c ∈ s.children)
    (handled : Handled s c s') : StatesInv s' ∧ s'.blocked = false := by
  obtain ⟨base, blocked⟩ := inv.base.handled unblocked mem handled
  have positive := inv.base.agree.positive c mem
  have entry : ∀ i, (s.table.jobs i).pid ≠ c.pid ∧ s'.table.jobs i = s.table.jobs i ∨ s'.table.jobs i = clearjob ∨
      (s.table.jobs i).pid = c.pid ∧ s'.table.jobs i = { s.table.jobs i with state := .st } := by
    intro i
    by_cases own : (s.table.jobs i).pid = c.pid
    · exact .inr ((handled.own inv.base.agree.distinct positive own).imp_right fun stopped => ⟨own, stopped⟩)
    · exact .inl ⟨own, handled.frame own⟩
  have remains : ∀ i, (s'.table.jobs i).state = .fg → s'.table.jobs i = s.table.jobs i := by
    intro i foreground
    rcases entry i with same | cleared | ⟨_, stopped⟩
    · exact same.2
    · rw [cleared] at foreground
      cases foreground
    · rw [stopped] at foreground
      cases foreground
  refine ⟨⟨⟨fun i => ?_, fun i j first second => ?_, fun d inside stop i same => ?_⟩, base, fun i foreground => ?_,
    fun slot pid target => ?_⟩, blocked⟩
  · rcases entry i with same | cleared | ⟨here, stopped⟩
    · rw [same.2]
      exact inv.entries i
    · rw [cleared]
      exact wellFormed_clearjob
    · rw [stopped]
      exact (inv.entries i).setState (by omega) (.inr (.inr rfl))
  · rw [remains i first] at first
    rw [remains j second] at second
    exact inv.single i j first second
  · rcases entry i with ⟨other, unchanged⟩ | cleared | ⟨_, stopped⟩
    · rw [unchanged] at same ⊢
      exact inv.stops d (handled.others inside fun eq => other (same.trans eq)) stop i same
    · have := base.agree.positive d inside
      rw [cleared] at same
      simp only [clearjob] at same
      omega
    · rw [stopped]
  · have same := remains i foreground
    rw [same] at foreground ⊢
    rcases handled.pc with pc | crashed
    · rw [pc]
      exact inv.foreground i foreground
    · rw [crashed]
      trivial
  · rcases handled.pc with pc | crashed
    · rw [pc] at target
      have before := inv.target slot pid target
      rcases entry slot with same | cleared | ⟨_, stopped⟩
      · rw [same.2]
        exact before
      · rw [cleared]
        exact .inr rfl
      · rw [stopped]
        exact before
    · rw [crashed] at target
      cases target

theorem StatesInv.goto (inv : StatesInv s) (base : Base s') (table : s'.table = s.table)
    (follows : Follows s.children s'.children)
    (foreground : ∀ i, (s.table.jobs i).state = .fg → s.pc.foreground i (s.table.jobs i).pid →
      s'.pc.foreground i (s.table.jobs i).pid)
    (target : ∀ slot pid, s'.pc.target = some (slot, pid) →
      s.pc.target = some (slot, pid) ∨ (s.table.jobs slot).pid = pid) : StatesInv s' where
  entries := by
    rw [table]
    exact inv.entries
  single := by
    rw [table]
    exact inv.single
  stops d mem stop := by
    obtain ⟨c, inside, same, seen⟩ := follows.seen d mem stop
    rw [table, ← same]
    exact inv.stops c inside seen
  base := base
  foreground := by
    rw [table]
    exact fun i state => foreground i state (inv.foreground i state)
  target slot pid here := by
    rw [table]
    rcases target slot pid here with before | same
    · exact inv.target slot pid before
    · exact .inl same

/-- Outside of the wait for a foreground job there is none. -/
theorem StatesInv.background (inv : StatesInv s) (outside : ∀ i pid, ¬s.pc.foreground i pid) (i : Fin maxJobs) :
    (s.table.jobs i).state ≠ .fg := fun foreground => outside i _ (inv.foreground i foreground)

theorem StatesInv.add (inv : StatesInv s) {bg : Bool} {cmdline : List Char} (here : s.pc = .evalAdd pid bg cmdline)
    (upToDate : (∃ i, (s.table.jobs i).pid = 0) → 0 < s.table.nextjid)
    (base : Base { s with
      table := (addjob s.table pid (if bg then .bg else .fg) cmdline).1
      pc := if bg then .evalPrint pid else .evalUnblock pid bg }) :
    StatesInv { s with
      table := (addjob s.table pid (if bg then .bg else .fg) cmdline).1
      pc := if bg then .evalPrint pid else .evalUnblock pid bg } := by
  have between := inv.base.between
  rw [Between, here] at between
  obtain ⟨_, ⟨c, mem, same⟩, _, running⟩ := between
  have positive := inv.base.agree.positive c mem
  have none := inv.background fun i pid => by rw [here]; exact id
  rcases addjob_cases s.table (if bg then .bg else .fg) cmdline (show 1 ≤ pid by omega) with
    ⟨i, free, filled⟩ | ⟨_, full⟩
  · have kind : (if bg then JobState.bg else .fg) = .fg ∨ (if bg then JobState.bg else .fg) = .bg ∨
        (if bg then JobState.bg else .fg) = .st := by cases bg <;> decide
    have only : ∀ j,
        (Function.update s.table.jobs i ⟨pid, s.table.nextjid, if bg then .bg else .fg, cmdline⟩ j).state = .fg →
        j = i := by
      intro j foreground
      by_contra other
      rw [Function.update_of_ne other] at foreground
      exact none j foreground
    rw [filled] at base ⊢
    refine ⟨⟨?_, fun j k first second => (only j first).trans (only k second).symm, ?_⟩, base, ?_, ?_⟩
    · exact forall_update (P := fun _ job => job.WellFormed) (.inr ⟨by simp only; omega, upToDate ⟨i, free⟩, kind⟩)
        fun j _ => inv.entries j
    · intro d mem stop
      refine forall_update (P := fun _ job => job.pid = d.pid → job.state = .st) (fun eq => ?_)
        fun j _ => inv.stops d mem stop j
      cases stop.symm.trans (running d mem eq.symm)
    · intro j foreground
      obtain rfl := only j foreground
      simp only [Function.update_self] at foreground ⊢
      cases bg with
      | true => cases foreground
      | false => rfl
    · cases bg <;> simp [Pc.target]
  · rw [full] at base ⊢
    refine inv.goto base rfl .refl (fun j foreground => absurd foreground (none j)) ?_
    cases bg <;> simp [Pc.target]

theorem StatesInv.write (inv : StatesInv s) {fg : Bool} (here : s.pc = .bgfgWrite fg slot pid)
    (same : (s.table.jobs slot).pid = pid) (occupied : pid ≠ 0)
    (running : ∀ c ∈ s.children, c.pid = pid → c.stopSeen = false)
    (base : Base { s with
      table := { s.table with jobs := setState s.table.jobs slot (if fg then .fg else .bg) }
      pc := if fg then .waitLookup pid else .prompt }) :
    StatesInv { s with
      table := { s.table with jobs := setState s.table.jobs slot (if fg then .fg else .bg) }
      pc := if fg then .waitLookup pid else .prompt } := by
  have none := inv.background fun i pid => by rw [here]; exact id
  have kind : (if fg then JobState.fg else .bg) = .fg ∨ (if fg then JobState.fg else .bg) = .bg ∨
      (if fg then JobState.fg else .bg) = .st := by cases fg <;> decide
  have only : ∀ j, (setState s.table.jobs slot (if fg then .fg else .bg) j).state = .fg → j = slot := by
    intro j foreground
    by_contra other
    rw [setState, Function.update_of_ne other] at foreground
    exact none j foreground
  refine ⟨⟨?_, fun j k first second => (only j first).trans (only k second).symm, ?_⟩, base, ?_, ?_⟩
  · exact forall_update (P := fun _ job => job.WellFormed) ((inv.entries slot).setState (by omega) kind)
      fun j _ => inv.entries j
  · intro d mem stop
    refine forall_update (P := fun _ job => job.pid = d.pid → job.state = .st) (fun eq => ?_)
      fun j _ => inv.stops d mem stop j
    cases stop.symm.trans (running d mem (eq.symm.trans same))
  · intro j foreground
    obtain rfl := only j foreground
    simp only [setState, Function.update_self] at foreground ⊢
    cases fg with
    | false => cases foreground
    | true => exact same
  · cases fg <;> simp [Pc.target]

theorem StatesInv.mainStep (inv : StatesInv s) {act : MainAct} (upToDate : UpToDate s (.main act))
    (next : MainStep s act s') :
    StatesInv s' := by
  have base := inv.base.mainStep next
  cases next with
  | eof => exact inv.goto base rfl .refl (fun _ _ _ => trivial) nofun
  | @line cmdline here =>
    have none := inv.background fun i pid => by rw [here]; exact id
    refine inv.goto base rfl .refl (fun i foreground => absurd foreground (none i)) ?_
    have eval := evalStart_cases s.table.jobs cmdline
    generalize evalStart s.table.jobs cmdline = pc at eval ⊢
    cases eval with
    | pid found =>
      intro slot pid target
      cases target
      exact .inr found
    | _ => exact nofun
  | noMemory here | block here | forkFailed here | print here | printNull here | killFailed here =>
    have none := inv.background fun i pid => by rw [here]; exact id
    exact inv.goto base rfl .refl (fun i foreground => absurd foreground (none i)) nofun
  | forked here positive fresh =>
    have none := inv.background fun i pid => by rw [here]; exact id
    refine ⟨⟨inv.entries, inv.single, ?_⟩, base, fun i foreground => absurd foreground (none i), nofun⟩
    exact List.forall_mem_cons.mpr ⟨nofun, inv.stops⟩
  | add here =>
    rw [UpToDate, here] at upToDate
    exact inv.add here upToDate base
  | @unblock pid bg here =>
    refine inv.goto base rfl .refl (fun i foreground waited => ?_) ?_
    · rw [here] at waited
      cases bg <;> exact waited
    · cases bg <;> simp [Pc.target]
  | readPid here =>
    have none := inv.background fun i pid => by rw [here]; exact id
    refine inv.goto base rfl .refl (fun i foreground => absurd foreground (none i)) fun slot pid target => ?_
    cases target
    exact .inr rfl
  | stopped here | notStopped here =>
    have none := inv.background fun i pid => by rw [here]; exact id
    refine inv.goto base rfl .refl (fun i foreground => absurd foreground (none i)) fun slot pid target => ?_
    rw [here]
    exact .inl target
  | kill here =>
    have none := inv.background fun i pid => by rw [here]; exact id
    refine inv.goto base rfl follows_continued (fun i foreground => absurd foreground (none i))
      fun slot pid target => ?_
    rw [here]
    exact .inl target
  | write here =>
    rw [UpToDate, here] at upToDate
    exact inv.write here upToDate.1 upToDate.2.1 upToDate.2.2 base
  | @lookup slot pid here found =>
    obtain ⟨same, positive⟩ := getjobpid_eq_some found
    refine inv.goto base rfl .refl (fun i foreground waited => ?_) nofun
    rw [here] at waited
    have waited : (s.table.jobs i).pid = pid := waited
    exact ⟨inv.base.agree.distinct i slot (by omega) (by omega) (waited.trans same.symm), waited⟩
  | @lookupNull pid here none =>
    refine inv.goto base rfl .refl (fun i foreground waited => ?_) nofun
    rw [here] at waited
    have waited : (s.table.jobs i).pid = pid := waited
    have positive := (inv.entries i).occupied foreground
    exact absurd waited ((getjobpid_eq_none (by omega)).mp none i)
  | waiting here =>
    refine inv.goto base rfl .refl (fun i foreground waited => ?_) nofun
    rw [here] at waited
    exact waited
  | done here done =>
    refine inv.goto base rfl .refl (fun i foreground waited => ?_) nofun
    rw [here] at waited
    obtain ⟨rfl, same⟩ := waited
    exact done ⟨same, foreground⟩
  | pause here =>
    refine inv.goto base rfl .refl (fun i foreground waited => ?_) nofun
    rw [here] at waited
    exact waited

theorem StatesInv.step (inv : StatesInv s) {act : Act} (upToDate : UpToDate s act) (next : s.step act = some s') :
    StatesInv s' := by
  have base := inv.base.step next
  cases step_cases next with
  | main next => exact inv.mainStep upToDate next
  | child mem same changed =>
    exact inv.goto base rfl (follows_event mem same changed) (fun _ _ => id) fun _ _ => .inl
  | deliver unblocked ran =>
    have start : StatesInv { s with pending := false, pc := s.pc.resumed } :=
      inv.goto ⟨inv.base.agree, inv.base.between.resumed⟩ rfl .refl (fun i _ waited => by simpa using waited)
        fun slot pid target => .inl (by simpa using target)
    have keep := sigchldHandler_keeps (I := fun s => StatesInv s ∧ s.blocked = false) ⟨start, unblocked⟩ ran
    exact (keep fun s c s' both mem _ handled => both.1.handled both.2 mem handled).1
  | interrupt =>
    exact inv.goto base rfl .refl (fun i _ waited => by simpa using waited)
      fun slot pid target => .inl (by simpa using target)
  | quit => exact inv.goto base rfl .refl (fun _ _ _ => trivial) nofun

/-- A write to an entry that the handler has changed shows at once. -/
theorem StatesInv.upToDate_of_write (inv : StatesInv s) {fg : Bool} (here : s.pc = .bgfgWrite fg slot pid)
    (consistent : Consistent { s with
      table := { s.table with jobs := setState s.table.jobs slot (if fg then .fg else .bg) }
      pc := if fg then .waitLookup pid else .prompt }) :
    (s.table.jobs slot).pid = pid ∧ pid ≠ 0 ∧ ∀ c ∈ s.children, c.pid = pid → c.stopSeen = false := by
  have target := inv.target slot pid (by rw [here]; rfl)
  have entry := consistent.entries slot
  simp only [setState, Function.update_self] at entry
  have occupied : (s.table.jobs slot).pid ≠ 0 := by
    intro free
    rcases entry with ⟨_, _, undef⟩ | ⟨positive, _⟩
    · cases fg <;> cases undef
    · simp only at positive
      omega
  have same := target.resolve_right occupied
  refine ⟨same, by omega, fun c mem eq => Bool.eq_false_iff.mpr fun stop => ?_⟩
  have state := consistent.stops c mem stop slot
  simp only [setState, Function.update_self] at state
  have state := state (same.trans eq.symm)
  cases fg <;> cases state

theorem StatesInv.upToDate_of_add (inv : StatesInv s) {bg : Bool} {cmdline : List Char}
    (here : s.pc = .evalAdd pid bg cmdline)
    (consistent : Consistent { s with
      table := (addjob s.table pid (if bg then .bg else .fg) cmdline).1
      pc := if bg then .evalPrint pid else .evalUnblock pid bg }) :
    (∃ i, (s.table.jobs i).pid = 0) → 0 < s.table.nextjid := by
  intro ⟨k, kFree⟩
  have between := inv.base.between
  rw [Between, here] at between
  obtain ⟨_, ⟨c, mem, same⟩, _⟩ := between
  have positive := inv.base.agree.positive c mem
  rcases addjob_cases s.table (if bg then .bg else .fg) cmdline (show 1 ≤ pid by omega) with
    ⟨i, _, filled⟩ | ⟨full, _⟩
  · have entry := consistent.entries i
    simp only [filled, Function.update_self] at entry
    rcases entry with ⟨zero, _⟩ | ⟨_, jid, _⟩
    · simp only at zero
      omega
    · exact jid
  · exact absurd kFree (full k)

theorem StatesInv.upToDate_of_step (inv : StatesInv s) {act : Act} (next : s.step act = some s')
    (consistent : Consistent s') : UpToDate s act := by
  cases step_cases next with
  | child | deliver | interrupt | quit => trivial
  | main next =>
    cases next with
    | add here =>
      rw [UpToDate, here]
      exact inv.upToDate_of_add here consistent
    | write here =>
      rw [UpToDate, here]
      exact inv.upToDate_of_write here consistent
    | eof | line | noMemory | forkFailed | forked | kill | killFailed => trivial
    | block here | print here | printNull here | unblock here | readPid here | stopped here | notStopped here
    | lookup here
    | lookupNull here | waiting here | done here | pause here =>
      rw [UpToDate, here]
      trivial

theorem statesInv_initSh : StatesInv initSh where
  entries _ := wellFormed_clearjob
  single _ _ := nofun
  stops := nofun
  base := base_initSh
  foreground _ := nofun
  target := nofun

/-- The job list is right in all states of a run exactly when `do_bgfg` never
writes to an entry that the handler has changed in the meantime. -/
theorem consistent_iff (acts : List Act) :
    Always Sh.step Consistent initSh acts ↔ Meets Sh.step UpToDate initSh acts :=
  always_iff_meets statesInv_initSh (fun _ inv => inv.toConsistent)
    (fun _ _ _ inv upToDate next => inv.step upToDate next)
    fun _ _ _ inv next consistent => inv.upToDate_of_step next consistent

/-- A background job exits while `fg` brings it to the foreground. -/
def ghostRun : List Act :=
  [.main (.line "ls &\n".toList true), .main .next, .main (.forked (some 5)), .main .next, .main .next, .main .next,
    .main (.line "fg %1\n".toList true), .main .next, .main .next, .child 5 .exit, .deliver [5], .main .next]

theorem ghost_written : ¬∀ acts, Always Sh.step Consistent initSh acts := by
  intro always
  have entry := (always ghostRun).final.entries ⟨0, by decide⟩
  revert entry
  decide +kernel

end States

end Splab.Shell
