import Splab.Shell.Steps

namespace Splab.Shell

def Child.dead (c : Child) : Bool :=
  match c.life with
  | .exited | .signaled => true
  | _ => false

/-- The status changes that `waitpid` has to report, in one of the orders in which it may report them. -/
def Sh.reports (s : Sh) : List Int := (s.children.filter Child.changed).map Child.pid

/-- The shell is running, and every child has one entry of the job list, with a job id (these count from 1). -/
structure Ready (s : Sh) : Prop where
  alive : s.pc.alive = true
  distinct : (s.children.map Child.pid).Nodup
  positive : ∀ c ∈ s.children, 0 < c.pid
  listed : ∀ c ∈ s.children, ∃ i, (s.table.jobs i).pid = c.pid ∧ ∀ j, (s.table.jobs j).pid = c.pid → j = i
  ids : ∀ c ∈ s.children, ∀ i, (s.table.jobs i).pid = c.pid → 0 < (s.table.jobs i).jid

/-- The entry of a job after all status changes. -/
def outcome (children : List Child) (job : Job) : Job :=
  match children.find? fun c => c.pid = job.pid && c.changed with
  | none => job
  | some c => if c.dead then clearjob else { job with state := .st }

/-- The job list after all status changes; `nextjid` is what the last deletion made of it. -/
def Sh.settled (s : Sh) : Table :=
  let jobs := fun i => outcome s.children (s.table.jobs i)
  ⟨jobs, if s.children.any Child.dead then wrapInt (maxjid jobs + 1) else s.table.nextjid⟩

section Outcome
variable {children children' : List Child} {c : Child} {job : Job} {jobs jobs' : Jobs}

theorem Child.changed_of_dead (dead : c.dead = true) : c.changed = true := by
  unfold Child.dead at dead
  unfold Child.changed
  cases life : c.life <;> simp [life] at dead ⊢

/-- The search for a change by its pid finds its child. -/
theorem find_changed (distinct : (children.map Child.pid).Nodup) (mem : c ∈ children) (changed : c.changed = true) :
    (children.find? fun d => d.pid = c.pid && d.changed) = some c := by
  cases found : children.find? fun d => d.pid = c.pid && d.changed with
  | none =>
    have := List.find?_eq_none.mp found c mem
    simp [changed] at this
  | some d =>
    have test := List.find?_some found
    rw [Bool.and_eq_true_iff, decide_eq_true_iff] at test
    rw [List.inj_on_of_nodup_map distinct (List.mem_of_find?_eq_some found) mem test.1]

theorem outcome_of_mem (distinct : (children.map Child.pid).Nodup) (mem : c ∈ children) (same : c.pid = job.pid)
    (changed : c.changed = true) : outcome children job = if c.dead then clearjob else { job with state := .st } := by
  rw [outcome, ← same, find_changed distinct mem changed]

theorem outcome_of_none (quiet : ∀ c ∈ children, c.pid = job.pid → c.changed = false) : outcome children job = job := by
  unfold outcome
  have none : (children.find? fun c => c.pid = job.pid && c.changed) = none := by
    refine List.find?_eq_none.mpr fun c mem => ?_
    simpa using quiet c mem
  rw [none]

theorem outcome_congr (distinct : (children.map Child.pid).Nodup) (distinct' : (children'.map Child.pid).Nodup)
    (same : ∀ c, c.pid = job.pid → (c ∈ children' ↔ c ∈ children)) : outcome children' job = outcome children job := by
  by_cases reported : ∃ c ∈ children, c.pid = job.pid ∧ c.changed = true
  · obtain ⟨c, mem, here, changed⟩ := reported
    rw [outcome_of_mem distinct mem here changed, outcome_of_mem distinct' ((same c here).mpr mem) here changed]
  · have quiet : ∀ c ∈ children, c.pid = job.pid → c.changed = false := by
      intro c mem here
      by_contra changed
      exact reported ⟨c, mem, here, by simpa using changed⟩
    rw [outcome_of_none quiet, outcome_of_none fun c mem here => quiet c ((same c here).mp mem) here]

theorem outcome_jid (alive : ∀ c ∈ children, c.dead = false) : (outcome children job).jid = job.jid := by
  unfold outcome
  cases found : children.find? fun c => c.pid = job.pid && c.changed with
  | none => rfl
  | some c => simp [alive c (List.mem_of_find?_eq_some found)]

theorem maxjid_congr (same : ∀ i, (jobs' i).jid = (jobs i).jid) : maxjid jobs' = maxjid jobs := by
  unfold maxjid
  simp only [same]

end Outcome

/-- A round of the handler's loop for the child `c`. -/
structure Round (s : Sh) (c : Child) (s' : Sh) : Prop where
  pc : s'.pc = s.pc
  distinct : (s'.children.map Child.pid).Nodup
  others : ∀ d, d.pid ≠ c.pid → (d ∈ s'.children ↔ d ∈ s.children)
  quiet : ∀ d ∈ s'.children, d.pid = c.pid → d.changed = false
  gone : c.dead = true → ∀ d ∈ s'.children, d.pid ≠ c.pid
  own : ∀ i, (s.table.jobs i).pid = c.pid →
    s'.table.jobs i = if c.dead then clearjob else { s.table.jobs i with state := .st }
  frame : ∀ i, (s.table.jobs i).pid ≠ c.pid → s'.table.jobs i = s.table.jobs i
  nextjid : s'.table.nextjid = if c.dead then wrapInt (maxjid s'.table.jobs + 1) else s.table.nextjid

section Rounds
variable {s s' : Sh} {c : Child} {pid : Int} {order : List Int}

theorem Ready.lookup (ready : Ready s) (mem : c ∈ s.children) : ∃ i, getjobpid s.table.jobs c.pid = some i ∧
    (s.table.jobs i).pid = c.pid ∧ ∀ j, (s.table.jobs j).pid = c.pid → j = i := by
  have positive := ready.positive c mem
  obtain ⟨i, here, only⟩ := ready.listed c mem
  cases found : getjobpid s.table.jobs c.pid with
  | none => exact absurd here ((getjobpid_eq_none (by omega)).mp found i)
  | some j =>
    obtain rfl := only j (getjobpid_eq_some found).1
    exact ⟨j, rfl, here, only⟩

theorem Ready.round_dead (ready : Ready s) (mem : c ∈ s.children) (dead : c.dead = true)
    (handled : s.handle c = { s with
      table := (deletejob s.table c.pid).1
      children := s.children.filter fun d => d.pid ≠ c.pid }) : Round s c (s.handle c) := by
  obtain ⟨i, _, here, only⟩ := ready.lookup mem
  rcases deletejob_cases s.table c.pid with ⟨j, same, _, cleared⟩ | ⟨none, _⟩
  · obtain rfl := only j same
    rw [handled, cleared]
    have gone : ∀ d ∈ s.children.filter fun d => d.pid ≠ c.pid, d.pid ≠ c.pid :=
      fun d inside => of_decide_eq_true (List.mem_filter.mp inside).2
    refine ⟨rfl, ready.distinct.sublist (List.filter_sublist.map _), fun d other => ?_,
      fun d inside own => absurd own (gone d inside), fun _ => gone, fun k own => ?_, fun k other => ?_, ?_⟩
    · simp [other]
    · obtain rfl := only k own
      simp [dead]
    · refine Function.update_of_ne ?_ _ _
      rintro rfl
      exact other here
    · simp [dead]
  · have := none i here
    have := ready.positive c mem
    omega

theorem map_pid_onChild {children : List Child} {f : Child → Child} (keeps : ∀ d, (f d).pid = d.pid) :
    (onChild children pid f).map Child.pid = children.map Child.pid := by
  unfold onChild
  rw [List.map_map]
  refine List.map_congr_left fun d _ => ?_
  simp only [Function.comp]
  split
  · exact keeps d
  · rfl

theorem Ready.round_stopped (ready : Ready s) (mem : c ∈ s.children) (alive : c.dead = false) {i : Fin maxJobs}
    (found : getjobpid s.table.jobs c.pid = some i)
    (handled : s.handle c = { s with
      table := { s.table with jobs := setState s.table.jobs i .st }
      children := onChild s.children c.pid fun c => { c with life := .stopped true, stopSeen := true } }) :
    Round s c (s.handle c) := by
  obtain ⟨j, found', here, only⟩ := ready.lookup mem
  obtain rfl := Option.some.inj (found.symm.trans found')
  rw [handled]
  refine ⟨rfl, ?_, fun d other => ?_, fun d inside own => ?_, fun dead => absurd (alive.symm.trans dead) (by decide),
    fun k own => ?_, fun k other => ?_, ?_⟩
  · dsimp only
    rw [map_pid_onChild fun d => by exact rfl]
    exact ready.distinct
  · rw [mem_onChild]
    constructor
    · rintro ⟨e, inside, rfl⟩
      split at other
      · next same => exact absurd same other
      · next differs =>
        rw [if_neg differs]
        exact inside
    · exact fun inside => ⟨d, inside, (if_neg other).symm⟩
  · obtain ⟨e, _, rfl⟩ := mem_onChild.mp inside
    split at own
    · next same =>
      rw [if_pos same]
      rfl
    · next differs => exact absurd own differs
  · obtain rfl := only k own
    simp [setState, alive]
  · refine Function.update_of_ne ?_ _ _
    rintro rfl
    exact other here
  · simp [alive]

theorem Ready.round (ready : Ready s) (mem : c ∈ s.children) (changed : c.changed = true) : Round s c (s.handle c) := by
  obtain ⟨i, found, _⟩ := ready.lookup mem
  cases life : c.life with
  | running =>
    rw [Child.changed, life] at changed
    cases changed
  | stopped reported =>
    exact ready.round_stopped mem (by rw [Child.dead, life]) found (by simp only [Sh.handle, waited, life, found])
  | exited => exact ready.round_dead mem (by rw [Child.dead, life]) (by simp only [Sh.handle, waited, life])
  | signaled => exact ready.round_dead mem (by rw [Child.dead, life]) (by simp only [Sh.handle, waited, life, found])

theorem Round.ready (round : Round s c s') (ready : Ready s) (mem : c ∈ s.children) : Ready s' := by
  -- a child that is left has the id of one that was there, and its entry was not cleared
  have origin : ∀ d ∈ s'.children, ∃ e ∈ s.children, e.pid = d.pid ∧ (c.dead = true → d.pid ≠ c.pid) := by
    intro d inside
    by_cases own : d.pid = c.pid
    · exact ⟨c, mem, own.symm, fun dead => round.gone dead d inside⟩
    · exact ⟨d, (round.others d own).mp inside, rfl, fun _ => own⟩
  have entry : ∀ i, s'.table.jobs i = clearjob ∧ (s.table.jobs i).pid = c.pid ∧ c.dead = true ∨
      (s'.table.jobs i).pid = (s.table.jobs i).pid ∧ (s'.table.jobs i).jid = (s.table.jobs i).jid := by
    intro i
    by_cases own : (s.table.jobs i).pid = c.pid
    · rw [round.own i own]
      cases dead : c.dead with
      | true => exact .inl ⟨rfl, own, rfl⟩
      | false => exact .inr ⟨rfl, rfl⟩
    · rw [round.frame i own]
      exact .inr ⟨rfl, rfl⟩
  refine ⟨round.pc ▸ ready.alive, round.distinct, fun d inside => ?_, fun d inside => ?_, fun d inside i => ?_⟩
  · obtain ⟨e, here, same, _⟩ := origin d inside
    exact same ▸ ready.positive e here
  · obtain ⟨e, here, same, other⟩ := origin d inside
    have positive := ready.positive e here
    obtain ⟨i, listed, only⟩ := ready.listed e here
    refine ⟨i, ?_, fun j listed' => only j ?_⟩
    · rcases entry i with ⟨_, own, dead⟩ | ⟨keeps, _⟩
      · exact absurd (same.symm.trans (listed.symm.trans own)) (other dead)
      · exact keeps.trans (listed.trans same)
    · rcases entry j with ⟨cleared, _⟩ | ⟨keeps, _⟩
      · rw [cleared] at listed'
        exact absurd (listed'.trans same.symm) (by simp only [clearjob]; omega)
      · exact keeps.symm.trans (listed'.trans same.symm)
  · obtain ⟨e, here, same, _⟩ := origin d inside
    have positive := ready.positive e here
    intro own
    rcases entry i with ⟨cleared, _⟩ | ⟨pid, jid⟩
    · rw [cleared] at own
      exact absurd (own.trans same.symm) (by simp only [clearjob]; omega)
    · rw [jid]
      exact ready.ids e here i (pid.symm.trans (own.trans same.symm))

/-- The dead children are that of the round and those that are left. -/
theorem Round.any_dead (round : Round s c s') (ready : Ready s) (mem : c ∈ s.children) :
    s.children.any Child.dead = (c.dead || s'.children.any Child.dead) := by
  rw [Bool.eq_iff_iff, Bool.or_eq_true, List.any_eq_true, List.any_eq_true]
  constructor
  · rintro ⟨d, inside, gone⟩
    by_cases own : d.pid = c.pid
    · rw [← List.inj_on_of_nodup_map ready.distinct inside mem own]
      exact .inl gone
    · exact .inr ⟨d, (round.others d own).mpr inside, gone⟩
  · rintro (dead | ⟨d, inside, gone⟩)
    · exact ⟨c, mem, dead⟩
    · have other : d.pid ≠ c.pid := by
        intro own
        cases (round.quiet d inside own).symm.trans (Child.changed_of_dead gone)
      exact ⟨d, (round.others d other).mp inside, gone⟩

/-- The entry that each job comes to is the same before and after a round. -/
theorem Round.same_outcome (round : Round s c s') (ready : Ready s) (mem : c ∈ s.children) (changed : c.changed = true)
    (i : Fin maxJobs) : outcome s'.children (s'.table.jobs i) = outcome s.children (s.table.jobs i) := by
  by_cases own : (s.table.jobs i).pid = c.pid
  · rw [outcome_of_mem ready.distinct mem own.symm changed, ← round.own i own]
    refine outcome_of_none fun d inside same => ?_
    by_cases other : d.pid = c.pid
    · exact round.quiet d inside other
    · have positive := (round.ready ready mem).positive d inside
      rw [same, round.own i own] at other positive
      cases dead : c.dead with
      | true => simp [dead, clearjob] at positive
      | false => simp [dead, own] at other
  · rw [round.frame i own]
    exact outcome_congr ready.distinct round.distinct fun d same => round.others d (same ▸ own)

/-- What the job list comes to in the end is the same before and after a round. -/
theorem Round.settled (round : Round s c s') (ready : Ready s) (mem : c ∈ s.children) (changed : c.changed = true) :
    s'.settled = s.settled := by
  have jobs := round.same_outcome ready mem changed
  have next : s'.settled.nextjid = s.settled.nextjid := by
    simp only [Sh.settled, jobs, round.nextjid, round.any_dead ready mem]
    cases last : s'.children.any Child.dead with
    | true => simp
    | false =>
      -- no deletion follows, and stops leave the ids alone
      have same : ∀ i, (outcome s.children (s.table.jobs i)).jid = (s'.table.jobs i).jid := by
        intro i
        rw [← jobs, outcome_jid fun d inside => ?_]
        rw [List.any_eq_false] at last
        simpa using last d inside
      simp [maxjid_congr same]
  exact congrArg₂ Table.mk (funext jobs) next

theorem Ready.maxjid_pos (ready : Ready s) (mem : c ∈ s.children) : maxjid s.table.jobs ≠ 0 := by
  obtain ⟨i, here, _⟩ := ready.listed c mem
  have id := ready.ids c mem i here
  have bound := @le_maxjid s.table.jobs i
  omega

/-- A round takes the change of its child, and no other. -/
theorem Round.pending (round : Round s c s') : (∃ d ∈ s'.children, d.pid = pid ∧ d.changed = true) ↔
    pid ≠ c.pid ∧ ∃ d ∈ s.children, d.pid = pid ∧ d.changed = true := by
  constructor
  · rintro ⟨d, inside, rfl, changed⟩
    have other : d.pid ≠ c.pid := by
      intro own
      cases (round.quiet d inside own).symm.trans changed
    exact ⟨other, d, (round.others d other).mp inside, rfl, changed⟩
  · rintro ⟨other, d, inside, rfl, changed⟩
    exact ⟨d, (round.others d other).mpr inside, rfl, changed⟩

theorem Round.running (round : Round s c s') (ready : Ready s) : s'.pc ≠ .crashed .nullJob := by
  intro crashed
  have alive := ready.alive
  rw [← round.pc, crashed] at alive
  cases alive

/-- The handler accepts every order of the pending changes, and comes to the same job list by each. -/
theorem Ready.handles (ready : Ready s) (nodup : order.Nodup)
    (pending : ∀ pid, pid ∈ order ↔ ∃ c ∈ s.children, c.pid = pid ∧ c.changed = true) :
    ∃ s', s.sigchldHandler order = some s' ∧ s'.table = s.settled ∧ ∀ c ∈ s'.children, c.changed = false := by
  induction order generalizing s with
  | nil =>
    have quiet : ∀ c ∈ s.children, c.changed = false := by
      intro c mem
      by_contra changed
      have := (pending c.pid).mpr ⟨c, mem, rfl, by simpa using changed⟩
      cases this
    refine ⟨s, ?_, ?_, quiet⟩
    · rw [Sh.sigchldHandler, if_pos]
      exact .inr (List.all_eq_true.mpr fun c mem => by simp [quiet c mem])
    · have none : s.children.any Child.dead = false := by
        rw [List.any_eq_false]
        intro c mem dead
        cases (quiet c mem).symm.trans (Child.changed_of_dead dead)
      have jobs : ∀ i, outcome s.children (s.table.jobs i) = s.table.jobs i :=
        fun i => outcome_of_none fun c mem _ => quiet c mem
      simp [Sh.settled, none, jobs]
  | cons pid rest ih =>
    obtain ⟨c, mem, rfl, changed⟩ := (pending pid).mp List.mem_cons_self
    obtain ⟨absent, nodup⟩ := List.nodup_cons.mp nodup
    have round := ready.round mem changed
    have found := find_changed ready.distinct mem changed
    obtain ⟨s', run, table, quiet⟩ := ih (round.ready ready mem) nodup fun pid => by
      rw [round.pending, ← pending, List.mem_cons]
      constructor
      · intro later
        exact ⟨fun same => absent (same ▸ later), .inr later⟩
      · rintro ⟨other, same | later⟩
        · exact absurd same other
        · exact later
    refine ⟨s', ?_, table.trans (round.settled ready mem changed), quiet⟩
    rw [Sh.sigchldHandler, if_neg (ready.maxjid_pos mem), found, Option.bind_some, if_neg (round.running ready)]
    exact run

/-- The handler goes on until nothing is pending. -/
theorem Ready.exhausts (ready : Ready s) (ran : s.sigchldHandler order = some s') :
    order.Nodup ∧ ∀ pid, pid ∈ order ↔ ∃ c ∈ s.children, c.pid = pid ∧ c.changed = true := by
  induction order generalizing s with
  | nil =>
    rw [Sh.sigchldHandler] at ran
    split at ran
    · next stop =>
      refine ⟨.nil, fun pid => iff_of_false (by simp) ?_⟩
      rintro ⟨c, mem, _, changed⟩
      have quiet := List.all_eq_true.mp (stop.resolve_left (ready.maxjid_pos mem)) c mem
      simp [changed] at quiet
    · cases ran
  | cons pid rest ih =>
    rw [Sh.sigchldHandler] at ran
    split at ran
    · cases ran
    · obtain ⟨c, found, ran'⟩ := Option.bind_eq_some_iff.mp ran
      have test := List.find?_some found
      have mem := List.mem_of_find?_eq_some found
      rw [Bool.and_eq_true_iff, decide_eq_true_iff] at test
      obtain ⟨rfl, changed⟩ := test
      have round := ready.round mem changed
      rw [if_neg (round.running ready)] at ran'
      obtain ⟨nodup, later⟩ := ih (round.ready ready mem) ran'
      refine ⟨List.nodup_cons.mpr ⟨fun again => ?_, nodup⟩, fun pid => ?_⟩
      · exact (round.pending.mp ((later c.pid).mp again)).1 rfl
      · rw [List.mem_cons, later, round.pending]
        by_cases own : pid = c.pid
        · subst own
          exact iff_of_true (.inl rfl) ⟨c, mem, rfl, changed⟩
        · simp [own]

theorem Ready.reports_nodup (ready : Ready s) : s.reports.Nodup :=
  ready.distinct.sublist (List.filter_sublist.map _)

theorem mem_reports : pid ∈ s.reports ↔ ∃ c ∈ s.children, c.pid = pid ∧ c.changed = true := by
  simp only [Sh.reports, List.mem_map, List.mem_filter]
  exact exists_congr fun c => ⟨fun ⟨⟨mem, changed⟩, same⟩ => ⟨mem, same, changed⟩,
    fun ⟨mem, same, changed⟩ => ⟨⟨mem, changed⟩, same⟩⟩

end Rounds

/-- The job list after all pending changes of the children of `s`. -/
structure Settles (s : Sh) (t : Table) : Prop where
  cleared : ∀ c ∈ s.children, c.dead = true → ∀ i, (s.table.jobs i).pid = c.pid → t.jobs i = clearjob
  stopped : ∀ c ∈ s.children, c.changed = true → c.dead = false →
    ∀ i, (s.table.jobs i).pid = c.pid → t.jobs i = { s.table.jobs i with state := .st }
  others : ∀ i, (∀ c ∈ s.children, c.changed = true → (s.table.jobs i).pid ≠ c.pid) → t.jobs i = s.table.jobs i

section Batch
variable {s : Sh}

theorem Ready.settles (ready : Ready s) : Settles s s.settled where
  cleared c mem dead i own := by
    have := outcome_of_mem ready.distinct mem own.symm (Child.changed_of_dead dead)
    rwa [dead] at this
  stopped c mem changed alive i own := by
    have := outcome_of_mem ready.distinct mem own.symm changed
    rwa [alive] at this
  others i other := outcome_of_none fun c mem own => by
    by_contra changed
    exact other c mem (by simpa using changed) own.symm

/-- One delivery of SIGCHLD handles every pending change in every order in which `waitpid`
may report them, with one outcome for `jobs` and `nextjid`, and in no other order. -/
theorem sigchldHandler_batch (ready : Ready s) : ∃ t, Settles s t ∧
    (∀ order, order.Perm s.reports →
      ∃ s', s.sigchldHandler order = some s' ∧ s'.table = t ∧ ∀ c ∈ s'.children, c.changed = false) ∧
    ∀ order s', s.sigchldHandler order = some s' → order.Perm s.reports := by
  refine ⟨s.settled, ready.settles, fun order perm => ?_, fun order s' ran => ?_⟩
  · exact ready.handles (perm.nodup_iff.mpr ready.reports_nodup) fun pid => perm.mem_iff.trans mem_reports
  · obtain ⟨nodup, pending⟩ := ready.exhausts ran
    exact (List.perm_ext_iff_of_nodup nodup ready.reports_nodup).mpr fun pid => (pending pid).trans mem_reports.symm

/-- Three children with a change to report, of which one exited, one was killed and one has stopped. -/
def batchOfThree : Sh where
  table := ⟨fun i =>
    if i.val = 0 then ⟨101, 1, .fg, []⟩ else if i.val = 2 then ⟨102, 2, .bg, []⟩
    else if i.val = 5 then ⟨103, 3, .bg, []⟩ else clearjob, 4⟩
  children := [⟨101, .stopped false, true, false, false⟩, ⟨102, .exited, true, false, false⟩,
    ⟨103, .signaled, true, false, false⟩]
  pending := false
  blocked := false
  pc := .prompt

theorem ready_batchOfThree : Ready batchOfThree :=
  ⟨by decide, by decide, by decide, by decide +kernel, by decide +kernel⟩

theorem sigchldHandler_batchOfThree : ∃ t, Settles batchOfThree t ∧
    (∀ order, order.Perm batchOfThree.reports → ∃ s', batchOfThree.sigchldHandler order = some s' ∧ s'.table = t ∧
      ∀ c ∈ s'.children, c.changed = false) ∧
    ∀ order s', batchOfThree.sigchldHandler order = some s' → order.Perm batchOfThree.reports :=
  sigchldHandler_batch ready_batchOfThree

end Batch

end Splab.Shell
