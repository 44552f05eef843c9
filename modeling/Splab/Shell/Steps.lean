import Splab.Shell.Tsh

namespace Splab.Shell

/-- What a statement of the main flow does. -/
inductive MainStep (s : Sh) : MainAct → Sh → Prop
  | eof (here : s.pc = .prompt) : MainStep s .eof { s with pc := .exited }
  | line {cmdline} (here : s.pc = .prompt) :
    MainStep s (.line cmdline true) { s with pc := evalStart s.table.jobs cmdline }
  | noMemory {cmdline} (here : s.pc = .prompt) : MainStep s (.line cmdline false) { s with pc := .prompt }
  | block {bg cmdline} (here : s.pc = .evalBlock bg cmdline) :
    MainStep s .next { s with blocked := true, pc := .evalFork bg cmdline }
  | forkFailed {bg cmdline} (here : s.pc = .evalFork bg cmdline) : MainStep s (.forked none) { s with pc := .prompt }
  | forked {bg cmdline pid} (here : s.pc = .evalFork bg cmdline) (positive : 0 < pid)
      (fresh : ∀ c ∈ s.children, c.pid ≠ pid) :
    MainStep s (.forked (some pid)) { s with
      children := ⟨pid, .running, false, s.blocked, false⟩ :: s.children
      pc := .evalAdd pid bg cmdline }
  | add {pid bg cmdline} (here : s.pc = .evalAdd pid bg cmdline) :
    MainStep s .next { s with
      table := (addjob s.table pid (if bg then .bg else .fg) cmdline).1
      pc := if bg then .evalPrint pid else .evalUnblock pid bg }
  | print {pid} (here : s.pc = .evalPrint pid) (found : getjobpid s.table.jobs pid ≠ none) :
    MainStep s .next { s with pc := .evalUnblock pid true }
  | printNull {pid} (here : s.pc = .evalPrint pid) (none : getjobpid s.table.jobs pid = none) :
    MainStep s .next { s with pc := .crashed .nullJob }
  | unblock {pid bg} (here : s.pc = .evalUnblock pid bg) :
    MainStep s .next { s with blocked := false, pc := if bg then .prompt else .waitLookup pid }
  | readPid {fg slot} (here : s.pc = .bgfgPid fg slot) :
    MainStep s .next { s with pc := .bgfgTest fg slot (s.table.jobs slot).pid }
  | stopped {fg slot pid} (here : s.pc = .bgfgTest fg slot pid) (stopped : (s.table.jobs slot).state = .st) :
    MainStep s .next { s with pc := .bgfgKill fg slot pid }
  | notStopped {fg slot pid} (here : s.pc = .bgfgTest fg slot pid) (other : (s.table.jobs slot).state ≠ .st) :
    MainStep s .next { s with pc := .bgfgWrite fg slot pid }
  | kill {fg slot pid notify} (here : s.pc = .bgfgKill fg slot pid) :
    MainStep s (.killed true notify) { s with
      children := onChild s.children pid Child.continued
      pending := s.pending || notify
      pc := .bgfgWrite fg slot pid }
  | killFailed {fg slot pid notify} (here : s.pc = .bgfgKill fg slot pid) :
    MainStep s (.killed false notify) { s with pc := .prompt }
  | write {fg slot pid} (here : s.pc = .bgfgWrite fg slot pid) :
    MainStep s .next { s with
      table := { s.table with jobs := setState s.table.jobs slot (if fg then .fg else .bg) }
      pc := if fg then .waitLookup pid else .prompt }
  | lookup {slot pid} (here : s.pc = .waitLookup pid) (found : getjobpid s.table.jobs pid = some slot) :
    MainStep s .next { s with pc := .waitTest slot pid }
  | lookupNull {pid} (here : s.pc = .waitLookup pid) (none : getjobpid s.table.jobs pid = none) :
    MainStep s .next { s with pc := .prompt }
  | waiting {slot pid} (here : s.pc = .waitTest slot pid)
      (waiting : (s.table.jobs slot).pid = pid ∧ (s.table.jobs slot).state = .fg) :
    MainStep s .next { s with pc := .aboutToPause slot pid }
  | done {slot pid} (here : s.pc = .waitTest slot pid)
      (done : ¬((s.table.jobs slot).pid = pid ∧ (s.table.jobs slot).state = .fg)) :
    MainStep s .next { s with pc := .prompt }
  | pause {slot pid} (here : s.pc = .aboutToPause slot pid) : MainStep s .next { s with pc := .paused slot pid }

section Main
variable {s s' : Sh} {act : MainAct}

theorem mainStep_cases (next : s.mainStep act = some s') : MainStep s act s' := by
  unfold Sh.mainStep at next
  split at next
  case h_1 here => cases next; exact .eof here
  case h_2 here =>
    split at next
    case isTrue =>
      split at next <;> cases next
      · next yes => subst yes; exact .line here
      · next no => rw [Bool.not_eq_true] at no; subst no; exact .noMemory here
    case isFalse => cases next
  case h_3 here => cases next; exact .block here
  case h_4 here => cases next; exact .forkFailed here
  case h_5 here =>
    split at next
    case isTrue fresh => cases next; exact .forked here fresh.1 fresh.2
    case isFalse => cases next
  case h_6 here => cases next; exact .add here
  case h_7 here =>
    split at next <;> cases next
    · next none => exact .printNull here none
    · next found => exact .print here found
  case h_8 here => cases next; exact .unblock here
  case h_9 here => cases next; exact .readPid here
  case h_10 here =>
    split at next <;> cases next
    · next stopped => exact .stopped here stopped
    · next other => exact .notStopped here other
  case h_11 here => cases next; exact .kill here
  case h_12 here => cases next; exact .killFailed here
  case h_13 here => cases next; exact .write here
  case h_14 here =>
    split at next <;> cases next
    · next none => exact .lookupNull here none
    · next found => exact .lookup here found
  case h_15 here =>
    split at next <;> cases next
    · next waiting => exact .waiting here waiting
    · next done => exact .done here done
  case h_16 here => cases next; exact .pause here
  case h_17 => cases next

end Main

/-- What a step of the whole system does. -/
inductive Step (s : Sh) : Act → Sh → Prop
  | main {act s'} (step : MainStep s act s') : Step s (.main act) s'
  | child {c c' pid event notify} (mem : c ∈ s.children) (same : c.pid = pid)
      (changed : c.event event = some (c', notify)) :
    Step s (.child pid event) { s with
      children := onChild s.children pid fun _ => c'
      pending := s.pending || notify }
  | deliver {order s'} (unblocked : s.blocked = false)
      (ran : Sh.sigchldHandler { s with pending := false, pc := s.pc.resumed } order = some s') :
    Step s (.deliver order) s'
  | interrupt : Step s .interrupt { s with pc := s.pc.resumed }
  | quit : Step s .quit { s with pc := .exited }

/-- Where `eval` is when it comes to its first system call. -/
inductive EvalStart (jobs : Jobs) (cmdline : List Char) : Pc → Prop
  | crashed {crash} (kind : crash ≠ .nullJob) : EvalStart jobs cmdline (.crashed crash)
  | exited : EvalStart jobs cmdline .exited
  | prompt : EvalStart jobs cmdline .prompt
  | block {bg} : EvalStart jobs cmdline (.evalBlock bg cmdline)
  | jid {fg slot} : EvalStart jobs cmdline (.bgfgPid fg slot)
  | pid {fg slot pid} (found : (jobs slot).pid = pid) : EvalStart jobs cmdline (.bgfgTest fg slot pid)

/-- What one round of the handler does for a child with a status change. -/
inductive Handled (s : Sh) (c : Child) : Sh → Prop
  | reaped : Handled s c { s with
      table := (deletejob s.table c.pid).1
      children := s.children.filter fun d => d.pid ≠ c.pid }
  | stopped {slot} (found : (s.table.jobs slot).pid = c.pid) : Handled s c { s with
      table := { s.table with jobs := setState s.table.jobs slot .st }
      children := onChild s.children c.pid fun c => { c with life := .stopped true, stopSeen := true } }
  | lost (none : getjobpid s.table.jobs c.pid = none) :
    Handled s c { s with children := waited s.children c, pc := .crashed .nullJob }

section Calls
variable {s s' : Sh} {jobs : Jobs} {cmdline : List Char} {c d : Child} {children : List Child} {pid : Int}
  {slot : Fin maxJobs} {order : List Int}

theorem bgfgTarget_cases {fg : Bool} {argv : List (List Char)} :
    EvalStart jobs cmdline (bgfgTarget jobs fg argv) := by
  unfold bgfgTarget
  cases argv[1]? with
  | none => exact .prompt
  | some arg =>
    simp only
    split
    · split
      · exact .prompt
      · split
        · exact .prompt
        · exact .jid
    · split
      · exact .prompt
      · split
        · exact .prompt
        · next found => exact .pid (getjobpid_eq_some found).1

theorem evalStart_cases (jobs : Jobs) (cmdline : List Char) : EvalStart jobs cmdline (evalStart jobs cmdline) := by
  unfold evalStart
  simp only
  split
  · exact .crashed (by decide)
  · split
    · exact .crashed (by decide)
    · split_ifs
      · exact .exited
      · exact .prompt
      · exact bgfgTarget_cases
      · exact .block

theorem handle_cases (changed : c.changed = true) : Handled s c (s.handle c) := by
  unfold Sh.handle
  split
  · next none => exact .lost none
  · next none => exact .lost none
  · next life found =>
    rw [waited, life]
    exact .stopped (getjobpid_eq_some found).1
  · next notSignaled notStopped notFound =>
    cases life : c.life with
    | running =>
      rw [Child.changed, life] at changed
      cases changed
    | stopped reported =>
      cases found : getjobpid s.table.jobs c.pid with
      | none => exact absurd found (notStopped reported life)
      | some slot => exact absurd found (notFound reported slot life)
    | exited =>
      rw [waited, life]
      exact .reaped
    | signaled =>
      rw [waited, life]
      exact .reaped

/-- What every round of the handler preserves holds when the handler returns. -/
theorem sigchldHandler_keeps {I : Sh → Prop} (start : I s) (ran : s.sigchldHandler order = some s')
    (keep : ∀ s c s', I s → c ∈ s.children → c.changed = true → Handled s c s' → I s') : I s' := by
  induction order generalizing s with
  | nil =>
    rw [Sh.sigchldHandler] at ran
    split at ran
    · cases ran
      exact start
    · cases ran
  | cons pid rest ih =>
    rw [Sh.sigchldHandler] at ran
    split at ran
    · cases ran
    · obtain ⟨c, found, ran⟩ := Option.bind_eq_some_iff.mp ran
      have test := List.find?_some found
      have changed := (Bool.and_eq_true_iff.mp test).2
      have handled := keep s c _ start (List.mem_of_find?_eq_some found) changed (handle_cases changed)
      split at ran
      · split at ran
        · cases ran
          exact handled
        · cases ran
      · exact ih handled ran

theorem mem_onChild {f : Child → Child} :
    d ∈ onChild children pid f ↔ ∃ c ∈ children, d = if c.pid = pid then f c else c := by
  unfold onChild
  rw [List.mem_map]
  exact exists_congr fun c => and_congr_right fun _ => eq_comm

theorem Handled.pc (handled : Handled s c s') : s'.pc = s.pc ∨ s'.pc = .crashed .nullJob := by
  cases handled with
  | reaped => exact .inl rfl
  | stopped => exact .inl rfl
  | lost => exact .inr rfl

/-- A round of the handler concerns no other job. -/
theorem Handled.frame (handled : Handled s c s') (other : (s.table.jobs slot).pid ≠ c.pid) :
    s'.table.jobs slot = s.table.jobs slot := by
  cases handled with
  | reaped =>
    rcases deletejob_cases s.table c.pid with ⟨i, same, _, cleared⟩ | ⟨_, unchanged⟩
    · rw [cleared]
      refine Function.update_of_ne ?_ _ _
      rintro rfl
      exact other same
    · rw [unchanged]
  | stopped found =>
    refine Function.update_of_ne ?_ _ _
    rintro rfl
    exact other found
  | lost => rfl

theorem Handled.own (handled : Handled s c s') (distinct : Distinct Job.pid s.table.jobs) (positive : 0 < c.pid)
    (own : (s.table.jobs slot).pid = c.pid) :
    s'.table.jobs slot = clearjob ∨ s'.table.jobs slot = { s.table.jobs slot with state := .st } := by
  cases handled with
  | reaped =>
    rcases deletejob_cases s.table c.pid with ⟨i, same, _, cleared⟩ | ⟨none, _⟩
    · obtain rfl := distinct slot i (by omega) (by omega) (own.trans same.symm)
      rw [cleared]
      exact .inl (Function.update_self _ _ _)
    · have := none slot own
      omega
  | @stopped i found =>
    obtain rfl := distinct slot i (by omega) (by omega) (own.trans found.symm)
    exact .inr (Function.update_self _ _ _)
  | lost none => exact absurd own ((getjobpid_eq_none (by omega)).mp none slot)

/-- A round of the handler concerns no other child. -/
theorem Handled.others (handled : Handled s c s') (mem : d ∈ s'.children) (other : d.pid ≠ c.pid) : d ∈ s.children := by
  have stopped : d ∈ onChild s.children c.pid (fun c => { c with life := .stopped true, stopSeen := true }) →
      d ∈ s.children := by
    intro mem
    obtain ⟨e, inside, rfl⟩ := mem_onChild.mp mem
    split at other
    · next same => exact absurd same other
    · next differs =>
      rw [if_neg differs]
      exact inside
  cases handled with
  | reaped => exact List.mem_of_mem_filter mem
  | stopped => exact stopped mem
  | lost =>
    simp only [waited] at mem
    split at mem
    · exact stopped mem
    · exact List.mem_of_mem_filter mem

/-- The handler leaves the main flow where it is, or crashes. -/
theorem sigchldHandler_pc (ran : s.sigchldHandler order = some s') : s'.pc = s.pc ∨ s'.pc = .crashed .nullJob := by
  refine sigchldHandler_keeps (I := fun t => t.pc = s.pc ∨ t.pc = .crashed .nullJob) (.inl rfl) ran ?_
  intro t c t' before _ _ handled
  rcases handled.pc with same | crashed
  · rw [same]
    exact before
  · exact .inr crashed

theorem step_cases {act : Act} (next : s.step act = some s') : Step s act s' := by
  cases act with
  | main act => exact .main (mainStep_cases next)
  | child pid event =>
    obtain ⟨c, found, next⟩ := Option.bind_eq_some_iff.mp next
    obtain ⟨⟨c', notify⟩, changed, rfl⟩ := Option.map_eq_some_iff.mp next
    have test := List.find?_some found
    exact .child (List.mem_of_find?_eq_some found) (of_decide_eq_true test) changed
  | deliver order =>
    rw [Sh.step] at next
    split at next
    case isTrue ready => exact .deliver ready.2.1 next
    case isFalse => cases next
  | interrupt =>
    rw [Sh.step] at next
    split at next <;> cases next
    exact .interrupt
  | quit =>
    rw [Sh.step] at next
    split at next <;> cases next
    exact .quit

end Calls

end Splab.Shell
