import Splab.Shell.Steps

namespace Splab.Shell

/-- While `waitfg` sleeps in `pause` and no SIGCHLD is pending, its job is still in the foreground. -/
def Awaited (s : Sh) : Prop :=
  ∀ slot pid, s.pc = .paused slot pid → s.pending = false →
    ∃ i, (s.table.jobs i).pid = pid ∧ (s.table.jobs i).state = .fg

/-- The child of the job that `waitfg` has tested without having called `pause` yet. -/
def Pc.window : Pc → Option Int
  | .aboutToPause _ pid => some pid
  | _ => none

/-- The handler does not come between the test of `waitfg` and `pause` with news of the child that is waited for. -/
def NoNewsInWindow (s : Sh) : Act → Prop
  | .deliver _ => ∀ c ∈ s.children, s.pc.window = some c.pid → c.changed = false
  | _ => True

instance {s : Sh} {act : Act} : Decidable (NoNewsInWindow s act) :=
  match act with
  | .deliver _ => inferInstanceAs (Decidable (∀ c ∈ s.children, s.pc.window = some c.pid → c.changed = false))
  | .main _ | .child _ _ | .interrupt | .quit => .isTrue trivial

/-- The test of `waitfg` is still right. -/
def TestHolds (s : Sh) : Prop :=
  match s.pc with
  | .aboutToPause slot pid | .paused slot pid => (s.table.jobs slot).pid = pid ∧ (s.table.jobs slot).state = .fg
  | _ => True

section Window
variable {s s' : Sh} {c : Child} {slot : Fin maxJobs} {pid : Int} {act : Act} {order : List Int}

/-- A job whose child has no news is left as it is. -/
theorem sigchldHandler_frame (ran : s.sigchldHandler order = some s')
    (quiet : ∀ c ∈ s.children, c.pid = (s.table.jobs slot).pid → c.changed = false) :
    s'.table.jobs slot = s.table.jobs slot := by
  let I (t : Sh) := t.table.jobs slot = s.table.jobs slot ∧
    ∀ c ∈ t.children, c.pid = (s.table.jobs slot).pid → c.changed = false
  refine (sigchldHandler_keeps (I := I) ⟨rfl, quiet⟩ ran ?_).1
  intro t c t' ⟨same, quiet⟩ mem changed handled
  have other : c.pid ≠ (s.table.jobs slot).pid := fun eq => by cases changed.symm.trans (quiet c mem eq)
  refine ⟨(handled.frame (by rw [same]; exact other.symm)).trans same, fun d mem eq => ?_⟩
  exact quiet d (handled.others mem (eq ▸ other.symm)) eq

theorem TestHolds.mainStep {act : MainAct} (holds : TestHolds s) (next : MainStep s act s') : TestHolds s' := by
  cases next with
  | eof | noMemory | block | forkFailed | forked | print | printNull | readPid | stopped | notStopped | kill
  | killFailed | lookup | lookupNull | done => trivial
  | @line cmdline =>
    have eval := evalStart_cases s.table.jobs cmdline
    rw [TestHolds]
    generalize evalStart s.table.jobs cmdline = pc at eval ⊢
    cases eval <;> trivial
  | @add pid bg => cases bg <;> trivial
  | @unblock pid bg => cases bg <;> trivial
  | @write fg => cases fg <;> trivial
  | waiting here waiting => exact waiting
  | pause here =>
    rw [TestHolds, here] at holds
    exact holds

theorem TestHolds.step (holds : TestHolds s) (quiet : NoNewsInWindow s act) (next : s.step act = some s') :
    TestHolds s' := by
  cases step_cases next with
  | main next => exact holds.mainStep next
  | child => exact holds
  | deliver unblocked ran =>
    rw [TestHolds]
    rcases sigchldHandler_pc ran with same | crashed
    · rw [same]
      cases here : s.pc with
      | aboutToPause slot pid =>
        rw [TestHolds, here] at holds
        have frame := sigchldHandler_frame ran fun c mem eq => quiet c mem (by rw [here, Pc.window, eq, holds.1])
        simp only [Pc.resumed, frame]
        exact holds
      | _ => trivial
    · rw [crashed]
      trivial
  | interrupt =>
    rw [TestHolds]
    cases here : s.pc with
    | aboutToPause slot pid =>
      rw [TestHolds, here] at holds
      exact holds
    | _ => trivial
  | quit => trivial

/-- No wake-up is lost in a run in which the handler never comes with news
of the child that is waited for between the test of `waitfg` and `pause`. -/
theorem awaited_of_meets (acts : List Act) (meets : Meets Sh.step NoNewsInWindow initSh acts) :
    Always Sh.step Awaited initSh acts := by
  have holds := meets.always (I := TestHolds) trivial fun s act s' holds quiet next => holds.step quiet next
  refine holds.imp fun s holds slot pid here _ => ?_
  rw [TestHolds, here] at holds
  exact ⟨slot, holds⟩

/-- A foreground job up to the test of `waitfg`. -/
def foregroundRun : List Act :=
  [.main (.line "ls\n".toList true), .main .next, .main (.forked (some 5)), .main .next, .main .next, .main .next,
    .main .next]

/-- The job exits when the shell is already in `pause`. -/
theorem awaited_of_meets_sample :
    Always Sh.step Awaited initSh (foregroundRun ++ [.main .next, .child 5 .exit, .deliver [5], .main .next]) :=
  awaited_of_meets _ (by decide +kernel)

/-- The job exits before. -/
theorem wakeUp_lost : ¬∀ acts, Always Sh.step Awaited initSh acts := by
  intro always
  have awaited := (always (foregroundRun ++ [.child 5 .exit, .deliver [5], .main .next])).final
  have lost := awaited ⟨0, by decide⟩ 5 (by decide +kernel) (by decide +kernel)
  revert lost
  decide +kernel

end Window

end Splab.Shell
