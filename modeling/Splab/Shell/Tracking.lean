import Splab.Shell.Processes

namespace Splab.Shell

/-- `eval` is between the return of `addjob` and the unblocking of SIGCHLD. -/
def Pc.added : Pc → Bool
  | .evalPrint _ | .evalUnblock _ _ => true
  | _ => false

/-- Each child has exactly one job whenever the handler may run or `eval` has called `addjob`, and no job
that the shell looks up for a child is missing. -/
structure Tracked (s : Sh) : Prop where
  jobs : s.blocked = false ∨ s.pc.added = true → ∀ c ∈ s.children, ∃! i, (s.table.jobs i).pid = c.pid
  lookups : s.pc ≠ .crashed .nullJob

/-- The job list is not full when `addjob` is called. -/
def RoomForJob (s : Sh) : Act → Prop
  | .main .next =>
    match s.pc with
    | .evalAdd _ _ _ => ∃ i, (s.table.jobs i).pid = 0
    | _ => True
  | _ => True

/-- The child has no job yet, or the shell was left before it got one. -/
def NoJobYet (s : Sh) (pid : Int) : Prop :=
  match s.pc with
  | .evalAdd new _ _ => pid = new
  | .exited => s.blocked = true
  | _ => False

/-- The job that is about to be printed is in the list. -/
def Printable (s : Sh) : Prop :=
  match s.pc with
  | .evalPrint pid => s.blocked = true ∧ 1 ≤ pid ∧ ∃ i, (s.table.jobs i).pid = pid
  | _ => True

structure TrackInv (s : Sh) : Prop where
  base : Base s
  listed : ∀ c ∈ s.children, ¬NoJobYet s c.pid → ∃ i, (s.table.jobs i).pid = c.pid
  printable : Printable s
  lookups : s.pc ≠ .crashed .nullJob

section Tracking
variable {s s' : Sh} {c : Child} {pc : Pc} {pid : Int}

theorem TrackInv.tracked (inv : TrackInv s) : Tracked s where
  jobs outside c mem := by
    have hasJob : ¬NoJobYet s c.pid := by
      have between := inv.base.between
      rw [NoJobYet]
      rw [Between] at between
      cases here : s.pc with
      | evalAdd =>
        rw [here] at between outside
        rcases outside with unblocked | added
        · cases between.1.symm.trans unblocked
        · cases added
      | exited =>
        rw [here] at outside
        rcases outside with unblocked | added
        · exact fun blocked => by cases blocked.symm.trans unblocked
        · cases added
      | _ => exact id
    obtain ⟨i, same⟩ := inv.listed c mem hasJob
    have positive := inv.base.agree.positive c mem
    exact ⟨i, same, fun j other => inv.base.agree.distinct j i (by omega) (by omega) (other.trans same.symm)⟩
  lookups := inv.lookups

/-- A step that leaves the job list and the set of the children as they are. -/
theorem TrackInv.goto (inv : TrackInv s) (base : Base s') (table : s'.table = s.table)
    (pids : SamePids s.children s'.children)
    (noJob : ∀ pid, NoJobYet s pid → NoJobYet s' pid)
    (printable : Printable s') (lookups : s'.pc ≠ .crashed .nullJob) : TrackInv s' where
  base := base
  listed d mem other := by
    obtain ⟨c, inside, same⟩ := pids.origin d mem
    rw [table, ← same]
    exact inv.listed c inside fun none => other (same ▸ noJob _ none)
  printable := printable
  lookups := lookups

theorem Printable.unblocked {t : Sh} (printable : Printable s) (unblocked : s.blocked = false) (same : t.pc = s.pc) :
    Printable t := by
  rw [Printable] at printable ⊢
  rw [same]
  split
  · next here =>
    rw [here] at printable
    cases unblocked.symm.trans printable.1
  · trivial

theorem TrackInv.handled (inv : TrackInv s) (unblocked : s.blocked = false) (mem : c ∈ s.children)
    (handled : Handled s c s') : TrackInv s' ∧ s'.blocked = false := by
  obtain ⟨base, blocked⟩ := inv.base.handled unblocked mem handled
  have positive := inv.base.agree.positive
  have tracked := inv.tracked.jobs (.inl unblocked)
  refine ⟨⟨base, ?_, ?_, ?_⟩, blocked⟩
  · intro d inside _
    by_cases other : d.pid = c.pid
    · cases handled with
      | reaped => exact absurd other (of_decide_eq_true (List.mem_filter.mp inside).2)
      | stopped found => exact ⟨_, (setState_pid _).trans (found.trans other.symm)⟩
      | lost none =>
        obtain ⟨i, same, _⟩ := tracked c mem
        exact absurd same ((getjobpid_eq_none (positive c mem)).mp none i)
    · obtain ⟨i, same, _⟩ := tracked d (handled.others inside other)
      refine ⟨i, ?_⟩
      rw [handled.frame (same ▸ other)]
      exact same
  · rcases handled.pc with same | crashed
    · exact inv.printable.unblocked unblocked same
    · rw [Printable, crashed]
      trivial
  · cases handled with
    | reaped | stopped => exact inv.lookups
    | lost none =>
      obtain ⟨i, same, _⟩ := tracked c mem
      exact absurd same ((getjobpid_eq_none (positive c mem)).mp none i)

theorem TrackInv.add (inv : TrackInv s) {bg : Bool} {cmdline : List Char} (here : s.pc = .evalAdd pid bg cmdline)
    (room : ∃ i, (s.table.jobs i).pid = 0)
    (base : Base { s with
      table := (addjob s.table pid (if bg then .bg else .fg) cmdline).1
      pc := if bg then .evalPrint pid else .evalUnblock pid bg }) :
    TrackInv { s with
      table := (addjob s.table pid (if bg then .bg else .fg) cmdline).1
      pc := if bg then .evalPrint pid else .evalUnblock pid bg } := by
  have between := inv.base.between
  rw [Between, here] at between
  obtain ⟨blocked, ⟨c, mem, same⟩, unlisted, _⟩ := between
  have positive := inv.base.agree.positive
  have low : 1 ≤ pid := same ▸ positive c mem
  rcases addjob_cases s.table (if bg then .bg else .fg) cmdline low with
    ⟨i, free, filled⟩ | ⟨full, _⟩
  · rw [filled] at base ⊢
    have new :
        (Function.update s.table.jobs i ⟨pid, s.table.nextjid, if bg then .bg else .fg, cmdline⟩ i).pid = pid := by
      rw [Function.update_self]
    refine ⟨base, fun d inside _ => ?_, ?_, ?_⟩
    · by_cases own : d.pid = pid
      · exact ⟨i, new.trans own.symm⟩
      · obtain ⟨j, listed⟩ := inv.listed d inside (by rw [NoJobYet, here]; exact own)
        have other : j ≠ i := by
          rintro rfl
          have := positive d inside
          omega
        refine ⟨j, ?_⟩
        simp only [Function.update_of_ne other]
        exact listed
    · cases bg with
      | true => exact ⟨blocked, low, i, new⟩
      | false => trivial
    · cases bg <;> simp
  · obtain ⟨i, free⟩ := room
    exact absurd free (full i)

theorem TrackInv.mainStep (inv : TrackInv s) {act : MainAct} (room : RoomForJob s (.main act))
    (next : MainStep s act s') :
    TrackInv s' := by
  have base := inv.base.mainStep next
  have same : SamePids s.children s.children := Follows.refl.toSamePids
  cases next with
  | eof here | noMemory here | block here | forkFailed here | print here | readPid here | stopped here | notStopped here
  | killFailed here | lookup here | lookupNull here | waiting here | done here | pause here =>
    exact inv.goto base rfl same (fun pid => by rw [NoJobYet, here]; exact False.elim) trivial nofun
  | @line cmdline here =>
    have eval := evalStart_cases s.table.jobs cmdline
    refine inv.goto base rfl same (fun pid => by rw [NoJobYet, here]; exact False.elim) ?_ ?_
    · rw [Printable]
      generalize evalStart s.table.jobs cmdline = pc at eval ⊢
      cases eval <;> trivial
    · generalize evalStart s.table.jobs cmdline = pc at eval ⊢
      cases eval with
      | crashed kind => exact fun crash => kind (Pc.crashed.inj crash)
      | _ => exact nofun
  | @forked bg cmdline pid here positive fresh =>
    refine ⟨base, ?_, trivial, nofun⟩
    refine List.forall_mem_cons.mpr ⟨fun other => absurd rfl other, fun c mem _ => ?_⟩
    exact inv.listed c mem (by rw [NoJobYet, here]; exact id)
  | add here =>
    rw [RoomForJob, here] at room
    exact inv.add here room base
  | @printNull pid here none =>
    have printable := inv.printable
    rw [Printable, here] at printable
    obtain ⟨_, low, i, listed⟩ := printable
    exact absurd listed ((getjobpid_eq_none low).mp none i)
  | @unblock pid bg here =>
    refine inv.goto base rfl same (fun pid => by rw [NoJobYet, here]; exact False.elim) ?_ ?_ <;> cases bg
    · trivial
    · trivial
    · exact nofun
    · exact nofun
  | kill here =>
    exact inv.goto base rfl follows_continued.toSamePids (fun pid => by rw [NoJobYet, here]; exact False.elim)
      trivial nofun
  | @write fg slot pid here =>
    refine ⟨base, fun c mem _ => ?_, ?_, ?_⟩
    · obtain ⟨i, listed⟩ := inv.listed c mem (by rw [NoJobYet, here]; exact id)
      exact ⟨i, (setState_pid i).trans listed⟩
    · cases fg <;> trivial
    · cases fg <;> simp

theorem TrackInv.step (inv : TrackInv s) {act : Act} (room : RoomForJob s act) (next : s.step act = some s') :
    TrackInv s' := by
  have base := inv.base.step next
  have resumed : s.pc.resumed ≠ .crashed .nullJob := by
    have lookups := inv.lookups
    cases here : s.pc <;> rw [here] at lookups <;> first | exact lookups | exact nofun
  have printable {pending : Bool} : Printable { s with pending := pending, pc := s.pc.resumed } := by
    have printable := inv.printable
    rw [Printable] at printable ⊢
    cases here : s.pc <;> rw [here] at printable <;> exact printable
  have noJob {pending : Bool} : ∀ pid, NoJobYet s pid →
    NoJobYet { s with pending := pending, pc := s.pc.resumed } pid := by
    intro pid none
    rw [NoJobYet] at none ⊢
    cases here : s.pc <;> rw [here] at none <;> exact none
  cases step_cases next with
  | main next => exact inv.mainStep room next
  | child mem same changed =>
    exact inv.goto base rfl (follows_event mem same changed).toSamePids (fun _ => id) inv.printable inv.lookups
  | deliver unblocked ran =>
    have start : TrackInv { s with pending := false, pc := s.pc.resumed } :=
      inv.goto ⟨inv.base.agree, inv.base.between.resumed⟩ rfl Follows.refl.toSamePids noJob printable resumed
    have keep := sigchldHandler_keeps (I := fun s => TrackInv s ∧ s.blocked = false) ⟨start, unblocked⟩ ran
    exact (keep fun s c s' both mem _ handled => both.1.handled both.2 mem handled).1
  | interrupt => exact inv.goto base rfl Follows.refl.toSamePids noJob printable resumed
  | quit =>
    refine inv.goto base rfl Follows.refl.toSamePids (fun pid none => ?_) trivial nofun
    have between := inv.base.between
    rw [Between] at between
    rw [NoJobYet] at none
    cases here : s.pc with
    | evalAdd =>
      rw [here] at between
      exact between.1
    | exited =>
      rw [here] at none
      exact none
    | _ =>
      rw [here] at none
      exact none.elim

/-- A child for which the list has no room is not tracked. -/
theorem TrackInv.room_of_step (inv : TrackInv s) {act : Act} (next : s.step act = some s') (tracked : Tracked s') :
    RoomForJob s act := by
  cases step_cases next with
  | child | deliver | interrupt | quit => trivial
  | main next =>
    cases next with
    | @add pid bg cmdline here =>
      rw [RoomForJob, here]
      have between := inv.base.between
      rw [Between, here] at between
      obtain ⟨_, ⟨c, mem, same⟩, unlisted, _⟩ := between
      have positive := inv.base.agree.positive c mem
      obtain ⟨k, listed, _⟩ := tracked.jobs (.inr (by cases bg <;> rfl)) c mem
      rcases addjob_cases s.table (if bg then .bg else .fg) cmdline (show 1 ≤ pid by omega) with
        ⟨i, free, _⟩ | ⟨_, full⟩
      · exact ⟨i, free⟩
      · simp only [full] at listed
        exact absurd (listed.trans same) (unlisted k)
    | eof | line | noMemory | forkFailed | forked | kill | killFailed => trivial
    | block here | print here | printNull here | unblock here | readPid here | stopped here | notStopped here
    | write here
    | lookup here | lookupNull here | waiting here | done here | pause here =>
      rw [RoomForJob, here]
      trivial

theorem trackInv_initSh : TrackInv initSh := ⟨base_initSh, nofun, trivial, nofun⟩

/-- Every child has its job in all states of a run exactly when `addjob` always finds a free entry. -/
theorem tracked_iff (acts : List Act) :
    Always Sh.step Tracked initSh acts ↔ Meets Sh.step RoomForJob initSh acts :=
  always_iff_meets trackInv_initSh (fun _ inv => inv.tracked) (fun _ _ _ inv room next => inv.step room next)
    fun _ _ _ inv next tracked => inv.room_of_step next tracked

/-- A background job from its command line to the next prompt. -/
def backgroundJob (pid : Int) : List Act :=
  [.main (.line "ls &\n".toList true), .main .next, .main (.forked (some pid)), .main .next, .main .next, .main .next]

/-- Seventeen background jobs, up to the lookup for the last one. -/
def crowdedRun : List Act := ((List.range 17).flatMap fun k => backgroundJob (k + 1 : Nat)).dropLast

theorem lookup_fails : ¬∀ acts, Always Sh.step Tracked initSh acts := by
  intro always
  have lookups := (always crowdedRun).final.lookups
  revert lookups
  decide +kernel

end Tracking

end Splab.Shell
