import Splab.Lib.Transitions
import Splab.Shell.Jobs

namespace Splab.Shell

/-- A call that changes the job list. -/
inductive TableOp
  | addjob (pid : Int) (state : JobState) (cmdline : List Char)
  | deletejob (pid : Int)

/-- Jobs are added for processes that are not in the list yet. -/
def TableOp.step (t : Table) : TableOp → Option Table
  | .addjob pid state cmdline =>
    if ∀ i, (t.jobs i).pid = pid → pid = 0 then some (Shell.addjob t pid state cmdline).1 else none
  | .deletejob pid => some (Shell.deletejob t pid).1

/-- Every job has an id from 1 to `MAXJOBS`, and no other job has the same. -/
structure JidsUnique (jobs : Jobs) : Prop where
  distinct : Distinct Job.jid jobs
  low : ∀ i, (jobs i).pid ≠ 0 → 1 ≤ (jobs i).jid
  high : ∀ i, (jobs i).pid ≠ 0 → (jobs i).jid ≤ maxJobs

/-- The id that the call is going to give to a job is at most `MAXJOBS` and not in use. -/
def FreshJid (t : Table) : TableOp → Prop
  | .addjob pid _ _ => 1 ≤ pid → (∃ i, (t.jobs i).pid = 0) → t.nextjid ≤ maxJobs ∧ getjobjid t.jobs t.nextjid = none
  | .deletejob _ => True

/-- The job list while every new id is fresh. -/
structure CleanIds (jobs : Jobs) : Prop extends JidsUnique jobs where
  free : ∀ i, (jobs i).pid = 0 → (jobs i).jid = 0

structure IdsInv (t : Table) : Prop extends CleanIds t.jobs where
  nextLow : 1 ≤ t.nextjid
  nextHigh : t.nextjid ≤ maxJobs + 1

section Ids
variable {t t' : Table} {jobs : Jobs} {op : TableOp} {ops : List TableOp} {i j : Fin maxJobs} {pid : Int}
  {state : JobState}
  {cmdline : List Char}

theorem wrapInt_eq {x : Int} (low : 0 ≤ x) (high : x < 2 ^ 31) : wrapInt x = x := by
  unfold wrapInt
  rw [Int.bmod_def]
  omega

theorem jidAfter_bounds (low : 1 ≤ t.nextjid) (high : t.nextjid ≤ maxJobs) :
    1 ≤ jidAfter t.nextjid ∧ jidAfter t.nextjid ≤ maxJobs + 1 := by
  have limit : (maxJobs : Int) = 16 := rfl
  have wrapped : wrapInt (t.nextjid + 1) = t.nextjid + 1 := wrapInt_eq (by omega) (by omega)
  unfold jidAfter
  rw [wrapped]
  simp only
  split <;> omega

theorem CleanIds.maxjid_le (clean : CleanIds jobs) : maxjid jobs ≤ maxJobs := by
  rcases maxjid_attained jobs with zero | ⟨i, eq⟩
  · omega
  · by_cases free : (jobs i).pid = 0
    · have := clean.free i free
      omega
    · rw [eq]
      exact clean.high i free

theorem CleanIds.fill (clean : CleanIds jobs) {job : Job} (low : 1 ≤ job.jid) (high : job.jid ≤ maxJobs)
    (occupied : job.pid ≠ 0) (unused : ∀ j, (jobs j).jid ≠ job.jid) : CleanIds (Function.update jobs i job) where
  distinct := clean.distinct.update fun _ j _ _ => unused j
  low := forall_update (P := fun _ job => job.pid ≠ 0 → 1 ≤ job.jid) (fun _ => low) fun j _ => clean.low j
  high := forall_update (P := fun _ job => job.pid ≠ 0 → job.jid ≤ maxJobs) (fun _ => high) fun j _ => clean.high j
  free := forall_update (P := fun _ job => job.pid = 0 → job.jid = 0) (fun zero => absurd zero occupied)
    fun j _ => clean.free j

theorem CleanIds.clear (clean : CleanIds jobs) : CleanIds (Function.update jobs i clearjob) where
  distinct := clean.distinct.update fun occupied => absurd rfl occupied
  low := forall_update (P := fun _ job => job.pid ≠ 0 → 1 ≤ job.jid) (fun occupied => absurd rfl occupied)
    fun j _ => clean.low j
  high := forall_update (P := fun _ job => job.pid ≠ 0 → job.jid ≤ maxJobs) (fun occupied => absurd rfl occupied)
    fun j _ => clean.high j
  free := forall_update (P := fun _ job => job.pid = 0 → job.jid = 0) (fun _ => rfl) fun j _ => clean.free j

theorem IdsInv.addjob (inv : IdsInv t) (fresh : FreshJid t (.addjob pid state cmdline)) :
    IdsInv (Shell.addjob t pid state cmdline).1 := by
  by_cases positive : 1 ≤ pid
  · rcases addjob_cases t state cmdline positive with ⟨i, free, filled⟩ | ⟨_, full⟩
    · obtain ⟨high, unused⟩ := fresh positive ⟨i, free⟩
      have unused := (getjobjid_eq_none inv.nextLow).mp unused
      obtain ⟨nextLow, nextHigh⟩ := jidAfter_bounds inv.nextLow high
      rw [filled]
      exact ⟨inv.toCleanIds.fill inv.nextLow high (by simp only; omega) unused, nextLow, nextHigh⟩
    · rw [full]
      exact inv
  · rw [Shell.addjob, if_pos (by omega)]
    exact inv

theorem IdsInv.deletejob (inv : IdsInv t) : IdsInv (Shell.deletejob t pid).1 := by
  rcases deletejob_cases t pid with ⟨i, _, _, cleared⟩ | ⟨_, same⟩
  · have clean : CleanIds (Function.update t.jobs i clearjob) := inv.toCleanIds.clear
    have low := maxjid_nonneg (Function.update t.jobs i clearjob)
    have high := clean.maxjid_le
    have limit : (maxJobs : Int) = 16 := rfl
    rw [cleared, wrapInt_eq (by omega) (by omega)]
    exact ⟨clean, by simp only; omega, by simp only; omega⟩
  · rw [same]
    exact inv

theorem IdsInv.step (inv : IdsInv t) (fresh : FreshJid t op) (next : op.step t = some t') : IdsInv t' := by
  cases op with
  | addjob pid state cmdline =>
    rw [TableOp.step] at next
    split at next
    · cases next
      exact inv.addjob fresh
    · cases next
  | deletejob pid =>
    cases next
    exact inv.deletejob

/-- An id that is not fresh breaks the property at once. -/
theorem IdsInv.fresh_of_step (inv : IdsInv t) (next : op.step t = some t') (unique : JidsUnique t'.jobs) :
    FreshJid t op := by
  cases op with
  | addjob pid state cmdline =>
    intro positive ⟨k, kFree⟩
    rw [TableOp.step] at next
    split at next
    · cases next
      rcases addjob_cases t state cmdline positive with ⟨i, free, filled⟩ | ⟨none', _⟩
      · rw [filled] at unique
        replace unique : JidsUnique (Function.update t.jobs i ⟨pid, t.nextjid, state, cmdline⟩) := unique
        have occupied : (Function.update t.jobs i ⟨pid, t.nextjid, state, cmdline⟩ i).pid ≠ 0 := by
          rw [Function.update_self]
          simp only
          omega
        have high := unique.high i occupied
        rw [Function.update_self] at high
        refine ⟨high, (getjobjid_eq_none inv.nextLow).mpr fun j used => ?_⟩
        have low := inv.nextLow
        have inUse : (t.jobs j).pid ≠ 0 := fun zero => by
          have := inv.free j zero
          omega
        have other : j ≠ i := fun eq => inUse (eq ▸ free)
        refine other (unique.distinct j i ?_ occupied ?_) <;> simp only [Function.update_of_ne other]
        · exact inUse
        · rw [Function.update_self, used]
      · exact absurd kFree (none' k)
    · cases next
  | deletejob pid => trivial

theorem idsInv_initTable : IdsInv initTable where
  distinct i _ occupied := absurd rfl occupied
  low i occupied := absurd rfl occupied
  high i occupied := absurd rfl occupied
  free _ _ := rfl
  nextLow := le_rfl
  nextHigh := by decide

/-- The job ids of a run are unambiguous in all of its states exactly when every
new id is at most `MAXJOBS` and not in use. -/
theorem jidsUnique_iff (ops : List TableOp) :
    Always TableOp.step (fun t => JidsUnique t.jobs) initTable ops ↔ Meets TableOp.step FreshJid initTable ops :=
  always_iff_meets idsInv_initTable (fun _ inv => inv.toJidsUnique) (fun _ _ _ inv fresh next => inv.step fresh next)
    fun _ _ _ inv next unique => inv.fresh_of_step next unique

/-- Fifteen jobs, the third one is deleted, and two more are added: the second of them gets the id 1 again. -/
def wrappedRun : List TableOp :=
  (List.range 15).map (fun k => .addjob (k + 100) .bg []) ++
    [.deletejob 102, .addjob 200 .bg [], .addjob 201 .bg []]

theorem jids_collide : ¬∀ ops, Always TableOp.step (fun t => JidsUnique t.jobs) initTable ops := by
  intro always
  have unique := (always wrappedRun).final.distinct ⟨0, by decide⟩ ⟨15, by decide⟩
  revert unique
  decide +kernel

end Ids

end Splab.Shell
