import Mathlib

namespace Splab.Shell

/-- `MAXJOBS`, `MAXARGS` and `MAXLINE`. -/
def maxJobs : Nat := 16
def maxArgs : Nat := 128
def maxLine : Nat := 1024

inductive JobState
  | undef | fg | bg | st
  deriving DecidableEq, Repr

/-- An entry of the job list; the entry is free when `pid` is 0. -/
structure Job where
  pid : Int
  jid : Int
  state : JobState
  cmdline : List Char
  deriving DecidableEq, Repr

/-- The array `jobs`. -/
abbrev Jobs := Fin maxJobs → Job

/-- The global variables `jobs` and `nextjid`. -/
structure Table where
  jobs : Jobs
  nextjid : Int

/-- The value of an `int` after an operation with the exact result `x`. -/
def wrapInt (x : Int) : Int := x.bmod (2 ^ 32)

def clearjob : Job := ⟨0, 0, .undef, []⟩

def initjobs : Jobs := fun _ => clearjob

/-- The first entry for which the test in a loop over the job list succeeds. -/
def firstSlot (jobs : Jobs) (test : Job → Bool) : Option (Fin maxJobs) :=
  (List.finRange maxJobs).find? fun i => test (jobs i)

def maxjid (jobs : Jobs) : Int := (List.finRange maxJobs).foldl (fun m i => max m (jobs i).jid) 0

/-- `nextjid++`, and back to 1 after `MAXJOBS`, whether that id is in use or not. -/
def jidAfter (jid : Int) : Int :=
  let next := wrapInt (jid + 1)
  if maxJobs < next then 1 else next

/-- `addjob`, with its result. -/
def addjob (t : Table) (pid : Int) (state : JobState) (cmdline : List Char) : Table × Bool :=
  if pid < 1 then (t, false)
  else match firstSlot t.jobs fun job => job.pid = 0 with
    | some i => (⟨Function.update t.jobs i ⟨pid, t.nextjid, state, cmdline⟩, jidAfter t.nextjid⟩, true)
    | none => (t, false)

def deletejob (t : Table) (pid : Int) : Table × Bool :=
  if pid < 1 then (t, false)
  else match firstSlot t.jobs fun job => job.pid = pid with
    | some i =>
      let jobs := Function.update t.jobs i clearjob
      (⟨jobs, wrapInt (maxjid jobs + 1)⟩, true)
    | none => (t, false)

def getjobpid (jobs : Jobs) (pid : Int) : Option (Fin maxJobs) :=
  if pid < 1 then none else firstSlot jobs fun job => job.pid = pid

def getjobjid (jobs : Jobs) (jid : Int) : Option (Fin maxJobs) :=
  if jid < 1 then none else firstSlot jobs fun job => job.jid = jid

/-- The table at the start of the shell. -/
def initTable : Table := ⟨initjobs, 1⟩

section Search
variable {jobs : Jobs} {test : Job → Bool} {i : Fin maxJobs} {pid jid : Int}

theorem firstSlot_eq_some (found : firstSlot jobs test = some i) : test (jobs i) = true :=
  List.find?_some (p := fun i => test (jobs i)) found

theorem firstSlot_eq_none : firstSlot jobs test = none ↔ ∀ i, test (jobs i) = false := by
  unfold firstSlot
  rw [List.find?_eq_none]
  simp

theorem getjobpid_eq_some (found : getjobpid jobs pid = some i) : (jobs i).pid = pid ∧ 1 ≤ pid := by
  unfold getjobpid at found
  split at found
  · cases found
  · have := firstSlot_eq_some found
    exact ⟨of_decide_eq_true this, by omega⟩

theorem getjobpid_eq_none (positive : 1 ≤ pid) : getjobpid jobs pid = none ↔ ∀ i, (jobs i).pid ≠ pid := by
  unfold getjobpid
  rw [if_neg (by omega), firstSlot_eq_none]
  simp only [decide_eq_false_iff_not, ne_eq]

theorem getjobjid_eq_none (positive : 1 ≤ jid) : getjobjid jobs jid = none ↔ ∀ i, (jobs i).jid ≠ jid := by
  unfold getjobjid
  rw [if_neg (by omega), firstSlot_eq_none]
  simp only [decide_eq_false_iff_not, ne_eq]

end Search

section Update
variable {jobs : Jobs} {job : Job} {i : Fin maxJobs}

/-- What holds of a changed entry and of all others holds of the changed list. -/
theorem forall_update {P : Fin maxJobs → Job → Prop} (here : P i job) (others : ∀ j, j ≠ i → P j (jobs j)) :
    ∀ j, P j (Function.update jobs i job j) := by
  intro j
  by_cases eq : j = i
  · rw [eq, Function.update_self]
    exact here
  · rw [Function.update_of_ne eq]
    exact others j eq

/-- The used entries have different keys. -/
def Distinct (key : Job → Int) (jobs : Jobs) : Prop :=
  ∀ i j, (jobs i).pid ≠ 0 → (jobs j).pid ≠ 0 → key (jobs i) = key (jobs j) → i = j

theorem Distinct.update {key : Job → Int} (distinct : Distinct key jobs)
    (new : job.pid ≠ 0 → ∀ j, j ≠ i → (jobs j).pid ≠ 0 → key (jobs j) ≠ key job) :
    Distinct key (Function.update jobs i job) := by
  intro j k
  by_cases hereJ : j = i <;> by_cases hereK : k = i
  · exact fun _ _ _ => hereJ.trans hereK.symm
  · subst hereJ
    rw [Function.update_self, Function.update_of_ne hereK]
    exact fun occupied other same => absurd same.symm (new occupied k hereK other)
  · subst hereK
    rw [Function.update_self, Function.update_of_ne hereJ]
    exact fun other occupied same => absurd same (new occupied j hereJ other)
  · rw [Function.update_of_ne hereJ, Function.update_of_ne hereK]
    exact distinct j k

end Update

section Calls
variable (t : Table) {pid : Int} (state : JobState) (cmdline : List Char)

/-- `addjob` fills a free entry with the next job id, or leaves a full table as it is. -/
theorem addjob_cases (positive : 1 ≤ pid) :
    (∃ i, (t.jobs i).pid = 0 ∧ (addjob t pid state cmdline).1 =
      ⟨Function.update t.jobs i ⟨pid, t.nextjid, state, cmdline⟩, jidAfter t.nextjid⟩) ∨
    ((∀ i, (t.jobs i).pid ≠ 0) ∧ (addjob t pid state cmdline).1 = t) := by
  unfold addjob
  rw [if_neg (by omega)]
  cases found : firstSlot t.jobs fun job => job.pid = 0 with
  | some i => exact .inl ⟨i, of_decide_eq_true (firstSlot_eq_some found), rfl⟩
  | none =>
    rw [firstSlot_eq_none] at found
    exact .inr ⟨fun i => of_decide_eq_false (found i), rfl⟩

/-- `deletejob` clears the entry of the process and takes up after the largest id that is left. -/
theorem deletejob_cases (pid : Int) :
    (∃ i, (t.jobs i).pid = pid ∧ 1 ≤ pid ∧ (deletejob t pid).1 =
      ⟨Function.update t.jobs i clearjob, wrapInt (maxjid (Function.update t.jobs i clearjob) + 1)⟩) ∨
    ((∀ i, (t.jobs i).pid = pid → pid < 1) ∧ (deletejob t pid).1 = t) := by
  unfold deletejob
  by_cases small : pid < 1
  · rw [if_pos small]
    exact .inr ⟨fun _ _ => small, rfl⟩
  · rw [if_neg small]
    cases found : firstSlot t.jobs fun job => job.pid = pid with
    | some i => exact .inl ⟨i, of_decide_eq_true (firstSlot_eq_some found), by omega, rfl⟩
    | none =>
      rw [firstSlot_eq_none] at found
      exact .inr ⟨fun i same => absurd same (of_decide_eq_false (found i)), rfl⟩

end Calls

section Largest
variable {jobs : Jobs}

theorem foldl_max {ι : Type} {f : ι → Int} (l : List ι) (m : Int) :
    m ≤ l.foldl (fun m i => max m (f i)) m ∧ (∀ i ∈ l, f i ≤ l.foldl (fun m i => max m (f i)) m) ∧
      (l.foldl (fun m i => max m (f i)) m = m ∨ ∃ i ∈ l, l.foldl (fun m i => max m (f i)) m = f i) := by
  induction l generalizing m with
  | nil => exact ⟨le_rfl, by simp, .inl rfl⟩
  | cons j rest ih =>
    obtain ⟨low, bound, attained⟩ := ih (max m (f j))
    rw [List.foldl_cons]
    refine ⟨(le_max_left _ _).trans low, fun i mem => ?_, ?_⟩
    · rcases List.mem_cons.mp mem with rfl | mem
      · exact (le_max_right _ _).trans low
      · exact bound i mem
    · rcases attained with same | ⟨i, mem, same⟩
      · rw [same]
        rcases max_choice m (f j) with eq | eq
        · exact .inl eq
        · exact .inr ⟨j, List.mem_cons_self, eq⟩
      · exact .inr ⟨i, List.mem_cons_of_mem _ mem, same⟩

theorem maxjid_nonneg (jobs : Jobs) : 0 ≤ maxjid jobs := (foldl_max _ 0).1

theorem le_maxjid (i : Fin maxJobs) : (jobs i).jid ≤ maxjid jobs :=
  (foldl_max (f := fun i => (jobs i).jid) _ 0).2.1 i (List.mem_finRange i)

/-- The largest job id is in use, unless there is none. -/
theorem maxjid_attained (jobs : Jobs) : maxjid jobs = 0 ∨ ∃ i, maxjid jobs = (jobs i).jid :=
  (foldl_max (f := fun i => (jobs i).jid) _ 0).2.2.imp_right fun ⟨i, _, eq⟩ => ⟨i, eq⟩

end Largest

end Splab.Shell
