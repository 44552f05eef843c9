import Mathlib.Algebra.Ring.Nat

namespace Splab
universe u v
variable {σ : Type u} {α : Type v}

/-- A run of a system of labelled steps. A label that is not possible in its state ends the run. -/
def exec (step : σ → α → Option σ) : σ → List α → Option σ
  | s, [] => some s
  | s, a :: rest => (step s a).bind fun s' => exec step s' rest

/-- `P` holds in every state that the run goes through. -/
def Always (step : σ → α → Option σ) (P : σ → Prop) : σ → List α → Prop
  | s, [] => P s
  | s, a :: rest => P s ∧ ∀ s', step s a = some s' → Always step P s' rest

/-- Every step of the run meets the condition `C` in the state in which it is made. -/
def Meets (step : σ → α → Option σ) (C : σ → α → Prop) : σ → List α → Prop
  | _, [] => True
  | s, a :: rest => ∀ s', step s a = some s' → C s a ∧ Meets step C s' rest

section Runs
variable {step : σ → α → Option σ} {P I : σ → Prop} {C : σ → α → Prop} {s s' : σ} {a : α} {acts rest : List α}

theorem Always.head (always : Always step P s acts) : P s := by
  cases acts with
  | nil => exact always
  | cons a rest => exact always.1

theorem Always.last (always : Always step P s acts) : ∀ s' ∈ exec step s acts, P s' := by
  induction acts generalizing s with
  | nil =>
    intro s' run
    cases run
    exact always
  | cons a rest ih =>
    intro s' run
    obtain ⟨mid, first, run⟩ := Option.bind_eq_some_iff.mp run
    exact ih (always.2 mid first) s' run

theorem Always.final (always : Always step P s acts) : P ((exec step s acts).getD s) := by
  cases run : exec step s acts with
  | some s' => exact always.last s' run
  | none => exact always.head

theorem Always.imp {Q : σ → Prop} (always : Always step P s acts) (imp : ∀ s, P s → Q s) : Always step Q s acts := by
  induction acts generalizing s with
  | nil => exact imp s always
  | cons a rest ih => exact ⟨imp s always.1, fun s' next => ih (always.2 s' next)⟩

/-- What every step preserves holds in all states of a run. -/
theorem always_of_keep (keep : ∀ s a s', I s → step s a = some s' → I s') (start : I s) (acts : List α) :
    Always step I s acts := by
  induction acts generalizing s with
  | nil => exact start
  | cons a rest ih => exact ⟨start, fun s' next => ih (keep s a s' start next)⟩

/-- A second invariant may use the first. -/
theorem Always.and {Q : σ → Prop} (always : Always step P s acts) (start : Q s)
    (keep : ∀ s a s', P s → Q s → step s a = some s' → Q s') : Always step (fun s => P s ∧ Q s) s acts := by
  induction acts generalizing s with
  | nil => exact ⟨always, start⟩
  | cons a rest ih =>
    exact ⟨⟨always.1, start⟩, fun s' next => ih (always.2 s' next) (keep s a s' always.1 start next)⟩

/-- What each step that meets the condition preserves holds in all states of a run of such steps. -/
theorem Meets.always (meets : Meets step C s acts) (start : I s)
    (keep : ∀ s a s', I s → C s a → step s a = some s' → I s') : Always step I s acts := by
  induction acts generalizing s with
  | nil => exact start
  | cons a rest ih =>
    refine ⟨start, fun s' next => ?_⟩
    obtain ⟨here, later⟩ := meets s' next
    exact ih later (keep s a s' start here next)

/-- If moreover a step against the condition breaks `P` at once, the condition is exact. -/
theorem always_iff_meets (start : I s) (holds : ∀ s, I s → P s)
    (keep : ∀ s a s', I s → C s a → step s a = some s' → I s')
    (breaks : ∀ s a s', I s → step s a = some s' → P s' → C s a) :
    Always step P s acts ↔ Meets step C s acts := by
  constructor
  · intro always
    induction acts generalizing s with
    | nil => trivial
    | cons a rest ih =>
      intro s' next
      have later := always.2 s' next
      have here := breaks s a s' start next later.head
      exact ⟨here, ih (keep s a s' start here next) later⟩
  · intro meets
    exact (meets.always start keep).imp holds

/-- Whether a run meets a condition is found out by making its steps. -/
def decideMeets [∀ s a, Decidable (C s a)] : (acts : List α) → (s : σ) → Decidable (Meets step C s acts)
  | [], _ => .isTrue trivial
  | a :: rest, s =>
    match next : step s a with
    | none => .isTrue fun s' other => by cases next.symm.trans other
    | some s' =>
      match decideMeets rest s' with
      | .isTrue later => decidable_of_iff (C s a)
          ⟨fun here s'' other => by cases next.symm.trans other; exact ⟨here, later⟩, fun meets => (meets s' next).1⟩
      | .isFalse never => .isFalse fun meets => never (meets s' next).2

instance [∀ s a, Decidable (C s a)] : Decidable (Meets step C s acts) := decideMeets acts s

end Runs

section Progress
variable {step : σ → α → Option σ} {I Done : σ → Prop} {measure : σ → Nat} {s s' : σ} {acts more : List α}

theorem exec_append : exec step s (acts ++ more) = (exec step s acts).bind fun s' => exec step s' more := by
  induction acts generalizing s with
  | nil => rfl
  | cons a rest ih =>
    rw [List.cons_append, exec, exec, Option.bind_assoc]
    exact congrArg (Option.bind (step s a)) (funext fun _ => ih)

/-- If the work of every step is paid from the measure and from what the step brings, the work of a run is paid from the
measure of its first state and from what its steps bring. -/
theorem exec_work_le {work gain : α → Nat} (keep : ∀ s a s', I s → step s a = some s' → I s')
    (pay : ∀ s a s', I s → step s a = some s' → measure s' + work a ≤ measure s + gain a) (start : I s)
    (run : exec step s acts = some s') : (acts.map work).sum + measure s' ≤ measure s + (acts.map gain).sum := by
  induction acts generalizing s with
  | nil =>
    cases run
    simp
  | cons a rest ih =>
    obtain ⟨mid, first, run⟩ := Option.bind_eq_some_iff.mp run
    have later := ih (keep s a mid start first) run
    have here := pay s a mid start first
    simp only [List.map_cons, List.sum_cons]
    omega

/-- If from every state that is not an end some steps make the measure smaller, every run can be carried on to an end
by such steps. -/
theorem exists_exec {P : α → Prop}
    (lower : ∀ s, I s → ¬Done s → ∃ acts s', (∀ a ∈ acts, P a) ∧ exec step s acts = some s' ∧ I s' ∧
      measure s' < measure s) (start : I s) :
    ∃ acts s', (∀ a ∈ acts, P a) ∧ exec step s acts = some s' ∧ Done s' := by
  induction size : measure s using Nat.strongRecOn generalizing s with
  | ind n ih =>
    by_cases done : Done s
    · exact ⟨[], s, fun _ mem => absurd mem List.not_mem_nil, rfl, done⟩
    · obtain ⟨first, mid, these, run, keep, less⟩ := lower s start done
      obtain ⟨rest, s', those, rest_run, done⟩ := ih (measure mid) (size ▸ less) keep rfl
      refine ⟨first ++ rest, s', fun a mem => ?_, ?_, done⟩
      · exact (List.mem_append.mp mem).elim (these a) (those a)
      · rw [exec_append, run]
        exact rest_run

end Progress

end Splab
