import Mathlib

namespace Splab
universe u
variable {ε σ α β : Type u}

/-- Total correctness of a computation that carries a state and may fault:
started in `s`, the computation `x` returns normally, and the value and the
final state satisfy `Q`. -/
def Runs (x : EStateM ε σ α) (s : σ) (Q : α → σ → Prop) : Prop :=
  ∃ a s', x s = .ok a s' ∧ Q a s'

/-- The state in which a computation ends, whether it returned or faulted. -/
def finalState : EStateM.Result ε σ α → σ
  | .ok _ s => s
  | .error _ s => s

/-- The value of a normal return. -/
def returned : EStateM.Result ε σ α → Option α
  | .ok a _ => some a
  | .error _ _ => none

theorem run_of_returned {x : EStateM ε σ α} {s : σ} {a : α} (value : returned (x s) = some a) :
    x s = .ok a (finalState (x s)) := by
  cases run : x s with
  | ok b s' =>
    rw [run] at value
    cases value
    rfl
  | error e s' =>
    rw [run] at value
    cases value

theorem runs_of_run {x : EStateM ε σ α} {s s' : σ} {a : α} {Q : α → σ → Prop} (run : x s = .ok a s') :
    Runs x s Q ↔ Q a s' := by
  constructor
  · rintro ⟨_, _, eq, post⟩
    cases run.symm.trans eq
    exact post
  · exact fun post => ⟨a, s', run, post⟩

theorem runs_pure {a : α} {s : σ} {Q : α → σ → Prop} :
    Runs (pure a : EStateM ε σ α) s Q ↔ Q a s :=
  runs_of_run rfl

theorem runs_get {s : σ} {Q : σ → σ → Prop} : Runs (get : EStateM ε σ σ) s Q ↔ Q s s :=
  runs_of_run rfl

theorem runs_modify {ε σ : Type} {f : σ → σ} {s : σ} {Q : Unit → σ → Prop} :
    Runs (modify f : EStateM ε σ Unit) s Q ↔ Q () (f s) :=
  runs_of_run rfl

theorem bind_run {x : EStateM ε σ α} {f : α → EStateM ε σ β} {s : σ} :
    (x >>= f) s = match x s with
      | .ok a s' => f a s'
      | .error e s' => .error e s' := by
  change EStateM.bind x f s = _
  unfold EStateM.bind
  cases x s <;> rfl

theorem bind_get {f : σ → EStateM ε σ α} {s : σ} : ((get : EStateM ε σ σ) >>= f) s = f s s := rfl

theorem bind_eq_ok {x : EStateM ε σ α} {f : α → EStateM ε σ β} {s s' : σ} {b : β} :
    (x >>= f) s = .ok b s' ↔ ∃ a mid, x s = .ok a mid ∧ f a mid = .ok b s' := by
  rw [bind_run]
  constructor
  · intro run
    cases first : x s with
    | ok a mid => exact ⟨a, mid, rfl, by simpa only [first] using run⟩
    | error e mid => simp only [first, reduceCtorEq] at run
  · rintro ⟨a, mid, first, run⟩
    simpa only [first] using run

theorem runs_bind {x : EStateM ε σ α} {f : α → EStateM ε σ β} {s : σ} {Q : β → σ → Prop} :
    Runs (x >>= f) s Q ↔ Runs x s (fun a s' => Runs (f a) s' Q) := by
  unfold Runs
  simp only [bind_eq_ok]
  constructor
  · rintro ⟨b, s', ⟨a, mid, first, run⟩, post⟩
    exact ⟨a, mid, first, b, s', run, post⟩
  · rintro ⟨a, mid, first, b, s', run, post⟩
    exact ⟨b, s', ⟨a, mid, first, run⟩, post⟩

theorem runs_map {x : EStateM ε σ α} {f : α → β} {s : σ} {Q : β → σ → Prop} :
    Runs (f <$> x) s Q ↔ Runs x s (fun a s' => Q (f a) s') := by
  rw [map_eq_pure_bind, runs_bind]
  simp only [runs_pure]

theorem Runs.mono {x : EStateM ε σ α} {s : σ} {P Q : α → σ → Prop} (run : Runs x s P)
    (imp : ∀ a s', P a s' → Q a s') : Runs x s Q := by
  obtain ⟨a, s', eq, post⟩ := run
  exact ⟨a, s', eq, imp a s' post⟩

/-- A first part whose outcome is known can be skipped. -/
theorem bind_of_runs {x : EStateM ε σ α} {f : α → EStateM ε σ β} {s s' : σ} {a : α}
    (runs : Runs x s fun b t => b = a ∧ t = s') : (x >>= f) s = f a s' := by
  obtain ⟨b, t, run, rfl, rfl⟩ := runs
  rw [bind_run, run]

/-- Whatever `x` returns, `y` returns as well: only faults of `x` are left open. -/
def Extends (x y : EStateM ε σ α) : Prop := ∀ s a s', x s = .ok a s' → y s = .ok a s'

section Extends
variable {x y z : EStateM ε σ α} {f g : α → EStateM ε σ β} {s : σ}

theorem Extends.refl : Extends x x := fun _ _ _ => id

theorem extends_throw {e : ε} : Extends (throw e) x := nofun

theorem Extends.trans (first : Extends x y) (second : Extends y z) : Extends x z :=
  fun s a s' run => second s a s' (first s a s' run)

theorem Extends.bind (first : Extends x y) (rest : ∀ a, Extends (f a) (g a)) : Extends (x >>= f) (y >>= g) := by
  intro s b s' run
  obtain ⟨a, mid, one, two⟩ := bind_eq_ok.mp run
  exact bind_eq_ok.mpr ⟨a, mid, first s a mid one, rest a mid b s' two⟩

theorem Extends.ite {P : Prop} [Decidable P] {x' y' : EStateM ε σ α} (yes : Extends x y) (no : Extends x' y') :
    Extends (if P then x else x') (if P then y else y') := by
  split
  · exact yes
  · exact no

/-- A family that grows in each step grows along the order. -/
theorem Extends.of_le {f : Nat → EStateM ε σ α} (step : ∀ n, Extends (f n) (f (n + 1))) {m n : Nat} (le : m ≤ n) :
    Extends (f m) (f n) := by
  induction le with
  | refl => exact .refl
  | step _ ih => exact ih.trans (step _)

end Extends

/-- Every run of `x`, from any state, ends either with a normal return to a state
related by `R` or with a fault related by `F`. -/
def Ends (R : σ → σ → Prop) (F : σ → ε → σ → Prop) (x : EStateM ε σ α) : Prop :=
  ∀ s, match x s with
    | .ok _ s' => R s s'
    | .error e s' => F s e s'

section Ends
variable {R : σ → σ → Prop} {F : σ → ε → σ → Prop} {x : EStateM ε σ α} {f : α → EStateM ε σ β}

theorem ends_pure (refl : ∀ s, R s s) (a : α) : Ends R F (pure a : EStateM ε σ α) :=
  refl

theorem ends_throw {e : ε} (fault : ∀ s, F s e s) : Ends R F (throw e : EStateM ε σ α) :=
  fault

theorem Ends.bind (trans : ∀ {a b c}, R a b → R b c → R a c) (step : ∀ {a b e c}, R a b → F b e c → F a e c)
    (first : Ends R F x) (rest : ∀ a, Ends R F (f a)) : Ends R F (x >>= f) := by
  intro s
  rw [bind_run]
  have one := first s
  cases eq : x s with
  | ok a mid =>
    simp only [eq] at one ⊢
    have two := rest a mid
    cases next : f a mid with
    | ok b last =>
      simp only [next] at two ⊢
      exact trans one two
    | error e last =>
      simp only [next] at two ⊢
      exact step one two
  | error e mid =>
    simp only [eq] at one ⊢
    exact one

theorem Ends.ok {s s' : σ} {a : α} (ends : Ends R F x) (run : x s = .ok a s') : R s s' := by
  have := ends s
  rwa [run] at this

theorem Ends.error {s s' : σ} {e : ε} (ends : Ends R F x) (run : x s = .error e s') : F s e s' := by
  have := ends s
  rwa [run] at this

end Ends

end Splab
