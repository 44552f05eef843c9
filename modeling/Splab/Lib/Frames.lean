import Splab.Lib.Runs

namespace Splab
variable {ε σ α β γ : Type}

/-- What every run keeps to, whether it returns or faults: relations that are closed under doing nothing and under
one run after the other. -/
structure Frame (ε σ : Type) where
  step : σ → σ → Prop
  fault : σ → ε → σ → Prop
  refl : ∀ s, step s s
  throws : ∀ s e, fault s e s
  trans : ∀ {a b c}, step a b → step b c → step a c
  faults : ∀ {a b e c}, step a b → fault b e c → fault a e c

/-- The computation keeps to the frame from every state. Instances are found along the text of the computation. -/
class Frame.Keeps (F : Frame ε σ) (x : EStateM ε σ α) : Prop where
  ends : Ends F.step F.fault x

section Rules
variable {F : Frame ε σ} {x : EStateM ε σ α}

theorem Frame.Keeps.ok {s s' : σ} {a : α} (keeps : F.Keeps x) (run : x s = .ok a s') : F.step s s' :=
  keeps.ends.ok run

theorem Frame.Keeps.error {s s' : σ} {e : ε} (keeps : F.Keeps x) (run : x s = .error e s') : F.fault s e s' :=
  keeps.ends.error run

instance keeps_pure {a : α} : F.Keeps (pure a : EStateM ε σ α) := ⟨ends_pure F.refl a⟩

instance keeps_throw {e : ε} : F.Keeps (throw e : EStateM ε σ α) := ⟨ends_throw fun s => F.throws s e⟩

theorem Frame.Keeps.bind {f : α → EStateM ε σ β} (first : F.Keeps x) (rest : ∀ a, F.Keeps (f a)) :
    F.Keeps (x >>= f) :=
  ⟨Ends.bind F.trans F.faults first.ends fun a => (rest a).ends⟩

instance keeps_bind {f : α → EStateM ε σ β} [first : F.Keeps x] [rest : ∀ a, F.Keeps (f a)] : F.Keeps (x >>= f) :=
  first.bind rest

/-- A result is taken apart before the search goes on. -/
instance keeps_bind_pair {y : EStateM ε σ (α × β)} {f : α × β → EStateM ε σ γ} [first : F.Keeps y]
    [rest : ∀ a b, F.Keeps (f (a, b))] : F.Keeps (y >>= f) :=
  first.bind fun p => rest p.1 p.2

instance keeps_bind_triple {δ : Type} {y : EStateM ε σ (α × β × γ)} {f : α × β × γ → EStateM ε σ δ}
    [first : F.Keeps y] [rest : ∀ a b c, F.Keeps (f (a, b, c))] : F.Keeps (y >>= f) :=
  first.bind fun p => rest p.1 p.2.1 p.2.2

instance keeps_map {f : α → β} [keeps : F.Keeps x] : F.Keeps (f <$> x) := by
  rw [map_eq_pure_bind]
  infer_instance

instance keeps_ite {p : Prop} [Decidable p] {y : EStateM ε σ α} [yes : F.Keeps x] [no : F.Keeps y] :
    F.Keeps (if p then x else y) := by
  split
  · exact yes
  · exact no

end Rules

end Splab
