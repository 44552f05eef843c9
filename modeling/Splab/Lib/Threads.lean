import Splab.Lib.Transitions
import Mathlib.Algebra.Order.BigOperators.Group.Finset

namespace Splab
universe u v w x y
variable {ι : Type u} {σ : Type v} {γ : Type w} {α : Type x} {δ : Type y}

/-- Threads with a state of their own each, and the state that they share. -/
structure Threads (ι : Type u) (σ : Type v) (γ : Type w) where
  own : ι → σ
  shared : γ

/-- What the threads of a system can do: `act t a` is the step `a` of the thread `t`. -/
abbrev Action (ι : Type u) (α : Type x) (σ : Type v) (γ : Type w) := ι → α → σ → γ → Option (σ × γ)

/-- One thread makes a step. -/
def Threads.step [DecidableEq ι] (act : Action ι α σ γ) (s : Threads ι σ γ) (e : ι × α) : Option (Threads ι σ γ) :=
  (act e.1 e.2 (s.own e.1) s.shared).map fun next => ⟨Function.update s.own e.1 next.1, next.2⟩

/-- `A` is kept by the steps of the thread that it is about, and not disturbed by those of another thread.
It may be used that `B` holds of both before the step. -/
structure Outline (act : Action ι α σ γ) (B A : ι → σ → γ → Prop) : Prop where
  keeps : ∀ {t a own shared own' shared'}, B t own shared → A t own shared →
    act t a own shared = some (own', shared') → A t own' shared'
  stable : ∀ {t u a own shared own' shared' other}, u ≠ t → B t own shared → B u other shared → A t own shared →
    A u other shared → act t a own shared = some (own', shared') → A u other shared'

/-- The assertion holds of all threads. -/
def Threads.All (A : ι → σ → γ → Prop) (s : Threads ι σ γ) : Prop := ∀ t, A t (s.own t) s.shared

/-- A lock: who holds it, and the states in which a thread is in the section that it protects. -/
structure Lock (ι : Type u) (σ : Type v) (γ : Type w) where
  holder : γ → Option ι
  Inside : σ → Prop

/-- The thread is inside if and only if it holds the lock. -/
def Lock.Held (lock : Lock ι σ γ) (t : ι) (own : σ) (shared : γ) : Prop :=
  lock.Inside own ↔ lock.holder shared = some t

/-- What a step may do with a lock. -/
inductive Lock.Use (lock : Lock ι σ γ) (t : ι) (own : σ) (shared : γ) (own' : σ) (shared' : γ) : Prop
  | keep (side : lock.Inside own' ↔ lock.Inside own) (holder : lock.holder shared' = lock.holder shared)
  | take (free : lock.holder shared = none) (enter : lock.Inside own') (holder : lock.holder shared' = some t)
  | give (inside : lock.Inside own) (leave : ¬lock.Inside own') (holder : lock.holder shared' = none)

section Outlines
variable {act : Action ι α σ γ} {A B C : ι → σ → γ → Prop} {s s' : Threads ι σ γ} {t : ι} {a : α}

theorem Outline.and (first : Outline act C B) (second : Outline act (fun t l g => C t l g ∧ B t l g) A) :
    Outline act C fun t l g => B t l g ∧ A t l g where
  keeps known holds next :=
    ⟨first.keeps known holds.1 next, second.keeps ⟨known, holds.1⟩ holds.2 next⟩
  stable ne known other here there next :=
    ⟨first.stable ne known other here.1 there.1 next,
      second.stable ne ⟨known, here.1⟩ ⟨other, there.1⟩ here.2 there.2 next⟩

theorem Outline.weaken (outline : Outline act B A) (imp : ∀ t own shared, C t own shared → B t own shared) :
    Outline act C A where
  keeps known := outline.keeps (imp _ _ _ known)
  stable ne known other := outline.stable ne (imp _ _ _ known) (imp _ _ _ other)

theorem Outline.congr (outline : Outline act B A) (same : ∀ t own shared, C t own shared ↔ A t own shared) :
    Outline act B C where
  keeps known holds next := (same _ _ _).mpr (outline.keeps known ((same _ _ _).mp holds) next)
  stable ne known other here there next :=
    (same _ _ _).mpr (outline.stable ne known other ((same _ _ _).mp here) ((same _ _ _).mp there) next)

variable [DecidableEq ι]

theorem Threads.step_eq_some : s.step act (t, a) = some s' ↔
    ∃ own shared, act t a (s.own t) s.shared = some (own, shared) ∧ s' = ⟨Function.update s.own t own, shared⟩ := by
  rw [step, Option.map_eq_some_iff]
  constructor
  · rintro ⟨⟨own, shared⟩, next, rfl⟩
    exact ⟨own, shared, next, rfl⟩
  · rintro ⟨own, shared, next, rfl⟩
    exact ⟨(own, shared), next, rfl⟩

/-- A step of one thread keeps the outline of all. -/
theorem Outline.all (outline : Outline act B A) (known : s.All B) (holds : s.All A)
    (next : s.step act (t, a) = some s') : s'.All A := by
  obtain ⟨own, shared, made, rfl⟩ := Threads.step_eq_some.mp next
  intro u
  rcases eq_or_ne u t with rfl | ne
  · simpa only [Function.update_self] using outline.keeps (known u) (holds u) made
  · simpa only [Function.update_of_ne ne] using
      outline.stable ne (known t) (known u) (holds t) (holds u) made

/-- In every interleaving of the steps the outline holds all the time. -/
theorem Outline.always (outline : Outline act (fun _ _ _ => True) A) (start : s.All A) (acts : List (ι × α)) :
    Always (Threads.step act) (Threads.All A) s acts :=
  always_of_keep (fun _ _ _ holds next => outline.all (fun _ => trivial) holds next) start acts

end Outlines

section Locks
variable {act : Action ι α σ γ} {B : ι → σ → γ → Prop} {lock : Lock ι σ γ} {t u : ι}
  {own own' other : σ} {shared shared' : γ}

theorem Lock.Held.exclusive (here : lock.Held t own shared) (there : lock.Held u other shared)
    (inside : lock.Inside own) (inside' : lock.Inside other) : t = u :=
  Option.some.inj ((here.mp inside).symm.trans (there.mp inside'))

/-- A thread that is outside stays so when another one uses the lock, and one that is inside stays inside. -/
theorem Lock.Use.held (use : lock.Use t own shared own' shared') (held : lock.Held t own shared) :
    lock.Held t own' shared' := by
  cases use with
  | keep side holder => rw [Held, side, holder]; exact held
  | take free enter holder => exact iff_of_true enter holder
  | give inside leave holder => exact iff_of_false leave (by rw [holder]; exact nofun)

theorem Lock.Use.held_other (use : lock.Use t own shared own' shared') (ne : u ≠ t) (held : lock.Held t own shared)
    (there : lock.Held u other shared) : lock.Held u other shared' := by
  cases use with
  | keep side holder => rw [Held, holder]; exact there
  | take free enter holder =>
    have outside : ¬lock.Inside other := fun inside => by cases free.symm.trans (there.mp inside)
    exact iff_of_false outside (by rw [holder]; exact fun same => ne (Option.some.inj same).symm)
  | give inside leave holder =>
    have outside : ¬lock.Inside other := fun inside' => ne (held.exclusive there inside inside').symm
    exact iff_of_false outside (by rw [holder]; exact nofun)

theorem Lock.outline (uses : ∀ {t a own shared own' shared'}, B t own shared →
    act t a own shared = some (own', shared') → lock.Use t own shared own' shared') :
    Outline act B lock.Held where
  keeps known held next := (uses known next).held held
  stable ne known _ held there next := (uses known next).held_other ne held there

/-- Data that a step changes inside only. -/
theorem Lock.Held.guarded {data : γ → δ} (ne : u ≠ t) (held : lock.Held t own shared)
    (there : lock.Held u other shared) (inside : lock.Inside other)
    (guarded : ¬lock.Inside own → data shared' = data shared) : data shared' = data shared :=
  guarded fun inside' => ne (held.exclusive there inside' inside).symm

end Locks

section Ranks
variable [DecidableEq ι] {act : Action ι α σ γ} {s s' : Threads ι σ γ} {t : ι} {a : α} {threads : Finset ι}
  {size : ι → σ → γ → Nat}

/-- The steps that the threads have before them, by a bound for each of them. -/
def Threads.rank (size : ι → σ → γ → Nat) (threads : Finset ι) (s : Threads ι σ γ) : Nat :=
  ∑ t ∈ threads, size t (s.own t) s.shared

/-- A step changes the bound by what it changes the one of its thread. -/
theorem Threads.rank_update (s : Threads ι σ γ) {new : σ} {shared : γ} (mem : t ∈ threads)
    (others : ∀ u ≠ t, size u (s.own u) shared = size u (s.own u) s.shared) :
    rank size threads ⟨Function.update s.own t new, shared⟩ + size t (s.own t) s.shared =
      s.rank size threads + size t new shared := by
  have same : ∑ u ∈ threads.erase t, size u (Function.update s.own t new u) shared =
      ∑ u ∈ threads.erase t, size u (s.own u) s.shared :=
    Finset.sum_congr rfl fun u mem => by
      rw [Function.update_of_ne (Finset.ne_of_mem_erase mem), others u (Finset.ne_of_mem_erase mem)]
  simp only [rank]
  rw [← Finset.sum_erase_add _ _ mem, ← Finset.sum_erase_add _ _ mem, same, Function.update_self]
  omega

/-- A new thread adds its own bound. -/
theorem Threads.rank_insert (s : Threads ι σ γ) {new : σ} {shared : γ} (fresh : t ∉ threads)
    (others : ∀ u ≠ t, size u (s.own u) shared = size u (s.own u) s.shared) :
    rank size (insert t threads) ⟨Function.update s.own t new, shared⟩ = s.rank size threads + size t new shared := by
  have same : ∑ u ∈ threads, size u (Function.update s.own t new u) shared =
      ∑ u ∈ threads, size u (s.own u) s.shared :=
    Finset.sum_congr rfl fun u mem => by
      have ne : u ≠ t := fun same => fresh (same ▸ mem)
      rw [Function.update_of_ne ne, others u ne]
  simp only [rank]
  rw [Finset.sum_insert fresh, Function.update_self, same, Nat.add_comm]

end Ranks

section Appending
variable [DecidableEq ι] {act : Action ι α σ γ} {s s' : Threads ι σ γ} {t : ι} {a : α} {log : γ → List δ}
  {line : σ → Option (List δ)}

/-- A shared log consists of the lines of the threads that have written one, each of them once. -/
def Threads.Appended (log : γ → List δ) (line : σ → Option (List δ)) (s : Threads ι σ γ) : Prop :=
  ∃ order : List ι, order.Nodup ∧ (∀ t, t ∈ order ↔ line (s.own t) ≠ none) ∧
    log s.shared = order.flatMap fun t => (line (s.own t)).getD []

theorem Threads.Appended.step (appended : s.Appended log line) (next : s.step act (t, a) = some s')
    (writes : ∀ own shared, act t a (s.own t) s.shared = some (own, shared) →
      line own = line (s.own t) ∧ log shared = log s.shared ∨
        line (s.own t) = none ∧ ∃ text, line own = some text ∧ log shared = log s.shared ++ text) :
    s'.Appended log line := by
  obtain ⟨own, shared, made, rfl⟩ := step_eq_some.mp next
  obtain ⟨order, nodup, mem, whole⟩ := appended
  rcases writes own shared made with ⟨same, log_same⟩ | ⟨fresh, text, new, longer⟩
  · have lines : ∀ u, line (Function.update s.own t own u) = line (s.own u) := by
      intro u
      rcases eq_or_ne u t with rfl | ne
      · rw [Function.update_self, same]
      · rw [Function.update_of_ne ne]
    exact ⟨order, nodup, fun u => by rw [lines, mem], by simp only [lines, log_same, whole]⟩
  · have outside : t ∉ order := fun inside => (mem t).mp inside fresh
    have here : line (Function.update s.own t own t) = some text := by rw [Function.update_self, new]
    have others : ∀ u ≠ t, line (Function.update s.own t own u) = line (s.own u) :=
      fun u ne => by rw [Function.update_of_ne ne]
    have kept : (order.flatMap fun u => (line (Function.update s.own t own u)).getD []) =
        order.flatMap fun u => (line (s.own u)).getD [] :=
      List.flatMap_congr fun u inside => by rw [others u fun same => outside (same ▸ inside)]
    refine ⟨order ++ [t], List.nodup_append_comm.mp (List.nodup_cons.mpr ⟨outside, nodup⟩), fun u => ?_, ?_⟩
    · rw [List.mem_append, List.mem_singleton]
      rcases eq_or_ne u t with rfl | ne
      · exact iff_of_true (.inr rfl) (by rw [here]; exact Option.some_ne_none text)
      · exact (or_iff_left ne).trans ((mem u).trans (by rw [others u ne]))
    · rw [List.flatMap_append, List.flatMap_singleton, kept, here, ← whole]
      exact longer

end Appending

end Splab
