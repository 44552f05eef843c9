import Splab.Malloc.Sessions

namespace Splab.Malloc

section Slivers
variable {w : World} {reqs : List Request}

/-- As long as no segment of a single unit is cut off, every segment that is passed
to `mm_insert` has room for a tree node. -/
theorem inserted_fit (initial : Initial w) (careful : Careful w reqs) (unfailing : Unfailing w reqs) :
    Runs (performAll reqs) w fun _ w' => ∀ new size, .mmInsert new size ∈ w'.heap.calls → 2 ≤ size :=
  (initial.inv.runs_performAll careful unfailing).mono fun _ _ ⟨inv, _⟩ _ _ mem => inv.recorded _ mem

theorem inserted_fit_zeroRun :
    Runs (performAll [.malloc 0, .malloc 100, .malloc 0, .realloc 40 0, .realloc 0 0]) (freshWorld 8) fun _ w' =>
      ∀ new size, .mmInsert new size ∈ w'.heap.calls → 2 ≤ size :=
  inserted_fit (initial_freshWorld (by decide) (by decide) (by decide)) (by decide +kernel) (by decide +kernel)

/-- Requests of size 0 may get a segment of one unit, which goes into the tree when it is freed
between two blocks. -/
theorem inserted_sliver : ¬∀ w reqs, Initial w → Accepted w reqs → Unfailing w reqs →
    ∀ new size, .mmInsert new size ∈ (finalState (performAll reqs w)).heap.calls → 2 ≤ size := by
  intro always
  have fits := always (freshWorld 8) [.malloc 0, .malloc 0, .malloc 0, .free 56]
    (initial_freshWorld (by decide) (by decide) (by decide)) (by decide +kernel) (by decide +kernel) 48 1
    (by decide +kernel)
  omega

end Slivers

end Splab.Malloc
