import Splab.Malloc.Sessions
import Splab.Malloc.Locality

namespace Splab.Malloc

/-- A `mem_sbrk` failed during the call. -/
def SbrkFails (x : Mm Nat) (h : Heap) : Prop := (finalState (x h)).errno = ENOMEM

/-- The call returns `NULL` and leaves the bytes, the segment list, the tree and the break as they were. -/
def ReturnsNull (x : Mm Nat) (h : Heap) : Prop :=
  ∃ h', x h = .ok 0 h' ∧ h'.bytes = h.bytes ∧ h'.segments = h.segments ∧ h'.freeTree = h.freeTree ∧
    h'.memBrk = h.memBrk

section Failure
variable {w w' : World} {reqs : List Request} {rs : List Nat} {x : Mm Nat} {h : Heap} {n p : Nat}

theorem Arena.small (arena : Arena h) : h.Small := by
  obtain ⟨positive, aligned, limit, top, brk⟩ := arena
  unfold maxHeap at limit
  unfold Heap.Small
  omega

/-- After a failure of `mem_sbrk` the call does not return. -/
theorem Silent.faults (silent : Silent x) (small : h.Small) (clear : h.errno = 0) (fails : SbrkFails x h) :
    ∃ h', x h = .error (.segv 0xFFFFFFFB) h' := by
  unfold SbrkFails at fails
  cases run : x h with
  | ok a h' =>
    have same := (silent.ends.ok run small).2
    rw [run] at fails
    rw [clear] at same
    cases same.symm.trans fails
  | error e h' =>
    rw [run] at fails
    rcases silent.ends.error run small with same | rfl
    · rw [clear] at same
      cases same.symm.trans fails
    · exact ⟨h', rfl⟩

/-- A heap extension that fails is never reported: in every reachable state, a call
of `mm_malloc` or `mm_realloc` whose `mem_sbrk` fails ends in an access to `0xFFFFFFFB`,
outside the heap, and does not return `NULL`. -/
theorem exhaustion_faults (initial : Initial w) (legal : Legal w reqs) (run : performAll reqs w = .ok rs w')
    (call : x = mmMalloc n ∨ x = mmRealloc p n) (fails : SbrkFails x w'.heap) :
    (∃ h', x w'.heap = .error (.segv 0xFFFFFFFB) h') ∧ ¬w'.heap.Within 0xFFFFFFFB 4 ∧ ¬ReturnsNull x w'.heap := by
  have inv := initial.inv.of_run legal.careful run
  have silent : Silent x := by
    rcases call with rfl | rfl
    · exact keeps_mmMalloc
    · exact keeps_mmRealloc
  have small := inv.rep.chain.arena.small
  have fault := silent.faults small inv.errno fails
  refine ⟨fault, fun within => ?_, fun ⟨h', ok, _⟩ => ?_⟩
  · unfold Heap.Within at within
    unfold Heap.Small at small
    omega
  · obtain ⟨h1, eq⟩ := fault
    cases ok.symm.trans eq

theorem exhaustion_faults_maxHeap :
    (∃ h', mmMalloc maxHeap (freshWorld 8).heap = .error (.segv 0xFFFFFFFB) h') ∧
      ¬(freshWorld 8).heap.Within 0xFFFFFFFB 4 ∧ ¬ReturnsNull (mmMalloc maxHeap) (freshWorld 8).heap :=
  exhaustion_faults (initial_freshWorld (by decide) (by decide) (by decide))
    (show Legal (freshWorld 8) [] from trivial) rfl (p := 0) (.inl rfl) (by unfold SbrkFails; decide +kernel)

/-- The largest request on a fresh heap needs more than is there. -/
theorem exhaustion_not_reported : ¬∀ w, Initial w → ∀ n, 1 ≤ n → n ≤ maxHeap →
    SbrkFails (mmMalloc n) w.heap → ReturnsNull (mmMalloc n) w.heap := by
  intro always
  have null := always (freshWorld 8) (initial_freshWorld (by decide) (by decide) (by decide)) maxHeap (by decide)
    (by decide) (by unfold SbrkFails; decide +kernel)
  obtain ⟨h', ok, _⟩ := null
  have rep : Rep (freshWorld 8).heap [] := initHeap_rep (by decide) (by decide) (by decide)
  have fault : Exhausts (mmMalloc maxHeap) (freshWorld 8).heap := rep.exhausts_mmMalloc (by decide)
  obtain ⟨incr, error⟩ := fault
  cases ok.symm.trans error

end Failure

end Splab.Malloc
