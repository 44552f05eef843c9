import Splab.Malloc.Resize

namespace Splab.Malloc
variable {α β : Type}

/-- The run ends where `mm_sbrk` takes the failure value for a pointer: it faults
at `ptr->size` with `ptr` at `0xFFFFFFF7`, and all it has changed in the C state is `errno`. -/
def Exhausts (x : Mm α) (h : Heap) : Prop :=
  ∃ incr, x h = .error (.segv 0xFFFFFFFB) { h with errno := ENOMEM, calls := .memSbrk incr :: h.calls }

theorem Exhausts.bind {x : Mm α} {f : α → Mm β} {h : Heap} (first : Exhausts x h) : Exhausts (x >>= f) h := by
  obtain ⟨incr, run⟩ := first
  exact ⟨incr, by rw [bind_run, run]⟩

/-- A first part that leaves the heap as it is does not matter. -/
theorem exhausts_bind {x : Mm α} {f : α → Mm β} {h : Heap} (run : Runs x h fun a h' => h' = h ∧ Exhausts (f a) h) :
    Exhausts (x >>= f) h := by
  obtain ⟨a, h', eq, rfl, incr, rest⟩ := run
  exact ⟨incr, by rw [bind_run, eq]; exact rest⟩

section Calls
variable {h : Heap} {segs pre post : List Seg} {s : Seg} {u n size : Nat}

/-- Both branches of `mm_sbrk` assign `ptr->size` without a look at the result of `mem_sbrk`. -/
theorem Arena.exhausts_memSbrk {incr : Int} {v : Nat} {f : Nat → Mm α} {g : Nat → Unit → Mm α} (arena : Arena h)
    (full : incr < 0 ∨ (h.memMaxAddr : Int) < h.memBrk + incr)
    (next : f sbrkFailed = setSize (backHeader sbrkFailed) v >>= g sbrkFailed) :
    Exhausts (memSbrk incr >>= f) h := by
  have outside :
      ¬({ h with errno := ENOMEM, calls := .memSbrk incr :: h.calls } : Heap).Within (backHeader sbrkFailed + 4) 4 := by
    have aligned := arena.aligned
    have limit := arena.limit
    have top := arena.top
    have brk := arena.brk
    unfold Heap.Within backHeader sbrkFailed mmHeaderSize
    simp only
    unfold maxHeap at limit
    omega
  refine ⟨incr, ?_⟩
  rw [bind_run, memSbrk_failed full]
  simp only [next, bind_run, setSize, loadWord, get, getThe, MonadStateOf.get, EStateM.get, outside, if_false]
  rfl

theorem Arena.exhausts_mmSbrk (arena : Arena h) (small : u < 2 ^ 29) (full : h.memMaxAddr < h.memBrk + growth u) :
    Exhausts (mmSbrk (8 * u)) h := by
  have top := arena.top
  unfold mmSbrk
  unfold growth at full
  by_cases little : 8 * u < mmUnit
  · rw [if_pos little] at full ⊢
    exact arena.exhausts_memSbrk (g := fun b _ => do
      mmClearHeader (backHeader b + mmUnit)
      setAlloc (backHeader b) true
      mmFragNode (backHeader b) ((8 * u + mmHeaderSize) / 8)) (.inr (by exact_mod_cast full)) rfl
  · rw [if_neg little] at full ⊢
    refine arena.exhausts_memSbrk (g := fun b _ => do
      mmClearHeader (backHeader b + 8 * u)
      setAlloc (backHeader b) true
      setPrev (← mmGetNext (backHeader b)) (backHeader b)
      return backHeader b) ?_ rfl
    unfold asInt
    split <;> omega

theorem Rep.exhausts_mmMalloc (rep : Rep h segs)
    (full : h.memMaxAddr < h.memBrk + mallocGrowth segs (unitsFor size)) : Exhausts (mmMalloc size) h := by
  have small : unitsFor size < 2 ^ 29 := unitsFor_lt
  have brk := rep.chain.arena.brk
  unfold mallocGrowth at full
  unfold mmMalloc
  split at full
  · next none' =>
    refine exhausts_bind (rep.runs_mmSearch.mpr ⟨rfl, ?_⟩)
    have bytes : unitsFor size * 8 % 2 ^ 32 = 8 * unitsFor size := by omega
    rw [none', foundPtr, if_pos rfl, bytes]
    exact (rep.chain.arena.exhausts_mmSbrk small full).bind
  · omega

theorem Rep.exhausts_mmRealloc (rep : Rep h (pre ++ s :: post)) (positive : size ≠ 0)
    (full : h.memMaxAddr < h.memBrk + reallocGrowth pre s post (unitsFor size)) :
    Exhausts (mmRealloc (s.addr + mmHeaderSize) size) h := by
  have small : unitsFor size < 2 ^ 29 := unitsFor_lt
  have brk := rep.chain.arena.brk
  have sizes : s.size ≤ (absorb (unitsFor size) s post).1.size := by
    obtain ⟨gone, _, _, big⟩ := absorb_eq (unitsFor size) s post
    rw [big]
    exact Nat.le_add_right _ _
  unfold reallocGrowth at full
  by_cases enough : unitsFor size ≤ (absorb (unitsFor size) s post).1.size
  · rw [if_pos enough] at full
    omega
  rw [if_neg enough] at full
  have less : (absorb (unitsFor size) s post).1.size < unitsFor size := by omega
  rw [Exhausts, rep.mmRealloc_eq positive (by omega)]
  by_cases ends : (absorb (unitsFor size) s post).2 = []
  · rw [if_pos ends] at full
    have bytes : (unitsFor size - (absorb (unitsFor size) s post).1.size) * 8 % 2 ^ 32 =
        8 * (unitsFor size - (absorb (unitsFor size) s post).1.size) := by omega
    rw [if_pos ⟨less, ends⟩, bytes]
    exact (rep.chain.arena.exhausts_mmSbrk (by omega) full).bind
  · rw [if_neg ends] at full
    rw [if_neg fun both => ends both.2, if_pos less]
    exact (rep.exhausts_mmMalloc full).bind

end Calls

end Splab.Malloc
