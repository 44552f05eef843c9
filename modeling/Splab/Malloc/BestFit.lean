import Splab.Malloc.Sessions
import Splab.Malloc.Locality

namespace Splab.Malloc

section Search
variable {h h' : Heap} {segs : List Seg} {n size p : Nat} {k : Key}

/-- No segment is at the address 0, with which a search reports a miss. -/
theorem Rep.foundPtr_eq_zero (rep : Rep h segs) : foundPtr (bestFit segs n) = 0 ↔ bestFit segs n = none := by
  cases found : bestFit segs n with
  | none => exact iff_of_true rfl rfl
  | some k =>
    obtain ⟨pre, s, post, rfl, _, _, rfl, _⟩ := rep.chain.tiles.chosen found
    have place := (chain_iff_gap.mp rep.chain).bounds
    have positive : s.addr ≠ 0 := by omega
    exact iff_of_false positive (by simp)

/-- The search finds the best fit of the segment list, and the rest of the call goes on from there. -/
theorem Rep.mmMalloc_eq (rep : Rep h segs) : mmMalloc size h =
    (if bestFit segs (unitsFor size) = none then do
      let ptr ← mmSbrk (unitsFor size * 8 % 2 ^ 32)
      return ptr + mmHeaderSize
    else do
      mmDelete (foundPtr (bestFit segs (unitsFor size)))
      let ptr ← mmFragNode (foundPtr (bestFit segs (unitsFor size))) (unitsFor size)
      setAlloc ptr true
      return ptr + mmHeaderSize) h := by
  unfold mmMalloc
  rw [bind_of_runs (rep.runs_mmSearch.mpr ⟨rfl, rfl⟩)]
  simp only [rep.foundPtr_eq_zero]

/-- A hit of the search only works on the bytes of the heap. -/
theorem Rep.sbrks_of_hit (rep : Rep h segs) (hit : bestFit segs (unitsFor size) ≠ none)
    (run : mmMalloc size h = .ok p h') : h'.sbrks = h.sbrks := by
  rw [rep.mmMalloc_eq, if_neg hit] at run
  exact ((local_mmDelete.bind fun _ => local_mmFragNode.bind fun _ => local_setAlloc.bind fun _ =>
    keeps_pure).ok run).sbrks

/-- A miss extends the heap once. -/
theorem Rep.sbrks_of_miss (rep : Rep h segs) (miss : bestFit segs (unitsFor size) = none)
    (run : mmMalloc size h = .ok p h') : h'.sbrks.length = h.sbrks.length + 1 := by
  rw [rep.mmMalloc_eq, if_pos miss] at run
  exact (grows_mmSbrk.bind fun _ => Local.grows keeps_pure).ok run

end Search

section Choice
variable {segs : List Seg} {s : Seg} {n : Nat} {k : Key}

/-- There is a best fit as soon as one free segment is large enough. -/
theorem bestFit_ne_none : bestFit segs n ≠ none ↔ ∃ s ∈ segs, s.alloc = false ∧ n ≤ s.size := by
  constructor
  · intro hit
    obtain ⟨k, found⟩ := Option.ne_none_iff_exists'.mp hit
    obtain ⟨s, mem, free, fits, _⟩ := bestFit_eq_some found
    exact ⟨s, mem, free, fits⟩
  · intro ⟨s, mem, free, fits⟩ none'
    unfold bestFit at none'
    rw [List.min?_eq_none_iff, List.map_eq_nil_iff, List.filter_eq_nil_iff] at none'
    exact none' s mem (by simp [free, fits])

/-- Every free segment that is large enough comes after the best fit. -/
theorem bestFit_le (found : bestFit segs n = some k) (mem : s ∈ segs) (free : s.alloc = false) (fits : n ≤ s.size) :
    k ≤ s.key := by
  obtain ⟨_, least⟩ := List.min?_eq_some_iff.mp found
  refine least s.key (List.mem_map_of_mem (List.mem_filter.mpr ⟨mem, ?_⟩))
  simp [free, fits]

end Choice

/-- What `mm_malloc(n)` did from `h` when it returned `p` in `h'`: it took the smallest free
segment of the whole heap that is large enough, of these the first one by address, or
it extended the heap once because there was none. -/
structure BestFitServed (n : Nat) (h : Heap) (p : Nat) (h' : Heap) : Prop where
  hit : (∃ s ∈ h.segments, s.alloc = false ∧ unitsFor n ≤ s.size) → h'.sbrks = h.sbrks ∧
    ∃ s ∈ h.segments, s.alloc = false ∧ unitsFor n ≤ s.size ∧ p = s.addr + mmHeaderSize ∧
      ∀ t ∈ h.segments, t.alloc = false → unitsFor n ≤ t.size → s.key ≤ t.key
  miss : (∀ s ∈ h.segments, s.alloc = false → s.size < unitsFor n) →
    h'.sbrks.length = h.sbrks.length + 1 ∧ p = h.last + mmHeaderSize

section BestFit
variable {w : World} {n : Nat}

/-- `mm_malloc` serves every request by best fit, and extends the heap only when nothing fits. -/
theorem mmMalloc_bestFit (reachable : Reachable w) (low : 1 ≤ n) (high : n ≤ maxHeap)
    (unfailing : Unfailing w [.malloc n]) : Runs (mmMalloc n) w.heap (BestFitServed n w.heap) := by
  obtain ⟨segs, inv⟩ := reachable.inv
  have clean : NoSliver segs (unitsFor n) := noSliver_of_two (unitsFor_two low (maxHeap_small high))
  have room := unfailing.room inv (q := .malloc n) high
  obtain ⟨p, h', call, _, ptr⟩ := inv.runs_mmMalloc clean (maxHeap_small high) room
  refine ⟨p, h', call, fun fit => ?_, fun unfit => ?_⟩
  · rw [inv.rep.segments_eq] at fit ⊢
    have hit := bestFit_ne_none.mpr fit
    refine ⟨inv.rep.sbrks_of_hit hit call, ?_⟩
    obtain ⟨k, found⟩ := Option.ne_none_iff_exists'.mp hit
    obtain ⟨pre, s, post, rfl, free, fits, rfl, located⟩ := inv.rep.chain.tiles.chosen found
    refine ⟨s, by simp, free, fits, ?_, fun t mem free fits => bestFit_le found mem free fits⟩
    rw [ptr, Policy.malloc, located]
  · rw [inv.rep.segments_eq] at unfit
    have miss : bestFit segs (unitsFor n) = none := by
      by_contra hit
      obtain ⟨s, mem, free, fits⟩ := bestFit_ne_none.mp hit
      exact Nat.not_le.mpr (unfit s mem free) fits
    refine ⟨inv.rep.sbrks_of_miss miss call, ?_⟩
    rw [ptr, Policy.malloc, miss, inv.last_eq]
    rfl

theorem mmMalloc_bestFit_sample : Runs (mmMalloc 5) (finalState (performAll sampleRun (freshWorld 8))).heap
    (BestFitServed 5 (finalState (performAll sampleRun (freshWorld 8))).heap) :=
  mmMalloc_bestFit (reachable_of_run (initial_freshWorld (by decide) (by decide) (by decide)) (by decide +kernel)
    (by decide +kernel)) (by decide) (by decide) (by decide +kernel)

end BestFit

end Splab.Malloc
