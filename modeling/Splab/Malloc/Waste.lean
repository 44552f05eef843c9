import Splab.Malloc.BestFit

namespace Splab.Malloc

/-- What `mm_malloc` cut the segment at `a` from ends at `stop`: a free segment of `h`, or
the extension behind its last segment. -/
def Source (h h' : Heap) (a stop : Nat) : Prop :=
  (∃ g ∈ h.segments, g.alloc = false ∧ g.addr = a ∧ g.stop = stop) ∨ a = h.last ∧ stop = h'.last

/-- What `mm_malloc(n)` returned is at most a unit larger than needed, and what was left
over of its source is a free segment. -/
def Tight (n : Nat) (h : Heap) (p : Nat) (h' : Heap) : Prop :=
  ∃ s ∈ h'.segments, s.addr + mmHeaderSize = p ∧ s.alloc = true ∧ s.size ≤ unitsFor n + 1 ∧
    ∀ stop, Source h h' s.addr stop →
      s.stop = stop ∨ ∃ t ∈ h'.segments, t.alloc = false ∧ t.addr = s.stop ∧ t.stop = stop

section Sizes
variable {segs pre post : List Seg} {s t : Seg} {a e n u : Nat}

theorem Seg.front_tight : (s.front n).size ≤ n + 1 := by
  unfold front mmNodeSize
  split
  · omega
  · exact Nat.le_succ n

/-- A small extension counts the header once more, so 16 units get all of its 18. -/
theorem fresh_tight : (fresh e u).size ≤ u + 1 ↔ u ≠ 16 := by
  unfold fresh Seg.front mmUnit mmNodeSize
  split_ifs with small whole <;> dsimp only at * <;> omega

/-- The front of a segment and its spare part cover it. -/
theorem Seg.front_spare (fits : n ≤ s.size) :
    (s.front n).stop = s.stop ∨ ∃ t ∈ s.spare n, t.alloc = false ∧ t.addr = (s.front n).stop ∧ t.stop = s.stop := by
  unfold front spare
  split
  · exact .inl rfl
  · refine .inr ⟨_, List.mem_singleton_self _, rfl, rfl, ?_⟩
    simp only [stop]
    omega

theorem Tiles.same_addr (tiles : Tiles a segs e) (mem : s ∈ segs) (mem' : t ∈ segs) (same : s.addr = t.addr) :
    s = t := by
  obtain ⟨pre, post, split⟩ := List.append_of_mem mem
  obtain ⟨pre', post', split'⟩ := List.append_of_mem mem'
  have here := (split ▸ tiles).locate
  have there := (split' ▸ tiles).locate
  rw [← split] at here
  rw [← split', ← same, here] at there
  simp only [Option.some.injEq, Prod.mk.injEq] at there
  exact there.2.1

/-- What lies behind the fresh segment up to the end of the list is its spare part. -/
theorem Tiles.fresh_spare (tiles : Tiles (fresh e u).stop (freshSpare e u) a) : (fresh e u).stop = a ∨
    ∃ t ∈ freshSpare e u, t.alloc = false ∧ t.addr = (fresh e u).stop ∧ t.stop = a := by
  have free := @freshSpare_free e u
  have short : freshSpare e u = [] ∨ ∃ t, freshSpare e u = [t] := by
    unfold freshSpare Seg.spare
    split_ifs <;> simp
  rcases short with none | ⟨t, one⟩
  · rw [none] at tiles
    exact .inl tiles
  · rw [one] at tiles ⊢
    obtain ⟨start, _, stop⟩ := tiles
    exact .inr ⟨t, List.mem_singleton_self t, free (one ▸ List.mem_singleton_self t), start, stop⟩

end Sizes

section Waste
variable {base : Nat} {segs : List Seg} {s : Seg} {w : World} {n : Nat} {h : Heap}

theorem Inv.source_iff (inv : Inv base segs w) (mem : s ∈ segs) (free : s.alloc = false) {stop : Nat} :
    Source w.heap h s.addr stop ↔ s.stop = stop := by
  have tiles := inv.rep.chain.tiles
  unfold Source
  rw [inv.rep.segments_eq]
  constructor
  · rintro (⟨g, inside, _, addr, rfl⟩ | ⟨last, _⟩)
    · rw [tiles.same_addr mem inside addr.symm]
    · obtain ⟨_, inner, big⟩ := tiles.bounds mem
      unfold Seg.stop at inner
      omega
  · exact fun here => .inl ⟨s, mem, free, rfl, here⟩

theorem Inv.source_last (inv : Inv base segs w) {stop : Nat} : Source w.heap h w.heap.last stop ↔ stop = h.last := by
  unfold Source
  rw [inv.rep.segments_eq]
  constructor
  · rintro (⟨g, inside, _, addr, _⟩ | ⟨_, last⟩)
    · obtain ⟨_, inner, big⟩ := inv.rep.chain.tiles.bounds inside
      unfold Seg.stop at inner
      omega
    · exact last
  · exact fun here => .inr ⟨rfl, here⟩

/-- The segment that `mm_malloc` returns, on either of its paths. -/
theorem Inv.tight_iff (inv : Inv base segs w) (low : 1 ≤ n) (high : n ≤ maxHeap)
    (room : w.heap.memBrk + mallocGrowth segs (unitsFor n) ≤ w.heap.memMaxAddr) :
    Runs (mmMalloc n) w.heap (Tight n w.heap) ↔ bestFit segs (unitsFor n) ≠ none ∨ unitsFor n ≠ 16 := by
  have clean : NoSliver segs (unitsFor n) := noSliver_of_two (unitsFor_two low (maxHeap_small high))
  obtain ⟨p, h', run, held, ptr⟩ := inv.runs_mmMalloc clean (maxHeap_small high) room
  have segments : h'.segments = _ := held.rep.segments_eq
  have tiles' : Tiles h'.first _ h'.last := held.rep.chain.tiles
  rw [runs_of_run run]
  cases found : bestFit segs (unitsFor n) with
  | some k =>
    refine iff_of_true ?_ (.inl (by simp))
    obtain ⟨pre, s, post, rfl, free, fits, rfl, located⟩ := inv.rep.chain.tiles.chosen found
    rw [Policy.malloc, located] at segments ptr
    refine ⟨{ s.front (unitsFor n) with alloc := true }, by simp [segments], by simp [ptr], rfl, Seg.front_tight,
      fun stop source => ?_⟩
    simp only [Seg.front_addr] at source
    obtain rfl := (inv.source_iff (by simp) free).mp source
    rcases Seg.front_spare fits with whole | ⟨t, mem, kind, place⟩
    · exact .inl (by simpa [Seg.stop] using whole)
    · exact .inr ⟨t, by simp [segments, mem], kind, by simpa [Seg.stop] using place⟩
  | none =>
    rw [Policy.malloc, found] at segments ptr tiles'
    simp only [Option.bind_none] at segments ptr tiles'
    rw [← inv.last_eq] at segments ptr tiles'
    obtain ⟨m, _, start, _, behind⟩ := tiles_append.mp tiles'
    constructor
    · rintro ⟨s, mem, addr, _, small, _⟩
      rw [segments] at mem
      obtain rfl := tiles'.same_addr mem (t := fresh w.heap.last (unitsFor n)) (by simp) (by simp; omega)
      exact .inr (fresh_tight.mp small)
    · rintro (hit | other)
      · exact absurd rfl hit
      refine ⟨fresh w.heap.last (unitsFor n), by simp [segments], by simp [ptr], fresh_alloc, fresh_tight.mpr other,
        fun stop source => ?_⟩
      rw [fresh_addr, inv.source_last] at source
      obtain rfl := source
      rcases behind.fresh_spare with whole | ⟨t, mem, kind, place⟩
      · exact .inl whole
      · exact .inr ⟨t, by simp [segments, mem], kind, place⟩

/-- Only a request of 113 to 120 bytes that extends the heap gets more than a unit too much:
there 16 units are needed and 18 are returned. -/
theorem mmMalloc_tight_iff (reachable : Reachable w) (low : 1 ≤ n) (high : n ≤ maxHeap)
    (unfailing : Unfailing w [.malloc n]) :
    Runs (mmMalloc n) w.heap (Tight n w.heap) ↔
      (∃ s ∈ w.heap.segments, s.alloc = false ∧ unitsFor n ≤ s.size) ∨ n < 113 ∨ 120 < n := by
  obtain ⟨segs, inv⟩ := reachable.inv
  rw [inv.tight_iff low high (unfailing.room inv (q := .malloc n) high), inv.rep.segments_eq, bestFit_ne_none]
  refine or_congr_right ?_
  have small := maxHeap_small high
  unfold unitsFor align mmHeaderSize
  omega

theorem mmMalloc_tight_sample :
    Runs (mmMalloc 5) (finalState (performAll sampleRun (freshWorld 8))).heap
        (Tight 5 (finalState (performAll sampleRun (freshWorld 8))).heap) ↔
      (∃ s ∈ (finalState (performAll sampleRun (freshWorld 8))).heap.segments, s.alloc = false ∧ unitsFor 5 ≤ s.size) ∨
        5 < 113 ∨ 120 < 5 :=
  mmMalloc_tight_iff (reachable_of_run (initial_freshWorld (by decide) (by decide) (by decide)) (by decide +kernel)
    (by decide +kernel)) (by decide) (by decide) (by decide +kernel)

theorem initial_inv_freshWorld : Inv 32 [] (freshWorld 8) :=
  (initial_freshWorld (by decide) (by decide) (by decide)).inv

/-- The first request on a fresh heap, for 113 bytes, gets 18 units instead of 16. -/
theorem mmMalloc_not_tight : ¬∀ w, Reachable w → ∀ n, 1 ≤ n → n ≤ maxHeap → Unfailing w [.malloc n] →
    Runs (mmMalloc n) w.heap (Tight n w.heap) := by
  intro tight
  have reachable : Reachable (freshWorld 8) :=
    ⟨freshWorld 8, [], [], initial_freshWorld (by decide) (by decide) (by decide), trivial, rfl⟩
  have unfailing : Unfailing (freshWorld 8) [.malloc 113] := by decide +kernel
  have run := tight _ reachable 113 (by decide) (by decide) unfailing
  have inv := initial_inv_freshWorld
  rw [inv.tight_iff (by decide) (by decide) (unfailing.room inv (q := .malloc 113) (by decide))] at run
  exact absurd run (by decide)

end Waste

end Splab.Malloc
