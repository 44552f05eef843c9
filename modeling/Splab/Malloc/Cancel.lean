import Splab.Malloc.BestFit
import Splab.Malloc.Coalescing
import Splab.Malloc.Independence

namespace Splab.Malloc

section Cancel
variable {pre post segs : List Seg} {s : Seg} {a b c e n : Nat}

/-- A free segment between allocated ones is put together again from its two pieces. -/
theorem release_front (free : s.alloc = false) (fits : n ≤ s.size) (before : ∀ p ∈ pre.getLast?, p.alloc = true)
    (behind : ∀ q ∈ post.head?, q.alloc = true) :
    Policy.release pre { s.front n with alloc := true } (s.spare n ++ post) = pre ++ s :: post := by
  have left : ∀ x, mergePrev pre x = (pre, x) := by
    intro x
    rcases List.eq_nil_or_concat' pre with rfl | ⟨front, p, rfl⟩
    · exact mergePrev_nil
    · exact mergePrev_alloc (before p (by simp))
  have right : ∀ x, mergeNext x post = (x, post) := by
    intro x
    cases post with
    | nil => exact mergeNext_nil
    | cons q rest => exact mergeNext_alloc (behind q rfl)
  unfold Policy.release Seg.front Seg.spare
  simp only [left]
  split
  · rw [List.nil_append, right, ← free]
  · rw [List.singleton_append, mergeNext_free rfl]
    have sum : n + (s.size - n) = s.size := by omega
    simp only [sum, ← free]

/-- What a hit of the search allocates is given back by freeing it. -/
theorem Coalesced.free_malloc (coalesced : Coalesced segs) (tiles : Tiles a segs e)
    (tiles' : Tiles b (Policy.malloc e segs n).1 c) (hit : bestFit segs n ≠ none) :
    Policy.free (Policy.malloc e segs n).1 (Policy.malloc e segs n).2 = segs := by
  obtain ⟨k, found⟩ := Option.ne_none_iff_exists'.mp hit
  obtain ⟨pre, s, post, rfl, free, fits, rfl, located⟩ := tiles.chosen found
  have served : Policy.malloc e (pre ++ s :: post) n =
      (pre ++ { s.front n with alloc := true } :: (s.spare n ++ post), s.addr + mmHeaderSize) := by
    rw [Policy.malloc, located]
  rw [served] at tiles' ⊢
  obtain ⟨⟨_, before⟩, behind, _⟩ := (coalesced_free free).mp coalesced
  rw [← release_front free fits before behind, ← tiles'.free]
  simp only [Seg.front_addr]

end Cancel

/-- The states that clients reach from the one after `mm_init` without a call of `mm_realloc`. -/
def PlainReachable (w : World) : Prop :=
  ∃ w₀ reqs rs, Initial w₀ ∧ Legal w₀ reqs ∧ (∀ q ∈ reqs, q.Plain) ∧ performAll reqs w₀ = .ok rs w

section Runs
variable {base : Nat} {w w' : World} {reqs : List Request} {rs : List Nat} {n : Nat} {segs : List Seg}

theorem Inv.unfailing_of_run (inv : Inv base segs w) (careful : Careful w reqs) (run : performAll reqs w = .ok rs w') :
    Unfailing w reqs := by
  have errno := (inv.of_run careful run).errno
  rw [Unfailing, run]
  exact errno

theorem PlainReachable.inv (reachable : PlainReachable w) : ∃ segs, Inv w.heap.first segs w ∧ Coalesced segs := by
  obtain ⟨w₀, reqs, rs, initial, legal, plain, run⟩ := reachable
  have inv := initial.inv.of_run legal.careful run
  have unfailing := initial.inv.unfailing_of_run legal.careful run
  have coalesced : Coalesced (serveAll w₀.heap.first [] reqs).1 :=
    initial.inv.serveAll_invariant legal unfailing .nil
      fun q mem segs u inv allows before => before.serve inv allows (plain q mem)
  exact ⟨_, inv.first ▸ inv, coalesced⟩

theorem plainReachable_of_run (initial : Initial w) (legal : Legal w reqs) (unfailing : Unfailing w reqs)
    (plain : ∀ q ∈ reqs, q.Plain) : PlainReachable (finalState (performAll reqs w)) := by
  obtain ⟨rs, w', run, _⟩ := initial.inv.runs_performAll legal.careful unfailing
  rw [run]
  exact ⟨w, reqs, rs, initial, legal, plain, run⟩

/-- Where a free segment is large enough, `mm_free` takes back all that `mm_malloc` did
to the segment list and to the set of free nodes. -/
theorem mmFree_mmMalloc (reachable : PlainReachable w) (low : 1 ≤ n) (high : n ≤ maxHeap)
    (fit : ∃ s ∈ w.heap.segments, s.alloc = false ∧ unitsFor n ≤ s.size) :
    Runs (mmMalloc n) w.heap fun p h => Runs (mmFree p) h fun _ h' => SameLayout w.heap h' := by
  obtain ⟨segs, inv, coalesced⟩ := reachable.inv
  rw [inv.rep.segments_eq] at fit
  have hit := bestFit_ne_none.mpr fit
  have clean : NoSliver segs (unitsFor n) := noSliver_of_two (unitsFor_two low (maxHeap_small high))
  have room : w.heap.memBrk + mallocGrowth segs (unitsFor n) ≤ w.heap.memMaxAddr := by
    rw [mallocGrowth, if_neg hit]
    exact inv.rep.chain.arena.brk
  refine (inv.runs_mmMalloc clean (maxHeap_small high) room).mono ?_
  rintro p h ⟨held, ptr⟩
  have tiles := inv.rep.chain.tiles
  rw [inv.last_eq] at tiles
  have back : Policy.free (Policy.malloc (endAddr w.heap.first segs) segs (unitsFor n)).1 p = segs := by
    rw [ptr]
    exact coalesced.free_malloc tiles held.rep.chain.tiles hit
  have freed := held.runs_free List.mem_cons_self
  rw [back] at freed
  simp only [perform, runs_bind, runs_onHeap, runs_modify, runs_pure] at freed
  refine freed.mono ?_
  rintro _ h' ⟨inv', _⟩
  exact inv.sameLayout inv'

theorem mmFree_mmMalloc_plainRun :
    Runs (mmMalloc 30) (finalState (performAll (plainRun.take 4) (freshWorld 8))).heap fun p h =>
      Runs (mmFree p) h fun _ h' => SameLayout (finalState (performAll (plainRun.take 4) (freshWorld 8))).heap h' :=
  mmFree_mmMalloc (plainReachable_of_run (initial_freshWorld (by decide) (by decide) (by decide)) (by decide +kernel)
    (by decide +kernel) (by simp [plainRun, Request.Plain])) (by decide) (by decide) (by decide +kernel)

end Runs

end Splab.Malloc
