import Splab.Malloc.Sessions

namespace Splab.Malloc

/-- No two neighbours of the list are both free. -/
def Coalesced (segs : List Seg) : Prop := segs.IsChain fun s s' => s.alloc = true ∨ s'.alloc = true

/-- The requests that coalesce at once: `mm_realloc` may leave free neighbours behind. -/
def Request.Plain : Request → Prop
  | .realloc _ _ => False
  | _ => True

section Borders
variable {pre post segs : List Seg} {s : Seg} {a e n : Nat}

theorem coalesced_cons_alloc (alloc : s.alloc = true) : Coalesced (s :: post) ↔ Coalesced post := by
  unfold Coalesced
  rw [List.isChain_cons]
  exact and_iff_right fun _ _ => .inl alloc

theorem coalesced_cons_free (free : s.alloc = false) :
    Coalesced (s :: post) ↔ (∀ q ∈ post.head?, q.alloc = true) ∧ Coalesced post := by
  unfold Coalesced
  rw [List.isChain_cons]
  simp [free]

/-- A list falls apart at an allocated segment. -/
theorem coalesced_alloc (alloc : s.alloc = true) : Coalesced (pre ++ s :: post) ↔ Coalesced pre ∧ Coalesced post := by
  unfold Coalesced
  rw [List.isChain_append]
  refine and_congr_right fun _ => (and_congr_left fun _ => coalesced_cons_alloc alloc).trans (and_iff_left ?_)
  simp [alloc]

/-- Around a free segment both neighbours are allocated. -/
theorem coalesced_free (free : s.alloc = false) : Coalesced (pre ++ s :: post) ↔
    (Coalesced pre ∧ ∀ p ∈ pre.getLast?, p.alloc = true) ∧ (∀ q ∈ post.head?, q.alloc = true) ∧ Coalesced post := by
  unfold Coalesced
  rw [List.isChain_append]
  have tail : List.IsChain (fun s s' => s.alloc = true ∨ s'.alloc = true) (s :: post) ↔ _ := coalesced_cons_free free
  simp only [tail, Coalesced, List.head?_cons, Option.mem_def, Option.some.injEq, forall_eq', free, Bool.false_eq_true,
    or_false]
  tauto

theorem Coalesced.spare (whole : Coalesced (s :: post)) (free : s.alloc = false) : Coalesced (s.spare n ++ post) := by
  unfold Seg.spare
  obtain ⟨next, rest⟩ := (coalesced_cons_free free).mp whole
  split
  · exact rest
  · exact (coalesced_cons_free rfl).mpr ⟨next, rest⟩

theorem coalesced_freshSpare : Coalesced (freshSpare e n) := by
  unfold freshSpare Seg.spare
  split
  · split
    · exact .nil
    · exact .singleton _
  · exact .nil

/-- Allocation splits off a free remainder only between allocated segments or at the end of the list. -/
theorem Coalesced.malloc (tiles : Tiles a segs e) (coalesced : Coalesced segs) :
    Coalesced (Policy.malloc e segs n).1 := by
  unfold Policy.malloc
  cases found : bestFit segs n with
  | none => exact (coalesced_alloc fresh_alloc).mpr ⟨coalesced, coalesced_freshSpare⟩
  | some k =>
    obtain ⟨pre, s, post, rfl, free, fits, rfl, located⟩ := tiles.chosen found
    rw [found] at located
    rw [located]
    obtain ⟨⟨front, _⟩, back⟩ := (coalesced_free free).mp coalesced
    exact (coalesced_alloc rfl).mpr ⟨front, ((coalesced_cons_free free).mpr back).spare free⟩

theorem Coalesced.mergePrev (coalesced : Coalesced pre) :
    Coalesced (mergePrev pre s).1 ∧ ∀ p ∈ (mergePrev pre s).1.getLast?, p.alloc = true := by
  rcases List.eq_nil_or_concat' pre with rfl | ⟨front, p, rfl⟩
  · exact ⟨coalesced, by simp⟩
  · cases kind : p.alloc with
    | true =>
      rw [mergePrev_alloc kind]
      exact ⟨coalesced, by simp [kind]⟩
    | false =>
      rw [mergePrev_free kind]
      exact ((coalesced_free kind).mp coalesced).1

theorem Coalesced.mergeNext (coalesced : Coalesced post) :
    (∀ q ∈ (mergeNext s post).2.head?, q.alloc = true) ∧ Coalesced (mergeNext s post).2 := by
  cases post with
  | nil => exact ⟨by simp, coalesced⟩
  | cons q rest =>
    cases kind : q.alloc with
    | true =>
      rw [mergeNext_alloc kind]
      exact ⟨by simp [kind], coalesced⟩
    | false =>
      rw [mergeNext_free kind]
      exact (coalesced_cons_free kind).mp coalesced

theorem Coalesced.release (coalesced : Coalesced (pre ++ s :: post)) (alloc : s.alloc = true) :
    Coalesced (Policy.release pre s post) := by
  obtain ⟨front, back⟩ := (coalesced_alloc alloc).mp coalesced
  exact (coalesced_free rfl).mpr ⟨front.mergePrev, back.mergeNext⟩

theorem Coalesced.eq_singleton (coalesced : Coalesced segs) (none' : allocated segs = []) (nonempty : segs ≠ []) :
    ∃ s, segs = [s] ∧ s.alloc = false := by
  have free : ∀ s ∈ segs, s.alloc = false := by simpa [allocated, List.filter_eq_nil_iff] using none'
  obtain ⟨s, rest, rfl⟩ := List.exists_cons_of_ne_nil nonempty
  have first := free s List.mem_cons_self
  cases rest with
  | nil => exact ⟨s, rfl, first⟩
  | cons q rest =>
    have alloc := ((coalesced_cons_free first).mp coalesced).1 q rfl
    rw [free q (by simp)] at alloc
    cases alloc

end Borders

section Runs
variable {base : Nat} {segs : List Seg} {w : World} {q : Request} {reqs : List Request}

/-- What every request of a run preserves holds after the run. -/
theorem Inv.serveAll_invariant {P : List Seg → Prop} (inv : Inv base segs w) (legal : Legal w reqs)
    (unfailing : Unfailing w reqs) (start : P segs)
    (step : ∀ q ∈ reqs, ∀ segs w, Inv base segs w → w.Allows q → P segs → P (serve base segs q).1) :
    P (serveAll base segs reqs).1 := by
  induction reqs generalizing w segs with
  | nil => exact start
  | cons q rest ih =>
    obtain ⟨allows, later⟩ := legal
    obtain ⟨accepts, clean⟩ := allows.careful
    obtain ⟨r, w', run, inv', _⟩ := inv.runs_perform accepts clean (unfailing.room inv accepts)
    exact ih inv' (later r w' run) (unfailing.tail run)
      (step q List.mem_cons_self segs w inv allows start) fun q' mem => step q' (List.mem_cons_of_mem _ mem)

theorem Coalesced.serve (coalesced : Coalesced segs) (inv : Inv base segs w) (allows : w.Allows q) (plain : q.Plain) :
    Coalesced (serve base segs q).1 := by
  cases q with
  | malloc n => exact coalesced.malloc (inv.last_eq ▸ inv.rep.chain.tiles)
  | free p =>
    obtain ⟨b, mem, rfl⟩ := allows
    obtain ⟨pre, s, post, rfl, alloc, addr, _⟩ := inv.segment mem
    rw [Splab.Malloc.serve, ← addr, inv.rep.chain.tiles.free]
    exact coalesced.release alloc
  | realloc p n => exact plain.elim
  | write p i v => exact coalesced

theorem Inv.serve_ne_nil (inv : Inv base segs w) (allows : w.Allows q) (plain : q.Plain)
    (filled : segs ≠ [] ∨ ∃ n, q = .malloc n) : (serve base segs q).1 ≠ [] := by
  cases q with
  | malloc n =>
    rw [serve, Policy.malloc]
    split <;> simp
  | free p =>
    obtain ⟨b, mem, rfl⟩ := allows
    obtain ⟨pre, s, post, rfl, _, addr, _⟩ := inv.segment mem
    rw [serve, ← addr, inv.rep.chain.tiles.free]
    unfold Policy.release
    simp
  | realloc p n => exact plain.elim
  | write p i v =>
    obtain nonempty | ⟨_, other⟩ := filled
    · exact nonempty
    · cases other

theorem Inv.serveAll_ne_nil (inv : Inv base segs w) (legal : Legal w reqs) (unfailing : Unfailing w reqs)
    (plain : ∀ q ∈ reqs, q.Plain) (filled : segs ≠ [] ∨ ∃ n, .malloc n ∈ reqs) : (serveAll base segs reqs).1 ≠ [] := by
  induction reqs generalizing w segs with
  | nil => simpa [serveAll] using filled
  | cons q rest ih =>
    obtain ⟨allows, later⟩ := legal
    obtain ⟨accepts, clean⟩ := allows.careful
    obtain ⟨r, w', run, inv', _⟩ := inv.runs_perform accepts clean (unfailing.room inv accepts)
    refine ih inv' (later r w' run) (unfailing.tail run) (fun q' mem => plain q' (List.mem_cons_of_mem _ mem)) ?_
    have now := inv.serve_ne_nil allows (plain q List.mem_cons_self)
    obtain nonempty | ⟨n, mem⟩ := filled
    · exact .inl (now (.inl nonempty))
    · rcases List.mem_cons.mp mem with rfl | mem
      · exact .inl (now (.inr ⟨n, rfl⟩))
      · exact .inr ⟨n, mem⟩

/-- Without `mm_realloc` free neighbours are always merged, and when every block
has been freed the whole heap is one free segment. -/
theorem sessions_coalesced (initial : Initial w) (legal : Legal w reqs) (unfailing : Unfailing w reqs)
    (plain : ∀ q ∈ reqs, q.Plain) :
    Runs (performAll reqs) w fun _ w' => Coalesced w'.heap.segments ∧
      ((∃ n, .malloc n ∈ reqs) → w'.live = [] →
        ∃ s, w'.heap.segments = [s] ∧ s.alloc = false ∧ s.addr = w'.heap.first ∧ s.stop = w'.heap.last ∧
          w'.heap.freeTree.toList = [s.key]) := by
  have coalesced : Coalesced (serveAll w.heap.first [] reqs).1 :=
    initial.inv.serveAll_invariant legal unfailing .nil
      fun q mem segs w' inv allows before => before.serve inv allows (plain q mem)
  refine (initial.inv.runs_performAll legal.careful unfailing).mono fun _ w' ⟨inv, _⟩ => ?_
  have wellFormed := inv.rep.wellFormed
  rw [inv.rep.segments_eq]
  refine ⟨coalesced, fun used none' => ?_⟩
  have free : allocated (serveAll w.heap.first [] reqs).1 = [] := by
    have held := inv.holds.held
    rw [none', List.map_nil] at held
    exact List.map_eq_nil_iff.mp held.nil_eq.symm
  obtain ⟨s, eq, kind⟩ := coalesced.eq_singleton free
    (initial.inv.serveAll_ne_nil legal unfailing plain (.inr used))
  obtain ⟨start, _, stop⟩ := (eq ▸ inv.rep.chain.tiles : Tiles _ [s] _)
  refine ⟨s, eq, kind, start, stop, List.perm_singleton.mp ?_⟩
  have nodes := wellFormed.nodes
  rw [inv.rep.segments_eq, eq] at nodes
  simpa [kind] using nodes

/-- Blocks from extensions and from the search path, freed in an order that merges on either side and on both. -/
def plainRun : List Request :=
  [.malloc 100, .malloc 5, .malloc 5000, .free 40, .malloc 30, .free 160, .free 184, .free 40]

theorem sessions_coalesced_plainRun : Runs (performAll plainRun) (freshWorld 8) fun _ w' =>
    Coalesced w'.heap.segments ∧ ((∃ n, .malloc n ∈ plainRun) → w'.live = [] →
      ∃ s, w'.heap.segments = [s] ∧ s.alloc = false ∧ s.addr = w'.heap.first ∧ s.stop = w'.heap.last ∧
        w'.heap.freeTree.toList = [s.key]) :=
  sessions_coalesced (initial_freshWorld (by decide) (by decide) (by decide)) (by decide +kernel)
    (by decide +kernel) (by simp [plainRun, Request.Plain])

end Runs

end Splab.Malloc
