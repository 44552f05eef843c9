import Splab.Malloc.Sessions

namespace Splab.Malloc

section Release
variable {pre mid post front back : List Seg} {s x y z : Seg} {a e : Nat}

theorem mergePrev_append (nonempty : mid ≠ []) :
    mergePrev (pre ++ mid) s = (pre ++ (mergePrev mid s).1, (mergePrev mid s).2) := by
  obtain ⟨front, p, rfl⟩ := (List.eq_nil_or_concat' mid).resolve_left nonempty
  rw [← List.append_assoc]
  cases kind : p.alloc with
  | true => rw [mergePrev_alloc kind, mergePrev_alloc kind, List.append_assoc]
  | false => rw [mergePrev_free kind, mergePrev_free kind]

theorem mergeNext_append (nonempty : mid ≠ []) :
    mergeNext s (mid ++ post) = ((mergeNext s mid).1, (mergeNext s mid).2 ++ post) := by
  obtain ⟨q, rest, rfl⟩ := List.exists_cons_of_ne_nil nonempty
  cases kind : q.alloc with
  | true => simp [mergeNext_alloc kind]
  | false => simp [mergeNext_free kind]

/-- A release reaches no further than the neighbours of the released segment. -/
theorem release_append_left (nonempty : mid ≠ []) :
    Policy.release (pre ++ mid) s post = pre ++ Policy.release mid s post := by
  simp [Policy.release, mergePrev_append nonempty]

theorem release_append_right (nonempty : mid ≠ []) :
    Policy.release pre s (mid ++ post) = Policy.release pre s mid ++ post := by
  simp [Policy.release, mergeNext_append nonempty]

theorem release_after (alloc : x.alloc = true) :
    Policy.release (front ++ x :: mid) s post = front ++ x :: Policy.release mid s post := by
  rcases List.eq_nil_or_concat' mid with rfl | ⟨mid, m, rfl⟩
  · simp [Policy.release, mergePrev_alloc alloc]
  · rw [List.append_cons front x, release_append_left (by simp), List.append_assoc, List.singleton_append]

theorem release_before (alloc : y.alloc = true) :
    Policy.release pre s (mid ++ y :: back) = Policy.release pre s mid ++ y :: back := by
  cases mid with
  | nil => simp [Policy.release, mergeNext_alloc alloc]
  | cons m mid => exact release_append_right (by simp)

/-- Releases on the two sides of `mid` commute, also where they meet in it. -/
theorem release_assoc :
    Policy.release (Policy.release pre x mid) y post = Policy.release pre x (Policy.release mid y post) := by
  rcases List.eq_nil_or_concat' mid with rfl | ⟨mid, m, rfl⟩
  · -- nothing between: the two become one segment
    cases post with
    | nil => simp [Policy.release]
    | cons q post => cases kind : q.alloc <;> simp [Policy.release, kind, Nat.add_assoc]
  cases mid with
  | nil =>
    cases middle : m.alloc with
    | true =>
      have left : ∀ back, Policy.release pre x (m :: back) = Policy.release pre x [] ++ m :: back :=
        fun back => @release_before pre [] back x m middle
      have right : ∀ front, Policy.release (front ++ [m]) y post = front ++ m :: Policy.release [] y post :=
        fun front => release_after middle
      rw [List.nil_append, left, right, show Policy.release [m] y post = m :: Policy.release [] y post from right [],
        left]
    | false =>
      -- both releases merge with `m`
      have alone : mergePrev [m] y = ([], { m with size := m.size + y.size }) := by
        rw [← List.nil_append [m], mergePrev_free middle]
      cases post with
      | nil => simp [Policy.release, alone, middle, Nat.add_assoc]
      | cons q post => cases kind : q.alloc <;> simp [Policy.release, alone, kind, middle, Nat.add_assoc]
  | cons n mid =>
    rw [List.cons_append, ← List.singleton_append, release_append_right (by simp), ← List.append_assoc,
      release_append_left (by simp), ← List.append_assoc, release_append_left (by simp), List.append_assoc,
      release_append_right (by simp), release_append_right (by simp), List.append_assoc]

theorem Tiles.mergePrev (tiles : Tiles a (pre ++ s :: post) e) :
    Tiles a ((mergePrev pre s).1 ++ (mergePrev pre s).2 :: post) e := by
  rcases List.eq_nil_or_concat' pre with rfl | ⟨front, p, rfl⟩
  · exact tiles
  · cases kind : p.alloc with
    | true =>
      rw [mergePrev_alloc kind]
      exact tiles
    | false =>
      rw [mergePrev_free kind]
      rw [List.append_assoc] at tiles
      obtain ⟨m, left, start, big, next, _, right⟩ := tiles_append.mp tiles
      refine tiles_append.mpr ⟨m, left, start, by simp only; omega, ?_⟩
      unfold Seg.stop at *
      rwa [show p.addr + 8 * (p.size + s.size) = s.addr + 8 * s.size by omega]

theorem Tiles.mergeNext (tiles : Tiles a (pre ++ s :: post) e) :
    Tiles a (pre ++ (mergeNext s post).1 :: (mergeNext s post).2) e := by
  cases post with
  | nil => exact tiles
  | cons q rest =>
    cases kind : q.alloc with
    | true =>
      rw [mergeNext_alloc kind]
      exact tiles
    | false =>
      rw [mergeNext_free kind]
      obtain ⟨m, left, start, big, next, _, right⟩ := tiles_append.mp tiles
      refine tiles_append.mpr ⟨m, left, start, by simp only; omega, ?_⟩
      unfold Seg.stop at *
      rwa [show s.addr + 8 * (s.size + q.size) = q.addr + 8 * q.size by omega]

theorem Tiles.release (tiles : Tiles a (pre ++ s :: post) e) : Tiles a (Policy.release pre s post) e := by
  obtain ⟨m, left, right⟩ := tiles_append.mp tiles.mergePrev.mergeNext
  exact tiles_append.mpr ⟨m, left, right⟩

/-- The order in which two blocks are freed does not matter to the segment list. -/
theorem Tiles.free_comm (tiles : Tiles a (front ++ x :: (mid ++ y :: back)) e) (allocX : x.alloc = true)
    (allocY : y.alloc = true) :
    Policy.free (Policy.free (front ++ x :: (mid ++ y :: back)) (x.addr + mmHeaderSize)) (y.addr + mmHeaderSize) =
      Policy.free (Policy.free (front ++ x :: (mid ++ y :: back)) (y.addr + mmHeaderSize))
        (x.addr + mmHeaderSize) := by
  have regroup : front ++ x :: (mid ++ y :: back) = front ++ x :: mid ++ y :: back := by simp
  have tiles' := regroup ▸ tiles
  have firstX := tiles.release
  have firstY := tiles'.release
  rw [release_before allocY] at firstX
  rw [release_after allocX] at firstY
  calc Policy.free (Policy.free (front ++ x :: (mid ++ y :: back)) (x.addr + mmHeaderSize)) (y.addr + mmHeaderSize)
      = Policy.free (Policy.release front x mid ++ y :: back) (y.addr + mmHeaderSize) := by
        rw [tiles.free, release_before allocY]
    _ = Policy.release (Policy.release front x mid) y back := firstX.free
    _ = Policy.release front x (Policy.release mid y back) := release_assoc
    _ = Policy.free (front ++ x :: Policy.release mid y back) (x.addr + mmHeaderSize) := firstY.free.symm
    _ = Policy.free (Policy.free (front ++ x :: (mid ++ y :: back)) (y.addr + mmHeaderSize))
        (x.addr + mmHeaderSize) := by
        rw [regroup, tiles'.free, release_after allocX]

end Release

/-- The live blocks by address and length. What later calls are allowed depends on no more. -/
def World.shape (w : World) : List (Nat × Nat) := w.live.map fun b => (b.ptr, b.data.length)

def reshape (r : Nat) (shape : List (Nat × Nat)) : Request → List (Nat × Nat)
  | .malloc n => (r, n) :: shape
  | .free p => shape.filter (·.1 ≠ p)
  | .realloc p n => if p ≠ 0 ∧ n = 0 then shape.filter (·.1 ≠ p) else (r, n) :: shape.filter (·.1 ≠ p)
  | .write _ _ _ => shape

section Shape
variable {w w' : World} {q : Request} {p n r i : Nat} {old : List UInt8} {v : UInt8}

theorem shape_forget : (w.forget p).shape = w.shape.filter (·.1 ≠ p) := by
  simp only [World.shape, World.forget, List.filter_map]
  rfl

theorem shape_add : (w.add p old n).shape = (p, n) :: w.shape := by
  have short := List.length_take_le n old
  simp only [World.shape, World.add, List.map_cons, List.length_append, length_read]
  rw [Nat.add_sub_cancel' short]

theorem shape_resize : (w.resize p n r old).shape =
    if p ≠ 0 ∧ n = 0 then w.shape.filter (·.1 ≠ p) else (r, n) :: w.shape.filter (·.1 ≠ p) := by
  unfold World.resize
  split
  · exact shape_forget
  · rw [shape_add, shape_forget]

theorem shape_store : (w.store p i v).shape = w.shape := by
  simp only [World.shape, World.store, List.map_map]
  refine List.map_congr_left fun b _ => ?_
  simp only [Function.comp]
  split <;> simp

theorem onHeap_live {α : Type} {x : Mm α} {a : α} (run : onHeap x w = .ok a w') : w'.live = w.live := by
  unfold onHeap at run
  cases heap : x w.heap with
  | ok b h =>
    simp only [heap, EStateM.Result.ok.injEq] at run
    rw [← run.2]
  | error e h => simp only [heap, reduceCtorEq] at run

theorem perform_shape (run : perform q w = .ok r w') : w'.shape = reshape r w.shape q := by
  cases q with
  | malloc n =>
    obtain ⟨p, mid, step, rest⟩ := bind_eq_ok.mp run
    cases rest
    rw [shape_add, World.shape, onHeap_live step]
    rfl
  | free p =>
    obtain ⟨_, mid, step, rest⟩ := bind_eq_ok.mp run
    cases rest
    rw [shape_forget, World.shape, onHeap_live step]
    rfl
  | realloc p n =>
    obtain ⟨_, _, got, run⟩ := bind_eq_ok.mp run
    cases got
    obtain ⟨r', mid, step, rest⟩ := bind_eq_ok.mp run
    cases rest
    rw [shape_resize, World.shape, onHeap_live step]
    rfl
  | write p i v =>
    obtain ⟨_, mid, step, rest⟩ := bind_eq_ok.mp run
    cases rest
    rw [shape_store, World.shape, onHeap_live step]
    rfl

theorem allows_congr (same : w'.shape = w.shape) : w'.Allows q ↔ w.Allows q := by
  have owned : ∀ (u : World) p, (∃ b ∈ u.live, b.ptr = p) ↔ ∃ x ∈ u.shape, x.1 = p := by
    intro u p
    simp [World.shape]
  have inside : ∀ (u : World) p i, (∃ b ∈ u.live, b.ptr = p ∧ i < b.data.length) ↔
      ∃ x ∈ u.shape, x.1 = p ∧ i < x.2 := by
    intro u p i
    simp [World.shape]
  cases q <;> simp only [World.Allows, owned, inside, same]

end Shape

/-- The two heaps have the same segment list, headers included, and the same nodes in their trees. -/
structure SameLayout (h h' : Heap) : Prop where
  first : h'.first = h.first
  last : h'.last = h.last
  segments : h'.segments = h.segments
  prev : ∀ s ∈ h.segments ++ [sentinel h.last], (h'.node s.addr).prev = (h.node s.addr).prev
  nodes : h'.freeTree.toList = h.freeTree.toList

section Twins
variable {base : Nat} {segs : List Seg} {w w' : World} {h h' : Heap} {a b : Block} {reqs more : List Request}

theorem Links.prev_eq {p : Nat} {L : List Seg} {s : Seg} (links : Links h p L) (links' : Links h' p L) (mem : s ∈ L) :
    (h'.node s.addr).prev = (h.node s.addr).prev := by
  induction L generalizing p with
  | nil => cases mem
  | cons x rest ih =>
    rcases List.mem_cons.mp mem with rfl | mem
    · rw [links.1.prev, links'.1.prev]
    · exact ih links.2 links'.2 mem

theorem Inv.sameLayout (inv : Inv base segs w) (inv' : Inv base segs w') : SameLayout w.heap w'.heap := by
  obtain ⟨idx, keys⟩ := inv.rep.freeTree_indexed
  obtain ⟨idx', keys'⟩ := inv'.rep.freeTree_indexed
  have last : w'.heap.last = w.heap.last := by rw [inv.last_eq, inv'.last_eq]
  refine ⟨inv'.first.trans inv.first.symm, last, by rw [inv.rep.segments_eq, inv'.rep.segments_eq], ?_, ?_⟩
  · rw [inv.rep.segments_eq]
    exact fun s mem => inv.rep.chain.links.prev_eq (last ▸ inv'.rep.chain.links) mem
  · refine List.Perm.eq_of_pairwise' idx'.valid.ordered idx.valid.ordered ?_
    refine (List.perm_ext_iff_of_nodup (idx'.valid.ordered.imp fun less => less.ne)
      (idx.valid.ordered.imp fun less => less.ne)).mpr fun k => ?_
    exact (keys' k).trans (keys k).symm

/-- From the same segment list and the same blocks a run returns the same addresses, whatever the trees look like. -/
theorem Inv.twin (inv : Inv base segs w) (inv' : Inv base segs w') (same : w'.shape = w.shape)
    (legal : Legal w more) (unfailing : Unfailing w more) :
    Runs (performAll more) w' fun rs _ => rs = (serveAll base segs more).2 := by
  induction more generalizing w w' segs with
  | nil => exact runs_pure.mpr rfl
  | cons q rest ih =>
    obtain ⟨allows, later⟩ := legal
    obtain ⟨accepts, clean⟩ := allows.careful
    have room := unfailing.room inv accepts
    have start := inv'.first.trans inv.first.symm
    have last := inv'.last_eq.trans inv.last_eq.symm
    have room' : w'.heap.memBrk + demand segs q ≤ w'.heap.memMaxAddr := by
      have limit := inv.rep.chain.arena.limit
      have limit' := inv'.rep.chain.arena.limit
      have low := inv.rep.chain.tiles.le
      unfold Heap.first Heap.last mmDataSize mmHeaderSize at *
      omega
    obtain ⟨r, w1, run, inv1, rfl⟩ := inv.runs_perform accepts clean room
    obtain ⟨accepts', clean'⟩ := ((allows_congr same).mpr allows).careful
    obtain ⟨r', w1', run', inv1', rfl⟩ := inv'.runs_perform accepts' clean' room'
    rw [performAll, runs_bind, runs_of_run run', runs_bind]
    have same1 : w1'.shape = w1.shape := by rw [perform_shape run, perform_shape run', same]
    refine (ih inv1 inv1' same1 (later _ w1 run) (unfailing.tail run)).mono ?_
    rintro rs w2 rfl
    exact runs_pure.mpr rfl

theorem Inv.runs_free_pair (inv : Inv base segs w) (memA : a ∈ w.live) (memB : b ∈ w.live) (ne : a.ptr ≠ b.ptr) :
    Runs (performAll [.free a.ptr, .free b.ptr]) w fun _ w' =>
      Inv base (Policy.free (Policy.free segs a.ptr) b.ptr) w' ∧
        w'.shape = w.shape.filter fun x => x.1 ≠ a.ptr ∧ x.1 ≠ b.ptr := by
  obtain ⟨r, w1, run, inv1, _⟩ := inv.runs_free memA
  have shape1 : w1.shape = w.shape.filter (·.1 ≠ a.ptr) := perform_shape run
  have inside : (b.ptr, b.data.length) ∈ w1.shape := by
    rw [shape1]
    exact List.mem_filter.mpr ⟨List.mem_map.mpr ⟨b, memB, rfl⟩, by simpa using ne.symm⟩
  obtain ⟨b', mem', same⟩ := List.mem_map.mp inside
  rw [← (Prod.mk.inj same).1]
  obtain ⟨r', w2, run', inv2, _⟩ := inv1.runs_free mem'
  simp only [performAll, runs_bind, runs_of_run run, runs_of_run run', runs_pure]
  refine ⟨inv2, ?_⟩
  rw [perform_shape run', shape1, reshape, List.filter_filter]
  refine List.filter_congr fun x _ => ?_
  rw [Bool.and_comm, Bool.decide_and]

theorem Inv.free_comm (inv : Inv base segs w) (memA : a ∈ w.live) (memB : b ∈ w.live) (ne : a.ptr ≠ b.ptr) :
    Policy.free (Policy.free segs a.ptr) b.ptr = Policy.free (Policy.free segs b.ptr) a.ptr := by
  obtain ⟨front, x, back, rfl, allocX, addrX, _⟩ := inv.segment memA
  obtain ⟨y, inside, addrY, _⟩ := inv.holds.fits b memB
  obtain ⟨mem, allocY⟩ := mem_allocated.mp inside
  have tiles := inv.rep.chain.tiles
  have other : y ≠ x := fun same => ne (by rw [← addrX, ← addrY, same])
  rw [← addrX, ← addrY]
  rcases List.mem_append.mp mem with before | behind
  · obtain ⟨pre, mid, rfl⟩ := List.append_of_mem before
    rw [List.append_assoc, List.cons_append] at tiles ⊢
    exact (tiles.free_comm allocY allocX).symm
  · obtain ⟨mid, post, rfl⟩ := List.append_of_mem ((List.mem_cons.mp behind).resolve_left other)
    exact tiles.free_comm allocX allocY

/-- Two blocks may be freed in either order: the layouts agree afterwards, and no
later run of requests can tell the two heaps apart by the addresses it gets. -/
theorem free_order_independent (initial : Initial w) (legal : Legal w reqs) (unfailing : Unfailing w reqs) :
    Runs (performAll reqs) w fun _ w' => ∀ a ∈ w'.live, ∀ b ∈ w'.live, a.ptr ≠ b.ptr →
      Runs (performAll [.free a.ptr, .free b.ptr]) w' fun _ ab =>
        Runs (performAll [.free b.ptr, .free a.ptr]) w' fun _ ba =>
          SameLayout ab.heap ba.heap ∧ ∀ more, Legal ab more → Unfailing ab more →
            Runs (performAll more) ab fun addrs _ => Runs (performAll more) ba fun addrs' _ => addrs' = addrs := by
  refine (initial.inv.runs_performAll legal.careful unfailing).mono ?_
  rintro _ w' ⟨inv, _⟩ a memA b memB ne
  refine (inv.runs_free_pair memA memB ne).mono ?_
  rintro _ ab ⟨invAB, shapeAB⟩
  refine (inv.runs_free_pair memB memA ne.symm).mono ?_
  rintro _ ba ⟨invBA, shapeBA⟩
  rw [← inv.free_comm memA memB ne] at invBA
  have same : ba.shape = ab.shape := by
    rw [shapeAB, shapeBA]
    simp only [and_comm]
  refine ⟨invAB.sameLayout invBA, fun more legal' unfailing' => ?_⟩
  refine (invAB.runs_performAll legal'.careful unfailing').mono ?_
  rintro addrs _ ⟨_, rfl⟩
  exact invAB.twin invBA same legal' unfailing'

theorem free_order_independent_sample : Runs (performAll sampleRun) (freshWorld 8) fun _ w' =>
    ∀ a ∈ w'.live, ∀ b ∈ w'.live, a.ptr ≠ b.ptr →
      Runs (performAll [.free a.ptr, .free b.ptr]) w' fun _ ab =>
        Runs (performAll [.free b.ptr, .free a.ptr]) w' fun _ ba =>
          SameLayout ab.heap ba.heap ∧ ∀ more, Legal ab more → Unfailing ab more →
            Runs (performAll more) ab fun addrs _ => Runs (performAll more) ba fun addrs' _ => addrs' = addrs :=
  free_order_independent (initial_freshWorld (by decide) (by decide) (by decide)) (by decide +kernel)
    (by decide +kernel)

end Twins

end Splab.Malloc
