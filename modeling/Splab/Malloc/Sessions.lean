import Splab.Malloc.Serve

namespace Splab.Malloc

/-- What a request does to the segment list that starts at `base`, with the address it returns. -/
def serve (base : Nat) (segs : List Seg) : Request → List Seg × Nat
  | .malloc n => Policy.malloc (endAddr base segs) segs (unitsFor n)
  | .free p => (Policy.free segs p, 0)
  | .realloc p n =>
    if p = 0 then Policy.malloc (endAddr base segs) segs (unitsFor n)
    else if n = 0 then (Policy.free segs p, p)
    else Policy.realloc (endAddr base segs) segs p (unitsFor n)
  | .write _ _ _ => (segs, 0)

/-- How far a request moves the break. -/
def demand (segs : List Seg) : Request → Nat
  | .malloc n => mallocGrowth segs (unitsFor n)
  | .free _ => 0
  | .realloc p n =>
    if p = 0 then mallocGrowth segs (unitsFor n)
    else if n = 0 then 0
    else match locate (p - mmHeaderSize) segs with
      | some (pre, s, post) => reallocGrowth pre s post (unitsFor n)
      | none => 0
  | .write _ _ _ => 0

/-- The invariant of every run: the heap represents the list `segs`, and the
blocks of the clients are its allocated segments. -/
structure Inv (base : Nat) (segs : List Seg) (w : World) : Prop where
  rep : Rep w.heap segs
  first : w.heap.first = base
  errno : w.heap.errno = 0
  recorded : ∀ c ∈ w.heap.calls, c.Fits
  holds : Holds w.live (allocated segs) w.heap.bytes

theorem unitsFor_two {n : Nat} (low : 1 ≤ n) (high : n + 16 ≤ 2 ^ 32) : 2 ≤ unitsFor n := by
  unfold unitsFor align mmHeaderSize
  omega

theorem le_unitsFor {n : Nat} (high : n + 16 ≤ 2 ^ 32) : n + mmHeaderSize ≤ 8 * unitsFor n := by
  unfold unitsFor align mmHeaderSize
  omega

theorem maxHeap_small {n : Nat} (high : n ≤ maxHeap) : n + 16 ≤ 2 ^ 32 := by
  unfold maxHeap at high
  omega

/-- What may be asked for by the rules is served without slivers. -/
theorem World.Allows.careful {w : World} {q : Request} (allows : w.Allows q) :
    w.Accepts q ∧ q.Clean w.heap.segments := by
  cases q with
  | malloc n => exact ⟨allows.2, noSliver_of_two (unitsFor_two allows.1 (maxHeap_small allows.2))⟩
  | free p => exact ⟨allows, trivial⟩
  | realloc p n =>
    obtain ⟨live, low, high⟩ := allows
    exact ⟨⟨live, high⟩, fun _ => noSliver_of_two (unitsFor_two low (maxHeap_small high))⟩
  | write p i v => exact ⟨allows, trivial⟩

theorem Legal.careful {w : World} {reqs : List Request} (legal : Legal w reqs) : Careful w reqs :=
  Along.imp legal fun _ _ allows => allows.careful

section Steps
variable {base n p i : Nat} {segs result rest : List Seg} {w : World} {h' : Heap} {live : List Block} {z : Seg}
  {old : List UInt8} {v : UInt8} {b : Block}

theorem Inv.fits_of_steady {kept : List Seg} (inv : Inv base segs w) (steady : Steady kept w.heap h') :
    ∀ c ∈ h'.calls, c.Fits := by
  obtain ⟨new, calls, fits⟩ := steady.recorded
  rw [calls]
  exact fun c mem => (List.mem_append.mp mem).elim (fits c) (inv.recorded c)

theorem Inv.last_eq (inv : Inv base segs w) : w.heap.last = endAddr base segs := by
  rw [← inv.first]
  exact inv.rep.chain.tiles.end_eq

/-- A new block is handed out in the segment `z`. -/
theorem inv_add (rep : Rep h' result) (first : h'.first = base) (errno : h'.errno = 0)
    (recorded : ∀ c ∈ h'.calls, c.Fits) (holds : Holds live rest h'.bytes)
    (perm : (allocated result).Perm (z :: rest)) (addr : z.addr + mmHeaderSize = p)
    (big : n + mmHeaderSize ≤ 8 * z.size) (kept : ∀ i v, (old.take n)[i]? = some v → h'.bytes (p + i) = v) :
    Inv base result ((World.mk h' live).add p old n) where
  rep := rep
  first := first
  errno := errno
  recorded := recorded
  holds := by
    refine (holds.add (b := ⟨p, _⟩) addr ?_ ?_).perm perm.symm
    · simp only [List.length_append, length_read]
      have := List.length_take_le n old
      omega
    · intro i v at'
      simp only at at' ⊢
      rw [List.getElem?_append] at at'
      split at at'
      · exact kept i v at'
      · have byte := read_get at'
        rwa [show p + (old.take n).length + (i - (old.take n).length) = p + i by omega] at byte

theorem Inv.runs_mmMalloc (inv : Inv base segs w) (clean : NoSliver segs (unitsFor n)) (high : n + 16 ≤ 2 ^ 32)
    (room : w.heap.memBrk + mallocGrowth segs (unitsFor n) ≤ w.heap.memMaxAddr) :
    Runs (mmMalloc n) w.heap fun p h =>
      Inv base (Policy.malloc (endAddr base segs) segs (unitsFor n)).1 ((World.mk h w.live).add p [] n) ∧
        p = (Policy.malloc (endAddr base segs) segs (unitsFor n)).2 := by
  have units := le_unitsFor high
  refine (inv.rep.runs_mmMalloc clean room).mono ?_
  rintro p h ⟨rep, ptr, steady⟩
  rw [inv.last_eq] at rep ptr
  obtain ⟨z, addr, big, perm⟩ := Policy.malloc_allocated (e := endAddr base segs) (n := unitsFor n)
    inv.rep.chain.tiles
  have first : h.first = base := (congrArg (· + mmDataSize) steady.start).trans inv.first
  refine ⟨inv_add rep first (steady.errno.trans inv.errno) (inv.fits_of_steady steady)
    (inv.holds.steady steady) perm (addr.trans ptr.symm)
    (by omega) fun i v at' => ?_, ptr⟩
  simp at at'

/-- The segment of a live block. -/
theorem Inv.segment (inv : Inv base segs w) (mem : b ∈ w.live) : ∃ pre s post, segs = pre ++ s :: post ∧
    s.alloc = true ∧ s.addr + mmHeaderSize = b.ptr ∧ b.data.length + mmHeaderSize ≤ 8 * s.size := by
  obtain ⟨s, inside, addr, big⟩ := inv.holds.fits b mem
  obtain ⟨inSegs, alloc⟩ := mem_allocated.mp inside
  obtain ⟨pre, post, eq⟩ := List.append_of_mem inSegs
  exact ⟨pre, s, post, eq, alloc, addr, big⟩

/-- Without the block at `s` the clients hold the other allocated segments. -/
theorem Inv.forget {pre post : List Seg} {s : Seg} (inv : Inv base (pre ++ s :: post) w) (alloc : s.alloc = true)
    (addr : s.addr + mmHeaderSize = p) (steady : Steady (pre ++ post) w.heap h') :
    Holds (w.live.filter (·.ptr ≠ p)) (allocated (pre ++ post)) h'.bytes := by
  have holds := inv.holds
  have perm : (allocated (pre ++ s :: post)).Perm (s :: allocated (pre ++ post)) := by
    rw [allocated_append, allocated_cons alloc, allocated_append]
    exact List.perm_middle
  refine ((holds.perm perm).drop (fun x mem eq => ?_) addr).steady steady
  have inside := mem_around (s := s) (mem_allocated.mp mem).1
  have apart := (inv.rep.chain.tiles.apart (List.mem_append_left _ inside)
    (List.mem_append_left _ (show s ∈ pre ++ s :: post by simp))).resolve_left fun same =>
      inv.rep.chain.tiles.notMem (same ▸ (mem_allocated.mp mem).1)
  exact apart.ne eq

theorem Inv.ptr_nodup (inv : Inv base segs w) : (w.live.map Block.ptr).Nodup := by
  refine inv.holds.held.nodup_iff.mpr ((inv.rep.chain.tiles.nodup.filter _).map_on fun x memX y memY eq => ?_)
  have insideX := List.mem_append_left [sentinel w.heap.last] (mem_allocated.mp memX).1
  have insideY := List.mem_append_left [sentinel w.heap.last] (mem_allocated.mp memY).1
  by_contra ne
  have := ((inv.rep.chain.tiles.apart insideX insideY).resolve_left ne).ne
  omega

/-- The store's entry for a live block. -/
theorem Inv.contents (inv : Inv base segs w) (mem : b ∈ w.live) : w.contents b.ptr = b.data := by
  have found : w.live.find? (·.ptr = b.ptr) = some b := by
    have nodup := inv.ptr_nodup
    obtain ⟨front, back, eq⟩ := List.append_of_mem mem
    rw [List.find?_eq_some_iff_append]
    refine ⟨by simp, front, back, eq, fun c inFront => ?_⟩
    rw [eq, List.map_append, List.map_cons, List.nodup_append] at nodup
    have := nodup.2.2 c.ptr (List.mem_map_of_mem inFront) b.ptr List.mem_cons_self
    simpa using this
  rw [World.contents, found]
  rfl

theorem Inv.ptr_ne_zero (inv : Inv base segs w) (mem : b ∈ w.live) : b.ptr ≠ 0 := by
  obtain ⟨pre, s, post, _, _, addr, _⟩ := inv.segment mem
  unfold mmHeaderSize at addr
  omega

theorem Inv.runs_free (inv : Inv base segs w) (mem : b ∈ w.live) :
    Runs (perform (.free b.ptr)) w fun r w' => Inv base (Policy.free segs b.ptr) w' ∧ r = 0 := by
  obtain ⟨pre, s, post, rfl, alloc, addr, _⟩ := inv.segment mem
  unfold perform
  rw [← addr, runs_bind, runs_onHeap]
  refine (inv.rep.runs_mmFree alloc).mono ?_
  rintro _ h ⟨rep, steady⟩
  have first : h.first = base := (congrArg (· + mmDataSize) steady.start).trans inv.first
  rw [runs_bind, runs_modify, runs_pure, inv.rep.chain.tiles.free]
  refine ⟨⟨rep, first, steady.errno.trans inv.errno, inv.fits_of_steady steady, ?_⟩, rfl⟩
  rw [Policy.release_allocated, ← allocated_append]
  exact inv.forget alloc rfl steady

theorem Inv.runs_realloc (inv : Inv base segs w) (mem : b ∈ w.live) (low : 1 ≤ n) (high : n + 16 ≤ 2 ^ 32)
    (room : w.heap.memBrk + demand segs (.realloc b.ptr n) ≤ w.heap.memMaxAddr) :
    Runs (perform (.realloc b.ptr n)) w fun r w' =>
      Inv base (Policy.realloc (endAddr base segs) segs b.ptr (unitsFor n)).1 w' ∧
        r = (Policy.realloc (endAddr base segs) segs b.ptr (unitsFor n)).2 := by
  have two := unitsFor_two low high
  have units := le_unitsFor high
  have nonzero := inv.ptr_ne_zero mem
  have contents := inv.contents mem
  obtain ⟨pre, s, post, rfl, alloc, addr, fits⟩ := inv.segment mem
  have tiles := inv.rep.chain.tiles
  have positive : n ≠ 0 := by omega
  rw [demand, if_neg nonzero, if_neg positive, ← addr, Nat.add_sub_cancel, tiles.locate] at room
  unfold perform
  rw [runs_bind, runs_get, contents, ← addr, runs_bind, runs_onHeap]
  refine (inv.rep.runs_mmRealloc alloc positive rfl two room).mono ?_
  rintro r h ⟨rep, ptr, steady, copied⟩
  rw [inv.last_eq] at rep ptr
  obtain ⟨z, address, big, perm⟩ := Policy.realloc_allocated (inv.last_eq ▸ tiles) alloc two
  have first : h.first = base := (congrArg (· + mmDataSize) steady.start).trans inv.first
  rw [← allocated_append] at perm
  have resized : ∀ u : World, u.resize (s.addr + mmHeaderSize) n r b.data =
      (u.forget (s.addr + mmHeaderSize)).add r b.data n := fun u => if_neg fun freed => positive freed.2
  rw [runs_bind, runs_modify, runs_pure, resized]
  refine ⟨inv_add rep first (steady.errno.trans inv.errno) (inv.fits_of_steady steady)
    (inv.forget alloc rfl steady) perm
    (address.trans ptr.symm) (by omega) fun i v at' => ?_, ptr⟩
  rw [List.getElem?_take] at at'
  split at at'
  · next inside =>
    obtain ⟨small, _⟩ := List.getElem?_eq_some_iff.mp at'
    unfold mmHeaderSize at *
    rw [copied i (by omega) (by omega), addr]
    exact inv.holds.stored b mem i v at'
  · cases at'

theorem World.forget_absent {p : Nat} (absent : ∀ c ∈ w.live, c.ptr ≠ p) : w.forget p = w := by
  have same : w.live.filter (·.ptr ≠ p) = w.live := List.filter_eq_self.mpr fun c mem => by simp [absent c mem]
  rw [World.forget, same]

theorem World.contents_absent {p : Nat} (absent : ∀ c ∈ w.live, c.ptr ≠ p) : w.contents p = [] := by
  have none' : w.live.find? (·.ptr = p) = none := List.find?_eq_none.mpr fun c mem => by simp [absent c mem]
  rw [World.contents, none']
  rfl

theorem Inv.runs_write (inv : Inv base segs w) (mem : b ∈ w.live) (inside : i < b.data.length) :
    Runs (perform (.write b.ptr i v)) w fun r w' => Inv base segs w' ∧ r = 0 := by
  obtain ⟨pre, s, post, rfl, alloc, addr, fits⟩ := inv.segment mem
  have place := (chain_iff_gap.mp inv.rep.chain).bounds
  have tiles := inv.rep.chain.tiles
  have payload : Payload (pre ++ s :: post) (b.ptr + i) := by
    unfold mmHeaderSize at addr fits
    exact ⟨s, by simp, alloc, by omega, by omega⟩
  unfold perform
  rw [runs_bind, runs_onHeap, runs_storeByte (by unfold Heap.Within; unfold mmHeaderSize at addr fits; omega),
    runs_bind, runs_modify, runs_pure]
  refine ⟨⟨inv.rep.write rfl rfl rfl fun x off => if_neg fun eq => off ?_, inv.first, inv.errno, inv.recorded, ?_⟩,
    rfl⟩
  · rw [eq]
    exact payload
  · refine inv.holds.write (if_pos rfl) (fun x ne => if_neg ne) fun c memC ne j small => ?_
    obtain ⟨pre', y, post', eq, _, addrY, fitsY⟩ := inv.segment memC
    have inY : y ∈ pre ++ s :: post := by simp [eq]
    have other : y ≠ s := fun same => ne (by rw [← addrY, ← addr, same])
    have apart := (tiles.disjoint inY (show s ∈ pre ++ s :: post by simp)).resolve_left other
    unfold Seg.stop at apart
    unfold mmHeaderSize at *
    omega

/-- `mm_realloc` of a block to size 0 frees it. -/
theorem Inv.runs_realloc_zero (inv : Inv base segs w) (mem : b ∈ w.live) :
    Runs (perform (.realloc b.ptr 0)) w fun r w' => Inv base (Policy.free segs b.ptr) w' ∧ r = b.ptr := by
  have nonzero := inv.ptr_ne_zero mem
  obtain ⟨_, w', run, inv', _⟩ := inv.runs_free mem
  obtain ⟨u, mid, freed, rest⟩ := bind_eq_ok.mp run
  cases rest
  have again : onHeap (mmRealloc b.ptr 0) w = .ok b.ptr mid := by
    unfold onHeap at freed ⊢
    rw [mmRealloc, if_neg nonzero, if_pos rfl, bind_run]
    cases heap : mmFree b.ptr w.heap with
    | ok a h =>
      simp only [heap, EStateM.Result.ok.injEq] at freed
      rw [← freed.2]
      rfl
    | error e h => simp only [heap, reduceCtorEq] at freed
  unfold perform
  rw [runs_bind, runs_get, runs_bind, runs_of_run again, runs_bind, runs_modify, runs_pure]
  have resized : ∀ u : World, ∀ old, u.resize b.ptr 0 b.ptr old = u.forget b.ptr := fun u old =>
    if_pos ⟨nonzero, rfl⟩
  rw [resized]
  exact ⟨inv', rfl⟩

theorem Inv.runs_realloc_null (inv : Inv base segs w) (clean : NoSliver segs (unitsFor n)) (high : n + 16 ≤ 2 ^ 32)
    (room : w.heap.memBrk + mallocGrowth segs (unitsFor n) ≤ w.heap.memMaxAddr) :
    Runs (perform (.realloc 0 n)) w fun r w' =>
      Inv base (Policy.malloc (endAddr base segs) segs (unitsFor n)).1 w' ∧
        r = (Policy.malloc (endAddr base segs) segs (unitsFor n)).2 := by
  have absent : ∀ c ∈ w.live, c.ptr ≠ 0 := fun c mem => inv.ptr_ne_zero mem
  unfold perform
  rw [runs_bind, runs_get, World.contents_absent absent, runs_bind, runs_onHeap, mmRealloc, if_pos rfl]
  refine (inv.runs_mmMalloc clean high room).mono ?_
  rintro p h ⟨inv', ptr⟩
  have kept : (World.mk h w.live).forget 0 = World.mk h w.live := World.forget_absent absent
  have resized : (World.mk h w.live).resize 0 n p [] = (World.mk h w.live).add p [] n := by
    rw [World.resize, if_neg fun freed => freed.1 rfl, kept]
  rw [runs_bind, runs_modify, runs_pure, resized]
  exact ⟨inv', ptr⟩

/-- Every accepted and clean request that finds room keeps the invariant and does to the
segment list what the policy says. -/
theorem Inv.runs_perform {q : Request} (inv : Inv base segs w) (accepts : w.Accepts q)
    (clean : q.Clean w.heap.segments) (room : w.heap.memBrk + demand segs q ≤ w.heap.memMaxAddr) :
    Runs (perform q) w fun r w' => Inv base (serve base segs q).1 w' ∧ r = (serve base segs q).2 := by
  rw [inv.rep.segments_eq] at clean
  cases q with
  | malloc n =>
    unfold perform
    rw [runs_bind, runs_onHeap]
    refine (inv.runs_mmMalloc clean (maxHeap_small accepts) room).mono ?_
    rintro p h ⟨inv', ptr⟩
    rw [runs_bind, runs_modify, runs_pure]
    exact ⟨inv', ptr⟩
  | free p =>
    obtain ⟨b, mem, rfl⟩ := accepts
    exact inv.runs_free mem
  | realloc p n =>
    obtain ⟨null | ⟨b, mem, rfl⟩, high⟩ := accepts
    · subst null
      simp only [demand, if_true] at room
      simp only [serve, if_true]
      exact inv.runs_realloc_null (clean rfl) (maxHeap_small high) room
    · have nonzero := inv.ptr_ne_zero mem
      by_cases zero : n = 0
      · subst zero
        simp only [serve, nonzero, if_false, if_true]
        exact inv.runs_realloc_zero mem
      · simp only [serve, nonzero, zero, if_false]
        exact inv.runs_realloc mem (by omega) (maxHeap_small high) room
  | write p i v =>
    obtain ⟨b, mem, rfl, inside⟩ := accepts
    exact inv.runs_write mem inside

/-- A request that finds no room faults in `mm_sbrk`. -/
theorem Inv.perform_exhausted {q : Request} (inv : Inv base segs w) (accepts : w.Accepts q)
    (full : w.heap.memMaxAddr < w.heap.memBrk + demand segs q) :
    ∃ w', perform q w = .error (.segv 0xFFFFFFFB) w' ∧ w'.heap.errno = ENOMEM := by
  have brk := inv.rep.chain.arena.brk
  have lift : ∀ {x : Mm Nat} {f : Nat → Session Nat}, Exhausts x w.heap →
      ∃ w', (onHeap x >>= f) w = .error (.segv 0xFFFFFFFB) w' ∧ w'.heap.errno = ENOMEM := by
    rintro x f ⟨incr, run⟩
    refine ⟨{ w with heap := { w.heap with errno := ENOMEM, calls := .memSbrk incr :: w.heap.calls } }, ?_, rfl⟩
    rw [bind_run]
    simp only [onHeap, run]
  cases q with
  | malloc n => exact lift (inv.rep.exhausts_mmMalloc full)
  | free p =>
    simp only [demand] at full
    omega
  | realloc p n =>
    obtain ⟨null | ⟨b, mem, rfl⟩, high⟩ := accepts
    · subst null
      simp only [demand, if_true] at full
      refine lift ?_
      rw [mmRealloc, if_pos rfl]
      exact inv.rep.exhausts_mmMalloc full
    · have nonzero := inv.ptr_ne_zero mem
      obtain ⟨pre, s, post, rfl, alloc, addr, fits⟩ := inv.segment mem
      rw [demand, if_neg nonzero] at full
      by_cases zero : n = 0
      · rw [if_pos zero] at full
        omega
      · rw [if_neg zero, ← addr, Nat.add_sub_cancel, inv.rep.chain.tiles.locate] at full
        refine lift ?_
        rw [← addr]
        exact inv.rep.exhausts_mmRealloc zero full
  | write p i v =>
    simp only [demand] at full
    omega

end Steps

section Runs
variable {base : Nat} {segs : List Seg} {w : World} {q : Request} {reqs rest : List Request}

/-- A whole run on the segment list, with the addresses returned. -/
def serveAll (base : Nat) : List Seg → List Request → List Seg × List Nat
  | segs, [] => (segs, [])
  | segs, q :: rest =>
    let (segs', r) := serve base segs q
    let (last, rs) := serveAll base segs' rest
    (last, r :: rs)

theorem Unfailing.room (unfailing : Unfailing w (q :: rest)) (inv : Inv base segs w) (accepts : w.Accepts q) :
    w.heap.memBrk + demand segs q ≤ w.heap.memMaxAddr := by
  by_contra full
  obtain ⟨w', fault, errno⟩ := inv.perform_exhausted accepts (by omega)
  have whole : performAll (q :: rest) w = .error (.segv 0xFFFFFFFB) w' := by
    rw [performAll, bind_run, fault]
  unfold Unfailing at unfailing
  rw [whole] at unfailing
  cases errno.symm.trans unfailing

theorem Unfailing.tail {r : Nat} {w' : World} (unfailing : Unfailing w (q :: rest)) (run : perform q w = .ok r w') :
    Unfailing w' rest := by
  unfold Unfailing at *
  rw [performAll, bind_run, run] at unfailing
  simp only [bind_run] at unfailing
  cases eq : performAll rest w' with
  | ok rs last =>
    rw [eq] at unfailing
    exact unfailing
  | error e last =>
    rw [eq] at unfailing
    exact unfailing

/-- A careful run in which no `mem_sbrk` fails returns, keeps the invariant and
follows the policy. -/
theorem Inv.runs_performAll (inv : Inv base segs w) (careful : Careful w reqs) (unfailing : Unfailing w reqs) :
    Runs (performAll reqs) w fun rs w' =>
      Inv base (serveAll base segs reqs).1 w' ∧ rs = (serveAll base segs reqs).2 := by
  induction reqs generalizing w segs with
  | nil =>
    rw [performAll, runs_pure]
    exact ⟨inv, rfl⟩
  | cons q rest ih =>
    obtain ⟨⟨accepts, clean⟩, later⟩ := careful
    obtain ⟨r, w1, run, inv1, returned⟩ := inv.runs_perform accepts clean (unfailing.room inv accepts)
    rw [performAll, runs_bind, runs_of_run run, runs_bind]
    refine (ih inv1 (later r w1 run) (unfailing.tail run)).mono ?_
    rintro rs w2 ⟨inv2, all⟩
    rw [runs_pure]
    exact ⟨inv2, by rw [returned, all]; rfl⟩

theorem Initial.inv (initial : Initial w) : Inv w.heap.first [] w := by
  obtain ⟨start, bytes, positive, aligned, top, run, live⟩ := initial
  have heap : w.heap = initHeap start bytes := by
    have same := run.symm.trans mmInit_run
    injection same
  refine ⟨heap ▸ initHeap_rep positive aligned top, rfl, by rw [heap]; rfl, fun c mem => ?_, ?_⟩
  · have calls : w.heap.calls = [.memSbrk mmHeaderSize, .memSbrk mmDataSize] := by rw [heap]; rfl
    rw [calls] at mem
    rcases List.mem_cons.mp mem with rfl | mem
    · trivial
    · rw [List.mem_singleton.mp mem]
      trivial
  · rw [live]
    exact ⟨.nil, by simp, by simp⟩

/-- A run that returned cannot have met a failure. -/
theorem Inv.of_run {rs : List Nat} {w' : World} (inv : Inv base segs w) (careful : Careful w reqs)
    (run : performAll reqs w = .ok rs w') : Inv base (serveAll base segs reqs).1 w' := by
  induction reqs generalizing w segs rs with
  | nil =>
    cases run
    exact inv
  | cons q rest ih =>
    obtain ⟨⟨accepts, clean⟩, later⟩ := careful
    obtain ⟨r, w1, first, run⟩ := bind_eq_ok.mp run
    obtain ⟨rs', w2, tail, last⟩ := bind_eq_ok.mp run
    cases last
    have room : w.heap.memBrk + demand segs q ≤ w.heap.memMaxAddr := by
      by_contra full
      obtain ⟨u, fault, _⟩ := inv.perform_exhausted accepts (by omega)
      cases fault.symm.trans first
    have inv1 := ((runs_of_run first).mp (inv.runs_perform accepts clean room)).1
    exact ih inv1 (later r w1 first) tail

/-- The states that clients reach by the rules from the one after `mm_init`. -/
def Reachable (w : World) : Prop :=
  ∃ w₀ reqs rs, Initial w₀ ∧ Legal w₀ reqs ∧ performAll reqs w₀ = .ok rs w

theorem Reachable.inv (reachable : Reachable w) : ∃ segs, Inv w.heap.first segs w := by
  obtain ⟨w₀, reqs, rs, initial, legal, run⟩ := reachable
  have inv := initial.inv.of_run legal.careful run
  exact ⟨_, inv.first ▸ inv⟩

theorem reachable_of_run (initial : Initial w) (legal : Legal w reqs) (unfailing : Unfailing w reqs) :
    Reachable (finalState (performAll reqs w)) := by
  obtain ⟨rs, w', run, _⟩ := initial.inv.runs_performAll legal.careful unfailing
  rw [run]
  exact ⟨w, reqs, rs, initial, legal, run⟩

/-- A fresh heap on storage filled with zeros. -/
def freshWorld (start : Nat) : World := ⟨initHeap start fun _ => 0, []⟩

theorem initial_freshWorld {start : Nat} (positive : 0 < start) (aligned : 8 ∣ start)
    (top : start + maxHeap < 2 ^ 32) : Initial (freshWorld start) :=
  ⟨start, _, positive, aligned, top, mmInit_run, rfl⟩

/-- A run through most of the paths: allocation by extension and by best fit,
writes, a move, a merge with a free neighbour and an expansion in place. -/
def sampleRun : List Request :=
  [.malloc 100, .malloc 5, .write 40 3 7, .realloc 40 200, .free 160, .malloc 24, .realloc 184 420]

end Runs

end Splab.Malloc
