import Splab.Malloc.SegMoves
import Splab.Malloc.Policy

namespace Splab.Malloc
open RedBlack RBTree

section Calls
variable {h : Heap} {segs pre post : List Seg} {s : Seg} {p n size limit : Nat}

/-- How far a call of `mm_malloc` for `n` units moves the break. -/
def mallocGrowth (segs : List Seg) (n : Nat) : Nat := if bestFit segs n = none then growth n else 0

theorem Rep.runs_mmSearchUpto {Q : Nat → Heap → Prop} (rep : Rep h segs) (deep : Deep limit (freeCount segs)) :
    Runs (mmSearchUpto limit n) h Q ↔ Q (foundPtr (bestFit segs n)) h := by
  obtain ⟨t, idx, keys⟩ := rep.filed
  rw [Malloc.runs_mmSearchUpto idx (deep t idx.valid (Filed.length_le idx.valid keys)),
    find?_eq_bestFit idx.valid.ordered keys]

theorem Rep.runs_mmSearch {Q : Nat → Heap → Prop} (rep : Rep h segs) :
    Runs (mmSearch n) h Q ↔ Q (foundPtr (bestFit segs n)) h :=
  rep.runs_mmSearchUpto (rep.deep.mono (Nat.le_add_right _ 2))

theorem unitsFor_lt : unitsFor size < 2 ^ 29 := by
  unfold unitsFor
  omega

/-- `mm_malloc` takes the best fit, or extends the heap when there is none. -/
theorem Rep.runs_mmMallocUpto (rep : Rep h segs) (clean : NoSliver segs (unitsFor size))
    (room : h.memBrk + mallocGrowth segs (unitsFor size) ≤ h.memMaxAddr) (deep : Deep limit (freeCount segs)) :
    Runs (mmMallocUpto limit size) h fun ptr h' => Rep h' (Policy.malloc h.last segs (unitsFor size)).1 ∧
      ptr = (Policy.malloc h.last segs (unitsFor size)).2 ∧ Steady segs h h' := by
  have small : unitsFor size < 2 ^ 29 := unitsFor_lt
  unfold mmMallocUpto Policy.malloc
  unfold mallocGrowth at room
  generalize unitsFor size = n at *
  simp only
  rw [runs_bind, rep.runs_mmSearchUpto deep]
  cases found : bestFit segs n with
  | none =>
    rw [found, if_pos rfl] at room
    have bytes : n * 8 % 2 ^ 32 = 8 * n := by omega
    rw [foundPtr, if_pos rfl, runs_bind, bytes]
    refine (rep.runs_mmSbrkUpto clean.1 room deep).mono ?_
    rintro _ h' ⟨rfl, held, steady⟩
    rw [runs_pure]
    have held' : Held h' segs (fresh h.last n) (fresh h.last n).addr (freshSpare h.last n) := by
      rw [fresh_addr]
      exact held
    exact ⟨(rep_iff_held fresh_alloc).mpr held', rfl, steady⟩
  | some k =>
    obtain ⟨pre, s, post, rfl, free, fits, rfl, located⟩ := rep.chain.tiles.chosen found
    have gap := chain_iff_gap.mp rep.chain
    have nonzero : s.addr ≠ 0 := by
      have := gap.bounds
      omega
    rw [found] at located
    rw [located]
    rw [freeCount_free free] at deep
    simp only [foundPtr, Seg.key, nonzero, if_false]
    rw [runs_bind]
    refine (rep.runs_takeUpto free deep).mono ?_
    rintro _ h1 ⟨held1, steady1⟩
    rw [runs_bind]
    refine (held1.runs_mmFragNodeUpto (clean.2 _ found) (deep.mono (Nat.le_succ _))).mono ?_
    rintro _ h2 ⟨rfl, held2, steady2⟩
    obtain ⟨held3, steady3⟩ := held2.setAlloc (b := true)
    have inside := held2.gap.headerIn
    rw [Seg.front_addr] at inside held3 steady3
    rw [runs_bind, runs_setAlloc inside, runs_pure]
    have carved : Steady (pre ++ s :: post) h1 h2 := steady2.mono fun x inside => by
      rw [payload_append, payload_cons] at inside ⊢
      simp only [free, Bool.false_eq_true, false_and, false_or] at inside
      exact inside.imp_right .inr
    have marked : Steady (pre ++ s :: post) h2 (h2.setAlloc s.addr true) := steady3.mono fun x inside => by
      rw [payload_append, payload_cons, payload_append] at *
      simp only [free, Bool.false_eq_true, false_and, false_or] at inside
      exact inside.imp_right fun after => .inr (.inr after)
    exact ⟨(rep_iff_held rfl).mpr (by simpa using held3), rfl, steady1.trans (carved.trans marked)⟩

theorem Rep.runs_mmMalloc (rep : Rep h segs) (clean : NoSliver segs (unitsFor size))
    (room : h.memBrk + mallocGrowth segs (unitsFor size) ≤ h.memMaxAddr) :
    Runs (mmMalloc size) h fun ptr h' => Rep h' (Policy.malloc h.last segs (unitsFor size)).1 ∧
      ptr = (Policy.malloc h.last segs (unitsFor size)).2 ∧ Steady segs h h' :=
  rep.runs_mmMallocUpto clean room (rep.deep.mono (Nat.le_add_right _ 2))

theorem lastAddr_ne_zero (gap : Gap h pre s p post) (some' : pre ≠ []) : lastAddr 0 pre ≠ 0 := by
  obtain ⟨front, x, rfl⟩ := (List.eq_nil_or_concat' pre).resolve_left some'
  rw [lastAddr_concat]
  have := gap.focus (x := x) (by simp)
  omega

/-- The first half of `mm_free`: a free segment before `s` takes it in. -/
theorem Rep.runs_mergePrev (rep : Rep h (pre ++ s :: post)) (alloc : s.alloc = true)
    (deep : Deep limit (freeCount (pre ++ post))) :
    Runs (mmFreePrevUpto limit (lastAddr 0 pre) s.addr) h fun now h' => now = (mergePrev pre s).2.addr ∧
          Held h' (mergePrev pre s).1 (mergePrev pre s).2 s.addr post ∧ Steady (pre ++ post) h h' := by
  have held := (rep_iff_held alloc).mp rep
  unfold mmFreePrevUpto
  rw [runs_bind, both, runs_bind, runs_pure]
  rcases List.eq_nil_or_concat' pre with rfl | ⟨front, x, rfl⟩
  · simp only [lastAddr_nil, bne_self_eq_false, Bool.false_eq_true, if_false, runs_pure, mergePrev_nil]
    exact ⟨trivial, held, Steady.refl _ _⟩
  · have nonzero := lastAddr_ne_zero held.gap (by simp)
    have whole : Rep h (front ++ x :: (s :: post)) := by simpa using rep
    obtain ⟨q, header⟩ := held.gap.exists_header (x := x) (by simp)
    have xIn := (chain_iff_gap.mp whole.chain).headerIn
    rw [if_pos (by simpa using nonzero), runs_bind, lastAddr_concat, runs_getAlloc xIn, header.alloc, runs_pure]
    cases kind : x.alloc with
    | true =>
      rw [if_neg (by simp), runs_pure, mergePrev_alloc kind]
      exact ⟨rfl, held, Steady.refl _ _⟩
    | false =>
      rw [if_pos (by simp), runs_bind, mergePrev_free kind]
      rw [List.append_assoc, List.singleton_append, freeCount_free kind, ← freeCount_alloc alloc] at deep
      refine (whole.runs_takeUpto kind deep).mono ?_
      rintro _ h1 ⟨held1, steady1⟩
      obtain ⟨r, next⟩ := held1.gap.exists_header (x := s) (by simp)
      have sIn : h1.HeaderIn s.addr := by
        have := held1.gap.focus (x := s) (by simp)
        unfold Heap.HeaderIn Heap.Within
        omega
      have filed : Filed h1 (front ++ post) := filed_congr_list held1.filed fun y free => by
        have : y ≠ s := fun eq => by rw [eq, alloc] at free; cases free
        simp [this]
      obtain ⟨held2, steady2⟩ := held1.gap.absorb filed
      rw [runs_bind, runs_getSize held1.gap.headerIn, held1.gap.header.size, runs_bind, runs_getSize sIn, next.size,
        runs_bind, runs_setSize held1.gap.headerIn, runs_pure]
      refine ⟨rfl, held2, (steady1.sublist ?_).trans (steady2.sublist ?_)⟩ <;>
        exact fun y mem => by simp at mem ⊢; tauto

/-- The second half of `mm_free`: the segment takes in a free one behind it and goes into the tree. -/
theorem Held.runs_mergeNext (held : Held h pre s p post) (deep : Deep limit (freeCount (pre ++ post))) :
    Runs (mmFreeNextUpto limit s.addr (s.addr + 8 * s.size)) h fun _ h' =>
          Rep h' (pre ++ { (mergeNext s post).1 with alloc := false } :: (mergeNext s post).2) ∧
            Steady (pre ++ post) h h' := by
  have gap := held.gap
  unfold mmFreeNextUpto
  rw [runs_bind, both, runs_bind, runs_bind, runs_getSize gap.nextIn, runs_pure]
  have at' := gap.after
  cases post with
  | nil =>
    obtain ⟨y, rest, eq, addr, _⟩ := at'
    cases eq
    have size : (h.node (s.addr + 8 * s.size)).size = 0 := by
      rw [← addr]
      exact gap.back.1.size
    rw [size, if_neg (by simp), runs_pure, if_neg (by simp)]
    exact held.runs_mmFreeInsert deep
  | cons n post =>
    obtain ⟨y, rest, eq, addr, _⟩ := at'
    cases eq
    have header : HeaderAt h p n := gap.back.1
    have big := (gap.focus (x := n) (by simp)).2.1
    have nextIn := gap.nextIn
    rw [← addr] at nextIn ⊢
    have nonzero : (h.node n.addr).size ≠ 0 := by
      rw [header.size]
      omega
    rw [if_pos (by simpa using nonzero), runs_bind, runs_getAlloc nextIn, header.alloc, runs_pure]
    cases kind : n.alloc with
    | true =>
      rw [if_neg (by simp), mergeNext_alloc kind]
      exact held.runs_mmFreeInsert deep
    | false =>
      have out : n ∉ pre ++ post := by
        have tiles := gap.tiles
        rw [show pre ++ s :: n :: post = (pre ++ [s]) ++ n :: post by simp] at tiles
        exact fun mem => tiles.notMem (by simp at mem ⊢; tauto)
      rw [if_pos (by simp), runs_bind, mergeNext_free kind]
      rw [freeCount_free kind] at deep
      refine (runs_mmDelete_gap gap held.filed (fun f mem => mem_around mem) kind out deep).mono ?_
      rintro _ h1 ⟨gap1, filed1, steady1⟩
      have header1 : HeaderAt h1 p n := gap1.back.1
      have nIn : h1.HeaderIn n.addr := by
        have := gap1.nextIn
        rw [addr]
        exact this
      obtain ⟨held2, steady2⟩ := gap1.absorb filed1
      rw [runs_bind, runs_getSize gap1.headerIn, gap1.header.size, runs_bind, runs_getSize nIn, header1.size,
        runs_bind, runs_setSize gap1.headerIn]
      refine (held2.runs_mmFreeInsert (deep.mono (Nat.le_succ _))).mono ?_
      rintro _ h3 ⟨rep, steady3⟩
      have fewer : ∀ x, Payload (pre ++ n :: post) x → Payload (pre ++ post) x := fun x mem => by
        rw [payload_append, payload_cons] at mem
        rw [payload_append]
        simpa [kind] using mem
      exact ⟨rep, ((steady1.sublist fun f => mem_around).trans (steady2.sublist fun f => mem_around)).trans
        (steady3.mono fewer)⟩

/-- A segment ends where the next one starts. -/
theorem Tiles.last_stop {front : List Seg} {x : Seg} {a e : Nat} (tiles : Tiles a (front ++ [x] ++ s :: post) e) :
    x.stop = s.addr := by
  have whole : Tiles a (front ++ x :: (s :: post)) e := by simpa using tiles
  obtain ⟨_, _, _, _, next, _⟩ := tiles_append.mp whole
  exact next.symm

/-- The merged segment ends where the freed one ended. -/
theorem Tiles.mergePrev_stop {a e : Nat} (tiles : Tiles a (pre ++ s :: post) e) :
    (mergePrev pre s).2.addr + 8 * (mergePrev pre s).2.size = s.addr + 8 * s.size := by
  rcases List.eq_nil_or_concat' pre with rfl | ⟨front, x, rfl⟩
  · rfl
  · cases kind : x.alloc with
    | true => rw [mergePrev_alloc kind]
    | false =>
      have next := tiles.last_stop
      rw [mergePrev_free kind]
      unfold Seg.stop at next
      simp only
      omega

theorem mergePrev_payload {x : Nat} : Payload ((mergePrev pre s).1 ++ post) x ↔ Payload (pre ++ post) x := by
  rcases List.eq_nil_or_concat' pre with rfl | ⟨front, y, rfl⟩
  · rfl
  · cases kind : y.alloc with
    | true => rw [mergePrev_alloc kind]
    | false =>
      rw [mergePrev_free kind, List.append_assoc, payload_append, payload_append, List.singleton_append,
        payload_cons]
      simp [kind]

theorem mergePrev_sublist : (mergePrev pre s).1.Sublist pre := by
  rcases List.eq_nil_or_concat' pre with rfl | ⟨front, y, rfl⟩
  · exact List.Sublist.refl _
  · cases kind : y.alloc with
    | true => rw [mergePrev_alloc kind]
    | false =>
      rw [mergePrev_free kind]
      exact List.sublist_append_left front [y]

/-- `mm_free` merges the freed segment with both of its free neighbours. -/
theorem Rep.runs_mmFreeUpto (rep : Rep h (pre ++ s :: post)) (alloc : s.alloc = true)
    (deep : Deep limit (freeCount (pre ++ post))) :
    Runs (mmFreeUpto limit (s.addr + mmHeaderSize)) h fun _ h' => Rep h' (Policy.release pre s post) ∧
      Steady (pre ++ post) h h' := by
  have gap := chain_iff_gap.mp rep.chain
  have bounds := gap.bounds
  have back : backHeader (s.addr + mmHeaderSize) = s.addr := by
    unfold mmHeaderSize
    rw [backHeader_eq (by omega) (by omega)]
    rfl
  unfold mmFreeUpto Policy.release
  simp only [back]
  rw [runs_bind, mmGetPrev, runs_getPrev gap.headerIn, gap.header.prev, runs_bind, gap.runs_next, runs_bind]
  refine (rep.runs_mergePrev alloc deep).mono ?_
  rintro _ h1 ⟨rfl, held, steady1⟩
  rw [← gap.tiles.mergePrev_stop]
  refine (held.runs_mergeNext (deep.mono (mergePrev_sublist.append_right post).countP_le)).mono ?_
  rintro _ h2 ⟨rep2, steady2⟩
  exact ⟨rep2, steady1.trans (steady2.mono fun x => mergePrev_payload.mpr)⟩

theorem Rep.runs_mmFree (rep : Rep h (pre ++ s :: post)) (alloc : s.alloc = true) :
    Runs (mmFree (s.addr + mmHeaderSize)) h fun _ h' => Rep h' (Policy.release pre s post) ∧
      Steady (pre ++ post) h h' :=
  rep.runs_mmFreeUpto alloc ((chain_iff_gap.mp rep.chain).deep.mono (Nat.le_add_right _ 2))

end Calls

end Splab.Malloc
