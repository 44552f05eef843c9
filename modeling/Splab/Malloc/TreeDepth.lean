import Splab.Lib.RedBlack.Height
import Splab.Malloc.InPlace
import Splab.Malloc.TreeCalls

namespace Splab.Malloc
open RedBlack RBTree

section Limits
variable {fuel now new del size : Nat} {balance : Option Bool} {target : Bool}

/-- One more call of depth changes no run that returns. -/
theorem mmSearchNode_extends : Extends (mmSearchNode fuel now size) (mmSearchNode (fuel + 1) now size) := by
  induction fuel generalizing now with
  | zero => exact extends_throw
  | succ fuel ih =>
    rw [mmSearchNode, mmSearchNode]
    refine .bind .refl fun _ => .ite .refl (.bind .refl fun _ => .ite ?_ ?_)
    · exact .bind .refl fun _ => .bind ih fun _ => .refl
    · exact .bind .refl fun _ => ih

theorem mmInsertNode_extends : Extends (mmInsertNode fuel now new) (mmInsertNode (fuel + 1) now new) := by
  induction fuel generalizing now with
  | zero => exact extends_throw
  | succ fuel ih =>
    rw [mmInsertNode, mmInsertNode]
    refine .bind .refl fun _ => .ite .refl (.bind .refl fun _ => .ite ?_ ?_)
    · exact .bind .refl fun _ => .bind ih fun _ => .refl
    · exact .bind .refl fun _ => .bind ih fun _ => .refl

theorem mmDeleteLeft_extends : Extends (mmDeleteLeft fuel now balance) (mmDeleteLeft (fuel + 1) now balance) := by
  induction fuel generalizing now balance with
  | zero => exact extends_throw
  | succ fuel ih =>
    rw [mmDeleteLeft, mmDeleteLeft]
    refine .bind .refl fun _ => .bind .refl fun _ => .ite ?_ .refl
    exact .bind .refl fun _ => .bind .refl fun _ => .bind .refl fun _ => .bind .refl fun _ => .bind .refl fun _ =>
      .bind ih fun _ => .refl

theorem mmDeleteRight_extends : Extends (mmDeleteRight fuel now balance) (mmDeleteRight (fuel + 1) now balance) := by
  induction fuel generalizing now balance with
  | zero => exact extends_throw
  | succ fuel ih =>
    rw [mmDeleteRight, mmDeleteRight]
    refine .bind .refl fun _ => .bind .refl fun _ => .ite ?_ .refl
    exact .bind .refl fun _ => .bind .refl fun _ => .bind .refl fun _ => .bind .refl fun _ => .bind .refl fun _ =>
      .bind ih fun _ => .refl

theorem mmDeleteNode_extends :
    Extends (mmDeleteNode fuel now del balance target) (mmDeleteNode (fuel + 1) now del balance target) := by
  induction fuel generalizing now balance target with
  | zero => exact extends_throw
  | succ fuel ih =>
    rw [mmDeleteNode, mmDeleteNode]
    refine .ite ?_ (.ite ?_ (.bind .refl fun _ => .ite ?_ ?_))
    · refine .bind .refl fun _ => .bind .refl fun _ => .ite .refl (.bind .refl fun _ => .bind ih fun _ => ?_)
      refine .bind .refl fun _ => .bind .refl fun _ => .ite .refl ?_
      exact .bind mmDeleteLeft_extends fun _ => .refl
    · refine .bind .refl fun _ => .bind .refl fun _ => .ite .refl (.bind .refl fun _ => .bind ih fun _ => ?_)
      refine .bind .refl fun _ => .bind .refl fun _ => .bind .refl fun _ => .bind .refl fun _ => .ite .refl ?_
      exact .bind mmDeleteRight_extends fun _ => .refl
    · refine .bind .refl fun _ => .bind ih fun _ => .bind .refl fun _ => .bind .refl fun _ => .ite .refl ?_
      exact .bind mmDeleteLeft_extends fun _ => .refl
    · refine .bind .refl fun _ => .bind ih fun _ => .bind .refl fun _ => .bind .refl fun _ => .ite .refl ?_
      exact .bind mmDeleteRight_extends fun _ => .refl

theorem mmSearchUpto_extends : Extends (mmSearchUpto fuel size) (mmSearchUpto (fuel + 1) size) :=
  .bind .refl fun _ => .bind .refl fun _ => mmSearchNode_extends

theorem mmInsertUpto_extends : Extends (mmInsertUpto fuel new) (mmInsertUpto (fuel + 1) new) :=
  .bind .refl fun _ => .bind .refl fun _ => .bind .refl fun _ => .bind mmInsertNode_extends fun _ => .refl

theorem mmDeleteUpto_extends : Extends (mmDeleteUpto fuel del) (mmDeleteUpto (fuel + 1) del) :=
  .bind .refl fun _ => .bind .refl fun _ => .bind mmDeleteNode_extends fun _ => .refl

theorem mmFragNodeUpto_extends : Extends (mmFragNodeUpto fuel now size) (mmFragNodeUpto (fuel + 1) now size) := by
  refine .bind .refl fun _ => .ite .refl (.bind .refl fun _ => .bind .refl fun _ => .bind .refl fun _ => ?_)
  exact .bind .refl fun _ => .bind .refl fun _ => .bind .refl fun _ => .bind .refl fun _ => .bind .refl fun _ =>
    .bind .refl fun _ => .bind mmInsertUpto_extends fun _ => .refl

theorem mmSbrkUpto_extends : Extends (mmSbrkUpto fuel size) (mmSbrkUpto (fuel + 1) size) := by
  unfold mmSbrkUpto
  refine .ite (.bind .refl fun _ => .bind .refl fun _ => .bind .refl fun _ => .bind .refl fun _ => ?_) .refl
  exact mmFragNodeUpto_extends

theorem mmMallocUpto_extends : Extends (mmMallocUpto fuel size) (mmMallocUpto (fuel + 1) size) := by
  refine .bind mmSearchUpto_extends fun _ => .ite (.bind mmSbrkUpto_extends fun _ => .refl) ?_
  exact .bind mmDeleteUpto_extends fun _ => .bind mmFragNodeUpto_extends fun _ => .refl

theorem mmFreeInsertUpto_extends : Extends (mmFreeInsertUpto fuel now) (mmFreeInsertUpto (fuel + 1) now) :=
  .bind .refl fun _ => .bind .refl fun _ => .bind .refl fun _ => mmInsertUpto_extends

theorem mmFreePrevUpto_extends {prev : Nat} :
    Extends (mmFreePrevUpto fuel prev now) (mmFreePrevUpto (fuel + 1) prev now) :=
  .bind .refl fun _ => .ite (.bind mmDeleteUpto_extends fun _ => .refl) .refl

theorem mmFreeNextUpto_extends {next : Nat} :
    Extends (mmFreeNextUpto fuel now next) (mmFreeNextUpto (fuel + 1) now next) := by
  refine .bind .refl fun _ => .ite (.bind mmDeleteUpto_extends fun _ => ?_) mmFreeInsertUpto_extends
  exact .bind .refl fun _ => .bind .refl fun _ => .bind .refl fun _ => mmFreeInsertUpto_extends

theorem mmFreeUpto_extends {ptr : Nat} : Extends (mmFreeUpto fuel ptr) (mmFreeUpto (fuel + 1) ptr) :=
  .bind .refl fun _ => .bind .refl fun _ => .bind mmFreePrevUpto_extends fun _ => mmFreeNextUpto_extends

theorem mmReallocMergeUpto_extends {n next : Nat} :
    Extends (mmReallocMergeUpto fuel n now next size) (mmReallocMergeUpto (fuel + 1) n now next size) := by
  induction n generalizing next with
  | zero => exact .refl
  | succ n ih =>
    rw [mmReallocMergeUpto, mmReallocMergeUpto]
    refine .bind .refl fun _ => .bind .refl fun _ => .ite (.bind mmDeleteUpto_extends fun _ => ?_) .refl
    exact .bind .refl fun _ => .bind .refl fun _ => .bind .refl fun _ => .bind .refl fun _ => ih

theorem mmReallocExpandUpto_extends :
    Extends (mmReallocExpandUpto fuel now size) (mmReallocExpandUpto (fuel + 1) now size) :=
  .bind .refl fun _ => .bind mmReallocMergeUpto_extends fun _ => .refl

theorem mmReallocUpto_extends {ptr : Nat} :
    Extends (mmReallocUpto fuel ptr size) (mmReallocUpto (fuel + 1) ptr size) := by
  refine .ite mmMallocUpto_extends (.ite (.bind mmFreeUpto_extends fun _ => .refl) (.bind .refl fun _ => .ite ?_ ?_))
  · exact .bind mmFragNodeUpto_extends fun _ => .refl
  · refine .bind .refl fun _ => .bind .refl fun _ => .bind .refl fun _ => .bind .refl fun _ => .ite ?_ (.ite ?_ ?_)
    · exact .bind mmSbrkUpto_extends fun _ => .bind .refl fun _ => .bind mmInsertUpto_extends fun _ =>
        .bind mmReallocExpandUpto_extends fun _ => .refl
    · exact .bind mmMallocUpto_extends fun _ => .bind .refl fun _ => .bind .refl fun _ =>
        .bind mmFreeUpto_extends fun _ => .refl
    · exact .bind mmReallocExpandUpto_extends fun _ => .refl

end Limits

/-- A recursion `f`, as a function of the limit on its depth, goes at most `depth` calls deep
in `h`: from there on no limit makes a difference to its run, which returns. -/
def GoesTo {α : Type} (f : Nat → Mm α) (depth : Nat) (h : Heap) : Prop :=
  ∃ a h', f depthLimit h = .ok a h' ∧ ∀ fuel, depth ≤ fuel → f fuel h = .ok a h'

/-- The depth of the three recursions from `data->root`, where the tree `t` is: for a search, for
the insertion of a node that is not in the tree, and for the removal of one that is. -/
structure Shallow (depth : Nat) (h : Heap) (t : RBTree Key) : Prop where
  search : ∀ size, GoesTo (fun fuel => mmSearchNode fuel (rootPtr h.nil t) size) depth h
  insert : ∀ new, Fresh h.nil h new t → GoesTo (fun fuel => mmInsertNode fuel (rootPtr h.nil t) new.addr) depth h
  delete : ∀ del ∈ t, GoesTo (fun fuel => mmDeleteNode fuel (rootPtr h.nil t) del.addr none false) depth h

section Depth
variable {h : Heap} {t : RBTree Key} {depth : Nat} {w : World}

theorem goesTo_of_runs {α : Type} {f : Nat → Mm α} {Q : α → Heap → Prop} (step : ∀ n, Extends (f n) (f (n + 1)))
    (run : Runs (f depth) h Q) (limit : depth ≤ depthLimit) : GoesTo f depth h := by
  obtain ⟨a, h', eq, -⟩ := run
  exact ⟨a, h', Extends.of_le step limit h a h' eq, fun fuel le => Extends.of_le step le h a h' eq⟩

theorem GoesTo.mono {α : Type} {f : Nat → Mm α} {deeper : Nat} (goes : GoesTo f depth h) (le : depth ≤ deeper) :
    GoesTo f deeper h := by
  obtain ⟨a, h', eq, all⟩ := goes
  exact ⟨a, h', eq, fun fuel more => all fuel (le.trans more)⟩

/-- None of the recursions goes deeper than the tree is high, but for the call that meets the null node. -/
theorem Indexed.shallow (idx : Indexed h t) (fits : h.memBrk ≤ h.memStartBrk + maxHeap) :
    Shallow (t.height + 1) h t := by
  have limit : t.height + 1 ≤ depthLimit := idx.own.height_lt fits
  have deep : t.height < t.height + 1 := Nat.lt_succ_self _
  refine ⟨fun size => ?_, fun new fresh => ?_, fun del present => ?_⟩
  · have positive : ∀ a ∈ addrs t, a ≠ 0 := fun a mem => by
      have := idx.own.above mem
      omega
    have run := (@runs_mmSearchNode _ _ _ _ size idx.own positive deep fun _ _ => True).mpr trivial
    exact goesTo_of_runs (fun _ => mmSearchNode_extends) run limit
  · exact goesTo_of_runs (fun _ => mmInsertNode_extends) (runs_mmInsertNode deep idx.own fresh) limit
  · obtain ⟨ordered, n, bal⟩ := isRedBlack_iff.mp idx.valid
    exact goesTo_of_runs (fun _ => mmDeleteNode_extends) (runs_mmDeleteNode bal idx.own ordered present deep) limit

theorem Shallow.mono {deeper : Nat} (shallow : Shallow depth h t) (le : depth ≤ deeper) : Shallow deeper h t :=
  ⟨fun size => (shallow.search size).mono le, fun new fresh => (shallow.insert new fresh).mono le,
    fun del present => (shallow.delete del present).mono le⟩

/-- The free segments in the list. -/
def Heap.freeSegments (h : Heap) : List Seg := h.segments.filter fun s => !s.alloc

/-- A request with a limit on the depth of the tree recursions that its calls make. -/
def performUpto (limit : Nat) : Request → Session Nat
  | .malloc n => do
    let p ← onHeap (mmMallocUpto limit n)
    modify fun w => w.add p [] n
    return p
  | .free p => do
    onHeap (mmFreeUpto limit p)
    modify fun w => w.forget p
    return 0
  | .realloc p n => do
    let old := (← get).contents p
    let r ← onHeap (mmReallocUpto limit p n)
    modify fun w => w.resize p n r old
    return r
  | .write p i v => perform (.write p i v)

theorem bind_onHeap_congr {α β : Type} {x y : Mm α} {f : α → Session β} (same : x w.heap = y w.heap) :
    (onHeap x >>= f) w = (onHeap y >>= f) w := by
  rw [bind_run, bind_run, onHeap, onHeap, same]

theorem GoesTo.eq {α : Type} {f : Nat → Mm α} {limit : Nat} (goes : GoesTo f depth h) (le : depth ≤ limit) :
    f limit h = f depthLimit h := by
  obtain ⟨a, h', eq, all⟩ := goes
  rw [all limit le, eq]

/-- The calls of a request in a state with `f` free segments need no deeper recursions than trees of `f + 2` nodes. -/
theorem Inv.performUpto_eq {base limit : Nat} {segs : List Seg} {q : Request} (inv : Inv base segs w)
    (allows : w.Allows q) (room : w.heap.memBrk + demand segs q ≤ w.heap.memMaxAddr)
    (deep : Deep depth (freeCount segs + 2)) (small : depth ≤ depthLimit) (le : depth ≤ limit) :
    performUpto limit q w = perform q w := by
  have rep := inv.rep
  have called : ∀ n, 1 ≤ n → n ≤ maxHeap → w.heap.memBrk + mallocGrowth segs (unitsFor n) ≤ w.heap.memMaxAddr →
      mmMallocUpto limit n w.heap = mmMalloc n w.heap := fun n low high room => by
    have clean := @noSliver_of_two segs _ (unitsFor_two low (maxHeap_small high))
    have run := rep.runs_mmMallocUpto clean room (deep.mono (Nat.le_add_right _ 2))
    exact (goesTo_of_runs (f := fun m => mmMallocUpto m n) (fun _ => mmMallocUpto_extends) run small).eq le
  cases q with
  | malloc n => exact bind_onHeap_congr (called n allows.1 allows.2 room)
  | free p =>
    obtain ⟨b, mem, rfl⟩ := allows
    obtain ⟨pre, s, post, rfl, alloc, addr, _⟩ := inv.segment mem
    rw [freeCount_alloc alloc] at deep
    have run := rep.runs_mmFreeUpto alloc (deep.mono (Nat.le_add_right _ 2))
    rw [addr] at run
    have goes := goesTo_of_runs (f := fun m => mmFreeUpto m b.ptr) (fun _ => mmFreeUpto_extends) run small
    exact bind_onHeap_congr (goes.eq le)
  | realloc p n =>
    obtain ⟨live, low, high⟩ := allows
    refine bind_onHeap_congr ?_
    rcases live with rfl | ⟨b, mem, rfl⟩
    · exact called n low high room
    · obtain ⟨pre, s, post, rfl, alloc, addr, _⟩ := inv.segment mem
      have positive : n ≠ 0 := by omega
      have two := unitsFor_two low (maxHeap_small high)
      rw [demand, if_neg (inv.ptr_ne_zero mem), if_neg positive, ← addr, Nat.add_sub_cancel,
        rep.chain.tiles.locate] at room
      rw [freeCount_alloc alloc] at deep
      have run := rep.runs_mmReallocUpto alloc positive rfl two room deep
      rw [addr] at run
      have goes := goesTo_of_runs (f := fun m => mmReallocUpto m b.ptr n) (fun _ => mmReallocUpto_extends) run small
      rw [← mmReallocUpto_depthLimit]
      exact goes.eq le
  | write p i v => rfl

/-- Two more nodes add at most two to the logarithm. -/
theorem logb_add_le {m n : Nat} (le : m ≤ n + 2) : Real.logb 2 (m + 1) ≤ Real.logb 2 (n + 1) + 2 := by
  have fourfold : ((m : ℝ) + 1) ≤ 2 ^ (2 : ℝ) * (n + 1) := by
    have : (m : ℝ) ≤ n + 2 := by exact_mod_cast le
    have : (0 : ℝ) ≤ n := n.cast_nonneg
    norm_num
    linarith
  calc Real.logb 2 (m + 1) ≤ Real.logb 2 (2 ^ (2 : ℝ) * (n + 1)) :=
        Real.logb_le_logb_of_le (by norm_num) (by positivity) fourfold
    _ = Real.logb 2 (n + 1) + 2 := by
      rw [Real.logb_mul (by norm_num) (by positivity), Real.logb_rpow (by norm_num) (by norm_num), add_comm]

theorem deep_of_logb {n limit : Nat} (enough : 2 * Real.logb 2 (n + 1) + 5 ≤ limit) : Deep limit (n + 2) := by
  intro t valid short
  have height := valid.height_le_logb
  have more := logb_add_le short
  have less : (t.height : ℝ) < limit := by linarith
  exact_mod_cast less

/-- In every reachable state with `f` free segments the tree under `data->root` is at most
`2 * log2 (f + 1)` high, and the recursions on it go one call deeper. In the course of a
request the tree has up to `f + 2` nodes, and the request runs the same under every limit on the
recursions that is four calls higher. -/
theorem freeTree_shallow (reachable : Reachable w) :
    Indexed w.heap w.heap.freeTree ∧
      (w.heap.freeTree.height : ℝ) ≤ 2 * Real.logb 2 (w.heap.freeSegments.length + 1) ∧
      (∀ depth : Nat, 2 * Real.logb 2 (w.heap.freeSegments.length + 1) + 1 ≤ depth →
        Shallow depth w.heap w.heap.freeTree) ∧
      ∀ q, w.Allows q → Unfailing w [q] → ∃ r w', perform q w = .ok r w' ∧
        ∀ limit : Nat, 2 * Real.logb 2 (w.heap.freeSegments.length + 1) + 5 ≤ limit →
          performUpto limit q w = .ok r w' := by
  obtain ⟨segs, inv⟩ := reachable.inv
  obtain ⟨idx, -⟩ := inv.rep.freeTree_indexed
  have nodes : w.heap.freeTree.toList.length = w.heap.freeSegments.length := by
    rw [inv.rep.wellFormed.nodes.length_eq, List.length_map, Heap.freeSegments]
  have height := idx.valid.height_le_logb
  rw [nodes] at height
  have fits : w.heap.memBrk ≤ w.heap.memStartBrk + maxHeap :=
    inv.rep.chain.arena.brk.trans inv.rep.chain.arena.limit.le
  refine ⟨idx, height, fun depth le => ?_, fun q allows unfailing => ?_⟩
  · have deep : ((w.heap.freeTree.height + 1 : Nat) : ℝ) ≤ depth := by
      push_cast
      linarith
    exact (idx.shallow fits).mono (by exact_mod_cast deep)
  · obtain ⟨accepts, clean⟩ := allows.careful
    have room := unfailing.room inv accepts
    obtain ⟨r, w', run, -⟩ := inv.runs_perform accepts clean room
    refine ⟨r, w', run, fun limit enough => ?_⟩
    have counted : freeCount segs = w.heap.freeSegments.length := by
      rw [freeCount, List.countP_eq_length_filter, Heap.freeSegments, inv.rep.segments_eq]
    have deep : Deep (min limit depthLimit) (freeCount segs + 2) := fun t valid short =>
      lt_min (deep_of_logb (counted ▸ enough) t valid short) (inv.rep.deep t valid short)
    rw [inv.performUpto_eq allows room deep (Nat.min_le_right _ _) (Nat.min_le_left _ _), run]

/-- The second block is enlarged by an extension of the heap, with both new segments in the tree. -/
theorem freeTree_shallow_twoBlocks :
    Indexed twoBlocks.heap twoBlocks.heap.freeTree ∧
      (twoBlocks.heap.freeTree.height : ℝ) ≤ 2 * Real.logb 2 (twoBlocks.heap.freeSegments.length + 1) ∧
      (∀ depth : Nat, 2 * Real.logb 2 (twoBlocks.heap.freeSegments.length + 1) + 1 ≤ depth →
        Shallow depth twoBlocks.heap twoBlocks.heap.freeTree) ∧
      ∃ r w', perform (.realloc 184 200) twoBlocks = .ok r w' ∧
        ∀ limit : Nat, 2 * Real.logb 2 (twoBlocks.heap.freeSegments.length + 1) + 5 ≤ limit →
          performUpto limit (.realloc 184 200) twoBlocks = .ok r w' := by
  obtain ⟨idx, height, shallow, requests⟩ := freeTree_shallow reachable_twoBlocks
  exact ⟨idx, height, shallow, requests (.realloc 184 200) (by decide +kernel) (by decide +kernel)⟩

end Depth

end Splab.Malloc
