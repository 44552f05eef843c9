import Splab.Malloc.TreeDelete

namespace Splab.Malloc
open RedBlack RBTree

section Paint
variable {nil : Nat} {h : Heap} {t : RBTree Key}

/-- Painting a root black; the null node is black already. -/
theorem runs_paintRoot {Q : Unit → Heap → Prop} (own : Owns nil h t)
    (next : ∀ h', Reshaped nil h t h' (t.setColor .black) → Q () h') :
    Runs (setColor (rootPtr nil t) .black) h Q := by
  cases t with
  | null =>
    rw [rootPtr_null, runs_setColor own.nilAt.inside.header, setColor_same own.nilAt.color]
    exact next h own.reshaped
  | node => exact runs_setColor_root own next

theorem TreeAt.header {k : Key} (tree : TreeAt nil h t) (mem : k ∈ t.toList) :
    (h.node k.addr).size = k.size ∧ (h.node k.addr).null = false := by
  induction t with
  | null => cases mem
  | node c l j r ihl ihr =>
    obtain ⟨here, left, right⟩ := tree
    rcases List.mem_append.mp mem with mem | mem
    · exact ihl left mem
    rcases List.mem_cons.mp mem with rfl | mem
    · exact ⟨here.size, here.null⟩
    · exact ihr right mem

theorem Owns.inside_key {k : Key} (own : Owns nil h t) (mem : k ∈ t.toList) : h.NodeIn k.addr ∧ k.addr < 2 ^ 32 :=
  own.inside _ (List.mem_cons_of_mem _ (List.mem_map_of_mem mem))

theorem either_run {x y : Mm Bool} {a b : Bool} (first : x h = .ok a h) (second : y h = .ok b h) :
    either x y h = .ok (a || b) h := by
  unfold either
  rw [bind_run, first]
  cases a with
  | false => exact second
  | true => rfl

end Paint

/-- The outcome of a removal below the pointer to `t`: what is left of the tree,
and links changed in nodes of `t` only. -/
structure Removed (nil : Nat) (h : Heap) (t t' : RBTree Key) (h' : Heap) : Prop where
  own : Owns nil h' t'
  frame : Relinked (addrs t) h h'

section Remove
variable {nil : Nat} {h : Heap} {c d : Color} {l r : RBTree Key} {k : Key} {n : Nat}

theorem addrs_deleteMin :
    (deleteMin c l k r).2.2.addr :: addrs (deleteMin c l k r).1 = addrs (.node c l k r) := by
  have keys := congrArg (List.map Key.addr) (toList_deleteMin c l k r)
  simpa only [List.map_cons, addrs, toList_node] using keys

theorem afterRepair_false {done : Bool} : afterRepair (some false) done = some done := by
  cases done <;> rfl

theorem Removed.left {l' : RBTree Key} {h' : Heap} (own : Owns nil h (.node c l k r)) (step : Removed nil h l l' h')
    (sub : ∀ a ∈ addrs l', a ∈ addrs l) :
    Removed nil h (.node c l k r) (.node c l' k r) (h'.setLeft k.addr (rootPtr nil l')) := by
  obtain ⟨owned, frame⟩ := own.replaceLeft step.frame step.own sub (by simpa only [addrs_node] using own.spread)
  exact ⟨owned, by simpa only [addrs_node] using frame⟩

theorem Removed.right {r' : RBTree Key} {h' : Heap} (own : Owns nil h (.node c l k r)) (step : Removed nil h r r' h')
    (sub : ∀ a ∈ addrs r', a ∈ addrs r) :
    Removed nil h (.node c l k r) (.node c l k r') (h'.setRight k.addr (rootPtr nil r')) := by
  obtain ⟨owned, frame⟩ := own.replaceRight step.frame step.own sub (by simpa only [addrs_node] using own.spread)
  exact ⟨owned, by simpa only [addrs_node] using frame⟩

theorem Removed.reshape {t t' t'' : RBTree Key} {h' h'' : Heap} (own : Owns nil h t) (step : Removed nil h t t' h')
    (shape : Reshaped nil h' t' h'' t'') (sub : ∀ a ∈ addrs t', a ∈ addrs t) : Removed nil h t t'' h'' :=
  ⟨shape.own, step.frame.trans (shape.frame.widen sub (List.pairwise_cons.mp own.spread).2)⟩

theorem addrs_left_sub {l' : RBTree Key} {d : Color} (sub : ∀ a ∈ addrs l', a ∈ addrs l) :
    ∀ a ∈ addrs (.node d l' k r), a ∈ addrs (.node c l k r) := by
  intro a mem
  rw [addrs_node, List.mem_append] at mem ⊢
  exact mem.imp_left (sub a)

theorem addrs_right_sub {r' : RBTree Key} {d : Color} (sub : ∀ a ∈ addrs r', a ∈ addrs r) :
    ∀ a ∈ addrs (.node d l k r'), a ∈ addrs (.node c l k r) := by
  intro a mem
  rw [addrs_node, List.mem_append, List.mem_cons] at mem ⊢
  exact mem.imp_right (Or.imp_right (sub a))

/-- `mm_delete_node` with a target: the smallest node leaves the tree. -/
theorem runs_mmDeleteNode_target {fuel del : Nat} {balance : Option Bool} (bal : (node c l k r).Balanced d n)
    (own : Owns nil h (.node c l k r)) (deep : (node c l k r).height < fuel) :
    Runs (mmDeleteNode fuel k.addr del balance true) h fun out h' =>
      out = (rootPtr nil (deleteMin c l k r).1, some (deleteMin c l k r).2.1, some (deleteMin c l k r).2.2.addr) ∧
        Removed nil h (.node c l k r) (deleteMin c l k r).1 h' := by
  induction l generalizing c k r d n fuel h with
  | null =>
    obtain ⟨fuel, rfl⟩ : ∃ n, fuel = n + 1 := ⟨fuel - 1, by omega⟩
    have flags : either (isRed k.addr) (do isRed (← getRight k.addr)) h = .ok (c == .red || r.color == .red) h :=
      either_run (isRed_run own) ((bind_right_run own).trans (isRed_run own.right))
    rw [mmDeleteNode, if_pos rfl, runs_bind, runs_getLeft_own own, rootPtr_null, runs_bind,
      runs_getNull own.nilAt.inside.header, own.nilAt.null, if_pos rfl, runs_bind, runs_of_run flags, runs_bind,
      runs_getRight_own own, runs_bind]
    refine runs_paintRoot own.right fun h1 paint => ?_
    rw [runs_pure]
    refine ⟨?_, paint.own, ?_⟩
    · cases r <;> rfl
    · exact paint.frame.widen (by simp +contextual) (List.pairwise_cons.mp own.spread).2
  | node e m j s ihl _ =>
    obtain ⟨fuel, rfl⟩ : ∃ n, fuel = n + 1 := ⟨fuel - 1, by omega⟩
    obtain ⟨cl, cr, q, left, right, rfl, children⟩ := bal.parts
    have color := left.color_eq
    subst color
    have lost := deleteMin_deleted left
    have rest := addrs_deleteMin (c := e) (l := m) (k := j) (r := s)
    have deeper : (node e m j s).height < fuel ∧ r.height < fuel := by
      simp only [height] at deep ⊢
      omega
    rw [mmDeleteNode, if_pos rfl, runs_bind, runs_getLeft_own own, runs_bind, runs_getNull own.left.root_in.header,
      own.left.root_null, if_neg (by simp), runs_bind, runs_getLeft_own own, runs_bind, rootPtr_node]
    refine (ihl left own.left deeper.1).mono ?_
    rintro _ h1 ⟨rfl, step⟩
    rcases pair : deleteMin e m j s with ⟨l', flag, least⟩
    simp only [pair] at lost rest step ⊢
    have sub : ∀ a ∈ addrs l', a ∈ addrs (.node e m j s) := fun a mem => rest ▸ List.mem_cons_of_mem _ mem
    have whole := step.left own sub
    rw [runs_bind, runs_setLeft (step.frame.nodeIn.mpr own.nodeIn), runs_bind, readLocal, runs_pure]
    cases flag with
    | true =>
      have value : deleteMin c (node e m j s) k r = (node c l' k r, true, least) := by rw [deleteMin, pair]
      rw [if_pos rfl, runs_pure, value]
      exact ⟨rfl, whole⟩
    | false =>
      have value : deleteMin c (node e m j s) k r =
          ((deleteLeft c l' k r).1, (deleteLeft c l' k r).2, least) := by rw [deleteMin, pair]
      rw [if_neg (by simp), runs_bind, value]
      obtain ⟨_, height, rfl, _⟩ := lost
      refine (runs_mmDeleteLeft whole.own (.of_balanced right) deeper.2).mono ?_
      rintro ⟨_, _⟩ h2 ⟨rfl, rfl, shape⟩
      rw [runs_pure, afterRepair_false]
      exact ⟨rfl, whole.reshape own shape (addrs_left_sub sub)⟩

/-- The successor, taken out of the right subtree, gets the root's place. -/
theorem runs_mmDeleteReplace {r' : RBTree Key} {least : Key} {h' : Heap} (own : Owns nil h (.node c l k r))
    (step : Removed nil h (.node c l k r) (.node c l k r') h') (parts : least.addr :: addrs r' = addrs r)
    (mem : least ∈ r.toList) :
    Runs (mmDeleteReplace least.addr k.addr) h' fun _ h'' =>
      Removed nil h (.node c l k r) (.node c l least r') h'' := by
  have whole := step.own
  have memAddr : least.addr ∈ addrs r := parts ▸ List.mem_cons_self
  have keyApart : Apart least.addr k.addr := (own.split.right _ memAddr).symm
  have spreadRight := (List.pairwise_cons.mp own.right.spread).2
  rw [← parts] at spreadRight
  have apartRight := (List.pairwise_cons.mp spreadRight).1
  have apartLeft : ∀ a ∈ addrs l, Apart least.addr a := fun a inLeft => (own.split.cross a inLeft _ memAddr).symm
  have apartNil : Apart least.addr nil := (own.right.nil_apart _ memAddr).symm
  have inside := step.frame.nodeIn.mpr (own.right.inside_key mem).1
  have bound := (own.right.inside_key mem).2
  have rootL := whole.left.root_lt
  have rootR := whole.right.root_lt
  obtain ⟨size, null⟩ := own.right.tree.header mem
  obtain ⟨sizeSame, _, nullSame⟩ := step.frame.fields least.addr (by simp [memAddr])
  unfold mmDeleteReplace
  rw [runs_bind, runs_getColor whole.nodeIn.header, whole.keyAt.color, runs_bind, runs_setColor inside.header]
  simp only [runs_bind]
  rw [runs_getLeft (nodeIn_setColor.mpr whole.nodeIn), node_setColor_apart keyApart, whole.keyAt.left,
    runs_setLeft (nodeIn_setColor.mpr inside),
    runs_getRight (nodeIn_setLeft.mpr (nodeIn_setColor.mpr whole.nodeIn)), node_setLeft_apart keyApart,
    node_setColor_apart keyApart, whole.keyAt.right,
    runs_setRight (nodeIn_setLeft.mpr (nodeIn_setColor.mpr inside)),
    runs_getColor (Heap.NodeIn.header (nodeIn_setRight.mpr (nodeIn_setLeft.mpr (nodeIn_setColor.mpr whole.nodeIn)))),
    node_setRight_apart keyApart, node_setLeft_apart keyApart, node_setColor_apart keyApart, whole.keyAt.color,
    runs_setColor (Heap.NodeIn.header (nodeIn_setRight.mpr (nodeIn_setLeft.mpr (nodeIn_setColor.mpr inside))))]
  have frame := (((relinked_setColor (h := h') (p := least.addr) (c := c)).trans
    (relinked_setLeft (p := least.addr) rootL)).trans (relinked_setRight (p := least.addr) rootR)).trans
    (relinked_setColor (p := least.addr) (c := c))
  have left := whole.left.frame frame (by simpa using ⟨apartNil, apartLeft⟩)
  have right := whole.right.frame frame (by simpa using ⟨apartNil, apartRight⟩)
  refine ⟨left.join right ⟨apartNil, apartLeft, apartRight, whole.split.cross⟩ ?_ (frame.nodeIn.mpr inside) bound, ?_⟩
  · constructor <;> rw [node_setColor, node_setRight rootR, node_setLeft rootL, node_setColor]
    · exact sizeSame.trans size
    · exact nullSame.trans null
  · exact step.frame.trans (frame.widen (by simp [memAddr]) (List.pairwise_cons.mp own.spread).2)

/-- `mm_delete_node` where it meets the node to delete. -/
theorem runs_mmDeleteNode_root {fuel : Nat} {balance : Option Bool} (bal : (node c l k r).Balanced d n)
    (own : Owns nil h (.node c l k r)) (deep : (node c l k r).height < fuel) :
    Runs (mmDeleteNode fuel k.addr k.addr balance false) h fun out h' =>
      out = (rootPtr nil (deleteRoot c l r).1, some (deleteRoot c l r).2, none) ∧
        Removed nil h (.node c l k r) (deleteRoot c l r).1 h' := by
  obtain ⟨fuel, rfl⟩ : ∃ n, fuel = n + 1 := ⟨fuel - 1, by omega⟩
  rw [mmDeleteNode, if_neg (by simp), if_pos rfl, runs_bind, runs_getRight_own own, runs_bind,
    runs_getNull own.right.root_in.header, own.right.root_null]
  cases r with
  | null =>
    have flags : either (isRed k.addr) (do isRed (← getLeft k.addr)) h = .ok (c == .red || l.color == .red) h :=
      either_run (isRed_run own) ((bind_left_run own).trans (isRed_run own.left))
    rw [if_pos rfl, runs_bind, runs_of_run flags, runs_bind, runs_getLeft_own own, runs_bind]
    refine runs_paintRoot own.left fun h1 paint => ?_
    rw [runs_pure]
    refine ⟨?_, paint.own, ?_⟩
    · cases l <;> rfl
    · exact paint.frame.widen (by simp +contextual) (List.pairwise_cons.mp own.spread).2
  | node e m j s =>
    obtain ⟨cl, cr, q, left, right, rfl, children⟩ := bal.parts
    have color := right.color_eq
    subst color
    have lost := deleteMin_deleted right
    have rest := addrs_deleteMin (c := e) (l := m) (k := j) (r := s)
    have keys := toList_deleteMin e m j s
    have deeper : (node e m j s).height < fuel ∧ l.height < fuel := by
      simp only [height] at deep ⊢
      omega
    rw [if_neg (by simp), runs_bind, runs_getRight_own own, runs_bind, rootPtr_node]
    refine (runs_mmDeleteNode_target right own.right deeper.1).mono ?_
    rintro _ h1 ⟨rfl, step⟩
    rcases pair : deleteMin e m j s with ⟨r', flag, least⟩
    simp only [pair] at lost rest step keys ⊢
    have sub : ∀ a ∈ addrs r', a ∈ addrs (.node e m j s) := fun a mem => rest ▸ List.mem_cons_of_mem _ mem
    have cut := step.right own sub
    rw [runs_bind, runs_setRight (step.frame.nodeIn.mpr own.nodeIn), runs_bind, readLocal, runs_pure, runs_bind]
    refine (runs_mmDeleteReplace own cut rest (by rw [toList_node, ← keys]; exact List.mem_cons_self)).mono ?_
    rintro _ h2 whole
    rw [runs_bind, readLocal, runs_pure]
    cases flag with
    | true =>
      have value : deleteRoot c l (node e m j s) = (node c l least r', true) := by simp only [deleteRoot, pair]
      rw [if_pos rfl, runs_pure, value]
      exact ⟨rfl, whole⟩
    | false =>
      have value : deleteRoot c l (node e m j s) = deleteRight c l least r' := by simp only [deleteRoot, pair]
      rw [if_neg (by simp), runs_bind, value]
      obtain ⟨_, height, rfl, _⟩ := lost
      refine (runs_mmDeleteRight whole.own (.of_balanced left) deeper.2).mono ?_
      rintro ⟨_, _⟩ h3 ⟨rfl, rfl, shape⟩
      rw [runs_pure, afterRepair_false]
      refine ⟨rfl, whole.reshape own shape fun a mem => ?_⟩
      rw [addrs_node, List.mem_append] at mem ⊢
      exact mem.imp_right fun inside => List.mem_cons_of_mem _ (rest ▸ inside)

theorem addrs_deleteNode_sub {t : RBTree Key} {del : Key} (ordered : t.Ordered) (present : del ∈ t) :
    ∀ a ∈ addrs (t.deleteNode del).1, a ∈ addrs t := by
  intro a mem
  rw [addrs, ordered.toList_deleteNode present] at mem
  exact List.map_subset _ (List.filter_subset_self _) mem

/-- Within one tree a node is known by its address. -/
theorem Owns.addr_eq_iff {del : Key} (own : Owns nil h (.node c l k r)) (present : del ∈ node c l k r) :
    k.addr = del.addr ↔ k = del := by
  refine ⟨fun eq => ?_, fun eq => eq ▸ rfl⟩
  simp only [mem_iff, toList_node, List.mem_append, List.mem_cons] at present
  rcases present with mem | rfl | mem
  · exact absurd eq (own.split.left _ (List.mem_map_of_mem mem)).ne
  · rfl
  · exact absurd eq (own.split.right _ (List.mem_map_of_mem mem)).ne

/-- `mm_delete_node` takes the node `del` out of a red-black search tree. -/
theorem runs_mmDeleteNode {fuel : Nat} {balance : Option Bool} {t : RBTree Key} {del : Key} (bal : t.Balanced c n)
    (own : Owns nil h t) (ordered : t.Ordered) (present : del ∈ t) (deep : t.height < fuel) :
    Runs (mmDeleteNode fuel (rootPtr nil t) del.addr balance false) h fun out h' =>
      out = (rootPtr nil (t.deleteNode del).1, some (t.deleteNode del).2, none) ∧
        Removed nil h t (t.deleteNode del).1 h' := by
  induction t generalizing c n fuel with
  | null => cases present
  | node e l k r ihl ihr =>
    by_cases here : k = del
    · subst here
      rw [deleteNode, if_pos rfl]
      exact runs_mmDeleteNode_root bal own deep
    · obtain ⟨fuel, rfl⟩ : ∃ n, fuel = n + 1 := ⟨fuel - 1, by omega⟩
      obtain ⟨leftOrd, rightOrd, below, above, _⟩ := ordered_node.mp ordered
      obtain ⟨cl, cr, q, left, right, rfl, children⟩ := bal.parts
      have deeper : l.height < fuel ∧ r.height < fuel := by
        simp only [height] at deep
        omega
      obtain ⟨size, null⟩ := own.tree.header present
      have keyDel : h.key del.addr = del := Key.ext size rfl
      rw [rootPtr_node, mmDeleteNode, if_neg (by simp), if_neg fun eq => here ((own.addr_eq_iff present).mp eq),
        runs_bind, runs_mmCmpNode (own.inside_key present).1.header own.nodeIn.header, keyDel, own.key_eq]
      have place := present
      simp only [mem_iff, toList_node, List.mem_append, List.mem_cons, Ne.symm here, false_or] at place
      by_cases less : del < k
      · have inLeft : del ∈ l := place.resolve_right fun mem => lt_asymm less (above del mem)
        have lost := left.deleteNode inLeft leftOrd
        have sub := addrs_deleteNode_sub leftOrd inLeft
        rw [if_pos (by simpa using less), runs_bind, runs_getLeft_own own, runs_bind]
        refine (ihl left own.left leftOrd inLeft deeper.1).mono ?_
        rintro _ h1 ⟨rfl, step⟩
        rcases pair : l.deleteNode del with ⟨l', flag⟩
        simp only [pair] at lost step sub ⊢
        have whole := step.left own sub
        rw [runs_bind, runs_setLeft (step.frame.nodeIn.mpr own.nodeIn), runs_bind, readLocal, runs_pure]
        cases flag with
        | true =>
          have value : (node e l k r).deleteNode del = (node e l' k r, true) := by
            simp only [deleteNode, if_neg here, if_pos less, pair]
          rw [if_pos rfl, runs_pure, value]
          exact ⟨rfl, whole⟩
        | false =>
          have value : (node e l k r).deleteNode del = deleteLeft e l' k r := by
            simp only [deleteNode, if_neg here, if_pos less, pair]
          rw [if_neg (by simp), runs_bind, value]
          obtain ⟨_, height, rfl, _⟩ := lost
          refine (runs_mmDeleteLeft whole.own (.of_balanced right) deeper.2).mono ?_
          rintro ⟨_, _⟩ h2 ⟨rfl, rfl, shape⟩
          rw [runs_pure, afterRepair_false]
          exact ⟨rfl, whole.reshape own shape (addrs_left_sub sub)⟩
      · have inRight : del ∈ r := place.resolve_left fun mem => less (below del mem)
        have lost := right.deleteNode inRight rightOrd
        have sub := addrs_deleteNode_sub rightOrd inRight
        rw [if_neg (by simpa using less), runs_bind, runs_getRight_own own, runs_bind]
        refine (ihr right own.right rightOrd inRight deeper.2).mono ?_
        rintro _ h1 ⟨rfl, step⟩
        rcases pair : r.deleteNode del with ⟨r', flag⟩
        simp only [pair] at lost step sub ⊢
        have whole := step.right own sub
        rw [runs_bind, runs_setRight (step.frame.nodeIn.mpr own.nodeIn), runs_bind, readLocal, runs_pure]
        cases flag with
        | true =>
          have value : (node e l k r).deleteNode del = (node e l k r', true) := by
            simp only [deleteNode, if_neg here, if_neg less, pair]
          rw [if_pos rfl, runs_pure, value]
          exact ⟨rfl, whole⟩
        | false =>
          have value : (node e l k r).deleteNode del = deleteRight e l k r' := by
            simp only [deleteNode, if_neg here, if_neg less, pair]
          rw [if_neg (by simp), runs_bind, value]
          obtain ⟨_, height, rfl, _⟩ := lost
          refine (runs_mmDeleteRight whole.own (.of_balanced left) deeper.1).mono ?_
          rintro ⟨_, _⟩ h2 ⟨rfl, rfl, shape⟩
          rw [runs_pure, afterRepair_false]
          exact ⟨rfl, whole.reshape own shape (addrs_right_sub sub)⟩

end Remove

end Splab.Malloc
