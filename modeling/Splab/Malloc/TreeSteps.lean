import Splab.Malloc.TreeAt

namespace Splab.Malloc
open RedBlack

section Spread
variable {nil : Nat} {h h' : Heap}

theorem apart_of_mem {L : List Nat} (spread : L.Pairwise Apart) {a b : Nat} (memA : a ∈ L) (memB : b ∈ L) :
    a = b ∨ Apart a b := by
  by_cases eq : a = b
  · exact .inl eq
  · exact .inr (spread.forall memA memB eq)

theorem Relinked.widen {S L : List Nat} (frame : Relinked S h h') (sub : ∀ a ∈ S, a ∈ L)
    (spread : L.Pairwise Apart) : Relinked L h h' :=
  frame.mono sub fun _ memA _ memB => apart_of_mem spread (sub _ memA) memB

variable {c : Color} {l : RBTree Key} {k : Key} {r : RBTree Key} {S : List Nat}

/-- The left subtree was rebuilt, at the price of new links in `S` only; storing
the new root in the parent completes the tree. -/
theorem Owns.replaceLeft {l' : RBTree Key} (own : Owns nil h (.node c l k r)) (frame : Relinked S h h')
    (new : Owns nil h' l') (sub : ∀ a ∈ addrs l', a ∈ S) (spread : (nil :: (S ++ k.addr :: addrs r)).Pairwise Apart) :
    Owns nil (h'.setLeft k.addr (rootPtr nil l')) (.node c l' k r) ∧
      Relinked (S ++ k.addr :: addrs r) h (h'.setLeft k.addr (rootPtr nil l')) := by
  have whole := (List.pairwise_cons.mp spread).2
  have fromNil := (List.pairwise_cons.mp spread).1
  obtain ⟨_, rest, cross⟩ := List.pairwise_append.mp whole
  have apartKey : ∀ a ∈ S, Apart a k.addr := fun a mem => cross a mem _ List.mem_cons_self
  have keyRight := (List.pairwise_cons.mp rest).1
  have store := relinked_setLeft (h := h') (p := k.addr) new.root_lt
  have keyNil : Apart k.addr nil := own.split.nil
  have sameKey : h'.node k.addr = h.node k.addr := frame.node_apart apartKey
  have keepRight : Owns nil h' r := own.right.frame frame fun a memA b memB => by
    rcases List.mem_cons.mp memB with rfl | memB
    · exact (fromNil a (List.mem_append_left _ memA)).symm
    · exact cross a memA b (List.mem_cons_of_mem _ memB)
  have finalRight := keepRight.frame store fun a memA b memB => by
    rw [List.mem_singleton.mp memA]
    rcases List.mem_cons.mp memB with rfl | memB
    · exact keyNil
    · exact keyRight b memB
  have finalLeft := new.frame store fun a memA b memB => by
    rw [List.mem_singleton.mp memA]
    rcases List.mem_cons.mp memB with rfl | memB
    · exact keyNil
    · exact (apartKey b (sub b memB)).symm
  refine ⟨finalLeft.join finalRight ?_ ?_ ?_ own.addr_lt, ?_⟩
  · exact ⟨keyNil, fun a mem => (apartKey a (sub a mem)).symm, keyRight,
      fun a memA b memB => cross a (sub a memA) b (List.mem_cons_of_mem _ memB)⟩
  · obtain ⟨size, color, null, _, right⟩ := own.keyAt
    constructor <;> rw [node_setLeft new.root_lt, sameKey]
    all_goals assumption
  · exact frame.nodeIn.mpr own.nodeIn
  · exact (frame.widen (fun a mem => List.mem_append_left _ mem) whole).trans
      (store.widen (fun a mem => by simp [List.mem_singleton.mp mem]) whole)

theorem Owns.replaceRight {r' : RBTree Key} (own : Owns nil h (.node c l k r)) (frame : Relinked S h h')
    (new : Owns nil h' r') (sub : ∀ a ∈ addrs r', a ∈ S) (spread : (nil :: (addrs l ++ k.addr :: S)).Pairwise Apart) :
    Owns nil (h'.setRight k.addr (rootPtr nil r')) (.node c l k r') ∧
      Relinked (addrs l ++ k.addr :: S) h (h'.setRight k.addr (rootPtr nil r')) := by
  have whole := (List.pairwise_cons.mp spread).2
  have fromNil := (List.pairwise_cons.mp spread).1
  obtain ⟨_, rest, cross⟩ := List.pairwise_append.mp whole
  have keyRight := (List.pairwise_cons.mp rest).1
  have store := relinked_setRight (h := h') (p := k.addr) new.root_lt
  have keyNil : Apart k.addr nil := own.split.nil
  have sameKey : h'.node k.addr = h.node k.addr := frame.node_apart fun a mem => (keyRight a mem).symm
  have keepLeft : Owns nil h' l := own.left.frame frame fun a memA b memB => by
    rcases List.mem_cons.mp memB with rfl | memB
    · exact (fromNil a (List.mem_append_right _ (List.mem_cons_of_mem _ memA))).symm
    · exact (cross b memB a (List.mem_cons_of_mem _ memA)).symm
  have finalLeft := keepLeft.frame store fun a memA b memB => by
    rw [List.mem_singleton.mp memA]
    rcases List.mem_cons.mp memB with rfl | memB
    · exact keyNil
    · exact (cross b memB _ List.mem_cons_self).symm
  have finalRight := new.frame store fun a memA b memB => by
    rw [List.mem_singleton.mp memA]
    rcases List.mem_cons.mp memB with rfl | memB
    · exact keyNil
    · exact keyRight b (sub b memB)
  refine ⟨finalLeft.join finalRight ?_ ?_ ?_ own.addr_lt, ?_⟩
  · exact ⟨keyNil, fun a mem => (cross a mem _ List.mem_cons_self).symm, fun a mem => keyRight a (sub a mem),
      fun a memA b memB => cross a memA b (List.mem_cons_of_mem _ (sub b memB))⟩
  · obtain ⟨size, color, null, left, _⟩ := own.keyAt
    constructor <;> rw [node_setRight new.root_lt, sameKey]
    all_goals assumption
  · exact frame.nodeIn.mpr own.nodeIn
  · exact (frame.widen (fun a mem => List.mem_append_right _ (List.mem_cons_of_mem _ mem)) whole).trans
      (store.widen (fun a mem => by simp [List.mem_singleton.mp mem]) whole)

end Spread

/-- The heap changes from `h` to `h'` and the tree in it from `t` to `t'`: the same
keys in the same order, and only links and colours of their nodes were touched. -/
structure Reshaped (nil : Nat) (h : Heap) (t : RBTree Key) (h' : Heap) (t' : RBTree Key) : Prop where
  own : Owns nil h' t'
  keys : t'.toList = t.toList
  frame : Relinked (addrs t) h h'

section Reshape
variable {nil : Nat} {h h' h'' : Heap} {t t' t'' : RBTree Key}

theorem Owns.reshaped (own : Owns nil h t) : Reshaped nil h t h t :=
  ⟨own, rfl, .refl ..⟩

theorem Reshaped.trans (first : Reshaped nil h t h' t') (second : Reshaped nil h' t' h'' t'') :
    Reshaped nil h t h'' t'' :=
  ⟨second.own, second.keys.trans first.keys, first.frame.trans (addrs_eq first.keys ▸ second.frame)⟩

variable {c d : Color} {l l' : RBTree Key} {k j : Key} {r r' m s : RBTree Key}

theorem Reshaped.left (own : Owns nil h (.node c l k r)) (step : Reshaped nil h l h' l') :
    Reshaped nil h (.node c l k r) (h'.setLeft k.addr (rootPtr nil l')) (.node c l' k r) := by
  have addrs' := addrs_eq step.keys
  obtain ⟨owned, frame⟩ := own.replaceLeft step.frame step.own (fun a mem => addrs' ▸ mem)
    (by simpa only [addrs_node] using own.spread)
  exact ⟨owned, by simp [step.keys], by simpa only [addrs_node] using frame⟩

theorem Reshaped.right (own : Owns nil h (.node c l k r)) (step : Reshaped nil h r h' r') :
    Reshaped nil h (.node c l k r) (h'.setRight k.addr (rootPtr nil r')) (.node c l k r') := by
  have addrs' := addrs_eq step.keys
  obtain ⟨owned, frame⟩ := own.replaceRight step.frame step.own (fun a mem => addrs' ▸ mem)
    (by simpa only [addrs_node] using own.spread)
  exact ⟨owned, by simp [step.keys], by simpa only [addrs_node] using frame⟩

/-- Storing the word that is already there changes nothing. -/
theorem setLeft_same {v : Nat} {p : Nat} (same : (h.node p).left = v) : h.setLeft p v = h := by
  subst same
  unfold Heap.setLeft Heap.setWord
  change { h with bytes := h.bytes.setWord (p + 8) (h.bytes.word (p + 8)) } = h
  rw [Bytes.setWord_word]

theorem setRight_same {v : Nat} {p : Nat} (same : (h.node p).right = v) : h.setRight p v = h := by
  subst same
  unfold Heap.setRight Heap.setWord
  change { h with bytes := h.bytes.setWord (p + 12) (h.bytes.word (p + 12)) } = h
  rw [Bytes.setWord_word]

/-- A step inside the left subtree that keeps its root is a step of the whole tree. -/
theorem Reshaped.inLeft (own : Owns nil h (.node c l k r)) (step : Reshaped nil h l h' l')
    (root : rootPtr nil l' = rootPtr nil l) : Reshaped nil h (.node c l k r) h' (.node c l' k r) := by
  have keep : (h'.node k.addr).left = rootPtr nil l' := by
    rw [step.frame.node_apart fun a mem => (own.split.left a mem).symm, own.keyAt.left, root]
  have whole := step.left own
  rwa [setLeft_same keep] at whole

theorem Reshaped.inRight (own : Owns nil h (.node c l k r)) (step : Reshaped nil h r h' r')
    (root : rootPtr nil r' = rootPtr nil r) : Reshaped nil h (.node c l k r) h' (.node c l k r') := by
  have keep : (h'.node k.addr).right = rootPtr nil r' := by
    rw [step.frame.node_apart fun a mem => (own.split.right a mem).symm, own.keyAt.right, root]
  have whole := step.right own
  rwa [setRight_same keep] at whole

theorem Owns.setColor (own : Owns nil h (.node c l k r)) (v : Color) :
    Reshaped nil h (.node c l k r) (h.setColor k.addr v) (.node v l k r) := by
  have paint := relinked_setColor (h := h) (p := k.addr) (c := v)
  have split := own.split
  have spread := (List.pairwise_cons.mp own.spread).2
  have left := own.left.frame paint fun a memA b memB => by
    rw [List.mem_singleton.mp memA]
    rcases List.mem_cons.mp memB with rfl | memB
    · exact split.nil
    · exact split.left b memB
  have right := own.right.frame paint fun a memA b memB => by
    rw [List.mem_singleton.mp memA]
    rcases List.mem_cons.mp memB with rfl | memB
    · exact split.nil
    · exact split.right b memB
  refine ⟨left.join right split ?_ own.nodeIn own.addr_lt, rfl, ?_⟩
  · obtain ⟨size, _, null, left, right⟩ := own.keyAt
    constructor <;> rw [node_setColor]
    all_goals assumption
  · exact paint.widen (fun a mem => by simp [List.mem_singleton.mp mem]) spread

theorem runs_getLeft_own (own : Owns nil h (.node c l k r)) {Q : Nat → Heap → Prop} :
    Runs (getLeft k.addr) h Q ↔ Q (rootPtr nil l) h := by
  rw [runs_getLeft own.nodeIn, own.keyAt.left]

theorem runs_getRight_own (own : Owns nil h (.node c l k r)) {Q : Nat → Heap → Prop} :
    Runs (getRight k.addr) h Q ↔ Q (rootPtr nil r) h := by
  rw [runs_getRight own.nodeIn, own.keyAt.right]

theorem Owns.root_color (own : Owns nil h t) : (h.node (rootPtr nil t)).color = t.color := by
  cases t with
  | null => exact own.nilAt.color
  | node => exact own.keyAt.color

theorem Owns.root_null (own : Owns nil h t) : (h.node (rootPtr nil t)).null = (t matches .null) := by
  cases t with
  | null => exact own.nilAt.null
  | node => exact own.keyAt.null

theorem runs_isRed_own (own : Owns nil h t) {Q : Bool → Heap → Prop} :
    Runs (isRed (rootPtr nil t)) h Q ↔ Q (t.color == .red) h := by
  unfold isRed
  rw [runs_bind, runs_getColor own.root_in.header, runs_pure, own.root_color]

theorem runs_isBlack_own (own : Owns nil h t) {Q : Bool → Heap → Prop} :
    Runs (isBlack (rootPtr nil t)) h Q ↔ Q (t.color == .black) h := by
  unfold isBlack
  rw [runs_bind, runs_getColor own.root_in.header, runs_pure, own.root_color]

/-- The rotation stores the middle subtree under the old root, and then the old
root under the new one. -/
theorem runs_mmRotateLeft (own : Owns nil h (.node c l k (.node d m j s))) :
    Runs (mmRotateLeft k.addr) h fun p h' =>
      p = j.addr ∧ Reshaped nil h (.node c l k (.node d m j s)) h' (.node d (.node c l k m) j s) := by
  have lower := own.right
  have rootM := lower.left.root_lt
  unfold mmRotateLeft
  rw [runs_bind, runs_getRight_own own, rootPtr_node, runs_bind, runs_getLeft_own lower, runs_bind,
    runs_setRight own.nodeIn, runs_bind, runs_setLeft (nodeIn_setRight.mpr lower.nodeIn), runs_pure]
  have spread : (nil :: (addrs (.node c l k m) ++ j.addr :: addrs s)).Pairwise Apart := by
    simpa only [addrs_node, List.append_assoc, List.cons_append] using own.spread
  obtain ⟨turned, _⟩ := own.replaceRight (.refl (addrs (.node d m j s)) h) lower.left (by simp +contextual)
    (by simpa only [addrs_node] using own.spread)
  have frame : Relinked (addrs (.node c l k m)) h (h.setRight k.addr (rootPtr nil m)) :=
    (relinked_setRight rootM).widen (by simp) (List.pairwise_cons.mp turned.spread).2
  obtain ⟨done, whole⟩ := lower.replaceLeft frame turned (fun _ mem => mem) spread
  exact ⟨rfl, done, RBTree.toList_rotateLeft (.node c l k (.node d m j s)),
    by simpa only [addrs_node, rootPtr_node, List.append_assoc, List.cons_append] using whole⟩

theorem runs_mmRotateRight (own : Owns nil h (.node c (.node d l j m) k r)) :
    Runs (mmRotateRight k.addr) h fun p h' =>
      p = j.addr ∧ Reshaped nil h (.node c (.node d l j m) k r) h' (.node d l j (.node c m k r)) := by
  have lower := own.left
  have rootM := lower.right.root_lt
  unfold mmRotateRight
  rw [runs_bind, runs_getLeft_own own, rootPtr_node, runs_bind, runs_getRight_own lower, runs_bind,
    runs_setLeft own.nodeIn, runs_bind, runs_setRight (nodeIn_setLeft.mpr lower.nodeIn), runs_pure]
  have spread : (nil :: (addrs l ++ j.addr :: addrs (.node c m k r))).Pairwise Apart := by
    simpa only [addrs_node, List.append_assoc, List.cons_append] using own.spread
  obtain ⟨turned, _⟩ := own.replaceLeft (.refl (addrs (.node d l j m)) h) lower.right (by simp +contextual)
    (by simpa only [addrs_node] using own.spread)
  have frame : Relinked (addrs (.node c m k r)) h (h.setLeft k.addr (rootPtr nil m)) :=
    (relinked_setLeft rootM).widen (by simp) (List.pairwise_cons.mp turned.spread).2
  obtain ⟨done, whole⟩ := lower.replaceRight frame turned (fun _ mem => mem) spread
  exact ⟨rfl, done, RBTree.toList_rotateRight (.node c (.node d l j m) k r),
    by simpa only [addrs_node, rootPtr_node, List.append_assoc, List.cons_append] using whole⟩

end Reshape

end Splab.Malloc
