import Splab.Malloc.TreeSteps
import Splab.Lib.RedBlack.Insert

namespace Splab.Malloc
open RedBlack RBTree

section Statements
variable {nil : Nat} {h : Heap} {c d : Color} {l r m s : RBTree Key} {k j : Key} {v : Color}

/-- The statement `now->right->color = v`, in front of a continuation. -/
theorem runs_setColor_right {Q : Unit → Heap → Prop} (own : Owns nil h (.node c l k (.node d m j s)))
    (next : ∀ h', Reshaped nil h (.node c l k (.node d m j s)) h' (.node c l k (.node v m j s)) → Q () h') :
    Runs (getRight k.addr) h fun p h' => Runs (setColor p v) h' Q := by
  rw [runs_getRight_own own, rootPtr_node, runs_setColor own.right.nodeIn.header]
  exact next _ ((own.right.setColor v).inRight own rfl)

theorem runs_setColor_left {Q : Unit → Heap → Prop} (own : Owns nil h (.node c (.node d m j s) k r))
    (next : ∀ h', Reshaped nil h (.node c (.node d m j s) k r) h' (.node c (.node v m j s) k r) → Q () h') :
    Runs (getLeft k.addr) h fun p h' => Runs (setColor p v) h' Q := by
  rw [runs_getLeft_own own, rootPtr_node, runs_setColor own.left.nodeIn.header]
  exact next _ ((own.left.setColor v).inLeft own rfl)

theorem runs_setColor_root {Q : Unit → Heap → Prop} (own : Owns nil h (.node c l k r))
    (next : ∀ h', Reshaped nil h (.node c l k r) h' (.node v l k r) → Q () h') :
    Runs (setColor k.addr v) h Q := by
  rw [runs_setColor own.nodeIn.header]
  exact next _ (own.setColor v)

end Statements

/-- The value and the heap that an operation on the tree `t` leaves: the root of
`t'`, with `t'` in the place of `t`. -/
def Becomes (nil : Nat) (h : Heap) (t t' : RBTree Key) (p : Nat) (h' : Heap) : Prop :=
  p = rootPtr nil t' ∧ Reshaped nil h t h' t'

section Repair
variable {nil : Nat} {h : Heap} {c : Color} {l r a b d : RBTree Key} {k x y : Key}

theorem runs_mmInsertFixLeft_red (own : Owns nil h (.node c (.node .red (.node .red a x b) y d) k r)) :
    Runs (mmInsertFixLeft k.addr) h
      (Becomes nil h (.node c (.node .red (.node .red a x b) y d) k r) (redRedLeft a x b y d k r)) := by
  unfold mmInsertFixLeft
  simp only [runs_bind]
  rw [runs_getLeft_own own, rootPtr_node, runs_getLeft_own own.left, runs_isRed_own own.left.left, if_pos (by rfl)]
  simp only [runs_bind]
  rw [runs_getRight_own own, runs_isRed_own own.right]
  by_cases red : r.color = .red
  · rw [if_pos (by simpa using red), redRedLeft, if_pos red]
    cases r with
    | null => cases red
    | node e m j s =>
      simp only [runs_bind]
      refine runs_setColor_right own fun h1 right => ?_
      refine runs_setColor_left right.own fun h2 left => ?_
      refine runs_setColor_root left.own fun h3 root => ?_
      rw [runs_pure]
      exact ⟨rfl, (right.trans left).trans root⟩
  · rw [if_neg (by simpa using red), redRedLeft, if_neg red]
    refine runs_bind.mpr ((runs_mmRotateRight own).mono ?_)
    rintro _ h1 ⟨rfl, turned⟩
    simp only [runs_bind]
    refine runs_setColor_right turned.own fun h2 right => ?_
    refine runs_setColor_left right.own fun h3 left => ?_
    refine runs_setColor_root left.own fun h4 root => ?_
    rw [runs_pure]
    exact ⟨rfl, ((turned.trans right).trans left).trans root⟩

theorem runs_mmInsertFixRight_red (own : Owns nil h (.node c l k (.node .red a x (.node .red b y d)))) :
    Runs (mmInsertFixRight k.addr) h
      (Becomes nil h (.node c l k (.node .red a x (.node .red b y d))) (redRedRight l k a x b y d)) := by
  unfold mmInsertFixRight
  simp only [runs_bind]
  rw [runs_getRight_own own, rootPtr_node, runs_getRight_own own.right, runs_isRed_own own.right.right,
    if_pos (by rfl)]
  simp only [runs_bind]
  rw [runs_getLeft_own own, runs_isRed_own own.left]
  by_cases red : l.color = .red
  · rw [if_pos (by simpa using red), redRedRight, if_pos red]
    cases l with
    | null => cases red
    | node e m j s =>
      simp only [runs_bind]
      refine runs_setColor_right own fun h1 right => ?_
      refine runs_setColor_left right.own fun h2 left => ?_
      refine runs_setColor_root left.own fun h3 root => ?_
      rw [runs_pure]
      exact ⟨rfl, (right.trans left).trans root⟩
  · rw [if_neg (by simpa using red), redRedRight, if_neg red]
    refine runs_bind.mpr ((runs_mmRotateLeft own).mono ?_)
    rintro _ h1 ⟨rfl, turned⟩
    simp only [runs_bind]
    refine runs_setColor_right turned.own fun h2 right => ?_
    refine runs_setColor_left right.own fun h3 left => ?_
    refine runs_setColor_root left.own fun h4 root => ?_
    rw [runs_pure]
    exact ⟨rfl, ((turned.trans right).trans left).trans root⟩

/-- With no red node under the red left child there is nothing to repair. -/
theorem runs_mmInsertFixLeft_black (own : Owns nil h (.node c (.node .red a x b) k r)) (black : a.color ≠ .red) :
    Runs (mmInsertFixLeft k.addr) h
      (Becomes nil h (.node c (.node .red a x b) k r) (.node c (.node .red a x b) k r)) := by
  unfold mmInsertFixLeft
  simp only [runs_bind]
  rw [runs_getLeft_own own, rootPtr_node, runs_getLeft_own own.left, runs_isRed_own own.left.left,
    if_neg (by simpa using black), runs_pure]
  exact ⟨rfl, own.reshaped⟩

theorem runs_mmInsertFixRight_black (own : Owns nil h (.node c l k (.node .red a x b))) (black : b.color ≠ .red) :
    Runs (mmInsertFixRight k.addr) h
      (Becomes nil h (.node c l k (.node .red a x b)) (.node c l k (.node .red a x b))) := by
  unfold mmInsertFixRight
  simp only [runs_bind]
  rw [runs_getRight_own own, rootPtr_node, runs_getRight_own own.right, runs_isRed_own own.right.right,
    if_neg (by simpa using black), runs_pure]
  exact ⟨rfl, own.reshaped⟩

theorem insertLeft_black_child {l : RBTree Key} (black : l.color ≠ .red) : insertLeft c l k r = .node c l k r := by
  unfold insertLeft
  split <;> first | rfl | exact absurd rfl black

theorem insertRight_black_child {r : RBTree Key} (black : r.color ≠ .red) : insertRight c l k r = .node c l k r := by
  unfold insertRight
  split <;> first | rfl | exact absurd rfl black

theorem runs_mmInsertNodeLeft (own : Owns nil h (.node c l k r)) :
    Runs (mmInsertNodeLeft k.addr) h (Becomes nil h (.node c l k r) (insertLeft c l k r)) := by
  unfold mmInsertNodeLeft
  simp only [runs_bind]
  rw [runs_getLeft_own own, runs_isRed_own own.left]
  by_cases red : l.color = .red
  · rw [if_pos (by simpa using red)]
    cases l with
    | null => cases red
    | node e a x b =>
      cases red
      simp only [runs_bind]
      rw [runs_getLeft_own own, rootPtr_node, runs_getRight_own own.left, runs_isRed_own own.left.right]
      by_cases inner : b.color = .red
      · rw [if_pos (by simpa using inner)]
        cases b with
        | null => cases inner
        | node e b y d =>
          cases inner
          simp only [runs_bind]
          rw [runs_getLeft_own own, rootPtr_node]
          refine (runs_mmRotateLeft own.left).mono ?_
          rintro _ h1 ⟨rfl, turned⟩
          have whole := turned.left own
          rw [runs_setLeft (turned.frame.nodeIn.mpr own.nodeIn)]
          refine (runs_mmInsertFixLeft_red whole.own).mono fun p h2 result => ?_
          exact ⟨result.1, whole.trans result.2⟩
      · rw [if_neg (by simpa using inner)]
        by_cases outer : a.color = .red
        · cases a with
          | null => cases outer
          | node e a w z =>
            cases outer
            have shape : insertLeft c (.node .red (.node .red a w z) x b) k r = redRedLeft a w z x b k r := by
              cases b with
              | null => rfl
              | node e _ _ _ => cases e <;> first | rfl | exact absurd rfl inner
            rw [shape]
            exact runs_mmInsertFixLeft_red own
        · rw [insertLeft_plain (Color.eq_black outer) (Color.eq_black inner)]
          exact runs_mmInsertFixLeft_black own outer
  · rw [if_neg (by simpa using red), insertLeft_black_child red, runs_pure]
    exact ⟨rfl, own.reshaped⟩

theorem runs_mmInsertNodeRight (own : Owns nil h (.node c l k r)) :
    Runs (mmInsertNodeRight k.addr) h (Becomes nil h (.node c l k r) (insertRight c l k r)) := by
  unfold mmInsertNodeRight
  simp only [runs_bind]
  rw [runs_getRight_own own, runs_isRed_own own.right]
  by_cases red : r.color = .red
  · rw [if_pos (by simpa using red)]
    cases r with
    | null => cases red
    | node e a x b =>
      cases red
      simp only [runs_bind]
      rw [runs_getRight_own own, rootPtr_node, runs_getLeft_own own.right, runs_isRed_own own.right.left]
      by_cases inner : a.color = .red
      · rw [if_pos (by simpa using inner)]
        cases a with
        | null => cases inner
        | node e a y d =>
          cases inner
          simp only [runs_bind]
          rw [runs_getRight_own own, rootPtr_node]
          refine (runs_mmRotateRight own.right).mono ?_
          rintro _ h1 ⟨rfl, turned⟩
          have whole := turned.right own
          rw [runs_setRight (turned.frame.nodeIn.mpr own.nodeIn)]
          refine (runs_mmInsertFixRight_red whole.own).mono fun p h2 result => ?_
          exact ⟨result.1, whole.trans result.2⟩
      · rw [if_neg (by simpa using inner)]
        by_cases outer : b.color = .red
        · cases b with
          | null => cases outer
          | node e w z d =>
            cases outer
            have shape : insertRight c l k (.node .red a x (.node .red w z d)) = redRedRight l k a x w z d := by
              cases a with
              | null => rfl
              | node e _ _ _ => cases e <;> first | rfl | exact absurd rfl inner
            rw [shape]
            exact runs_mmInsertFixRight_red own
        · rw [insertRight_plain (Color.eq_black inner) (Color.eq_black outer)]
          exact runs_mmInsertFixRight_black own outer
  · rw [if_neg (by simpa using red), insertRight_black_child red, runs_pure]
    exact ⟨rfl, own.reshaped⟩

end Repair

/-- The key of the node at `p`. -/
def Heap.key (h : Heap) (p : Nat) : Key := ⟨(h.node p).size, p⟩

theorem runs_mmCmpNode {h : Heap} {x y : Nat} {Q : Bool → Heap → Prop} (inX : h.HeaderIn x) (inY : h.HeaderIn y) :
    Runs (mmCmpNode x y) h Q ↔ Q (decide (h.key x < h.key y)) h := by
  unfold mmCmpNode
  rw [runs_bind, runs_getSize inX, runs_bind, runs_getSize inY]
  by_cases same : (h.node x).size = (h.node y).size
  · have order : decide (h.key x < h.key y) = decide (x < y) :=
      decide_eq_decide.mpr (by rw [key_lt_iff]; simp [Heap.key, same])
    rw [if_pos (by simpa using same), runs_pure, order]
  · have order : decide (h.key x < h.key y) = decide ((h.node x).size < (h.node y).size) :=
      decide_eq_decide.mpr (by rw [key_lt_iff]; simp [Heap.key, same])
    rw [if_neg (by simpa using same), runs_bind, runs_getSize inX, runs_bind, runs_getSize inY, runs_pure, order]

/-- A node that is not in the tree yet: room for it, and the header of a free segment. -/
structure Fresh (nil : Nat) (h : Heap) (new : Key) (t : RBTree Key) : Prop where
  spread : (nil :: new.addr :: addrs t).Pairwise Apart
  inside : h.NodeIn new.addr
  bound : new.addr < 2 ^ 32
  size : (h.node new.addr).size = new.size
  null : (h.node new.addr).null = false

section Insert
variable {nil : Nat} {h : Heap} {c : Color} {l r t : RBTree Key} {k new : Key}

theorem Fresh.left (fresh : Fresh nil h new (.node c l k r)) : Fresh nil h new l :=
  { fresh with
    spread := fresh.spread.sublist (by
      rw [addrs_node]
      exact ((List.sublist_append_left ..).cons_cons _).cons_cons _) }

theorem Fresh.right (fresh : Fresh nil h new (.node c l k r)) : Fresh nil h new r :=
  { fresh with
    spread := fresh.spread.sublist (by
      rw [addrs_node]
      exact (((List.sublist_cons_self ..).trans (List.sublist_append_right ..)).cons_cons _).cons_cons _) }

theorem Fresh.key_eq (fresh : Fresh nil h new t) : h.key new.addr = new :=
  Key.ext fresh.size rfl

theorem Owns.key_eq (own : Owns nil h (.node c l k r)) : h.key k.addr = k :=
  Key.ext own.keyAt.size rfl

theorem addrs_insertNode : (addrs (t.insertNode new)).Perm (new.addr :: addrs t) :=
  (insertNode_perm new t).map Key.addr

/-- `mm_insert_node` adds the node to the tree it is given. -/
theorem runs_mmInsertNode {fuel : Nat} (deep : t.height < fuel) (own : Owns nil h t) (fresh : Fresh nil h new t) :
    Runs (mmInsertNode fuel (rootPtr nil t) new.addr) h fun p h' =>
      p = rootPtr nil (t.insertNode new) ∧ Owns nil h' (t.insertNode new) ∧ Relinked (new.addr :: addrs t) h h' := by
  induction t generalizing fuel with
  | null =>
    obtain ⟨fuel, rfl⟩ := Nat.exists_eq_add_of_lt deep
    have bound := (own.inside nil List.mem_cons_self).2
    have apartNil : Apart new.addr nil := ((List.pairwise_cons.mp fresh.spread).1 _ List.mem_cons_self).symm
    rw [rootPtr_null, mmInsertNode, runs_bind, runs_getNull own.nilAt.inside.header, own.nilAt.null, if_pos rfl,
      runs_bind, runs_setRight fresh.inside, runs_bind, runs_setLeft (nodeIn_setRight.mpr fresh.inside), runs_bind,
      runs_setColor (Heap.NodeIn.header (nodeIn_setLeft.mpr (nodeIn_setRight.mpr fresh.inside))), runs_pure]
    have frame := ((relinked_setRight (h := h) (p := new.addr) bound).trans
      (relinked_setLeft (p := new.addr) bound)).trans (relinked_setColor (p := new.addr) (c := .red))
    have empty := own.frame frame (by simpa using apartNil)
    refine ⟨rfl, empty.join empty ⟨apartNil, by simp, by simp, by simp⟩ ?_ (frame.nodeIn.mpr fresh.inside)
      fresh.bound, frame⟩
    constructor <;> rw [node_setColor, node_setLeft bound, node_setRight bound]
    · exact fresh.size
    · exact fresh.null
    all_goals rfl
  | node c l k r ihl ihr =>
    obtain ⟨fuel, rfl⟩ : ∃ n, fuel = n + 1 := ⟨fuel - 1, by omega⟩
    simp only [height] at deep
    have bounds : (nil :: new.addr :: (addrs l ++ k.addr :: addrs r)).Pairwise Apart := by
      simpa only [addrs_node] using fresh.spread
    rw [rootPtr_node, mmInsertNode, runs_bind, runs_getNull own.nodeIn.header, own.keyAt.null, if_neg (by simp),
      runs_bind, runs_mmCmpNode fresh.inside.header own.nodeIn.header, fresh.key_eq, own.key_eq, insertNode]
    by_cases less : new < k
    · rw [if_pos (by simpa using less), if_pos less]
      simp only [runs_bind]
      rw [runs_getLeft_own own]
      refine (ihl (by omega) own.left fresh.left).mono ?_
      rintro _ h1 ⟨rfl, left, frame⟩
      rw [runs_setLeft (frame.nodeIn.mpr own.nodeIn)]
      obtain ⟨whole, frame⟩ := own.replaceLeft frame left (fun a mem => addrs_insertNode.mem_iff.mp mem) bounds
      refine (runs_mmInsertNodeLeft whole).mono ?_
      rintro _ h2 ⟨rfl, done⟩
      refine ⟨rfl, done.own, ?_⟩
      rw [addrs_node]
      refine frame.trans (done.frame.widen (fun a mem => ?_) (List.pairwise_cons.mp bounds).2)
      simpa [addrs_insertNode.mem_iff, or_assoc] using mem
    · rw [if_neg (by simpa using less), if_neg less]
      simp only [runs_bind]
      rw [runs_getRight_own own]
      refine (ihr (by omega) own.right fresh.right).mono ?_
      rintro _ h1 ⟨rfl, right, frame⟩
      rw [runs_setRight (frame.nodeIn.mpr own.nodeIn)]
      have moved : (new.addr :: (addrs l ++ k.addr :: addrs r)).Perm (addrs l ++ k.addr :: new.addr :: addrs r) :=
        List.perm_middle.symm.trans ((List.Perm.swap ..).append_left _)
      obtain ⟨whole, frame⟩ := own.replaceRight frame right (fun a mem => addrs_insertNode.mem_iff.mp mem)
        ((moved.cons nil).pairwise_iff (fun h => h.symm) |>.mp bounds)
      refine (runs_mmInsertNodeRight whole).mono ?_
      rintro _ h2 ⟨rfl, done⟩
      refine ⟨rfl, done.own, ?_⟩
      rw [addrs_node]
      refine (frame.widen (fun a mem => moved.mem_iff.mpr mem) (List.pairwise_cons.mp bounds).2).trans
        (done.frame.widen (fun a mem => moved.mem_iff.mpr ?_) (List.pairwise_cons.mp bounds).2)
      simpa [addrs_insertNode.mem_iff] using mem

end Insert

end Splab.Malloc
