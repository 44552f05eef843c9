import Splab.Lib.RedBlack.Local
import Splab.Malloc.TreeCalls

namespace Splab.Malloc
open RedBlack RBTree

def isNode (p : Nat) : Mm Bool := do return !(← getNull p)

/-- `mm_check_node`; the counter behind `cnt` is passed along and returned. -/
def mmCheckNode : Nat → Nat → Int → Mm (Nat × Int)
  | 0, _, _ => throw .depth
  | fuel + 1, now, cnt => do
    if ← getNull now then
      return (1, cnt)
    else if ← both (do isNode (← getLeft now)) (do mmCmpNode now (← getLeft now)) then
      return (0, cnt + 1)
    else if ← both (do isNode (← getRight now)) (do mmCmpNode (← getRight now) now) then
      return (0, cnt + 1)
    else if ← both (isRed now) (either (do isRed (← getLeft now)) (do isRed (← getRight now))) then
      return (0, cnt + 1)
    else
      let (left, cnt) ← mmCheckNode fuel (← getLeft now) (cnt + 1)
      let (right, cnt) ← mmCheckNode fuel (← getRight now) cnt
      return (left &&& right, cnt)

section Run
variable {nil : Nat} {h : Heap} {c : Color} {l r t : RBTree Key} {k : Key} {fuel : Nat} {cnt : Int} {b b' : Bool}
  {x y : Mm Bool}

theorem runs_both_pure (first : ∀ {Q}, Runs x h Q ↔ Q b h) (second : ∀ {Q}, Runs y h Q ↔ Q b' h)
    {Q : Bool → Heap → Prop} : Runs (both x y) h Q ↔ Q (b && b') h := by
  unfold both
  rw [runs_bind, first]
  cases b with
  | true => exact second
  | false => exact runs_pure

theorem runs_either_pure (first : ∀ {Q}, Runs x h Q ↔ Q b h) (second : ∀ {Q}, Runs y h Q ↔ Q b' h)
    {Q : Bool → Heap → Prop} : Runs (either x y) h Q ↔ Q (b || b') h := by
  unfold either
  rw [runs_bind, first]
  cases b with
  | true => exact runs_pure
  | false => exact second

theorem Owns.root_key (own : Owns nil h t) {j : Key} (root : t.rootKey = some j) : h.key (rootPtr nil t) = j := by
  cases t with
  | null => cases root
  | node => cases root; exact own.key_eq

theorem runs_isNode (own : Owns nil h t) {Q : Bool → Heap → Prop} :
    Runs (isNode (rootPtr nil t)) h Q ↔ Q t.rootKey.isSome h := by
  unfold isNode
  rw [runs_bind, runs_getNull own.root_in.header, runs_pure, own.root_null]
  cases t <;> rfl

/-- The test of a node against one of its children. -/
theorem runs_testChild {get : Mm Nat} {cmp : Nat → Mm Bool} {Wrong : Key → Prop} [DecidablePred Wrong]
    (own : Owns nil h t) (child : ∀ {Q}, Runs get h Q ↔ Q (rootPtr nil t) h)
    (compared : ∀ {Q}, Runs (cmp (rootPtr nil t)) h Q ↔ Q (decide (Wrong (h.key (rootPtr nil t)))) h)
    {Q : Bool → Heap → Prop} :
    Runs (both (do isNode (← get)) (do cmp (← get))) h Q ↔ Q (decide (∃ j ∈ t.rootKey, Wrong j)) h := by
  have first : ∀ {Q}, Runs (do isNode (← get)) h Q ↔ Q t.rootKey.isSome h := by
    intro Q
    rw [runs_bind, child, runs_isNode own]
  have second : ∀ {Q}, Runs (do cmp (← get)) h Q ↔ Q (decide (Wrong (h.key (rootPtr nil t)))) h := by
    intro Q
    rw [runs_bind, child, compared]
  rw [runs_both_pure first second]
  cases root : t.rootKey with
  | none => simp
  | some j => simp [own.root_key root]

theorem runs_testLeft (own : Owns nil h (.node c l k r)) {Q : Bool → Heap → Prop} :
    Runs (both (do isNode (← getLeft k.addr)) (do mmCmpNode k.addr (← getLeft k.addr))) h Q ↔
      Q (decide (∃ j ∈ l.rootKey, k < j)) h := by
  refine runs_testChild own.left (runs_getLeft_own own) ?_
  intro Q
  rw [runs_mmCmpNode own.nodeIn.header own.left.root_in.header, own.key_eq]

theorem runs_testRight (own : Owns nil h (.node c l k r)) {Q : Bool → Heap → Prop} :
    Runs (both (do isNode (← getRight k.addr)) (do mmCmpNode (← getRight k.addr) k.addr)) h Q ↔
      Q (decide (∃ j ∈ r.rootKey, j < k)) h := by
  refine @runs_testChild _ _ _ _ (fun p => mmCmpNode p k.addr) (· < k) _ own.right (runs_getRight_own own) ?_ _
  intro Q
  rw [runs_mmCmpNode own.right.root_in.header own.nodeIn.header, own.key_eq]

theorem runs_testColor (own : Owns nil h (.node c l k r)) {Q : Bool → Heap → Prop} :
    Runs (both (isRed k.addr) (either (do isRed (← getLeft k.addr)) (do isRed (← getRight k.addr)))) h Q ↔
      Q (decide (c = .red ∧ (l.color = .red ∨ r.color = .red))) h := by
  have first : ∀ {Q}, Runs (isRed k.addr) h Q ↔ Q (c == .red) h := runs_isRed_own own
  have left : ∀ {Q}, Runs (do isRed (← getLeft k.addr)) h Q ↔ Q (l.color == .red) h := by
    intro Q
    rw [runs_bind, runs_getLeft_own own, runs_isRed_own own.left]
  have right : ∀ {Q}, Runs (do isRed (← getRight k.addr)) h Q ↔ Q (r.color == .red) h := by
    intro Q
    rw [runs_bind, runs_getRight_own own, runs_isRed_own own.right]
  rw [runs_both_pure first (runs_either_pure left right)]
  cases c <;> cases l.color <;> cases r.color <;> rfl

/-- `mm_check_node` on a tree in the heap computes the test of its nodes, and only reads. -/
theorem runs_mmCheckNode (own : Owns nil h t) (deep : t.height < fuel) {Q : Nat × Int → Heap → Prop} :
    Runs (mmCheckNode fuel (rootPtr nil t) cnt) h Q ↔ Q (t.checkNode.1, cnt + t.checkNode.2) h := by
  induction t generalizing fuel cnt Q with
  | null =>
    obtain ⟨fuel, rfl⟩ : ∃ n, fuel = n + 1 := ⟨fuel - 1, by omega⟩
    rw [mmCheckNode, runs_bind, rootPtr_null, runs_getNull own.nilAt.inside.header, own.nilAt.null, if_pos rfl,
      runs_pure]
    simp [checkNode]
  | node c l k r ihl ihr =>
    obtain ⟨fuel, rfl⟩ : ∃ n, fuel = n + 1 := ⟨fuel - 1, by omega⟩
    have deeper : l.height < fuel ∧ r.height < fuel := by
      simp only [height] at deep
      omega
    rw [mmCheckNode, runs_bind, rootPtr_node, runs_getNull own.nodeIn.header, own.keyAt.null, if_neg (by simp),
      runs_bind, runs_testLeft own]
    unfold checkNode
    by_cases left : ∃ j ∈ l.rootKey, k < j
    · rw [if_pos (decide_eq_true left), if_pos (.inl left), runs_pure]
      rfl
    rw [if_neg (by rw [decide_eq_true_iff]; exact left), runs_bind, runs_testRight own]
    by_cases right : ∃ j ∈ r.rootKey, j < k
    · rw [if_pos (decide_eq_true right), if_pos (.inr (.inl right)), runs_pure]
      rfl
    rw [if_neg (by rw [decide_eq_true_iff]; exact right), runs_bind, runs_testColor own]
    by_cases color : c = .red ∧ (l.color = .red ∨ r.color = .red)
    · rw [if_pos (decide_eq_true color), if_pos (.inr (.inr color)), runs_pure]
      rfl
    rw [if_neg (by rw [decide_eq_true_iff]; exact color), if_neg (not_or.mpr ⟨left, not_or.mpr ⟨right, color⟩⟩),
      runs_bind, runs_getLeft_own own, runs_bind, ihl own.left deeper.1, runs_bind, runs_getRight_own own, runs_bind,
      ihr own.right deeper.2, runs_pure]
    have sum : cnt + 1 + (l.checkNode.2 : Int) + r.checkNode.2 =
      cnt + ((l.checkNode.2 + r.checkNode.2 + 1 : Nat) : Int) := by
      omega
    rw [sum]

theorem Owns.nodup (own : Owns nil h t) : t.toList.Nodup := by
  have spread := (List.pairwise_cons.mp own.spread).2
  have distinct : (t.toList.map Key.addr).Nodup := spread.imp fun apart => apart.ne
  exact distinct.of_map

end Run

/-- What a result 1 of `mm_check_node` is taken to say: the tree is a red-black search tree,
and `cnt` has grown by the number of its nodes. -/
def CheckSound (t : RBTree Key) (cnt : Int) (result : Nat × Int) : Prop :=
  result.1 = 1 → t.Ordered ∧ t.NoRedRed ∧ (∃ n, ∀ m ∈ t.blackCounts, m = n) ∧ result.2 = cnt + t.toList.length

/-- A heap with the free segment at 32 as the only tree node, and another one at 48. -/
def loneHeap : Heap :=
  let data : Heap := { memInit 8 fun _ => 0 with memBrk := 72 }
  let rooted := (data.setWord 8 32).setNull 12 true
  let node := ((rooted.setSize 32 2).setLeft 32 12).setRight 32 12
  node.setSize 48 2

/-- A black node with a black child on one side only. -/
def lopsidedTree : RBTree Key := .node .black .null ⟨2, 32⟩ (.node .black .null ⟨2, 48⟩ .null)

def lopsidedHeap : Heap := ((loneHeap.setRight 32 48).setLeft 48 12).setRight 48 12

theorem lopsided_owns : Owns 12 lopsidedHeap lopsidedTree := by
  have nilAt : NilAt 12 lopsidedHeap := ⟨by unfold Heap.NodeIn; decide +kernel, by decide +kernel, by decide +kernel⟩
  have root : KeyAt lopsidedHeap .black 12 ⟨2, 32⟩ 48 := by constructor <;> decide +kernel
  have child : KeyAt lopsidedHeap .black 12 ⟨2, 48⟩ 12 := by constructor <;> decide +kernel
  refine ⟨nilAt, ⟨root, trivial, child, trivial, trivial⟩, ?_, ?_⟩
  · change [12, 32, 48].Pairwise Apart
    simp [Apart]
  · change ∀ a ∈ [12, 32, 48], lopsidedHeap.NodeIn a ∧ a < 2 ^ 32
    unfold Heap.NodeIn
    decide +kernel

section Soundness
variable {nil : Nat} {h : Heap} {t : RBTree Key} {fuel : Nat} {cnt : Int}

/-- The checker does not see keys on the wrong side of a node further up than their parent,
nor paths with different numbers of black nodes. -/
theorem mmCheckNode_sound_iff (own : Owns nil h t) (deep : t.height < fuel) :
    Runs (mmCheckNode fuel (rootPtr nil t) cnt) h (fun result _ => CheckSound t cnt result) ↔
      ¬(t.LocallyOrdered ∧ t.NoRedRed) ∨ t.DeepOrdered ∧ ∃ n, ∀ m ∈ t.blackCounts, m = n := by
  rw [runs_mmCheckNode own deep, CheckSound, ordered_iff_local_deep, checkNode_eq_one own.nodup]
  by_cases passed : t.LocallyOrdered ∧ t.NoRedRed
  · have count := checkNode_count ((checkNode_eq_one own.nodup).mpr passed)
    simp [passed, count]
  · simp [passed]

theorem mmCheckNode_sound_six :
    Runs (mmCheckNode 5 112 0) sixHeap (fun result _ => CheckSound sixTree 0 result) ↔
      ¬(sixTree.LocallyOrdered ∧ sixTree.NoRedRed) ∨
        sixTree.DeepOrdered ∧ ∃ n, ∀ m ∈ sixTree.blackCounts, m = n :=
  mmCheckNode_sound_iff sixHeap_indexed.own (by decide)

/-- A tree that is not balanced passes. -/
theorem mmCheckNode_unsound : ¬∀ nil h t fuel cnt, Owns nil h t → t.height < fuel →
    Runs (mmCheckNode fuel (rootPtr nil t) cnt) h (fun result _ => CheckSound t cnt result) := by
  intro sound
  have run := sound 12 _ _ 3 0 lopsided_owns (by decide)
  rw [runs_mmCheckNode lopsided_owns (by decide)] at run
  obtain ⟨_, _, ⟨n, counts⟩, _⟩ := run (by decide)
  have short := counts 1 (by decide)
  have long := counts 2 (by decide)
  omega

end Soundness

end Splab.Malloc
