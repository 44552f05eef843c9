import Splab.Lib.RedBlack.Basic

namespace Splab.RedBlack.RBTree
universe u
variable {α : Type u}

/-- The repair at a node `k` whose left child is red with a red left child.
A red sibling passes the conflict on to the parent, a black one ends it by a rotation. -/
def redRedLeft (a : RBTree α) (x : α) (b : RBTree α) (y : α) (d : RBTree α) (k : α) (r : RBTree α) : RBTree α :=
  if r.color = .red then node .red (node .black (node .red a x b) y d) k (r.setColor .black)
  else node .black (node .red a x b) y (node .red d k r)

def redRedRight (l : RBTree α) (k : α) (a : RBTree α) (x : α) (b : RBTree α) (y : α) (d : RBTree α) : RBTree α :=
  if l.color = .red then node .red (l.setColor .black) k (node .black a x (node .red b y d))
  else node .black (node .red l k a) x (node .red b y d)

/-- Rebuilds a node after an insertion into its left subtree. -/
def insertLeft (c : Color) (l : RBTree α) (k : α) (r : RBTree α) : RBTree α :=
  match l with
  | node .red a x (node .red b y d) => redRedLeft a x b y d k r
  | node .red (node .red a x b) y d => redRedLeft a x b y d k r
  | l => node c l k r

/-- Rebuilds a node after an insertion into its right subtree. -/
def insertRight (c : Color) (l : RBTree α) (k : α) (r : RBTree α) : RBTree α :=
  match r with
  | node .red (node .red a x b) y d => redRedRight l k a x b y d
  | node .red a x (node .red b y d) => redRedRight l k a x b y d
  | r => node c l k r

def insertNode [LT α] [DecidableLT α] (new : α) : RBTree α → RBTree α
  | null => node .red null new null
  | node c l k r =>
    if new < k then insertLeft c (l.insertNode new) k r else insertRight c l k (r.insertNode new)

def insert [LT α] [DecidableLT α] (new : α) (t : RBTree α) : RBTree α := (t.insertNode new).setColor .black

theorem toList_redRedLeft (a : RBTree α) (x : α) (b : RBTree α) (y : α) (d : RBTree α) (k : α) (r : RBTree α) :
    (redRedLeft a x b y d k r).toList = a.toList ++ x :: (b.toList ++ y :: d.toList) ++ k :: r.toList := by
  unfold redRedLeft
  split <;> simp

theorem toList_redRedRight (l : RBTree α) (k : α) (a : RBTree α) (x : α) (b : RBTree α) (y : α) (d : RBTree α) :
    (redRedRight l k a x b y d).toList = l.toList ++ k :: (a.toList ++ x :: (b.toList ++ y :: d.toList)) := by
  unfold redRedRight
  split <;> simp

theorem toList_insertLeft (c : Color) (l : RBTree α) (k : α) (r : RBTree α) :
    (insertLeft c l k r).toList = l.toList ++ k :: r.toList := by
  unfold insertLeft
  split <;> simp [toList_redRedLeft]

theorem toList_insertRight (c : Color) (l : RBTree α) (k : α) (r : RBTree α) :
    (insertRight c l k r).toList = l.toList ++ k :: r.toList := by
  unfold insertRight
  split <;> simp [toList_redRedRight]

theorem insertNode_perm [LT α] [DecidableLT α] (new : α) (t : RBTree α) :
    (t.insertNode new).toList.Perm (new :: t.toList) := by
  induction t with
  | null => exact .refl _
  | node c l k r ihl ihr =>
    unfold insertNode
    split
    · rw [toList_insertLeft, toList_node]
      exact ihl.append_right _
    · rw [toList_insertRight, toList_node]
      exact ((ihr.cons k).trans (.swap ..)).append_left l.toList |>.trans List.perm_middle

theorem mem_insertNode [LT α] [DecidableLT α] {new x : α} {t : RBTree α} :
    x ∈ (t.insertNode new).toList ↔ x = new ∨ x ∈ t.toList := by
  rw [(insertNode_perm new t).mem_iff, List.mem_cons]

theorem insert_perm [LT α] [DecidableLT α] (new : α) (t : RBTree α) :
    (t.insert new).toList.Perm (new :: t.toList) := by
  unfold insert
  rw [toList_setColor]
  exact insertNode_perm new t

theorem mem_insert [LT α] [DecidableLT α] {new k : α} {t : RBTree α} : k ∈ t.insert new ↔ k = new ∨ k ∈ t :=
  (insert_perm new t).mem_iff.trans List.mem_cons

theorem Ordered.insertNode [LinearOrder α] {new : α} {t : RBTree α} (ordered : t.Ordered) (fresh : new ∉ t) :
    (t.insertNode new).Ordered := by
  induction t with
  | null => simp [Ordered, RBTree.insertNode]
  | node c l k r ihl ihr =>
    obtain ⟨left, right, below, above, cross⟩ := ordered_node.mp ordered
    simp only [mem_iff, toList_node, List.mem_append, List.mem_cons, not_or] at fresh
    obtain ⟨freshLeft, ne, freshRight⟩ := fresh
    unfold RBTree.insertNode
    split
    · next lt =>
      have step := ordered_node (c := c) |>.mpr ⟨ihl left freshLeft, right, ?_, above, ?_⟩
      · simpa only [Ordered, toList_insertLeft, toList_node] using step
      · intro x mem
        rcases mem_insertNode.mp mem with rfl | mem
        · exact lt
        · exact below x mem
      · intro x mem y memY
        rcases mem_insertNode.mp mem with rfl | mem
        · exact lt.trans (above y memY)
        · exact cross x mem y memY
    · next le =>
      have gt : k < new := lt_of_le_of_ne (not_lt.mp le) (Ne.symm ne)
      have step := ordered_node (c := c) |>.mpr ⟨left, ihr right freshRight, below, ?_, ?_⟩
      · simpa only [Ordered, toList_insertRight, toList_node] using step
      · intro x mem
        rcases mem_insertNode.mp mem with rfl | mem
        · exact gt
        · exact above x mem
      · intro x memX y mem
        rcases mem_insertNode.mp mem with rfl | mem
        · exact (below x memX).trans gt
        · exact cross x memX y mem

/-- What an insertion returns: a balanced tree, or, from a subtree whose root
was red, a red root one of whose two subtrees is red as well. -/
inductive Inserted : RBTree α → Color → Nat → Prop
  | balanced {t : RBTree α} {c d : Color} {n : Nat} : t.Balanced d n → Inserted t c n
  | redLeft {a : RBTree α} {x : α} {b : RBTree α} {y : α} {d : RBTree α} {n : Nat} :
      a.Balanced .black n → b.Balanced .black n → d.Balanced .black n →
      Inserted (node .red (node .red a x b) y d) .red n
  | redRight {a : RBTree α} {x : α} {b : RBTree α} {y : α} {d : RBTree α} {n : Nat} :
      a.Balanced .black n → b.Balanced .black n → d.Balanced .black n →
      Inserted (node .red a x (node .red b y d)) .red n

theorem redRedLeft_balanced {a b d r : RBTree α} {x y k : α} {c : Color} {n : Nat} (ha : a.Balanced .black n)
    (hb : b.Balanced .black n) (hd : d.Balanced .black n) (hr : r.Balanced c n) :
    ∃ e, (redRedLeft a x b y d k r).Balanced e (n + 1) := by
  unfold redRedLeft
  cases hr with
  | null => exact ⟨_, .black (.red ha hb) (.red hd .null)⟩
  | red left right => exact ⟨_, .red (.black (.red ha hb) hd) (.black left right)⟩
  | black left right => exact ⟨_, .black (.red ha hb) (.red hd (.black left right))⟩

theorem redRedRight_balanced {l a b d : RBTree α} {x y k : α} {c : Color} {n : Nat} (hl : l.Balanced c n)
    (ha : a.Balanced .black n) (hb : b.Balanced .black n) (hd : d.Balanced .black n) :
    ∃ e, (redRedRight l k a x b y d).Balanced e (n + 1) := by
  unfold redRedRight
  cases hl with
  | null => exact ⟨_, .black (.red .null ha) (.red hb hd)⟩
  | red left right => exact ⟨_, .red (.black left right) (.black ha (.red hb hd))⟩
  | black left right => exact ⟨_, .black (.red (.black left right) ha) (.red hb hd)⟩

/-- Nothing is repaired where the inserted side has no red node under its red root. -/
theorem insertLeft_plain {c : Color} {a b r : RBTree α} {x k : α} (ha : a.color = .black) (hb : b.color = .black) :
    insertLeft c (node .red a x b) k r = node c (node .red a x b) k r := by
  unfold insertLeft
  split
  · next eq => cases eq; cases hb
  · next eq => cases eq; cases ha
  · rfl

theorem insertRight_plain {c : Color} {l a b : RBTree α} {x k : α} (ha : a.color = .black) (hb : b.color = .black) :
    insertRight c l k (node .red a x b) = node c l k (node .red a x b) := by
  unfold insertRight
  split
  · next eq => cases eq; cases ha
  · next eq => cases eq; cases hb
  · rfl

theorem insertLeft_black {c : Color} {l r : RBTree α} {k : α} {d : Color} {n : Nat} (hl : l.Inserted c n)
    (hr : r.Balanced d n) : ∃ e, (insertLeft .black l k r).Balanced e (n + 1) := by
  cases hl with
  | redLeft ha hb hd =>
    cases hd with
    | null => exact redRedLeft_balanced ha hb .null hr
    | black left right => exact redRedLeft_balanced ha hb (.black left right) hr
  | redRight ha hb hd => exact redRedLeft_balanced ha hb hd hr
  | balanced bal =>
    cases bal with
    | null => exact ⟨_, .black .null hr⟩
    | black left right => exact ⟨_, .black (.black left right) hr⟩
    | red left right =>
      rw [insertLeft_plain left.color_eq right.color_eq]
      exact ⟨_, .black (.red left right) hr⟩

theorem insertRight_black {c : Color} {l r : RBTree α} {k : α} {d : Color} {n : Nat} (hl : l.Balanced d n)
    (hr : r.Inserted c n) : ∃ e, (insertRight .black l k r).Balanced e (n + 1) := by
  cases hr with
  | redLeft ha hb hd => exact redRedRight_balanced hl ha hb hd
  | redRight ha hb hd =>
    cases ha with
    | null => exact redRedRight_balanced hl .null hb hd
    | black left right => exact redRedRight_balanced hl (.black left right) hb hd
  | balanced bal =>
    cases bal with
    | null => exact ⟨_, .black hl .null⟩
    | black left right => exact ⟨_, .black hl (.black left right)⟩
    | red left right =>
      rw [insertRight_plain left.color_eq right.color_eq]
      exact ⟨_, .black hl (.red left right)⟩

/-- Under a red root the repair waits for the parent. -/
theorem insertLeft_red {l r : RBTree α} {k : α} {n : Nat} (hl : l.Inserted .black n)
    (hr : r.Balanced .black n) : (insertLeft .red l k r).Inserted .red n := by
  cases hl with
  | balanced bal =>
    cases bal with
    | null => exact .balanced (.red .null hr)
    | black left right => exact .balanced (.red (.black left right) hr)
    | red left right =>
      rw [insertLeft_plain left.color_eq right.color_eq]
      exact .redLeft left right hr

theorem insertRight_red {l r : RBTree α} {k : α} {n : Nat} (hl : l.Balanced .black n)
    (hr : r.Inserted .black n) : (insertRight .red l k r).Inserted .red n := by
  cases hr with
  | balanced bal =>
    cases bal with
    | null => exact .balanced (.red hl .null)
    | black left right => exact .balanced (.red hl (.black left right))
    | red left right =>
      rw [insertRight_plain left.color_eq right.color_eq]
      exact .redRight hl left right

theorem Balanced.insertNode [LT α] [DecidableLT α] {new : α} {t : RBTree α} {c : Color} {n : Nat}
    (bal : t.Balanced c n) : (t.insertNode new).Inserted c n := by
  induction bal with
  | null => exact .balanced (.red .null .null)
  | red left right ihl ihr =>
    unfold RBTree.insertNode
    split
    · exact insertLeft_red ihl right
    · exact insertRight_red left ihr
  | black left right ihl ihr =>
    unfold RBTree.insertNode
    split
    · obtain ⟨_, bal⟩ := insertLeft_black ihl right
      exact .balanced bal
    · obtain ⟨_, bal⟩ := insertRight_black left ihr
      exact .balanced bal

theorem Inserted.setBlack {t : RBTree α} {n : Nat} (done : t.Inserted .black n) :
    ∃ m, (t.setColor .black).Balanced .black m := by
  cases done with
  | balanced bal => exact bal.setBlack

/-- Insertion of a new key keeps a red-black search tree one. -/
theorem IsRedBlack.insert [LinearOrder α] {new : α} {t : RBTree α} (valid : t.IsRedBlack) (fresh : new ∉ t) :
    (t.insert new).IsRedBlack := by
  obtain ⟨ordered, n, bal⟩ := isRedBlack_iff.mp valid
  refine isRedBlack_iff.mpr ⟨?_, ?_⟩
  · unfold RBTree.insert Ordered
    rw [toList_setColor]
    exact ordered.insertNode fresh
  · unfold RBTree.insert
    exact bal.insertNode.setBlack

end Splab.RedBlack.RBTree
