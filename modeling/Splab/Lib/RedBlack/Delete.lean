import Splab.Lib.RedBlack.Basic

namespace Splab.RedBlack.RBTree
universe u
variable {α : Type u}

/-- The repair of a node whose left side lost one black node and whose right
child is black. The flag says whether the black height was restored. -/
def deleteLeftBlack (c : Color) (l : RBTree α) (k : α) (r : RBTree α) : RBTree α × Bool :=
  match r with
  | node .black m j s =>
    match m, s with
    | m, node .red a x b => (node c (node .black l k m) j (node .black a x b), true)
    | node .red a x b, s => (node c (node .black l k a) x (node .black b j s), true)
    | m, s => (node .black l k (node .red m j s), c == .red)
  | r => (node c l k r, false)

/-- The repair in general: a red sibling is first rotated to the top. -/
def deleteLeft (c : Color) (l : RBTree α) (k : α) (r : RBTree α) : RBTree α × Bool :=
  match r with
  | node .red m j s =>
    match deleteLeftBlack .red l k m with
    | (t, done) => (node .black t j s, done)
  | r => deleteLeftBlack c l k r

/-- The mirror image: the right side lost a black node, the left child is black. -/
def deleteRightBlack (c : Color) (l : RBTree α) (k : α) (r : RBTree α) : RBTree α × Bool :=
  match l with
  | node .black m j s =>
    match m, s with
    | node .red a x b, s => (node c (node .black a x b) j (node .black s k r), true)
    | m, node .red a x b => (node c (node .black m j a) x (node .black b k r), true)
    | m, s => (node .black (node .red m j s) k r, c == .red)
  | l => (node c l k r, false)

def deleteRight (c : Color) (l : RBTree α) (k : α) (r : RBTree α) : RBTree α × Bool :=
  match l with
  | node .red m j s =>
    match deleteRightBlack .red s k r with
    | (t, done) => (node .black m j t, done)
  | l => deleteRightBlack c l k r

/-- Removes the smallest key of a nonempty tree, given by its parts. -/
def deleteMin (c : Color) (l : RBTree α) (k : α) (r : RBTree α) : RBTree α × Bool × α :=
  match l with
  | null => (r.setColor .black, c == .red || r.color == .red, k)
  | node d m j s =>
    match deleteMin d m j s with
    | (l', true, least) => (node c l' k r, true, least)
    | (l', false, least) =>
      match deleteLeft c l' k r with
      | (t, done) => (t, done, least)

/-- Puts the smallest key of the right subtree in the place of the root's key. -/
def deleteRoot (c : Color) (l r : RBTree α) : RBTree α × Bool :=
  match r with
  | null => (l.setColor .black, c == .red || l.color == .red)
  | node d m j s =>
    match deleteMin d m j s with
    | (r', true, least) => (node c l least r', true)
    | (r', false, least) => deleteRight c l least r'

def deleteNode [DecidableEq α] [LT α] [DecidableLT α] (del : α) : RBTree α → RBTree α × Bool
  | null => (null, true)
  | node c l k r =>
    if k = del then deleteRoot c l r
    else if del < k then
      match l.deleteNode del with
      | (l', true) => (node c l' k r, true)
      | (l', false) => deleteLeft c l' k r
    else
      match r.deleteNode del with
      | (r', true) => (node c l k r', true)
      | (r', false) => deleteRight c l k r'

def delete [DecidableEq α] [LT α] [DecidableLT α] (del : α) (t : RBTree α) : RBTree α :=
  (t.deleteNode del).1.setColor .black

section Equations
variable {c : Color} {l r m s a b : RBTree α} {k j x : α}

/-- A red inner nephew under a black outer one goes to the top. -/
theorem deleteLeftBlack_inner (outer : s.color = .black) :
    deleteLeftBlack c l k (.node .black (.node .red a x b) j s) =
      (.node c (.node .black l k a) x (.node .black b j s), true) := by
  cases s with
  | null => rfl
  | node => cases outer; rfl

/-- Over black nephews the sibling is painted red. -/
theorem deleteLeftBlack_plain (inner : m.color = .black) (outer : s.color = .black) :
    deleteLeftBlack c l k (.node .black m j s) = (.node .black l k (.node .red m j s), c == .red) := by
  cases s with
  | null =>
    cases m with
    | null => rfl
    | node => cases inner; rfl
  | node =>
    cases outer
    cases m with
    | null => rfl
    | node => cases inner; rfl

theorem deleteRightBlack_inner (outer : m.color = .black) :
    deleteRightBlack c (.node .black m j (.node .red a x b)) k r =
      (.node c (.node .black m j a) x (.node .black b k r), true) := by
  cases m with
  | null => rfl
  | node => cases outer; rfl

theorem deleteRightBlack_plain (outer : m.color = .black) (inner : s.color = .black) :
    deleteRightBlack c (.node .black m j s) k r = (.node .black (.node .red m j s) k r, c == .red) := by
  cases m with
  | null =>
    cases s with
    | null => rfl
    | node => cases inner; rfl
  | node =>
    cases outer
    cases s with
    | null => rfl
    | node => cases inner; rfl

end Equations

theorem toList_deleteLeftBlack (c : Color) (l : RBTree α) (k : α) (r : RBTree α) :
    (deleteLeftBlack c l k r).1.toList = l.toList ++ k :: r.toList := by
  unfold deleteLeftBlack
  split
  · split <;> simp
  · simp

theorem toList_deleteRightBlack (c : Color) (l : RBTree α) (k : α) (r : RBTree α) :
    (deleteRightBlack c l k r).1.toList = l.toList ++ k :: r.toList := by
  unfold deleteRightBlack
  split
  · split <;> simp
  · simp

theorem toList_deleteLeft (c : Color) (l : RBTree α) (k : α) (r : RBTree α) :
    (deleteLeft c l k r).1.toList = l.toList ++ k :: r.toList := by
  unfold deleteLeft
  split
  · simp [toList_deleteLeftBlack]
  · exact toList_deleteLeftBlack ..

theorem toList_deleteRight (c : Color) (l : RBTree α) (k : α) (r : RBTree α) :
    (deleteRight c l k r).1.toList = l.toList ++ k :: r.toList := by
  unfold deleteRight
  split
  · simp [toList_deleteRightBlack]
  · exact toList_deleteRightBlack ..

/-- The smallest key and the rest make up the old sequence of keys. -/
theorem toList_deleteMin (c : Color) (l : RBTree α) (k : α) (r : RBTree α) :
    (deleteMin c l k r).2.2 :: (deleteMin c l k r).1.toList = l.toList ++ k :: r.toList := by
  induction l generalizing c k r with
  | null => simp [deleteMin]
  | node d m j s ihl _ =>
    have inner := ihl d j s
    unfold deleteMin
    split
    · next l' least eq =>
      rw [eq] at inner
      rw [toList_node, toList_node, ← inner]
      rfl
    · next l' least eq =>
      rw [eq] at inner
      simp only [toList_deleteLeft, toList_node, ← inner, List.cons_append]

theorem toList_deleteRoot (c : Color) (l r : RBTree α) :
    (deleteRoot c l r).1.toList = l.toList ++ r.toList := by
  cases r with
  | null => simp [deleteRoot]
  | node d m j s =>
    have inner := toList_deleteMin d m j s
    simp only [deleteRoot]
    split
    · next eq => rw [eq] at inner; rw [toList_node, toList_node, inner]
    · next eq => rw [eq] at inner; rw [toList_deleteRight, toList_node, inner]

theorem filter_ne_of_not_mem [DecidableEq α] {L : List α} {x : α} (absent : x ∉ L) :
    L.filter (· ≠ x) = L := by
  rw [List.filter_eq_self]
  intro y mem
  simpa using fun eq : y = x => absent (eq ▸ mem)

/-- Deleting from an ordered tree removes the key from the sequence of keys and nothing else. -/
theorem Ordered.toList_deleteNode [LinearOrder α] {del : α} {t : RBTree α} (ordered : t.Ordered)
    (present : del ∈ t) : (t.deleteNode del).1.toList = t.toList.filter (· ≠ del) := by
  induction t with
  | null => cases present
  | node c l k r ihl ihr =>
    obtain ⟨left, right, below, above, cross⟩ := ordered_node.mp ordered
    rw [toList_node, List.filter_append, List.filter_cons]
    unfold RBTree.deleteNode
    split
    · next here =>
      subst here
      have offLeft : k ∉ l.toList := fun mem => lt_irrefl k (below k mem)
      have offRight : k ∉ r.toList := fun mem => lt_irrefl k (above k mem)
      rw [toList_deleteRoot, filter_ne_of_not_mem offLeft, filter_ne_of_not_mem offRight]
      simp
    · next off =>
      split
      · next lt =>
        have offRight : del ∉ r.toList := fun mem => lt_asymm lt (above del mem)
        have inLeft : del ∈ l := by
          simpa [mem_iff, offRight, Ne.symm off] using present
        have inner := ihl left inLeft
        rw [filter_ne_of_not_mem offRight]
        split <;> (next eq => rw [eq] at inner; simp [toList_deleteLeft, inner, off])
      · next le =>
        have gt : k < del := lt_of_le_of_ne (not_lt.mp le) off
        have offLeft : del ∉ l.toList := fun mem => lt_asymm gt (below del mem)
        have inRight : del ∈ r := by
          simpa [mem_iff, offLeft, Ne.symm off] using present
        have inner := ihr right inRight
        rw [filter_ne_of_not_mem offLeft]
        split <;> (next eq => rw [eq] at inner; simp [toList_deleteRight, inner, off])

theorem Ordered.toList_delete [LinearOrder α] {del : α} {t : RBTree α} (ordered : t.Ordered)
    (present : del ∈ t) : (t.delete del).toList = t.toList.filter (· ≠ del) := by
  unfold RBTree.delete
  rw [toList_setColor, ordered.toList_deleteNode present]

theorem Ordered.mem_delete [LinearOrder α] {del k : α} {t : RBTree α} (ordered : t.Ordered)
    (present : del ∈ t) : k ∈ t.delete del ↔ k ∈ t ∧ k ≠ del := by
  change k ∈ (t.delete del).toList ↔ k ∈ t.toList ∧ k ≠ del
  rw [ordered.toList_delete present, List.mem_filter, decide_eq_true_iff]

/-- What a removal returns for a subtree with root colour `c` and black height
`n`: with the flag set the black height is back to `n` and the root is red only
if it was red before; with the flag clear the root was and is black and one
black node is missing on every path. -/
def Deleted (c : Color) (n : Nat) (result : RBTree α × Bool) : Prop :=
  if result.2 then ∃ d, result.1.Balanced d n ∧ (c = .black → d = .black)
  else c = .black ∧ ∃ m, n = m + 1 ∧ result.1.Balanced .black m

/-- The black height of a node over subtrees of black height `n`. -/
def Color.above (c : Color) (n : Nat) : Nat := if c = .black then n + 1 else n

theorem node_balanced {c cl cr : Color} {l r : RBTree α} {k : α} {n : Nat} (hl : l.Balanced cl n)
    (hr : r.Balanced cr n) (children : c = .red → cl = .black ∧ cr = .black) :
    (node c l k r).Balanced c (Color.above c n) := by
  cases c with
  | black => exact .black hl hr
  | red =>
    obtain ⟨rfl, rfl⟩ := children rfl
    exact .red hl hr

theorem Balanced.parts {c : Color} {l r : RBTree α} {k : α} {n : Nat} {d : Color}
    (bal : (node c l k r).Balanced d n) :
    ∃ cl cr m, l.Balanced cl m ∧ r.Balanced cr m ∧ n = Color.above c m ∧
      (c = .red → cl = .black ∧ cr = .black) := by
  cases bal with
  | red left right => exact ⟨_, _, _, left, right, rfl, fun _ => ⟨rfl, rfl⟩⟩
  | black left right => exact ⟨_, _, _, left, right, rfl, nofun⟩

theorem deleteLeftBlack_deleted {c : Color} {l r : RBTree α} {k : α} {h : Nat} (hl : l.Balanced .black h)
    (hr : r.Balanced .black (h + 1)) :
    Deleted c (Color.above c (h + 1)) (deleteLeftBlack c l k r) := by
  cases hr with
  | @black m j s cm cs _ hm hs =>
    cases cs with
    | red =>
      cases hs with
      | red ha hb => exact ⟨c, node_balanced (.black hl hm) (.black ha hb) fun _ => ⟨rfl, rfl⟩, id⟩
    | black =>
      cases cm with
      | red =>
        cases hm with
        | red ha hb =>
          rw [deleteLeftBlack_inner hs.color_eq]
          exact ⟨c, node_balanced (.black hl ha) (.black hb hs) fun _ => ⟨rfl, rfl⟩, id⟩
      | black =>
        rw [deleteLeftBlack_plain hm.color_eq hs.color_eq]
        cases c with
        | red => exact ⟨.black, .black hl (.red hm hs), fun _ => rfl⟩
        | black => exact ⟨rfl, _, rfl, .black hl (.red hm hs)⟩

theorem deleteRightBlack_deleted {c : Color} {l r : RBTree α} {k : α} {h : Nat}
    (hl : l.Balanced .black (h + 1)) (hr : r.Balanced .black h) :
    Deleted c (Color.above c (h + 1)) (deleteRightBlack c l k r) := by
  cases hl with
  | @black m j s cm cs _ hm hs =>
    cases cm with
    | red =>
      cases hm with
      | red ha hb => exact ⟨c, node_balanced (.black ha hb) (.black hs hr) fun _ => ⟨rfl, rfl⟩, id⟩
    | black =>
      cases cs with
      | red =>
        cases hs with
        | red ha hb =>
          rw [deleteRightBlack_inner hm.color_eq]
          exact ⟨c, node_balanced (.black hm ha) (.black hb hr) fun _ => ⟨rfl, rfl⟩, id⟩
      | black =>
        rw [deleteRightBlack_plain hm.color_eq hs.color_eq]
        cases c with
        | red => exact ⟨.black, .black (.red hm hs) hr, fun _ => rfl⟩
        | black => exact ⟨rfl, _, rfl, .black (.red hm hs) hr⟩

/-- Under a red root the repair always restores the black height. -/
theorem Deleted.of_red {n : Nat} {result : RBTree α × Bool} (del : Deleted .red n result) :
    result.2 = true ∧ ∃ d, result.1.Balanced d n := by
  unfold Deleted at del
  split at del
  · next done => exact ⟨done, del.choose, del.choose_spec.1⟩
  · exact absurd del.1 nofun

theorem deleteLeft_deleted {c cr : Color} {l r : RBTree α} {k : α} {h : Nat} (hl : l.Balanced .black h)
    (hr : r.Balanced cr (h + 1)) (sibling : c = .red → cr = .black) :
    Deleted c (Color.above c (h + 1)) (deleteLeft c l k r) := by
  cases hr with
  | black hm hs => exact deleteLeftBlack_deleted hl (.black hm hs)
  | red hm hs =>
    cases c with
    | red => exact absurd (sibling rfl) nofun
    | black =>
      obtain ⟨done, d, bal⟩ := (deleteLeftBlack_deleted (c := .red) (k := k) hl hm).of_red
      simp only [deleteLeft, done]
      exact ⟨.black, .black bal hs, fun _ => rfl⟩

theorem deleteRight_deleted {c cl : Color} {l r : RBTree α} {k : α} {h : Nat} (hl : l.Balanced cl (h + 1))
    (hr : r.Balanced .black h) (sibling : c = .red → cl = .black) :
    Deleted c (Color.above c (h + 1)) (deleteRight c l k r) := by
  cases hl with
  | black hm hs => exact deleteRightBlack_deleted (.black hm hs) hr
  | red hm hs =>
    cases c with
    | red => exact absurd (sibling rfl) nofun
    | black =>
      obtain ⟨done, d, bal⟩ := (deleteRightBlack_deleted (c := .red) (k := k) hs hr).of_red
      simp only [deleteRight, done]
      exact ⟨.black, .black hm bal, fun _ => rfl⟩

/-- A subtree that keeps its black height goes back under its parent. -/
theorem Deleted.left_done {c cl cr : Color} {l' r : RBTree α} {k : α} {n : Nat} (del : Deleted cl n (l', true))
    (hr : r.Balanced cr n) (children : c = .red → cl = .black ∧ cr = .black) :
    Deleted c (Color.above c n) (node c l' k r, true) := by
  obtain ⟨d, bal, stays⟩ := del
  exact ⟨c, node_balanced bal hr fun red => ⟨stays (children red).1, (children red).2⟩, id⟩

theorem Deleted.right_done {c cl cr : Color} {l r' : RBTree α} {k : α} {n : Nat} (hl : l.Balanced cl n)
    (del : Deleted cr n (r', true)) (children : c = .red → cl = .black ∧ cr = .black) :
    Deleted c (Color.above c n) (node c l k r', true) := by
  obtain ⟨d, bal, stays⟩ := del
  exact ⟨c, node_balanced hl bal fun red => ⟨(children red).1, stays (children red).2⟩, id⟩

/-- A subtree that lost a black node is repaired at its parent. -/
theorem Deleted.left_repair {c cl cr : Color} {l' r : RBTree α} {k : α} {n : Nat} (del : Deleted cl n (l', false))
    (hr : r.Balanced cr n) (children : c = .red → cl = .black ∧ cr = .black) :
    Deleted c (Color.above c n) (deleteLeft c l' k r) := by
  obtain ⟨_, m, rfl, bal⟩ := del
  exact deleteLeft_deleted bal hr fun red => (children red).2

theorem Deleted.right_repair {c cl cr : Color} {l r' : RBTree α} {k : α} {n : Nat} (hl : l.Balanced cl n)
    (del : Deleted cr n (r', false)) (children : c = .red → cl = .black ∧ cr = .black) :
    Deleted c (Color.above c n) (deleteRight c l k r') := by
  obtain ⟨_, m, rfl, bal⟩ := del
  exact deleteRight_deleted hl bal fun red => (children red).1

/-- The end of the descent: a node with an empty side gives way to its other side. -/
theorem spliced_deleted {c d : Color} {t : RBTree α} {n : Nat} (bal : t.Balanced d n) (empty : n = 0)
    (child : c = .red → d = .black) :
    Deleted c (Color.above c n) (t.setColor .black, c == .red || t.color == .red) := by
  cases bal with
  | null =>
    cases c with
    | red => exact ⟨.black, .null, fun _ => rfl⟩
    | black => exact ⟨rfl, 0, rfl, .null⟩
  | red left right =>
    cases c with
    | red => exact absurd (child rfl) nofun
    | black => exact ⟨.black, .black left right, fun _ => rfl⟩
  | black => exact absurd empty (Nat.succ_ne_zero _)

theorem deleteMin_deleted {c d : Color} {l r : RBTree α} {k : α} {n : Nat} (bal : (node c l k r).Balanced d n) :
    Deleted c n ((deleteMin c l k r).1, (deleteMin c l k r).2.1) := by
  induction l generalizing c d k r n with
  | null =>
    obtain ⟨cl, cr, m, left, right, rfl, children⟩ := bal.parts
    cases left
    exact spliced_deleted right rfl fun red => (children red).2
  | node e m j s ihl _ =>
    obtain ⟨cl, cr, h, left, right, rfl, children⟩ := bal.parts
    have color := left.color_eq
    subst color
    have inner := ihl left
    unfold deleteMin
    split
    · next eq => rw [eq] at inner; exact inner.left_done right children
    · next eq => rw [eq] at inner; exact inner.left_repair right children

theorem deleteRoot_deleted {c d : Color} {l r : RBTree α} {k : α} {n : Nat} (bal : (node c l k r).Balanced d n) :
    Deleted c n (deleteRoot c l r) := by
  obtain ⟨cl, cr, h, left, right, rfl, children⟩ := bal.parts
  unfold deleteRoot
  split
  · cases right
    exact spliced_deleted left rfl fun red => (children red).1
  · have color := right.color_eq
    subst color
    have inner := deleteMin_deleted right
    split
    · next eq => rw [eq] at inner; exact Deleted.right_done left inner children
    · next eq => rw [eq] at inner; exact Deleted.right_repair left inner children

theorem Balanced.deleteNode [LinearOrder α] {del : α} {t : RBTree α} {c : Color} {n : Nat}
    (bal : t.Balanced c n) (present : del ∈ t) (ordered : t.Ordered) : Deleted c n (t.deleteNode del) := by
  induction t generalizing c n with
  | null => cases present
  | node e l k r ihl ihr =>
    obtain ⟨leftOrd, rightOrd, below, above, cross⟩ := ordered_node.mp ordered
    obtain ⟨cl, cr, h, left, right, rfl, children⟩ := bal.parts
    have color := bal.color_eq
    subst color
    simp only [mem_iff, toList_node, List.mem_append, List.mem_cons] at present
    unfold RBTree.deleteNode
    split
    · exact deleteRoot_deleted bal
    · next off =>
      split
      · next lt =>
        have inLeft : del ∈ l := by
          rcases present with mem | rfl | mem
          · exact mem
          · exact absurd rfl off
          · exact absurd (above del mem) (lt_asymm lt)
        have inner := ihl left inLeft leftOrd
        split
        · next eq => rw [eq] at inner; exact inner.left_done right children
        · next eq => rw [eq] at inner; exact inner.left_repair right children
      · next le =>
        have inRight : del ∈ r := by
          rcases present with mem | rfl | mem
          · exact absurd (below del mem) le
          · exact absurd rfl off
          · exact mem
        have inner := ihr right inRight rightOrd
        split
        · next eq => rw [eq] at inner; exact Deleted.right_done left inner children
        · next eq => rw [eq] at inner; exact Deleted.right_repair left inner children

/-- Deletion of a key keeps a red-black search tree one. -/
theorem IsRedBlack.delete [LinearOrder α] {del : α} {t : RBTree α} (valid : t.IsRedBlack) (present : del ∈ t) :
    (t.delete del).IsRedBlack := by
  obtain ⟨ordered, n, bal⟩ := isRedBlack_iff.mp valid
  refine isRedBlack_iff.mpr ⟨?_, ?_⟩
  · unfold Ordered
    rw [ordered.toList_delete present]
    exact ordered.filter _
  · have result := bal.deleteNode present ordered
    unfold Deleted at result
    unfold RBTree.delete
    split at result
    · obtain ⟨d, done, _⟩ := result
      exact done.setBlack
    · obtain ⟨_, m, _, short⟩ := result
      exact short.setBlack

end Splab.RedBlack.RBTree
