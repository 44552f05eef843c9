import Mathlib

namespace Splab.RedBlack
universe u
variable {α : Type u}

inductive Color
  | black
  | red
  deriving DecidableEq, Repr

theorem Color.eq_black {c : Color} (other : c ≠ .red) : c = .black := by
  cases c
  · rfl
  · exact absurd rfl other

/-- Binary trees with a colour at every node; the empty tree counts as black. -/
inductive RBTree (α : Type u)
  | null
  | node (color : Color) (left : RBTree α) (key : α) (right : RBTree α)
  deriving DecidableEq, Repr

namespace RBTree

def color : RBTree α → Color
  | null => .black
  | node c _ _ _ => c

def setColor (c : Color) : RBTree α → RBTree α
  | null => null
  | node _ l k r => node c l k r

def toList : RBTree α → List α
  | null => []
  | node _ l k r => l.toList ++ k :: r.toList

def height : RBTree α → Nat
  | null => 0
  | node _ l _ r => max l.height r.height + 1

instance : Membership α (RBTree α) where
  mem t k := k ∈ t.toList

@[simp] theorem color_null : (null : RBTree α).color = .black := rfl

@[simp] theorem color_node (c : Color) (l : RBTree α) (k : α) (r : RBTree α) : (node c l k r).color = c := rfl

@[simp] theorem setColor_null (c : Color) : (null : RBTree α).setColor c = null := rfl

@[simp] theorem setColor_node (c d : Color) (l : RBTree α) (k : α) (r : RBTree α) :
    (node d l k r).setColor c = node c l k r := rfl

@[simp] theorem toList_null : (null : RBTree α).toList = [] := rfl

@[simp] theorem toList_node (c : Color) (l : RBTree α) (k : α) (r : RBTree α) :
    (node c l k r).toList = l.toList ++ k :: r.toList := rfl

theorem mem_iff {t : RBTree α} {k : α} : k ∈ t ↔ k ∈ t.toList := Iff.rfl

@[simp] theorem toList_setColor (c : Color) (t : RBTree α) : (t.setColor c).toList = t.toList := by
  cases t <;> rfl

theorem height_le_length (t : RBTree α) : t.height ≤ t.toList.length := by
  induction t with
  | null => rfl
  | node c l k r ihl ihr =>
    simp only [height, toList_node, List.length_append, List.length_cons]
    omega

/-- Left rotation; a tree without a right child is left alone. -/
def rotateLeft : RBTree α → RBTree α
  | node c l k (node d m j r) => node d (node c l k m) j r
  | t => t

/-- Right rotation; a tree without a left child is left alone. -/
def rotateRight : RBTree α → RBTree α
  | node c (node d l j m) k r => node d l j (node c m k r)
  | t => t

/-- A rotation keeps the keys in their order. -/
theorem toList_rotateLeft (t : RBTree α) : t.rotateLeft.toList = t.toList := by
  unfold rotateLeft
  split <;> simp

theorem toList_rotateRight (t : RBTree α) : t.rotateRight.toList = t.toList := by
  unfold rotateRight
  split <;> simp

/-- Search tree order: the keys increase strictly from left to right. -/
def Ordered [LT α] (t : RBTree α) : Prop := t.toList.Pairwise (· < ·)

theorem ordered_node [LT α] {c : Color} {l : RBTree α} {k : α} {r : RBTree α} :
    (node c l k r).Ordered ↔ l.Ordered ∧ r.Ordered ∧ (∀ x ∈ l, x < k) ∧ (∀ x ∈ r, k < x) ∧
      ∀ x ∈ l, ∀ y ∈ r, x < y := by
  simp only [Ordered, toList_node, List.pairwise_append, List.pairwise_cons, List.mem_cons, mem_iff]
  constructor
  · rintro ⟨left, ⟨above, right⟩, cross⟩
    exact ⟨left, right, fun x hx => cross x hx k (.inl rfl), above, fun x hx y hy => cross x hx y (.inr hy)⟩
  · rintro ⟨left, right, below, above, cross⟩
    refine ⟨left, ⟨above, right⟩, fun x hx y hy => ?_⟩
    rcases hy with rfl | hy
    · exact below x hx
    · exact cross x hx y hy

/-- No red node has a red child. -/
def NoRedRed : RBTree α → Prop
  | null => True
  | node c l _ r => (c = .red → l.color = .black ∧ r.color = .black) ∧ l.NoRedRed ∧ r.NoRedRed

/-- The number of black nodes on each path from the root to an empty tree. -/
def blackCounts : RBTree α → List Nat
  | null => [0]
  | node c l _ r => (l.blackCounts ++ r.blackCounts).map (· + if c = .black then 1 else 0)

/-- The colour discipline with the root's colour and the black height as
indices; the conjunction of the two properties above in inductive form. -/
inductive Balanced : RBTree α → Color → Nat → Prop
  | null : Balanced null .black 0
  | red {l : RBTree α} {k : α} {r : RBTree α} {n : Nat} :
      Balanced l .black n → Balanced r .black n → Balanced (node .red l k r) .red n
  | black {l : RBTree α} {k : α} {r : RBTree α} {c d : Color} {n : Nat} :
      Balanced l c n → Balanced r d n → Balanced (node .black l k r) .black (n + 1)

theorem Balanced.color_eq {t : RBTree α} {c : Color} {n : Nat} (bal : t.Balanced c n) : t.color = c := by
  cases bal <;> rfl

theorem Balanced.noRedRed {t : RBTree α} {c : Color} {n : Nat} (bal : t.Balanced c n) : t.NoRedRed := by
  induction bal with
  | null => trivial
  | red left right ihl ihr => exact ⟨fun _ => ⟨left.color_eq, right.color_eq⟩, ihl, ihr⟩
  | black _ _ ihl ihr => exact ⟨nofun, ihl, ihr⟩

theorem Balanced.blackCounts_eq {t : RBTree α} {c : Color} {n : Nat} (bal : t.Balanced c n) :
    ∀ m ∈ t.blackCounts, m = n := by
  induction bal with
  | null => simp [blackCounts]
  | red _ _ ihl ihr =>
    intro m mem
    simp only [blackCounts, List.mem_map, List.mem_append, reduceCtorEq, if_false, Nat.add_zero,
      exists_eq_right] at mem
    exact mem.elim (ihl m) (ihr m)
  | black _ _ ihl ihr =>
    intro m mem
    simp only [blackCounts, List.mem_map, List.mem_append, if_true] at mem
    obtain ⟨x, inside, rfl⟩ := mem
    rw [inside.elim (ihl x) (ihr x)]

theorem blackCounts_ne_nil (t : RBTree α) : t.blackCounts ≠ [] := by
  induction t with
  | null => simp [blackCounts]
  | node c l k r ihl ihr => simp [blackCounts, ihl]

theorem balanced_of_counts {t : RBTree α} {n : Nat} (colors : t.NoRedRed)
    (counts : ∀ m ∈ t.blackCounts, m = n) : t.Balanced t.color n := by
  induction t generalizing n with
  | null =>
    rw [← counts 0 (by simp [blackCounts])]
    exact .null
  | node c l k r ihl ihr =>
    obtain ⟨children, left, right⟩ := colors
    cases c with
    | red =>
      have counts' : ∀ m ∈ l.blackCounts ++ r.blackCounts, m = n := by
        simpa only [blackCounts, reduceCtorEq, if_false, Nat.add_zero, List.map_id'] using counts
      obtain ⟨leftBlack, rightBlack⟩ := children rfl
      have balLeft := ihl left fun m mem => counts' m (List.mem_append_left _ mem)
      have balRight := ihr right fun m mem => counts' m (List.mem_append_right _ mem)
      rw [leftBlack] at balLeft
      rw [rightBlack] at balRight
      exact .red balLeft balRight
    | black =>
      have counts' : ∀ m ∈ l.blackCounts ++ r.blackCounts, m + 1 = n := by
        intro m mem
        exact counts (m + 1) (by simpa only [blackCounts, if_true] using List.mem_map_of_mem mem)
      obtain ⟨first, rest, eq⟩ := List.exists_cons_of_ne_nil l.blackCounts_ne_nil
      have height := counts' first (by simp [eq])
      subst height
      exact .black
        (ihl left fun m mem => Nat.succ.inj (counts' m (List.mem_append_left _ mem)))
        (ihr right fun m mem => Nat.succ.inj (counts' m (List.mem_append_right _ mem)))

/-- A red-black search tree: ordered, black at the root, no red node under a
red node, and equally many black nodes on every path. -/
structure IsRedBlack [LT α] (t : RBTree α) : Prop where
  ordered : t.Ordered
  rootBlack : t.color = .black
  noRedRed : t.NoRedRed
  blackHeight : ∃ n, ∀ m ∈ t.blackCounts, m = n

theorem isRedBlack_iff [LT α] {t : RBTree α} : t.IsRedBlack ↔ t.Ordered ∧ ∃ n, t.Balanced .black n := by
  constructor
  · rintro ⟨ordered, root, colors, n, counts⟩
    exact ⟨ordered, n, root ▸ balanced_of_counts colors counts⟩
  · rintro ⟨ordered, n, bal⟩
    exact ⟨ordered, bal.color_eq, bal.noRedRed, n, bal.blackCounts_eq⟩

theorem Balanced.setBlack {t : RBTree α} {c : Color} {n : Nat} (bal : t.Balanced c n) :
    ∃ m, (t.setColor .black).Balanced .black m := by
  cases bal with
  | null => exact ⟨0, .null⟩
  | red left right => exact ⟨n + 1, .black left right⟩
  | black left right => exact ⟨_, .black left right⟩

/-- The leftmost key that passes the test, found by one descent. -/
def searchNode (test : α → Bool) : RBTree α → Option α
  | null => none
  | node _ l k r =>
    if test k then
      match l.searchNode test with
      | none => some k
      | some found => some found
    else r.searchNode test

theorem searchNode_mem {test : α → Bool} {t : RBTree α} {k : α} (found : t.searchNode test = some k) :
    k ∈ t.toList := by
  induction t with
  | null => cases found
  | node c l j r ihl ihr =>
    rw [searchNode] at found
    rw [toList_node, List.mem_append, List.mem_cons]
    split at found
    · split at found
      · exact .inr (.inl (Option.some.inj found).symm)
      · next eq => exact .inl (ihl (eq.trans found))
    · exact .inr (.inr (ihr found))

/-- For a test that larger keys pass whenever smaller ones do, one descent
finds what a scan of all keys in order finds. -/
theorem searchNode_eq_find? [LT α] {test : α → Bool} {t : RBTree α} (ordered : t.Ordered)
    (upward : ∀ x y, x < y → test x = true → test y = true) :
    t.searchNode test = t.toList.find? test := by
  induction t with
  | null => rfl
  | node c l k r ihl ihr =>
    obtain ⟨left, right, below, _, _⟩ := ordered_node.mp ordered
    rw [searchNode, ihl left, ihr right, toList_node, List.find?_append, List.find?_cons]
    by_cases pass : test k = true
    · simp only [pass, if_true]
      cases l.toList.find? test <;> rfl
    · have none : l.toList.find? test = none := by
        rw [List.find?_eq_none]
        intro x mem hit
        exact pass (upward x k (below x mem) hit)
      simp only [pass, none, Option.none_or, Bool.false_eq_true, if_false]

end RBTree

end Splab.RedBlack
