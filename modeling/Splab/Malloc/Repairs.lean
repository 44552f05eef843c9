import Splab.Malloc.Checker

namespace Splab.Malloc
open RedBlack RBTree

/-- The side of a node on which a removal took place. -/
inductive Side
  | left
  | right
  deriving DecidableEq, Repr

/-- A node over the side of the removal and the intact side. -/
def Side.node : Side → Color → RBTree Key → Key → RBTree Key → RBTree Key
  | left, c, short, k, whole => .node c short k whole
  | right, c, short, k, whole => .node c whole k short

def Side.mmDelete : Side → Nat → Nat → Option Bool → Mm (Nat × Option Bool)
  | left => mmDeleteLeft
  | right => mmDeleteRight

def Side.markDelete : Side → Nat → Nat → Option Bool → Mm (Nat × Option Bool × List Mark)
  | left => markDeleteLeft
  | right => markDeleteRight

/-- The two sides of a node with root colour `c`, both of black height `n + 1`
before a removal that took a black node from every path of the first one. -/
structure Shortened (c : Color) (n : Nat) (short whole : RBTree Key) : Prop where
  shortColors : short.NoRedRed
  shortHeight : ∀ m ∈ short.blackCounts, m = n
  shortBlack : short.color = .black
  wholeColors : whole.NoRedRed
  wholeHeight : ∀ m ∈ whole.blackCounts, m = n + 1
  wholeBlack : c = .red → whole.color = .black

/-- What a repair returns for a node with root colour `c` over sides that had black
height `n + 1`: the flag is set when the node has its black height back, and
clear when its root is black and one black node is missing on every path. -/
structure Restored (c : Color) (n : Nat) (t : RBTree Key) (balance : Option Bool) : Prop where
  colors : t.NoRedRed
  red : t.color = .red → c = .red
  height : balance = some true ∧ (∀ m ∈ t.blackCounts, m = Color.above c (n + 1)) ∨
    balance = some false ∧ t.color = .black ∧ ∀ m ∈ t.blackCounts, m + 1 = Color.above c (n + 1)

theorem Restored.of_deleted {c : Color} {n : Nat} {result : RBTree Key × Bool}
    (deleted : Deleted c (Color.above c (n + 1)) result) :
    Restored c n result.1 (afterRepair (some false) result.2) := by
  unfold Deleted at deleted
  split at deleted
  · next done =>
    obtain ⟨d, bal, stays⟩ := deleted
    refine ⟨bal.noRedRed, fun red => ?_, .inl ⟨by rw [done]; rfl, bal.blackCounts_eq⟩⟩
    cases c with
    | red => rfl
    | black => rw [bal.color_eq, stays rfl] at red; cases red
  · next short =>
    obtain ⟨-, m, height, bal⟩ := deleted
    refine ⟨bal.noRedRed, fun red => ?_, .inr ⟨by simp [short, afterRepair], bal.color_eq, fun j mem => ?_⟩⟩
    · rw [bal.color_eq] at red
      cases red
    · rw [bal.blackCounts_eq j mem, height]

section Repair
variable {nil : Nat} {h : Heap} {c : Color} {n : Nat} {short whole : RBTree Key} {k : Key} {fuel : Nat}

/-- The repair of the tree on either side. -/
def Side.delete : Side → Color → RBTree Key → Key → RBTree Key → RBTree Key × Bool
  | left, c, short, k, whole => deleteLeft c short k whole
  | right, c, short, k, whole => deleteRight c whole k short

theorem Side.unmarked_markDelete (side : Side) {now : Nat} {balance : Option Bool} :
    unmarked <$> side.markDelete fuel now balance = side.mmDelete fuel now balance := by
  cases side with
  | left => exact unmarked_deleteLeft
  | right => exact unmarked_deleteRight

theorem Side.toList_delete (side : Side) :
    (side.delete c short k whole).1.toList = (side.node c short k whole).toList := by
  cases side with
  | left => exact toList_deleteLeft ..
  | right => exact toList_deleteRight ..

theorem Shortened.restored (sides : Shortened c n short whole) (side : Side) :
    Restored c n (side.delete c short k whole).1 (afterRepair (some false) (side.delete c short k whole).2) := by
  have shortBal := balanced_of_counts sides.shortColors sides.shortHeight
  have wholeBal := balanced_of_counts sides.wholeColors sides.wholeHeight
  rw [sides.shortBlack] at shortBal
  cases side with
  | left => exact .of_deleted (deleteLeft_deleted shortBal wholeBal sides.wholeBlack)
  | right => exact .of_deleted (deleteRight_deleted wholeBal shortBal sides.wholeBlack)

theorem Shortened.runs_markDelete (sides : Shortened c n short whole) (side : Side)
    (own : Owns nil h (side.node c short k whole)) (two : 2 ≤ fuel) {balance : Option Bool} :
    Runs (side.markDelete fuel k.addr balance) h (Marked nil h (side.node c short k whole) balance
      (side.delete c short k whole) (if whole.color = .red then [.recursion] else [])) := by
  have sibling := Sibling.of_balanced (balanced_of_counts sides.wholeColors sides.wholeHeight)
  cases side with
  | left => exact runs_markDeleteLeft own sibling two
  | right => exact runs_markDeleteRight own sibling two

/-- `mm_delete_left` and `mm_delete_right` on a node whose one side lost a black
node: the keys stay in their order, the colours are right again, the flag tells
whether the black height is, and no run goes twice into the recursion or
falls through all cases. -/
theorem mmDelete_restores (sides : Shortened c n short whole) (side : Side)
    (own : Owns nil h (side.node c short k whole)) (two : 2 ≤ fuel) :
    Runs (side.mmDelete fuel k.addr (some false)) h (fun out h' => ∃ t,
      Becomes nil h (side.node c short k whole) t out.1 h' ∧ t.toList = (side.node c short k whole).toList ∧
        Restored c n t out.2) ∧
    unmarked <$> side.markDelete fuel k.addr (some false) = side.mmDelete fuel k.addr (some false) ∧
    Runs (side.markDelete fuel k.addr (some false)) h fun out _ =>
      out.2.2.count .recursion ≤ 1 ∧ .unmatched ∉ out.2.2 := by
  have run := @Shortened.runs_markDelete nil h c n short whole k fuel sides side own two (some false)
  refine ⟨?_, side.unmarked_markDelete, run.mono fun out h' marked => ?_⟩
  · rw [← side.unmarked_markDelete, runs_map]
    refine run.mono fun out h' marked => ?_
    obtain ⟨-, flag, becomes⟩ := marked
    refine ⟨(side.delete c short k whole).1, becomes, side.toList_delete, ?_⟩
    rw [flag]
    exact sides.restored side
  · rw [marked.1]
    split <;> decide

theorem mmDelete_restores_lopsided :
    Runs (mmDeleteLeft 2 32 (some false)) lopsidedHeap (fun out h' => ∃ t,
      Becomes 12 lopsidedHeap lopsidedTree t out.1 h' ∧ t.toList = lopsidedTree.toList ∧
        Restored .black 0 t out.2) ∧
    unmarked <$> markDeleteLeft 2 32 (some false) = mmDeleteLeft 2 32 (some false) ∧
    Runs (markDeleteLeft 2 32 (some false)) lopsidedHeap fun out _ =>
      out.2.2.count .recursion ≤ 1 ∧ .unmatched ∉ out.2.2 :=
  @mmDelete_restores 12 lopsidedHeap .black 0 .null (.node .black .null ⟨2, 48⟩ .null) ⟨2, 32⟩ 2
    ⟨trivial, by decide, rfl, ⟨nofun, trivial, trivial⟩, by decide, nofun⟩ .left lopsided_owns (Nat.le_refl 2)

end Repair

end Splab.Malloc
