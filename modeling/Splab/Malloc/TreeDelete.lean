import Splab.Malloc.TreeInsert
import Splab.Lib.RedBlack.Delete

namespace Splab.Malloc
open RedBlack RBTree

/-- A condition that only reads is known by its value. -/
theorem both_run {x y : Mm Bool} {h : Heap} {a b : Bool} (first : x h = .ok a h)
    (second : a = true → y h = .ok b h) : both x y h = .ok (a && b) h := by
  unfold both
  rw [bind_run, first]
  cases a with
  | false => rfl
  | true => exact second rfl

theorem run_of_runs {α : Type} {x : Mm α} {h : Heap} {a : α} (run : Runs x h fun b h' => b = a ∧ h' = h) :
    x h = .ok a h := by
  obtain ⟨_, _, eq, rfl, rfl⟩ := run
  exact eq

section Reads
variable {nil : Nat} {h : Heap} {c d : Color} {l r m s t : RBTree Key} {k j : Key}

theorem isBlack_run (own : Owns nil h t) : isBlack (rootPtr nil t) h = .ok (t.color == .black) h :=
  run_of_runs ((runs_isBlack_own own).mpr ⟨rfl, rfl⟩)

theorem isRed_run (own : Owns nil h t) : isRed (rootPtr nil t) h = .ok (t.color == .red) h :=
  run_of_runs ((runs_isRed_own own).mpr ⟨rfl, rfl⟩)

theorem bind_left_run {β : Type} {f : Nat → Mm β} (own : Owns nil h (.node c l k r)) :
    (getLeft k.addr >>= f) h = f (rootPtr nil l) h := by
  rw [bind_run, run_of_runs ((runs_getLeft_own own).mpr ⟨rfl, rfl⟩)]

theorem bind_right_run {β : Type} {f : Nat → Mm β} (own : Owns nil h (.node c l k r)) :
    (getRight k.addr >>= f) h = f (rootPtr nil r) h := by
  rw [bind_run, run_of_runs ((runs_getRight_own own).mpr ⟨rfl, rfl⟩)]

/-- `now->right->right->color = v` and its mirror image. -/
theorem runs_setColor_right_right {Q : Unit → Heap → Prop} {e : Color} {u : RBTree Key} {i : Key} {w : RBTree Key}
    {v : Color} (own : Owns nil h (.node c l k (.node d m j (.node e u i w))))
    (next : ∀ h', Reshaped nil h (.node c l k (.node d m j (.node e u i w))) h'
      (.node c l k (.node d m j (.node v u i w))) → Q () h') :
    Runs (getRight k.addr) h fun p h' => Runs (getRight p) h' fun q h' => Runs (setColor q v) h' Q := by
  rw [runs_getRight_own own, rootPtr_node]
  exact runs_setColor_right own.right fun h' step => next h' (step.inRight own rfl)

theorem runs_setColor_left_left {Q : Unit → Heap → Prop} {e : Color} {u : RBTree Key} {i : Key} {w : RBTree Key}
    {v : Color} (own : Owns nil h (.node c (.node d (.node e u i w) j s) k r))
    (next : ∀ h', Reshaped nil h (.node c (.node d (.node e u i w) j s) k r) h'
      (.node c (.node d (.node v u i w) j s) k r) → Q () h') :
    Runs (getLeft k.addr) h fun p h' => Runs (getLeft p) h' fun q h' => Runs (setColor q v) h' Q := by
  rw [runs_getLeft_own own, rootPtr_node]
  exact runs_setColor_left own.left fun h' step => next h' (step.inLeft own rfl)

end Reads

/-- What a run of a repair passes: the recursive call, and the last `return now`, which no case leads to. -/
inductive Mark
  | recursion
  | unmatched
  deriving DecidableEq, Repr

/-- `mmDeleteLeftOuter` with a record of the marks. -/
def markDeleteLeftOuter (now : Nat) (balance : Option Bool) : Mm (Nat × Option Bool × List Mark) := do
  if ← both (do isBlack (← getRight now)) (do isRed (← getRight (← getRight now))) then
    let now ← mmRotateLeft now
    setColor now (← getColor (← getLeft now))
    setColor (← getRight now) .black
    setColor (← getLeft now) .black
    return (now, some true, [])
  else
    return (now, balance, [.unmatched])

/-- `mmDeleteLeft` with a record of the marks. -/
def markDeleteLeft : Nat → Nat → Option Bool → Mm (Nat × Option Bool × List Mark)
  | 0, _, _ => throw .depth
  | fuel + 1, now, balance => do
    if ← isRed (← getRight now) then
      let now ← mmRotateLeft now
      setColor now .black
      setColor (← getLeft now) .red
      let (sub, balance, marks) ← markDeleteLeft fuel (← getLeft now) balance
      setLeft now sub
      return (now, balance, .recursion :: marks)
    else if ← both (isBlack now) (both (do isBlack (← getRight now))
        (both (do isBlack (← getLeft (← getRight now))) (do isBlack (← getRight (← getRight now))))) then
      setColor (← getRight now) .red
      return (now, balance, [])
    else if ← both (isRed now) (both (do isBlack (← getLeft (← getRight now)))
        (do isBlack (← getRight (← getRight now)))) then
      setColor now .black
      setColor (← getRight now) .red
      return (now, some true, [])
    else if ← both (do isBlack (← getRight now)) (both (do isRed (← getLeft (← getRight now)))
        (do isBlack (← getRight (← getRight now)))) then
      setRight now (← mmRotateRight (← getRight now))
      setColor (← getRight now) .black
      setColor (← getRight (← getRight now)) .red
      markDeleteLeftOuter now balance
    else
      markDeleteLeftOuter now balance

def markDeleteRightOuter (now : Nat) (balance : Option Bool) : Mm (Nat × Option Bool × List Mark) := do
  if ← both (do isBlack (← getLeft now)) (do isRed (← getLeft (← getLeft now))) then
    let now ← mmRotateRight now
    setColor now (← getColor (← getRight now))
    setColor (← getLeft now) .black
    setColor (← getRight now) .black
    return (now, some true, [])
  else
    return (now, balance, [.unmatched])

def markDeleteRight : Nat → Nat → Option Bool → Mm (Nat × Option Bool × List Mark)
  | 0, _, _ => throw .depth
  | fuel + 1, now, balance => do
    if ← isRed (← getLeft now) then
      let now ← mmRotateRight now
      setColor now .black
      setColor (← getRight now) .red
      let (sub, balance, marks) ← markDeleteRight fuel (← getRight now) balance
      setRight now sub
      return (now, balance, .recursion :: marks)
    else if ← both (isBlack now) (both (do isBlack (← getLeft now))
        (both (do isBlack (← getLeft (← getLeft now))) (do isBlack (← getRight (← getLeft now))))) then
      setColor (← getLeft now) .red
      return (now, balance, [])
    else if ← both (isRed now) (both (do isBlack (← getLeft (← getLeft now)))
        (do isBlack (← getRight (← getLeft now)))) then
      setColor now .black
      setColor (← getLeft now) .red
      return (now, some true, [])
    else if ← both (do isBlack (← getLeft now)) (both (do isRed (← getRight (← getLeft now)))
        (do isBlack (← getLeft (← getLeft now)))) then
      setLeft now (← mmRotateLeft (← getLeft now))
      setColor (← getLeft now) .black
      setColor (← getLeft (← getLeft now)) .red
      markDeleteRightOuter now balance
    else
      markDeleteRightOuter now balance

/-- A result without its marks. -/
def unmarked (out : Nat × Option Bool × List Mark) : Nat × Option Bool := (out.1, out.2.1)

/-- The marks are only recorded. -/
theorem unmarked_deleteLeftOuter {now : Nat} {balance : Option Bool} :
    unmarked <$> markDeleteLeftOuter now balance = mmDeleteLeftOuter now balance := by
  simp only [markDeleteLeftOuter, mmDeleteLeftOuter, map_bind, apply_ite (Functor.map unmarked), map_pure, unmarked]

theorem unmarked_deleteLeft {fuel now : Nat} {balance : Option Bool} :
    unmarked <$> markDeleteLeft fuel now balance = mmDeleteLeft fuel now balance := by
  induction fuel generalizing now balance with
  | zero => rfl
  | succ fuel ih =>
    simp only [markDeleteLeft, mmDeleteLeft, ← ih, map_bind, bind_map_left, apply_ite (Functor.map unmarked), map_pure,
      unmarked_deleteLeftOuter, unmarked]

theorem unmarked_deleteRightOuter {now : Nat} {balance : Option Bool} :
    unmarked <$> markDeleteRightOuter now balance = mmDeleteRightOuter now balance := by
  simp only [markDeleteRightOuter, mmDeleteRightOuter, map_bind, apply_ite (Functor.map unmarked), map_pure, unmarked]

theorem unmarked_deleteRight {fuel now : Nat} {balance : Option Bool} :
    unmarked <$> markDeleteRight fuel now balance = mmDeleteRight fuel now balance := by
  induction fuel generalizing now balance with
  | zero => rfl
  | succ fuel ih =>
    simp only [markDeleteRight, mmDeleteRight, ← ih, map_bind, bind_map_left, apply_ite (Functor.map unmarked),
      map_pure, unmarked_deleteRightOuter, unmarked]

/-- What the variable behind `balance` holds after a repair with the given outcome. -/
def afterRepair (balance : Option Bool) (done : Bool) : Option Bool := if done then some true else balance

/-- The outcome of a repair of the tree `t`: the repaired tree and the flag. -/
def Repaired (nil : Nat) (h : Heap) (t : RBTree Key) (balance : Option Bool) (result : RBTree Key × Bool)
    (out : Nat × Option Bool) (h' : Heap) : Prop :=
  out.2 = afterRepair balance result.2 ∧ Becomes nil h t result.1 out.1 h'

/-- The outcome of a repair that passes the given marks. -/
def Marked (nil : Nat) (h : Heap) (t : RBTree Key) (balance : Option Bool) (result : RBTree Key × Bool)
    (marks : List Mark) (out : Nat × Option Bool × List Mark) (h' : Heap) : Prop :=
  out.2.2 = marks ∧ Repaired nil h t balance result (unmarked out) h'

section Repair
variable {nil : Nat} {h : Heap} {c : Color} {l r m s : RBTree Key} {k j : Key} {balance : Option Bool}

theorem runs_markDeleteLeftOuter {a b : RBTree Key} {x : Key}
    (own : Owns nil h (.node c l k (.node .black m j (.node .red a x b)))) :
    Runs (markDeleteLeftOuter k.addr balance) h (Marked nil h (.node c l k (.node .black m j (.node .red a x b)))
      balance (.node c (.node .black l k m) j (.node .black a x b), true) []) := by
  have outer : both (do isBlack (← getRight k.addr)) (do isRed (← getRight (← getRight k.addr))) h = .ok true h :=
    both_run ((bind_right_run own).trans (isBlack_run own.right)) fun _ =>
      (bind_right_run own).trans ((bind_right_run own.right).trans (isRed_run own.right.right))
  unfold markDeleteLeftOuter
  rw [runs_bind, runs_of_run outer, if_pos rfl, runs_bind]
  refine (runs_mmRotateLeft own).mono ?_
  rintro _ h1 ⟨rfl, turned⟩
  simp only [runs_bind]
  rw [runs_getLeft_own turned.own, rootPtr_node, runs_getColor turned.own.left.nodeIn.header,
    turned.own.left.keyAt.color]
  refine runs_setColor_root turned.own fun h2 root => ?_
  refine runs_setColor_right root.own fun h3 right => ?_
  refine runs_setColor_left right.own fun h4 left => ?_
  rw [runs_pure]
  exact ⟨rfl, rfl, rfl, ((turned.trans root).trans right).trans left⟩

/-- One call of `mm_delete_left` on a node with a black right child. -/
theorem runs_markDeleteLeft_black {fuel : Nat} (own : Owns nil h (.node c l k (.node .black m j s))) :
    Runs (markDeleteLeft (fuel + 1) k.addr balance) h (Marked nil h (.node c l k (.node .black m j s))
      balance (deleteLeftBlack c l k (.node .black m j s)) []) := by
  have sibling := own.right
  have testLeft : (do isBlack (← getLeft (← getRight k.addr))) h = .ok (m.color == .black) h :=
    (bind_right_run own).trans ((bind_left_run sibling).trans (isBlack_run sibling.left))
  have testRight : (do isBlack (← getRight (← getRight k.addr))) h = .ok (s.color == .black) h :=
    (bind_right_run own).trans ((bind_right_run sibling).trans (isBlack_run sibling.right))
  have testSibling : (do isBlack (← getRight k.addr)) h = .ok true h :=
    (bind_right_run own).trans (isBlack_run sibling)
  have testInner : (do isRed (← getLeft (← getRight k.addr))) h = .ok (m.color == .red) h :=
    (bind_right_run own).trans ((bind_left_run sibling).trans (isRed_run sibling.left))
  have first := both_run (x := isBlack k.addr) (isBlack_run own) fun _ =>
    both_run testSibling fun _ => both_run testLeft fun _ => testRight
  have second := both_run (x := isRed k.addr) (isRed_run own) fun _ => both_run testLeft fun _ => testRight
  have third := both_run testSibling fun _ => both_run testInner fun _ => testRight
  rw [markDeleteLeft, runs_bind, runs_getRight_own own, runs_bind, runs_isRed_own sibling, if_neg (by simp), runs_bind,
    runs_of_run first]
  by_cases outer : s.color = .red
  · rw [if_neg (by simp [outer]), runs_bind, runs_of_run second, if_neg (by simp [outer]), runs_bind,
      runs_of_run third, if_neg (by simp [outer])]
    cases s with
    | null => cases outer
    | node e a x b =>
      cases outer
      exact runs_markDeleteLeftOuter own
  · have outer := Color.eq_black outer
    by_cases inner : m.color = .red
    · rw [if_neg (by simp [inner]), runs_bind, runs_of_run second, if_neg (by simp [inner]), runs_bind,
        runs_of_run third, if_pos (by simp [inner, outer])]
      cases m with
      | null => cases inner
      | node e a x b =>
        cases inner
        rw [deleteLeftBlack_inner outer]
        simp only [runs_bind]
        rw [runs_getRight_own own, rootPtr_node]
        refine (runs_mmRotateRight sibling).mono ?_
        rintro _ h1 ⟨rfl, turned⟩
        have whole := turned.right own
        rw [runs_setRight (turned.frame.nodeIn.mpr own.nodeIn)]
        refine runs_setColor_right whole.own fun h2 paint => ?_
        refine runs_setColor_right_right paint.own fun h3 paint' => ?_
        refine (runs_markDeleteLeftOuter paint'.own).mono fun out h4 result => ?_
        exact ⟨result.1, result.2.1, result.2.2.1, ((whole.trans paint).trans paint').trans result.2.2.2⟩
    · have inner := Color.eq_black inner
      rw [deleteLeftBlack_plain inner outer]
      cases c with
      | black =>
        rw [if_pos (by simp [inner, outer])]
        simp only [runs_bind]
        refine runs_setColor_right own fun h1 paint => ?_
        rw [runs_pure]
        exact ⟨rfl, rfl, rfl, paint⟩
      | red =>
        rw [if_neg (by simp), runs_bind, runs_of_run second, if_pos (by simp [inner, outer])]
        simp only [runs_bind]
        refine runs_setColor_root own fun h1 root => ?_
        refine runs_setColor_right root.own fun h2 paint => ?_
        rw [runs_pure]
        exact ⟨rfl, rfl, rfl, root.trans paint⟩

/-- The right child that a repair on the left needs: a black node, or a red node
over black nodes. -/
inductive Sibling : RBTree Key → Prop
  | black {m : RBTree Key} {j : Key} {s : RBTree Key} : Sibling (.node .black m j s)
  | red {a b e f : RBTree Key} {x j y : Key} :
      Sibling (.node .red (.node .black a x b) j (.node .black e y f))

theorem Sibling.of_balanced {t : RBTree Key} {c : Color} {n : Nat} (bal : t.Balanced c (n + 1)) : Sibling t := by
  cases bal with
  | black => exact .black
  | red left right =>
    cases left
    cases right
    exact .red

theorem Sibling.two_le {t : RBTree Key} {fuel : Nat} (sibling : Sibling t) (deep : t.height < fuel) : 2 ≤ fuel := by
  cases sibling with
  | black => simp only [height] at deep; omega
  | red => simp only [height] at deep; omega

/-- `mm_delete_left` computes the repair of the tree; the call for a red sibling
makes one more call, on a black one. -/
theorem runs_markDeleteLeft {fuel : Nat} (own : Owns nil h (.node c l k r)) (sibling : Sibling r)
    (two : 2 ≤ fuel) : Runs (markDeleteLeft fuel k.addr balance) h (Marked nil h (.node c l k r)
      balance (deleteLeft c l k r) (if r.color = .red then [.recursion] else [])) := by
  cases sibling with
  | black =>
    obtain ⟨fuel, rfl⟩ : ∃ n, fuel = n + 1 := ⟨fuel - 1, by omega⟩
    exact runs_markDeleteLeft_black own
  | @red a b e f x j y =>
    obtain ⟨fuel, rfl⟩ : ∃ n, fuel = n + 2 := ⟨fuel - 2, by omega⟩
    rw [markDeleteLeft, runs_bind, runs_getRight_own own, runs_bind, runs_isRed_own own.right, if_pos (by rfl),
      runs_bind]
    refine (runs_mmRotateLeft own).mono ?_
    rintro _ h1 ⟨rfl, turned⟩
    simp only [runs_bind]
    refine runs_setColor_root turned.own fun h2 root => ?_
    refine runs_setColor_left root.own fun h3 left => ?_
    rw [runs_getLeft_own left.own, rootPtr_node]
    refine (runs_markDeleteLeft_black left.own.left).mono ?_
    rintro ⟨_, flag, _⟩ h4 ⟨rfl, rfl, rfl, inner⟩
    rw [runs_setLeft (inner.frame.nodeIn.mpr left.own.nodeIn), runs_pure]
    have whole := inner.left left.own
    exact ⟨rfl, rfl, rfl, ((turned.trans root).trans left).trans whole⟩

theorem runs_mmDeleteLeft {fuel : Nat} (own : Owns nil h (.node c l k r)) (sibling : Sibling r)
    (deep : r.height < fuel) :
    Runs (mmDeleteLeft fuel k.addr balance) h (Repaired nil h (.node c l k r) balance (deleteLeft c l k r)) := by
  rw [← unmarked_deleteLeft, runs_map]
  exact (runs_markDeleteLeft own sibling (sibling.two_le deep)).mono fun _ _ marked => marked.2

theorem runs_markDeleteRightOuter {a b : RBTree Key} {x : Key}
    (own : Owns nil h (.node c (.node .black (.node .red a x b) j s) k r)) :
    Runs (markDeleteRightOuter k.addr balance) h (Marked nil h (.node c (.node .black (.node .red a x b) j s) k r)
      balance (.node c (.node .black a x b) j (.node .black s k r), true) []) := by
  have outer : both (do isBlack (← getLeft k.addr)) (do isRed (← getLeft (← getLeft k.addr))) h = .ok true h :=
    both_run ((bind_left_run own).trans (isBlack_run own.left)) fun _ =>
      (bind_left_run own).trans ((bind_left_run own.left).trans (isRed_run own.left.left))
  unfold markDeleteRightOuter
  rw [runs_bind, runs_of_run outer, if_pos rfl, runs_bind]
  refine (runs_mmRotateRight own).mono ?_
  rintro _ h1 ⟨rfl, turned⟩
  simp only [runs_bind]
  rw [runs_getRight_own turned.own, rootPtr_node, runs_getColor turned.own.right.nodeIn.header,
    turned.own.right.keyAt.color]
  refine runs_setColor_root turned.own fun h2 root => ?_
  refine runs_setColor_left root.own fun h3 left => ?_
  refine runs_setColor_right left.own fun h4 right => ?_
  rw [runs_pure]
  exact ⟨rfl, rfl, rfl, ((turned.trans root).trans left).trans right⟩

theorem runs_markDeleteRight_black {fuel : Nat} (own : Owns nil h (.node c (.node .black m j s) k r)) :
    Runs (markDeleteRight (fuel + 1) k.addr balance) h (Marked nil h (.node c (.node .black m j s) k r)
      balance (deleteRightBlack c (.node .black m j s) k r) []) := by
  have sibling := own.left
  have testLeft : (do isBlack (← getLeft (← getLeft k.addr))) h = .ok (m.color == .black) h :=
    (bind_left_run own).trans ((bind_left_run sibling).trans (isBlack_run sibling.left))
  have testRight : (do isBlack (← getRight (← getLeft k.addr))) h = .ok (s.color == .black) h :=
    (bind_left_run own).trans ((bind_right_run sibling).trans (isBlack_run sibling.right))
  have testSibling : (do isBlack (← getLeft k.addr)) h = .ok true h :=
    (bind_left_run own).trans (isBlack_run sibling)
  have testInner : (do isRed (← getRight (← getLeft k.addr))) h = .ok (s.color == .red) h :=
    (bind_left_run own).trans ((bind_right_run sibling).trans (isRed_run sibling.right))
  have first := both_run (x := isBlack k.addr) (isBlack_run own) fun _ =>
    both_run testSibling fun _ => both_run testLeft fun _ => testRight
  have second := both_run (x := isRed k.addr) (isRed_run own) fun _ => both_run testLeft fun _ => testRight
  have third := both_run testSibling fun _ => both_run testInner fun _ => testLeft
  rw [markDeleteRight, runs_bind, runs_getLeft_own own, runs_bind, runs_isRed_own sibling, if_neg (by simp), runs_bind,
    runs_of_run first]
  by_cases outer : m.color = .red
  · rw [if_neg (by simp [outer]), runs_bind, runs_of_run second, if_neg (by simp [outer]), runs_bind,
      runs_of_run third, if_neg (by simp [outer])]
    cases m with
    | null => cases outer
    | node e a x b =>
      cases outer
      exact runs_markDeleteRightOuter own
  · have outer := Color.eq_black outer
    by_cases inner : s.color = .red
    · rw [if_neg (by simp [inner]), runs_bind, runs_of_run second, if_neg (by simp [inner]), runs_bind,
        runs_of_run third, if_pos (by simp [inner, outer])]
      cases s with
      | null => cases inner
      | node e a x b =>
        cases inner
        rw [deleteRightBlack_inner outer]
        simp only [runs_bind]
        rw [runs_getLeft_own own, rootPtr_node]
        refine (runs_mmRotateLeft sibling).mono ?_
        rintro _ h1 ⟨rfl, turned⟩
        have whole := turned.left own
        rw [runs_setLeft (turned.frame.nodeIn.mpr own.nodeIn)]
        refine runs_setColor_left whole.own fun h2 paint => ?_
        refine runs_setColor_left_left paint.own fun h3 paint' => ?_
        refine (runs_markDeleteRightOuter paint'.own).mono fun out h4 result => ?_
        exact ⟨result.1, result.2.1, result.2.2.1, ((whole.trans paint).trans paint').trans result.2.2.2⟩
    · have inner := Color.eq_black inner
      rw [deleteRightBlack_plain outer inner]
      cases c with
      | black =>
        rw [if_pos (by simp [inner, outer])]
        simp only [runs_bind]
        refine runs_setColor_left own fun h1 paint => ?_
        rw [runs_pure]
        exact ⟨rfl, rfl, rfl, paint⟩
      | red =>
        rw [if_neg (by simp), runs_bind, runs_of_run second, if_pos (by simp [inner, outer])]
        simp only [runs_bind]
        refine runs_setColor_root own fun h1 root => ?_
        refine runs_setColor_left root.own fun h2 paint => ?_
        rw [runs_pure]
        exact ⟨rfl, rfl, rfl, root.trans paint⟩

theorem runs_markDeleteRight {fuel : Nat} (own : Owns nil h (.node c l k r)) (sibling : Sibling l)
    (two : 2 ≤ fuel) : Runs (markDeleteRight fuel k.addr balance) h (Marked nil h (.node c l k r)
      balance (deleteRight c l k r) (if l.color = .red then [.recursion] else [])) := by
  cases sibling with
  | black =>
    obtain ⟨fuel, rfl⟩ : ∃ n, fuel = n + 1 := ⟨fuel - 1, by omega⟩
    exact runs_markDeleteRight_black own
  | @red a b e f x j y =>
    obtain ⟨fuel, rfl⟩ : ∃ n, fuel = n + 2 := ⟨fuel - 2, by omega⟩
    rw [markDeleteRight, runs_bind, runs_getLeft_own own, runs_bind, runs_isRed_own own.left, if_pos (by rfl),
      runs_bind]
    refine (runs_mmRotateRight own).mono ?_
    rintro _ h1 ⟨rfl, turned⟩
    simp only [runs_bind]
    refine runs_setColor_root turned.own fun h2 root => ?_
    refine runs_setColor_right root.own fun h3 right => ?_
    rw [runs_getRight_own right.own, rootPtr_node]
    refine (runs_markDeleteRight_black right.own.right).mono ?_
    rintro ⟨_, flag, _⟩ h4 ⟨rfl, rfl, rfl, inner⟩
    rw [runs_setRight (inner.frame.nodeIn.mpr right.own.nodeIn), runs_pure]
    have whole := inner.right right.own
    exact ⟨rfl, rfl, rfl, ((turned.trans root).trans right).trans whole⟩

theorem runs_mmDeleteRight {fuel : Nat} (own : Owns nil h (.node c l k r)) (sibling : Sibling l)
    (deep : l.height < fuel) :
    Runs (mmDeleteRight fuel k.addr balance) h (Repaired nil h (.node c l k r) balance (deleteRight c l k r)) := by
  rw [← unmarked_deleteRight, runs_map]
  exact (runs_markDeleteRight own sibling (sibling.two_le deep)).mono fun _ _ marked => marked.2

end Repair

end Splab.Malloc
