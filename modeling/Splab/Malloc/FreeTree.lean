import Splab.Malloc.Node

namespace Splab.Malloc
open RedBlack

/-- A bound on the recursions and the list walks of mm.c. No heap holds more nodes. -/
def depthLimit : Nat := maxHeap

/-- The lazy `&&` of two conditions that read memory. -/
def both (x y : Mm Bool) : Mm Bool := do
  if ← x then y else return false

/-- The lazy `||` of two conditions that read memory. -/
def either (x y : Mm Bool) : Mm Bool := do
  if ← x then return true else y

def isRed (p : Nat) : Mm Bool := do return (← getColor p) == .red

def isBlack (p : Nat) : Mm Bool := do return (← getColor p) == .black

def mmCmpNode (x y : Nat) : Mm Bool := do
  if (← getSize x) == (← getSize y) then
    return decide (x < y)
  else
    return decide ((← getSize x) < (← getSize y))

def mmRotateLeft (now : Nat) : Mm Nat := do
  let tmp ← getRight now
  setRight now (← getLeft tmp)
  setLeft tmp now
  return tmp

def mmRotateRight (now : Nat) : Mm Nat := do
  let tmp ← getLeft now
  setLeft now (← getRight tmp)
  setRight tmp now
  return tmp

def mmSearchNode : Nat → Nat → Nat → Mm Nat
  | 0, _, _ => throw .depth
  | fuel + 1, now, size => do
    if ← getNull now then
      return 0
    else if size ≤ (← getSize now) then
      let ptr ← mmSearchNode fuel (← getLeft now) size
      if ptr = 0 then return now else return ptr
    else
      mmSearchNode fuel (← getRight now) size

/-- The end of the left case of `mm_insert_node`, from the test of
`now->left->left` on. -/
def mmInsertFixLeft (now : Nat) : Mm Nat := do
  if ← isRed (← getLeft (← getLeft now)) then
    if ← isRed (← getRight now) then
      setColor (← getRight now) .black
      setColor (← getLeft now) .black
      setColor now .red
      return now
    else
      let now ← mmRotateRight now
      setColor (← getRight now) .red
      setColor (← getLeft now) .red
      setColor now .black
      return now
  else
    return now

/-- `mm_insert_node` after the recursive call on the left. -/
def mmInsertNodeLeft (now : Nat) : Mm Nat := do
  if ← isRed (← getLeft now) then
    if ← isRed (← getRight (← getLeft now)) then
      setLeft now (← mmRotateLeft (← getLeft now))
      mmInsertFixLeft now
    else
      mmInsertFixLeft now
  else
    return now

def mmInsertFixRight (now : Nat) : Mm Nat := do
  if ← isRed (← getRight (← getRight now)) then
    if ← isRed (← getLeft now) then
      setColor (← getRight now) .black
      setColor (← getLeft now) .black
      setColor now .red
      return now
    else
      let now ← mmRotateLeft now
      setColor (← getRight now) .red
      setColor (← getLeft now) .red
      setColor now .black
      return now
  else
    return now

/-- `mm_insert_node` after the recursive call on the right. -/
def mmInsertNodeRight (now : Nat) : Mm Nat := do
  if ← isRed (← getRight now) then
    if ← isRed (← getLeft (← getRight now)) then
      setRight now (← mmRotateRight (← getRight now))
      mmInsertFixRight now
    else
      mmInsertFixRight now
  else
    return now

def mmInsertNode : Nat → Nat → Nat → Mm Nat
  | 0, _, _ => throw .depth
  | fuel + 1, now, new => do
    if ← getNull now then
      setRight new now
      setLeft new now
      setColor new .red
      return new
    else if ← mmCmpNode new now then
      setLeft now (← mmInsertNode fuel (← getLeft now) new)
      mmInsertNodeLeft now
    else
      setRight now (← mmInsertNode fuel (← getRight now) new)
      mmInsertNodeRight now

/-- The end of `mm_delete_left`: a black sibling whose outer child is red. -/
def mmDeleteLeftOuter (now : Nat) (balance : Option Bool) : Mm (Nat × Option Bool) := do
  if ← both (do isBlack (← getRight now)) (do isRed (← getRight (← getRight now))) then
    let now ← mmRotateLeft now
    setColor now (← getColor (← getLeft now))
    setColor (← getRight now) .black
    setColor (← getLeft now) .black
    return (now, some true)
  else
    return (now, balance)

/-- `mm_delete_left`; the local variable behind `balance` is passed along and
returned, `none` while nothing was assigned to it. -/
def mmDeleteLeft : Nat → Nat → Option Bool → Mm (Nat × Option Bool)
  | 0, _, _ => throw .depth
  | fuel + 1, now, balance => do
    if ← isRed (← getRight now) then
      let now ← mmRotateLeft now
      setColor now .black
      setColor (← getLeft now) .red
      let (sub, balance) ← mmDeleteLeft fuel (← getLeft now) balance
      setLeft now sub
      return (now, balance)
    else if ← both (isBlack now) (both (do isBlack (← getRight now))
        (both (do isBlack (← getLeft (← getRight now))) (do isBlack (← getRight (← getRight now))))) then
      setColor (← getRight now) .red
      return (now, balance)
    else if ← both (isRed now) (both (do isBlack (← getLeft (← getRight now)))
        (do isBlack (← getRight (← getRight now)))) then
      setColor now .black
      setColor (← getRight now) .red
      return (now, some true)
    else if ← both (do isBlack (← getRight now)) (both (do isRed (← getLeft (← getRight now)))
        (do isBlack (← getRight (← getRight now)))) then
      setRight now (← mmRotateRight (← getRight now))
      setColor (← getRight now) .black
      setColor (← getRight (← getRight now)) .red
      mmDeleteLeftOuter now balance
    else
      mmDeleteLeftOuter now balance

def mmDeleteRightOuter (now : Nat) (balance : Option Bool) : Mm (Nat × Option Bool) := do
  if ← both (do isBlack (← getLeft now)) (do isRed (← getLeft (← getLeft now))) then
    let now ← mmRotateRight now
    setColor now (← getColor (← getRight now))
    setColor (← getLeft now) .black
    setColor (← getRight now) .black
    return (now, some true)
  else
    return (now, balance)

def mmDeleteRight : Nat → Nat → Option Bool → Mm (Nat × Option Bool)
  | 0, _, _ => throw .depth
  | fuel + 1, now, balance => do
    if ← isRed (← getLeft now) then
      let now ← mmRotateRight now
      setColor now .black
      setColor (← getRight now) .red
      let (sub, balance) ← mmDeleteRight fuel (← getRight now) balance
      setRight now sub
      return (now, balance)
    else if ← both (isBlack now) (both (do isBlack (← getLeft now))
        (both (do isBlack (← getLeft (← getLeft now))) (do isBlack (← getRight (← getLeft now))))) then
      setColor (← getLeft now) .red
      return (now, balance)
    else if ← both (isRed now) (both (do isBlack (← getLeft (← getLeft now)))
        (do isBlack (← getRight (← getLeft now)))) then
      setColor now .black
      setColor (← getLeft now) .red
      return (now, some true)
    else if ← both (do isBlack (← getLeft now)) (both (do isRed (← getRight (← getLeft now)))
        (do isBlack (← getLeft (← getLeft now)))) then
      setLeft now (← mmRotateLeft (← getLeft now))
      setColor (← getLeft now) .black
      setColor (← getLeft (← getLeft now)) .red
      mmDeleteRightOuter now balance
    else
      mmDeleteRightOuter now balance

/-- A read of a local variable; reading it before any assignment is a fault. -/
def readLocal {α : Type} : Option α → Mm α
  | none => throw .unassigned
  | some v => return v

/-- The assignments of `mm_delete_node` that put `ptr` in the place of `now`. -/
def mmDeleteReplace (ptr now : Nat) : Mm Unit := do
  setColor ptr (← getColor now)
  setLeft ptr (← getLeft now)
  setRight ptr (← getRight now)
  setColor ptr (← getColor now)

/-- `mm_delete_node`; `target` says whether the pointer of that name is not
`NULL`, and the last component is what was stored through it. -/
def mmDeleteNode : Nat → Nat → Nat → Option Bool → Bool → Mm (Nat × Option Bool × Option Nat)
  | 0, _, _, _, _ => throw .depth
  | fuel + 1, now, del, balance, target => do
    if target then
      if ← getNull (← getLeft now) then
        let balance ← either (isRed now) (do isRed (← getRight now))
        let right ← getRight now
        setColor right .black
        return (right, some balance, some now)
      else
        let (sub, balance, least) ← mmDeleteNode fuel (← getLeft now) del balance target
        setLeft now sub
        if ← readLocal balance then
          return (now, balance, least)
        else
          let (now, balance) ← mmDeleteLeft fuel now balance
          return (now, balance, least)
    else if now = del then
      if ← getNull (← getRight now) then
        let balance ← either (isRed now) (do isRed (← getLeft now))
        let left ← getLeft now
        setColor left .black
        return (left, some balance, none)
      else
        let (sub, balance, least) ← mmDeleteNode fuel (← getRight now) del balance true
        setRight now sub
        let ptr ← readLocal least
        mmDeleteReplace ptr now
        if ← readLocal balance then
          return (ptr, balance, none)
        else
          let (now, balance) ← mmDeleteRight fuel ptr balance
          return (now, balance, none)
    else if ← mmCmpNode del now then
      let (sub, balance, _) ← mmDeleteNode fuel (← getLeft now) del balance false
      setLeft now sub
      if ← readLocal balance then
        return (now, balance, none)
      else
        let (now, balance) ← mmDeleteLeft fuel now balance
        return (now, balance, none)
    else
      let (sub, balance, _) ← mmDeleteNode fuel (← getRight now) del balance false
      setRight now sub
      if ← readLocal balance then
        return (now, balance, none)
      else
        let (now, balance) ← mmDeleteRight fuel now balance
        return (now, balance, none)

/-- `data->root`, the first word of the `MM_Data` area at `data`. -/
def getRoot (data : Nat) : Mm Nat := loadWord data

def setRoot (data v : Nat) : Mm Unit := storeWord data v

def mmSearch (size : Nat) : Mm Nat := do
  let data ← memHeapLo
  mmSearchNode depthLimit (← getRoot data) size

def mmInsert (new : Nat) : Mm Unit := do
  modify fun h => { h with calls := .mmInsert new (h.node new).size :: h.calls }
  let data ← memHeapLo
  setRoot data (← mmInsertNode depthLimit (← getRoot data) new)
  setColor (← getRoot data) .black

def mmDelete (del : Nat) : Mm Unit := do
  let data ← memHeapLo
  let (root, _, _) ← mmDeleteNode depthLimit (← getRoot data) del none false
  setRoot data root
  setColor (← getRoot data) .black

end Splab.Malloc
