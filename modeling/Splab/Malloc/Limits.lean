import Splab.Malloc.Mm

namespace Splab.Malloc

/-! The functions of mm.c with the limit on the depth of the tree recursions as a parameter: a recursion that would
go deeper is a fault. With `depthLimit` they are the functions themselves. -/

section Upto
variable (limit : Nat)

def mmSearchUpto (size : Nat) : Mm Nat := do
  let data ← memHeapLo
  mmSearchNode limit (← getRoot data) size

def mmInsertUpto (new : Nat) : Mm Unit := do
  modify fun h => { h with calls := .mmInsert new (h.node new).size :: h.calls }
  let data ← memHeapLo
  setRoot data (← mmInsertNode limit (← getRoot data) new)
  setColor (← getRoot data) .black

def mmDeleteUpto (del : Nat) : Mm Unit := do
  let data ← memHeapLo
  let (root, _, _) ← mmDeleteNode limit (← getRoot data) del none false
  setRoot data root
  setColor (← getRoot data) .black

def mmFragNodeUpto (now size : Nat) : Mm Nat := do
  if (← getSize now) < size + mmNodeSize / 8 then
    setPrev (← mmGetNext now) now
    return now
  else
    let tsize := (← getSize now) - size
    setSize now size
    let next ← mmGetNext now
    mmClearHeader next
    setSize next tsize
    setPrev next now
    setPrev (← mmGetNext next) next
    setAlloc next false
    mmInsertUpto limit next
    return now

def mmSbrkUpto (size : Nat) : Mm Nat := do
  if size < mmUnit then
    let ptr := backHeader (← memSbrk mmUnit)
    setSize ptr (mmUnit / 8)
    mmClearHeader (ptr + mmUnit)
    setAlloc ptr true
    mmFragNodeUpto limit ptr ((size + mmHeaderSize) / 8)
  else
    let ptr := backHeader (← memSbrk (asInt size))
    setSize ptr (size / 8)
    mmClearHeader (ptr + size)
    setAlloc ptr true
    setPrev (← mmGetNext ptr) ptr
    return ptr

def mmMallocUpto (size : Nat) : Mm Nat := do
  let size := unitsFor size
  let ptr ← mmSearchUpto limit size
  if ptr = 0 then
    let ptr ← mmSbrkUpto limit (size * 8 % 2 ^ 32)
    return ptr + mmHeaderSize
  else
    mmDeleteUpto limit ptr
    let ptr ← mmFragNodeUpto limit ptr size
    setAlloc ptr true
    return ptr + mmHeaderSize

def mmFreeInsertUpto (now : Nat) : Mm Unit := do
  setAlloc now false
  setPrev (← mmGetNext now) now
  mmInsertUpto limit now

def mmFreePrevUpto (prev now : Nat) : Mm Nat := do
  if ← both (pure (prev != 0)) (do return !(← getAlloc prev)) then
    mmDeleteUpto limit prev
    setSize prev ((← getSize prev) + (← getSize now))
    return prev
  else
    return now

def mmFreeNextUpto (now next : Nat) : Mm Unit := do
  if ← both (do return (← getSize next) != 0) (do return !(← getAlloc next)) then
    mmDeleteUpto limit next
    setSize now ((← getSize now) + (← getSize next))
    mmFreeInsertUpto limit now
  else
    mmFreeInsertUpto limit now

def mmFreeUpto (ptr : Nat) : Mm Unit := do
  let now := backHeader ptr
  let prev ← mmGetPrev now
  let next ← mmGetNext now
  mmFreeNextUpto limit (← mmFreePrevUpto limit prev now) next

def mmReallocMergeUpto : Nat → Nat → Nat → Nat → Mm Unit
  | 0, _, _, _ => throw .depth
  | fuel + 1, now, next, size => do
    if ← freeBelow next (← getSize now) size then
      mmDeleteUpto limit next
      setSize now ((← getSize now) + (← getSize next))
      mmReallocMergeUpto fuel now (← mmGetNext next) size
    else
      return ()

/-- The loop of the expand case is no recursion and keeps its own bound. -/
def mmReallocExpandUpto (now size : Nat) : Mm Unit := do
  mmReallocMergeUpto limit depthLimit now (← mmGetNext now) size
  setPrev (← mmGetNext now) now

def mmReallocUpto (ptr size : Nat) : Mm Nat := do
  if ptr = 0 then
    mmMallocUpto limit size
  else if size = 0 then
    mmFreeUpto limit ptr
    return ptr
  else
    let osize := size
    let size := unitsFor size
    let now := backHeader ptr
    if size ≤ (← getSize now) then
      let _ ← mmFragNodeUpto limit now size
      return ptr
    else
      let (next, sum) ← mmReallocSum depthLimit (← mmGetNext now) (← getSize now) size
      if ← both (pure (decide (sum < size))) (do return (← getSize next) == 0) then
        let next ← mmSbrkUpto limit ((size - sum) * 8 % 2 ^ 32)
        setAlloc next false
        mmInsertUpto limit next
        mmReallocExpandUpto limit now size
        return ptr
      else if sum < size then
        let new ← mmMallocUpto limit osize
        let _ ← mmMemcpy new ptr (8 * (← getSize now) - mmHeaderSize)
        mmFreeUpto limit ptr
        return new
      else
        mmReallocExpandUpto limit now size
        return ptr

end Upto

section Faithful
variable {fuel now next size : Nat}

theorem mmReallocMergeUpto_depthLimit :
    mmReallocMergeUpto depthLimit fuel now next size = mmReallocMerge fuel now next size := by
  induction fuel generalizing next with
  | zero => rfl
  | succ fuel ih =>
    rw [mmReallocMergeUpto, mmReallocMerge]
    simp only [ih]
    rfl

theorem mmReallocExpandUpto_depthLimit : mmReallocExpandUpto depthLimit now size = mmReallocExpand now size := by
  unfold mmReallocExpandUpto mmReallocExpand
  simp only [mmReallocMergeUpto_depthLimit]

theorem mmReallocUpto_depthLimit {ptr : Nat} : mmReallocUpto depthLimit ptr size = mmRealloc ptr size := by
  unfold mmReallocUpto mmRealloc
  simp only [mmReallocExpandUpto_depthLimit]
  rfl

end Faithful

end Splab.Malloc
