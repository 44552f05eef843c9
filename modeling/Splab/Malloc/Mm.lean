import Splab.Malloc.FreeTree

namespace Splab.Malloc

/-- `ALIGN(size)` in 32-bit arithmetic: round up to a multiple of 8. -/
def align (size : Nat) : Nat := (size + 7) % 2 ^ 32 / 8 * 8

/-- The sizes of `MM_UNIT`, `MM_HEADER_SIZE`, `MM_NODE_SIZE` and `MM_DATA_SIZE` in bytes. -/
def mmUnit : Nat := 144
def mmHeaderSize : Nat := 8
def mmNodeSize : Nat := 16
def mmDataSize : Nat := 24

/-- The loop of `mm_memset` from index `i` on, with `len` bytes to go. -/
def mmMemsetLoop (b : Nat) (c : UInt8) : Nat → Nat → Mm Unit
  | _, 0 => return ()
  | i, len + 1 => do
    storeByte (b + i) c
    mmMemsetLoop b c (i + 1) len

def mmMemset (b : Nat) (c : UInt8) (len : Nat) : Mm Nat := do
  mmMemsetLoop b c 0 len
  return b

/-- The loop of `mm_memcpy` from index `i` on, with `n` bytes to go. -/
def mmMemcpyLoop (dst src : Nat) : Nat → Nat → Mm Unit
  | _, 0 => return ()
  | i, n + 1 => do
    storeByte (dst + i) (← loadByte (src + i))
    mmMemcpyLoop dst src (i + 1) n

def mmMemcpy (dst src n : Nat) : Mm Nat := do
  mmMemcpyLoop dst src 0 n
  return dst

def mmGetPrev (ptr : Nat) : Mm Nat := getPrev ptr

def mmGetNext (ptr : Nat) : Mm Nat := do
  return (ptr + 8 * (← getSize ptr)) % 2 ^ 32

def mmClearHeader (ptr : Nat) : Mm Unit := do
  let _ ← mmMemset ptr 0 mmHeaderSize

def mmFragNode (now size : Nat) : Mm Nat := do
  if (← getSize now) < size + mmNodeSize / 8 then
    setPrev (← mmGetNext now) now
    return now
  else
    let tsize := (← getSize now) - size
    setSize now size
    let next ← mmGetNext now
    mmClearHeader next
    setSize next tsize
    setPrev next now
    setPrev (← mmGetNext next) next
    setAlloc next false
    mmInsert next
    return now

/-- The pointer `p - MM_HEADER_SIZE` in 32-bit arithmetic. -/
def backHeader (p : Nat) : Nat := (p + (2 ^ 32 - mmHeaderSize)) % 2 ^ 32

def mmSbrk (size : Nat) : Mm Nat := do
  if size < mmUnit then
    let ptr := backHeader (← memSbrk mmUnit)
    setSize ptr (mmUnit / 8)
    mmClearHeader (ptr + mmUnit)
    setAlloc ptr true
    mmFragNode ptr ((size + mmHeaderSize) / 8)
  else
    let ptr := backHeader (← memSbrk (asInt size))
    setSize ptr (size / 8)
    mmClearHeader (ptr + size)
    setAlloc ptr true
    setPrev (← mmGetNext ptr) ptr
    return ptr

def mmInit : Mm Nat := do
  let data ← memSbrk mmDataSize
  let _ ← mmMemset data 0 mmDataSize
  setRoot data (data + 4)
  setColor (data + 4) .black
  setNull (data + 4) true
  mmClearHeader (← memSbrk mmHeaderSize)
  return 0

/-- The size of a request in units, header included. -/
def unitsFor (size : Nat) : Nat := (align size + mmHeaderSize) % 2 ^ 32 / 8

def mmMalloc (size : Nat) : Mm Nat := do
  let size := unitsFor size
  let ptr ← mmSearch size
  if ptr = 0 then
    let ptr ← mmSbrk (size * 8 % 2 ^ 32)
    return ptr + mmHeaderSize
  else
    mmDelete ptr
    let ptr ← mmFragNode ptr size
    setAlloc ptr true
    return ptr + mmHeaderSize

/-- The end of `mm_free`: the merged segment goes into the list and the tree. -/
def mmFreeInsert (now : Nat) : Mm Unit := do
  setAlloc now false
  setPrev (← mmGetNext now) now
  mmInsert now

/-- The first `if` of `mm_free`, with the value of `now` after it. -/
def mmFreePrev (prev now : Nat) : Mm Nat := do
  if ← both (pure (prev != 0)) (do return !(← getAlloc prev)) then
    mmDelete prev
    setSize prev ((← getSize prev) + (← getSize now))
    return prev
  else
    return now

/-- The second `if` of `mm_free` and what follows it. -/
def mmFreeNext (now next : Nat) : Mm Unit := do
  if ← both (do return (← getSize next) != 0) (do return !(← getAlloc next)) then
    mmDelete next
    setSize now ((← getSize now) + (← getSize next))
    mmFreeInsert now
  else
    mmFreeInsert now

def mmFree (ptr : Nat) : Mm Unit := do
  let now := backHeader ptr
  let prev ← mmGetPrev now
  let next ← mmGetNext now
  mmFreeNext (← mmFreePrev prev now) next

/-- `next->size != 0 && next->alloc == MM_ALLOC_FREE && sum < size` -/
def freeBelow (next sum size : Nat) : Mm Bool :=
  both (do return (← getSize next) != 0) (both (do return !(← getAlloc next)) (pure (decide (sum < size))))

/-- The first loop of `mm_realloc`: adds up the free segments from `next` on. -/
def mmReallocSum : Nat → Nat → Nat → Nat → Mm (Nat × Nat)
  | 0, _, _, _ => throw .depth
  | fuel + 1, next, sum, size => do
    if ← freeBelow next sum size then
      let sum := sum + (← getSize next)
      mmReallocSum fuel (← mmGetNext next) sum size
    else
      return (next, sum)

/-- The second loop: takes the free segments from `next` on into `now`. -/
def mmReallocMerge : Nat → Nat → Nat → Nat → Mm Unit
  | 0, _, _, _ => throw .depth
  | fuel + 1, now, next, size => do
    if ← freeBelow next (← getSize now) size then
      mmDelete next
      setSize now ((← getSize now) + (← getSize next))
      mmReallocMerge fuel now (← mmGetNext next) size
    else
      return ()

/-- The expand case of `mm_realloc`, after the following segments were found to suffice. -/
def mmReallocExpand (now size : Nat) : Mm Unit := do
  mmReallocMerge depthLimit now (← mmGetNext now) size
  setPrev (← mmGetNext now) now

def mmRealloc (ptr size : Nat) : Mm Nat := do
  if ptr = 0 then
    mmMalloc size
  else if size = 0 then
    mmFree ptr
    return ptr
  else
    let osize := size
    let size := unitsFor size
    let now := backHeader ptr
    if size ≤ (← getSize now) then
      let _ ← mmFragNode now size
      return ptr
    else
      let (next, sum) ← mmReallocSum depthLimit (← mmGetNext now) (← getSize now) size
      if ← both (pure (decide (sum < size))) (do return (← getSize next) == 0) then
        let next ← mmSbrk ((size - sum) * 8 % 2 ^ 32)
        setAlloc next false
        mmInsert next
        mmReallocExpand now size
        return ptr
      else if sum < size then
        let new ← mmMalloc osize
        let _ ← mmMemcpy new ptr (8 * (← getSize now) - mmHeaderSize)
        mmFree ptr
        return new
      else
        mmReallocExpand now size
        return ptr

end Splab.Malloc
