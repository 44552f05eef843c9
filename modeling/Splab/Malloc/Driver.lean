import Splab.Malloc.Sessions

namespace Splab.Malloc

/-- The extent of the payload of a block, both ends included. -/
structure Range where
  lo : Nat
  hi : Nat
  deriving DecidableEq

inductive OpType
  | alloc
  | free
  | realloc
  deriving DecidableEq

/-- One request of a trace. The size is an `int`. -/
structure TraceOp where
  type : OpType
  index : Nat
  size : Int

structure Trace where
  numIds : Nat
  ops : List TraceOp

/-- The state of mdriver.c: the heap of the package, the range list with the newest range first, the arrays of the
trace, whose elements are unassigned at first, and the errors with what has been printed about them. -/
structure Driver where
  heap : Heap
  ranges : List Range
  blocks : Nat → Option Nat
  blockSizes : Nat → Option Nat
  errors : Nat
  printed : List String

/-- The driver after `mem_init`, which has reserved the storage at `start`. -/
def driverInit (start : Nat) (bytes : Bytes) : Driver where
  heap := memInit start bytes
  ranges := []
  blocks _ := none
  blockSizes _ := none
  errors := 0
  printed := []

/-- How a run of the driver ends early: the package goes wrong, an assertion does not hold, an element of an array is
read before it is written or does not exist, or `app_error` ends the process. -/
inductive DriverFault
  | package (fault : Fault)
  | assertion
  | unassigned
  | outOfBounds
  | appError (msg : String)

abbrev Driving := EStateM DriverFault Driver

/-- The functions of a malloc package, as the driver calls them. -/
structure Package where
  init : Mm Int
  malloc : Int → Mm Nat
  realloc : Nat → Int → Mm Nat
  free : Nat → Mm Unit

/-- The value of an `int` passed where a `size_t` is expected. -/
def asSize (n : Int) : Nat := (n % 2 ^ 32).toNat

/-- The package of mm.c. -/
def mmPackage : Package where
  init := do return (← mmInit : Nat)
  malloc n := mmMalloc (asSize n)
  realloc p n := mmRealloc p (asSize n)
  free := mmFree

def memResetBrk : Mm Unit := modify fun h => { h with memBrk := h.memStartBrk }

def memHeapHi : Mm Nat := do
  return (← get).memBrk - 1

def memHeapsize : Mm Nat := do
  return (← get).memBrk - (← get).memStartBrk

def inPackage {α : Type} (x : Mm α) : Driving α := fun d =>
  match x d.heap with
  | .ok a h => .ok a { d with heap := h }
  | .error e h => .error (.package e) { d with heap := h }

/-- The text for `%p`. -/
def pointer (p : Nat) : String := "0x" ++ String.ofList (Nat.toDigits 16 p)

/-- `malloc_error`, with the number of the line of the request in its trace file. -/
def mallocError (tracenum opnum : Nat) (msg : String) : Driving Unit :=
  modify fun d => { d with
    errors := d.errors + 1
    printed := d.printed ++
      ["ERROR [trace " ++ toString tracenum ++ ", line " ++ toString (opnum + 5) ++ "]: " ++ msg] }

/-- The test of `add_range` for the range `p` and a new payload. -/
def Range.overlaps (p : Range) (lo hi : Nat) : Bool :=
  (p.lo ≤ lo && lo ≤ p.hi) || (p.lo ≤ hi && hi ≤ p.hi)

def addRange (lo : Nat) (size : Int) (tracenum opnum : Nat) : Driving Bool := do
  let hi := lo + size.toNat - 1
  if size ≤ 0 then throw .assertion
  else if lo % 8 ≠ 0 then do
    mallocError tracenum opnum ("Payload address (" ++ pointer lo ++ ") not aligned to 8 bytes")
    return false
  else
    let heapLo ← inPackage memHeapLo
    let heapHi ← inPackage memHeapHi
    if lo < heapLo ∨ heapHi < lo ∨ hi < heapLo ∨ heapHi < hi then do
      mallocError tracenum opnum ("Payload (" ++ pointer lo ++ ":" ++ pointer hi ++ ") lies outside heap (" ++
        pointer heapLo ++ ":" ++ pointer heapHi ++ ")")
      return false
    else
      match (← get).ranges.find? (·.overlaps lo hi) with
      | some p =>
        mallocError tracenum opnum ("Payload (" ++ pointer lo ++ ":" ++ pointer hi ++ ") overlaps another payload (" ++
          pointer p.lo ++ ":" ++ pointer p.hi ++ ")\n")
        return false
      | none =>
        modify fun d => { d with ranges := ⟨lo, hi⟩ :: d.ranges }
        return true

def removeRange (lo : Nat) : Driving Unit := modify fun d => { d with ranges := d.ranges.eraseP (·.lo = lo) }

def clearRanges : Driving Unit := modify fun d => { d with ranges := [] }

/-- `trace->blocks[index]` -/
def loadEntry (array : Driver → Nat → Option Nat) (numIds index : Nat) : Driving Nat := do
  if index < numIds then
    match array (← get) index with
    | some v => return v
    | none => throw .unassigned
  else throw .outOfBounds

def storeEntry (store : Driver → Driver) (numIds index : Nat) : Driving Unit := do
  if index < numIds then modify store
  else throw .outOfBounds

def loadBlock (numIds index : Nat) : Driving Nat := loadEntry Driver.blocks numIds index

def loadBlockSize (numIds index : Nat) : Driving Nat := loadEntry Driver.blockSizes numIds index

def storeBlock (numIds index p : Nat) : Driving Unit :=
  storeEntry (fun d => { d with blocks := Function.update d.blocks index (some p) }) numIds index

def storeBlockSize (numIds index n : Nat) : Driving Unit :=
  storeEntry (fun d => { d with blockSizes := Function.update d.blockSizes index (some n) }) numIds index

/-- `index & 0xFF` -/
def lowByte (index : Nat) : Nat := index % 2 ^ 8

/-- `memset(p, index & 0xFF, size)` -/
def fill (p index size : Nat) : Driving Unit := inPackage (mmMemsetLoop p (UInt8.ofNat (lowByte index)) 0 size)

/-- The value of a `char`, which is signed. -/
def charValue (b : UInt8) : Int := (b.toNat : Int).bmod (2 ^ 8)

/-- The loop over the old bytes after `mm_realloc`, from `j` on, with `left` bytes to go. -/
def preserved (newp index : Nat) : Nat → Nat → Driving Bool
  | _, 0 => return true
  | j, left + 1 => do
    if charValue (← inPackage (loadByte (newp + j))) ≠ lowByte index then return false
    else preserved newp index (j + 1) left

/-- One round of the loop of `eval_mm_valid`, and whether the loop goes on. -/
def validOp (pkg : Package) (numIds tracenum i : Nat) (op : TraceOp) : Driving Bool :=
  match op.type with
  | .alloc => do
    let p ← inPackage (pkg.malloc op.size)
    if p = 0 then do
      mallocError tracenum i "mm_malloc failed."
      return false
    else if ← addRange p op.size tracenum i then do
      fill p op.index (asSize op.size)
      storeBlock numIds op.index p
      storeBlockSize numIds op.index (asSize op.size)
      return true
    else return false
  | .realloc => do
    let oldp ← loadBlock numIds op.index
    let newp ← inPackage (pkg.realloc oldp op.size)
    if newp = 0 then do
      mallocError tracenum i "mm_realloc failed."
      return false
    else do
      removeRange oldp
      if ← addRange newp op.size tracenum i then do
        let oldsize := asInt (← loadBlockSize numIds op.index)
        if ← preserved newp op.index 0 (if op.size < oldsize then op.size else oldsize).toNat then do
          fill newp op.index (asSize op.size)
          storeBlock numIds op.index newp
          storeBlockSize numIds op.index (asSize op.size)
          return true
        else do
          mallocError tracenum i "mm_realloc did not preserve the data from old block"
          return false
      else return false
  | .free => do
    let p ← loadBlock numIds op.index
    removeRange p
    inPackage (pkg.free p)
    return true

def validOps (pkg : Package) (numIds tracenum : Nat) : Nat → List TraceOp → Driving Bool
  | _, [] => return true
  | i, op :: rest => do
    if ← validOp pkg numIds tracenum i op then validOps pkg numIds tracenum (i + 1) rest
    else return false

def evalMmValid (pkg : Package) (trace : Trace) (tracenum : Nat) : Driving Bool := do
  inPackage memResetBrk
  clearRanges
  if (← inPackage pkg.init) < 0 then do
    mallocError tracenum 0 "mm_init failed."
    return false
  else validOps pkg trace.numIds tracenum 0 trace.ops

/-- One round of the loop of `eval_mm_util`, with `total_size` and `max_total_size`. -/
def utilOp (pkg : Package) (numIds : Nat) (op : TraceOp) (total max : Int) : Driving (Int × Int) :=
  match op.type with
  | .alloc => do
    let p ← inPackage (pkg.malloc op.size)
    if p = 0 then throw (.appError "mm_malloc failed in eval_mm_util")
    else do
      storeBlock numIds op.index p
      storeBlockSize numIds op.index (asSize op.size)
      let total := total + op.size
      return (total, if max < total then total else max)
  | .realloc => do
    let oldsize := asInt (← loadBlockSize numIds op.index)
    let oldp ← loadBlock numIds op.index
    let newp ← inPackage (pkg.realloc oldp op.size)
    if newp = 0 then throw (.appError "mm_realloc failed in eval_mm_util")
    else do
      storeBlock numIds op.index newp
      storeBlockSize numIds op.index (asSize op.size)
      let total := total + (op.size - oldsize)
      return (total, if max < total then total else max)
  | .free => do
    let size := asInt (← loadBlockSize numIds op.index)
    let p ← loadBlock numIds op.index
    inPackage (pkg.free p)
    return (total - size, max)

def utilOps (pkg : Package) (numIds : Nat) : List TraceOp → Int → Int → Driving Int
  | [], _, max => return max
  | op :: rest, total, max => do
    let (total, max) ← utilOp pkg numIds op total max
    utilOps pkg numIds rest total max

/-- The two numbers that `eval_mm_util` divides. -/
def evalMmUtil (pkg : Package) (trace : Trace) : Driving (Int × Nat) := do
  inPackage memResetBrk
  if (← inPackage pkg.init) < 0 then throw (.appError "mm_init failed in eval_mm_util")
  else do
    let max ← utilOps pkg trace.numIds trace.ops 0 0
    return (max, ← inPackage memHeapsize)

/-- One round of the loop of `eval_mm_speed`. -/
def speedOp (pkg : Package) (numIds : Nat) (op : TraceOp) : Driving Unit :=
  match op.type with
  | .alloc => do
    let p ← inPackage (pkg.malloc op.size)
    if p = 0 then throw (.appError "mm_malloc error in eval_mm_speed")
    else storeBlock numIds op.index p
  | .realloc => do
    let oldp ← loadBlock numIds op.index
    let newp ← inPackage (pkg.realloc oldp op.size)
    if newp = 0 then throw (.appError "mm_realloc error in eval_mm_speed")
    else storeBlock numIds op.index newp
  | .free => do
    let block ← loadBlock numIds op.index
    inPackage (pkg.free block)

def evalMmSpeed (pkg : Package) (trace : Trace) : Driving Unit := do
  inPackage memResetBrk
  if (← inPackage pkg.init) < 0 then throw (.appError "mm_init failed in eval_mm_speed")
  else trace.ops.forM (speedOp pkg trace.numIds)

/-- The timing of `eval_mm_speed`, which makes it run some number of times. -/
def fsecs (pkg : Package) (trace : Trace) : Nat → Driving Unit
  | 0 => return ()
  | runs + 1 => do
    evalMmSpeed pkg trace
    fsecs pkg trace runs

/-- One round of the loop of `main` over the traces, with new arrays from `read_trace`, and what it stores in
`mm_stats` but the time: `valid`, and for a valid trace the two numbers of its `util`. -/
def evalTrace (pkg : Package) (runs tracenum : Nat) (trace : Trace) : Driving (Option (Int × Nat)) := do
  modify fun d => { d with blocks := fun _ => none, blockSizes := fun _ => none }
  if ← evalMmValid pkg trace tracenum then do
    let util ← evalMmUtil pkg trace
    fsecs pkg trace runs
    return some util
  else return none

def evalTraces (pkg : Package) (runs : Nat) : Nat → List Trace → Driving (List (Option (Int × Nat)))
  | _, [] => return []
  | tracenum, trace :: rest => do
    let stats ← evalTrace pkg runs tracenum trace
    return stats :: (← evalTraces pkg runs (tracenum + 1) rest)

/-- Every kind of request: the reallocation moves its block and the free hands one back. -/
def sampleTrace : Trace where
  numIds := 3
  ops := [⟨.alloc, 0, 100⟩, ⟨.alloc, 1, 200⟩, ⟨.alloc, 2, 60⟩, ⟨.realloc, 1, 300⟩, ⟨.free, 0, 0⟩, ⟨.realloc, 2, 500⟩]

/-- A reallocation of the id 128. -/
def failingTrace : Trace where
  numIds := 129
  ops := [⟨.alloc, 128, 10⟩, ⟨.realloc, 128, 20⟩]

end Splab.Malloc
