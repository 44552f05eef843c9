import Splab.Malloc.Readback
import Splab.Malloc.Exhaustion

namespace Splab.Malloc

/-- A block that a client holds, with the bytes its owner last wrote there. Bytes
that were never written count as written with what the block was handed out with. -/
structure Block where
  ptr : Nat
  data : List UInt8
  deriving DecidableEq

/-- The allocator together with the abstract store of its clients. -/
structure World where
  heap : Heap
  live : List Block

inductive Request
  | malloc (size : Nat)
  | free (ptr : Nat)
  | realloc (ptr size : Nat)
  | write (ptr i : Nat) (v : UInt8)

def Heap.read (h : Heap) (p n : Nat) : List UInt8 := (List.range n).map fun i => h.bytes (p + i)

/-- The stored bytes of the block at `p`, and none if there is no such block. -/
def World.contents (w : World) (p : Nat) : List UInt8 := ((w.live.find? (·.ptr = p)).map Block.data).getD []

def World.forget (w : World) (p : Nat) : World := { w with live := w.live.filter (·.ptr ≠ p) }

/-- A block of `n` bytes at `p` that starts with the bytes `old`. -/
def World.add (w : World) (p : Nat) (old : List UInt8) (n : Nat) : World :=
  let kept := old.take n
  { w with live := ⟨p, kept ++ w.heap.read (p + kept.length) (n - kept.length)⟩ :: w.live }

/-- What `mm_realloc(p, n)` with the result `r` makes of the block at `p`; a size of 0 frees it. -/
def World.resize (w : World) (p n r : Nat) (old : List UInt8) : World :=
  if p ≠ 0 ∧ n = 0 then w.forget p else (w.forget p).add r old n

def World.store (w : World) (p i : Nat) (v : UInt8) : World :=
  { w with live := w.live.map fun b => if b.ptr = p then { b with data := b.data.set i v } else b }

abbrev Session := EStateM Fault World

def onHeap {α : Type} (x : Mm α) : Session α := fun w =>
  match x w.heap with
  | .ok a h => .ok a { w with heap := h }
  | .error e h => .error e { w with heap := h }

/-- One call, or one write of a client into a block, on the heap and on the abstract store. -/
def perform : Request → Session Nat
  | .malloc n => do
    let p ← onHeap (mmMalloc n)
    modify fun w => w.add p [] n
    return p
  | .free p => do
    onHeap (mmFree p)
    modify fun w => w.forget p
    return 0
  | .realloc p n => do
    let old := (← get).contents p
    let r ← onHeap (mmRealloc p n)
    modify fun w => w.resize p n r old
    return r
  | .write p i v => do
    onHeap (storeByte (p + i) v)
    modify fun w => w.store p i v
    return 0

/-- A run of requests, with the addresses that were returned. -/
def performAll : List Request → Session (List Nat)
  | [] => return []
  | q :: rest => do
    let r ← perform q
    let rs ← performAll rest
    return r :: rs

/-- The requests that clients may make: sizes from 1 to `MAX_HEAP`, only live
pointers freed or reallocated (or `NULL` reallocated), writes inside a live block. -/
def World.Allows (w : World) : Request → Prop
  | .malloc n => 1 ≤ n ∧ n ≤ maxHeap
  | .free p => ∃ b ∈ w.live, b.ptr = p
  | .realloc p n => (p = 0 ∨ ∃ b ∈ w.live, b.ptr = p) ∧ 1 ≤ n ∧ n ≤ maxHeap
  | .write p i _ => ∃ b ∈ w.live, b.ptr = p ∧ i < b.data.length

/-- The requests that the code accepts, with sizes from 0 on. -/
def World.Accepts (w : World) : Request → Prop
  | .malloc n => n ≤ maxHeap
  | .free p => ∃ b ∈ w.live, b.ptr = p
  | .realloc p n => (p = 0 ∨ ∃ b ∈ w.live, b.ptr = p) ∧ n ≤ maxHeap
  | .write p i _ => ∃ b ∈ w.live, b.ptr = p ∧ i < b.data.length

/-- The request cuts off no segment of a single unit. Only a size of 0 may ask for one unit. -/
def Request.Clean (segs : List Seg) : Request → Prop
  | .malloc n => NoSliver segs (unitsFor n)
  | .realloc p n => p = 0 → NoSliver segs (unitsFor n)
  | _ => True

/-- Each request of the run satisfies `P` in the state in which it is made. -/
def Along (P : World → Request → Prop) (w : World) : List Request → Prop
  | [] => True
  | q :: rest => P w q ∧ ∀ r w', perform q w = .ok r w' → Along P w' rest

def Legal (w : World) (reqs : List Request) : Prop := Along World.Allows w reqs

def Accepted (w : World) (reqs : List Request) : Prop := Along World.Accepts w reqs

def Careful (w : World) (reqs : List Request) : Prop :=
  Along (fun w q => w.Accepts q ∧ q.Clean w.heap.segments) w reqs

/-- No `mem_sbrk` failed in the run: a failure would have left its error code in `errno`. -/
def Unfailing (w : World) (reqs : List Request) : Prop := (finalState (performAll reqs w)).heap.errno = 0

/-- The state after `mm_init`, on any storage. -/
def Initial (w : World) : Prop :=
  ∃ start bytes, 0 < start ∧ 8 ∣ start ∧ start + maxHeap < 2 ^ 32 ∧
    mmInit (memInit start bytes) = .ok 0 w.heap ∧ w.live = []

section Decide
variable {P : World → Request → Prop} {w w' : World} {q : Request} {rest : List Request} {r n : Nat}
  {segs : List Seg}

instance : (q : Request) → Decidable (w.Allows q)
  | .malloc _ => inferInstanceAs (Decidable (_ ∧ _))
  | .free _ => inferInstanceAs (Decidable (∃ b ∈ w.live, _))
  | .realloc _ _ => inferInstanceAs (Decidable ((_ ∨ ∃ b ∈ w.live, _) ∧ _ ∧ _))
  | .write _ _ _ => inferInstanceAs (Decidable (∃ b ∈ w.live, _ ∧ _))

instance : (q : Request) → Decidable (w.Accepts q)
  | .malloc _ => inferInstanceAs (Decidable (_ ≤ _))
  | .free _ => inferInstanceAs (Decidable (∃ b ∈ w.live, _))
  | .realloc _ _ => inferInstanceAs (Decidable ((_ ∨ ∃ b ∈ w.live, _) ∧ _))
  | .write _ _ _ => inferInstanceAs (Decidable (∃ b ∈ w.live, _ ∧ _))

instance : Decidable (NoSliver segs n) := inferInstanceAs (Decidable (_ ∧ ∀ k ∈ bestFit segs n, _ → _))

instance : (q : Request) → Decidable (q.Clean segs)
  | .malloc _ => inferInstanceAs (Decidable (NoSliver _ _))
  | .free _ => inferInstanceAs (Decidable True)
  | .realloc _ _ => inferInstanceAs (Decidable (_ → NoSliver _ _))
  | .write _ _ _ => inferInstanceAs (Decidable True)

theorem along_cons (run : perform q w = .ok r w') : Along P w (q :: rest) ↔ P w q ∧ Along P w' rest := by
  refine and_congr_right fun _ => ⟨fun later => later r w' run, fun along s v other => ?_⟩
  cases run.symm.trans other
  exact along

theorem along_fault {e : Fault} (run : perform q w = .error e w') : Along P w (q :: rest) ↔ P w q :=
  ⟨And.left, fun holds => ⟨holds, fun r v other => by cases run.symm.trans other⟩⟩

/-- What holds along a run is checked by performing the run. -/
def decideAlong [∀ w q, Decidable (P w q)] : (reqs : List Request) → (w : World) → Decidable (Along P w reqs)
  | [], _ => .isTrue trivial
  | q :: rest, w =>
    match run : perform q w with
    | .ok _ w' =>
      match decideAlong rest w' with
      | .isTrue later => decidable_of_iff (P w q) (by rw [along_cons run]; exact (and_iff_left later).symm)
      | .isFalse never => .isFalse fun along => never ((along_cons run).mp along).2
    | .error _ _ => decidable_of_iff (P w q) (along_fault run).symm

instance {reqs : List Request} : Decidable (Legal w reqs) := decideAlong reqs w
instance {reqs : List Request} : Decidable (Accepted w reqs) := decideAlong reqs w
instance {reqs : List Request} : Decidable (Careful w reqs) := decideAlong reqs w

instance {reqs : List Request} : Decidable (Unfailing w reqs) := inferInstanceAs (Decidable (_ = _))

theorem Along.imp {R : World → Request → Prop} {reqs : List Request} (along : Along P w reqs)
    (imp : ∀ w q, P w q → R w q) : Along R w reqs := by
  induction reqs generalizing w with
  | nil => trivial
  | cons q rest ih => exact ⟨imp w q along.1, fun r w' run => ih (along.2 r w' run)⟩

end Decide

theorem runs_onHeap {α : Type} {x : Mm α} {w : World} {Q : α → World → Prop} :
    Runs (onHeap x) w Q ↔ Runs x w.heap fun a h => Q a { w with heap := h } := by
  unfold Runs onHeap
  constructor
  · rintro ⟨a, w', run, post⟩
    cases eq : x w.heap with
    | ok b h =>
      simp only [eq, EStateM.Result.ok.injEq] at run
      obtain ⟨rfl, rfl⟩ := run
      exact ⟨b, h, rfl, post⟩
    | error e h => simp only [eq, reduceCtorEq] at run
  · rintro ⟨a, h, run, post⟩
    exact ⟨a, { w with heap := h }, by simp only [run], post⟩

section Read
variable {h : Heap} {p n i : Nat} {v : UInt8}

@[simp] theorem length_read : (h.read p n).length = n := by
  simp [Heap.read]

theorem read_get (at' : (h.read p n)[i]? = some v) : h.bytes (p + i) = v := by
  unfold Heap.read at at'
  rw [List.getElem?_map] at at'
  obtain ⟨j, inside, rfl⟩ := Option.map_eq_some_iff.mp at'
  obtain ⟨_, rfl⟩ := List.getElem?_eq_some_iff.mp inside
  rw [List.getElem_range]

end Read

/-- The blocks of the clients are the given segments, and the memory holds what the store says. -/
structure Holds (live : List Block) (alive : List Seg) (m : Bytes) : Prop where
  held : (live.map Block.ptr).Perm (alive.map fun s => s.addr + mmHeaderSize)
  fits : ∀ b ∈ live, ∃ s ∈ alive, s.addr + mmHeaderSize = b.ptr ∧ b.data.length + mmHeaderSize ≤ 8 * s.size
  stored : ∀ b ∈ live, ∀ i v, b.data[i]? = some v → m (b.ptr + i) = v

section Holds
variable {live : List Block} {alive rest kept : List Seg} {s z : Seg} {m : Bytes} {b : Block} {h h' : Heap} {p : Nat}

theorem Holds.perm (holds : Holds live alive m) (perm : alive.Perm rest) : Holds live rest m where
  held := holds.held.trans (perm.map _)
  fits b mem := by
    obtain ⟨s, inside, addr, big⟩ := holds.fits b mem
    exact ⟨s, perm.mem_iff.mp inside, addr, big⟩
  stored := holds.stored

/-- The store stays true of the memory as long as the payloads do not change. -/
theorem Holds.steady (holds : Holds live (allocated kept) h.bytes) (steady : Steady kept h h') :
    Holds live (allocated kept) h'.bytes where
  held := holds.held
  fits := holds.fits
  stored b mem i v at' := by
    obtain ⟨s, inside, addr, big⟩ := holds.fits b mem
    obtain ⟨inKept, alloc⟩ := mem_allocated.mp inside
    obtain ⟨small, _⟩ := List.getElem?_eq_some_iff.mp at'
    unfold mmHeaderSize at addr big
    rw [steady.bytes _ ⟨s, inKept, alloc, by omega, by omega⟩]
    exact holds.stored b mem i v at'

theorem Holds.drop (holds : Holds live (s :: rest) m) (distinct : ∀ x ∈ rest, x.addr ≠ s.addr)
    (addr : s.addr + mmHeaderSize = p) : Holds (live.filter (·.ptr ≠ p)) rest m where
  held := by
    have filtered := holds.held.filter (· ≠ p)
    rw [List.filter_map] at filtered
    refine filtered.trans (.of_eq ?_)
    rw [List.map_cons, List.filter_cons_of_neg (by simp [addr]), List.filter_eq_self]
    intro q mem
    obtain ⟨x, inside, rfl⟩ := List.mem_map.mp mem
    have := distinct x inside
    simp only [ne_eq, decide_not, Bool.not_eq_true', decide_eq_false_iff_not]
    omega
  fits b mem := by
    obtain ⟨inside, ne⟩ := List.mem_filter.mp mem
    obtain ⟨x, inAlive, at', big⟩ := holds.fits b inside
    rw [decide_eq_true_iff] at ne
    refine ⟨x, (List.mem_cons.mp inAlive).resolve_left ?_, at', big⟩
    rintro rfl
    exact ne (at'.symm.trans addr)
  stored b mem := holds.stored b (List.mem_filter.mp mem).1

theorem Holds.add (holds : Holds live alive m) (addr : z.addr + mmHeaderSize = b.ptr)
    (big : b.data.length + mmHeaderSize ≤ 8 * z.size) (stored : ∀ i v, b.data[i]? = some v → m (b.ptr + i) = v) :
    Holds (b :: live) (z :: alive) m where
  held := by
    rw [List.map_cons, List.map_cons, addr]
    exact holds.held.cons _
  fits c mem := by
    rcases List.mem_cons.mp mem with rfl | mem
    · exact ⟨z, List.mem_cons_self, addr, big⟩
    · obtain ⟨s, inside, rest⟩ := holds.fits c mem
      exact ⟨s, List.mem_cons_of_mem _ inside, rest⟩
  stored c mem := by
    rcases List.mem_cons.mp mem with rfl | mem
    · exact stored
    · exact holds.stored c mem

/-- A write into a block changes its entry in the store and the byte in memory. -/
theorem Holds.write {m' : Bytes} {i : Nat} {v : UInt8} (holds : Holds live alive m) (here : m' (p + i) = v)
    (other : ∀ x, x ≠ p + i → m' x = m x)
    (apart : ∀ c ∈ live, c.ptr ≠ p → ∀ j, j < c.data.length → c.ptr + j ≠ p + i) :
    Holds (live.map fun b => if b.ptr = p then { b with data := b.data.set i v } else b) alive m' where
  held := by
    have ptrs : (live.map fun b => if b.ptr = p then { b with data := b.data.set i v } else b).map Block.ptr =
        live.map Block.ptr := by
      rw [List.map_map]
      refine List.map_congr_left fun c _ => ?_
      simp only [Function.comp]
      split <;> rfl
    rw [ptrs]
    exact holds.held
  fits c' mem' := by
    obtain ⟨c, mem, rfl⟩ := List.mem_map.mp mem'
    obtain ⟨s, inside, addr, big⟩ := holds.fits c mem
    refine ⟨s, inside, ?_⟩
    split
    · exact ⟨addr, by rw [List.length_set]; exact big⟩
    · exact ⟨addr, big⟩
  stored c' mem' j x at' := by
    obtain ⟨c, mem, rfl⟩ := List.mem_map.mp mem'
    split at at'
    · next eq =>
      rw [if_pos eq]
      simp only at at' ⊢
      rw [eq]
      rw [List.getElem?_set] at at'
      split at at'
      · next hit =>
        subst hit
        rw [here]
        split at at'
        · exact Option.some.inj at'
        · cases at'
      · next off =>
        rw [other _ (by omega), ← eq]
        exact holds.stored c mem j x at'
    · next ne =>
      rw [if_neg ne]
      obtain ⟨small, _⟩ := List.getElem?_eq_some_iff.mp at'
      rw [other _ (apart c mem ne j small)]
      exact holds.stored c mem j x at'

end Holds

end Splab.Malloc
