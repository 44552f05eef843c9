import Splab.Malloc.Partition

namespace Splab.Malloc

/-- The free segment that `mm_search` chooses for `n` units: the smallest that is
large enough, and of these the one at the lowest address. -/
def bestFit (segs : List Seg) (n : Nat) : Option Key :=
  ((segs.filter fun s => !s.alloc && decide (n ≤ s.size)).map Seg.key).min?

/-- Serving `n` units cuts no segment of a single unit off a larger one. -/
def NoSliver (segs : List Seg) (n : Nat) : Prop :=
  1 ≤ n ∧ ∀ k ∈ bestFit segs n, n + 2 ≤ k.size → 2 ≤ n

theorem noSliver_of_two {segs : List Seg} {n : Nat} (two : 2 ≤ n) : NoSliver segs n :=
  ⟨by omega, fun _ _ _ => two⟩

/-- The list split at the segment with address `a`. -/
def locate (a : Nat) : List Seg → Option (List Seg × Seg × List Seg)
  | [] => none
  | s :: rest =>
    if s.addr = a then some ([], s, rest)
    else (locate a rest).map fun (pre, found, post) => (s :: pre, found, post)

/-- The previous segment takes in `s` if it is free. -/
def mergePrev (pre : List Seg) (s : Seg) : List Seg × Seg :=
  match pre.getLast? with
  | none => (pre, s)
  | some p => if p.alloc then (pre, s) else (pre.dropLast, { p with size := p.size + s.size })

/-- `s` takes in the next segment if that is free. -/
def mergeNext (s : Seg) : List Seg → Seg × List Seg
  | [] => (s, [])
  | n :: rest => if n.alloc then (s, n :: rest) else ({ s with size := s.size + n.size }, rest)

/-- `s` takes in free segments until it has `n` units. -/
def absorb (n : Nat) (s : Seg) : List Seg → Seg × List Seg
  | [] => (s, [])
  | q :: rest =>
    if q.alloc = false ∧ s.size < n then absorb n { s with size := s.size + q.size } rest
    else (s, q :: rest)

namespace Policy

/-- What the three calls do to the segment list, with the address they return.
The list ends at the address `e`. -/
def malloc (e : Nat) (segs : List Seg) (n : Nat) : List Seg × Nat :=
  match (bestFit segs n).bind fun k => locate k.addr segs with
  | some (pre, s, post) => (pre ++ { s.front n with alloc := true } :: (s.spare n ++ post), s.addr + mmHeaderSize)
  | none => (segs ++ fresh e n :: freshSpare e n, e + mmHeaderSize)

def release (pre : List Seg) (s : Seg) (post : List Seg) : List Seg :=
  let (pre, s) := mergePrev pre s
  let (s, post) := mergeNext s post
  pre ++ { s with alloc := false } :: post

def free (segs : List Seg) (ptr : Nat) : List Seg :=
  match locate (ptr - mmHeaderSize) segs with
  | some (pre, s, post) => release pre s post
  | none => segs

/-- The list after the heap was extended for a segment that lacks `u` units. -/
def extended (e : Nat) (post : List Seg) (u : Nat) : List Seg :=
  post ++ { fresh e u with alloc := false } :: freshSpare e u

def realloc (e : Nat) (segs : List Seg) (ptr n : Nat) : List Seg × Nat :=
  match locate (ptr - mmHeaderSize) segs with
  | none => (segs, ptr)
  | some (pre, s, post) =>
    if n ≤ s.size then (pre ++ s.front n :: (s.spare n ++ post), ptr)
    else
      let (big, rest) := absorb n s post
      if n ≤ big.size then (pre ++ big :: rest, ptr)
      else if rest = [] then
        let (big, rest) := absorb n s (extended e post (n - big.size))
        (pre ++ big :: rest, ptr)
      else
        let (moved, new) := malloc e segs n
        (free moved ptr, new)

end Policy

section Locate
variable {segs pre post : List Seg} {s : Seg} {a e : Nat}

theorem locate_split (apart : ∀ x ∈ pre, x.addr ≠ s.addr) :
    locate s.addr (pre ++ s :: post) = some (pre, s, post) := by
  induction pre with
  | nil => simp [locate]
  | cons x rest ih =>
    have other := apart x List.mem_cons_self
    simp [locate, other, ih fun y mem => apart y (List.mem_cons_of_mem _ mem)]

theorem Tiles.locate (tiles : Tiles a (pre ++ s :: post) e) :
    locate s.addr (pre ++ s :: post) = some (pre, s, post) := by
  obtain ⟨m, front, start, _⟩ := tiles_append.mp tiles
  refine locate_split fun x mem => ?_
  obtain ⟨_, high, big⟩ := front.bounds mem
  unfold Seg.stop at high
  omega

theorem Tiles.free (tiles : Tiles a (pre ++ s :: post) e) :
    Policy.free (pre ++ s :: post) (s.addr + mmHeaderSize) = Policy.release pre s post := by
  rw [Policy.free, Nat.add_sub_cancel, tiles.locate]

end Locate

section Choice
variable {segs : List Seg} {n : Nat} {k : Key}

theorem bestFit_eq_some (found : bestFit segs n = some k) :
    ∃ s ∈ segs, s.alloc = false ∧ n ≤ s.size ∧ s.key = k := by
  obtain ⟨mem, _⟩ := List.min?_eq_some_iff.mp found
  obtain ⟨s, inside, rfl⟩ := List.mem_map.mp mem
  rw [List.mem_filter, Bool.and_eq_true, decide_eq_true_iff, Bool.not_eq_true'] at inside
  exact ⟨s, inside.1, inside.2.1, inside.2.2, rfl⟩

/-- The first key that fits in an ordered sequence of the free segments is the
best fit, however the tree over the sequence is shaped. -/
theorem find?_eq_bestFit {keys : List Key} (ordered : keys.Pairwise (· < ·))
    (listed : ∀ k, k ∈ keys ↔ ∃ s ∈ segs, s.alloc = false ∧ s.key = k) :
    (keys.find? fun k => decide (n ≤ k.size)) = bestFit segs n := by
  have member : ∀ k, k ∈ (segs.filter fun s => !s.alloc && decide (n ≤ s.size)).map Seg.key ↔
      k ∈ keys ∧ n ≤ k.size := by
    intro k
    simp only [List.mem_map, List.mem_filter, Bool.and_eq_true, decide_eq_true_iff, Bool.not_eq_true', listed]
    constructor
    · rintro ⟨s, ⟨mem, free, fits⟩, rfl⟩
      exact ⟨⟨s, mem, free, rfl⟩, fits⟩
    · rintro ⟨⟨s, mem, free, rfl⟩, fits⟩
      exact ⟨s, ⟨mem, free, fits⟩, rfl⟩
  unfold bestFit
  cases found : keys.find? fun k => decide (n ≤ k.size) with
  | none =>
    rw [eq_comm, List.min?_eq_none_iff, List.eq_nil_iff_forall_not_mem]
    intro k mem
    obtain ⟨inKeys, fits⟩ := (member k).mp mem
    have := List.find?_eq_none.mp found k inKeys
    exact this (decide_eq_true fits)
  | some k =>
    rw [eq_comm, List.min?_eq_some_iff]
    obtain ⟨fits, front, back, rfl, before⟩ := List.find?_eq_some_iff_append.mp found
    rw [decide_eq_true_iff] at fits
    refine ⟨(member k).mpr ⟨by simp, fits⟩, fun j mem => ?_⟩
    obtain ⟨inKeys, large⟩ := (member j).mp mem
    rcases List.mem_append.mp inKeys with early | late
    · have := before j early
      simp [large] at this
    · rcases List.mem_cons.mp late with rfl | late
      · exact le_rfl
      · exact ((List.pairwise_cons.mp (List.pairwise_append.mp ordered).2.1).1 j late).le

end Choice

/-- The allocated segments, in address order. -/
def allocated (segs : List Seg) : List Seg := segs.filter Seg.alloc

section Allocated
variable {segs pre post xs ys : List Seg} {s : Seg} {a b e n : Nat} {k : Key}

@[simp] theorem allocated_nil : allocated [] = [] := rfl

@[simp] theorem allocated_append : allocated (xs ++ ys) = allocated xs ++ allocated ys :=
  List.filter_append ..

theorem allocated_cons (alloc : s.alloc = true) : allocated (s :: xs) = s :: allocated xs :=
  List.filter_cons_of_pos alloc

theorem allocated_cons_free (free : s.alloc = false) : allocated (s :: xs) = allocated xs :=
  List.filter_cons_of_neg (by simp [free])

theorem mem_allocated : s ∈ allocated segs ↔ s ∈ segs ∧ s.alloc = true :=
  List.mem_filter

@[simp] theorem allocated_spare : allocated (s.spare n) = [] := by
  unfold Seg.spare
  split <;> rfl

@[simp] theorem allocated_freshSpare : allocated (freshSpare e n) = [] := by
  unfold freshSpare
  split
  · exact allocated_spare
  · rfl

/-- The best fit is found again by its address. -/
theorem Tiles.chosen (tiles : Tiles a segs e) (found : bestFit segs n = some k) : ∃ pre s post,
    segs = pre ++ s :: post ∧ s.alloc = false ∧ n ≤ s.size ∧ s.key = k ∧
      (bestFit segs n).bind (fun k => Malloc.locate k.addr segs) = some (pre, s, post) := by
  obtain ⟨s, mem, free, fits, rfl⟩ := bestFit_eq_some found
  obtain ⟨pre, post, rfl⟩ := List.append_of_mem mem
  refine ⟨pre, s, post, rfl, free, fits, rfl, ?_⟩
  rw [found]
  exact tiles.locate

/-- `mm_malloc` allocates one segment with at least `n` units and no other. -/
theorem Policy.malloc_allocated (tiles : Tiles a segs b) : ∃ z, z.addr + mmHeaderSize = (Policy.malloc e segs n).2 ∧
    n ≤ z.size ∧ (allocated (Policy.malloc e segs n).1).Perm (z :: allocated segs) := by
  unfold Policy.malloc
  cases found : bestFit segs n with
  | none =>
    refine ⟨fresh e n, by simp, fresh_size, ?_⟩
    simp [allocated_cons]
  | some k =>
    obtain ⟨pre, s, post, rfl, free, fits, rfl, located⟩ := tiles.chosen found
    rw [found] at located
    rw [located]
    refine ⟨{ s.front n with alloc := true }, by simp, (Seg.front_size fits).1, ?_⟩
    simp [allocated_cons_free free, allocated_cons]

end Allocated

section Merge
variable {pre post rest : List Seg} {s p q : Seg} {n : Nat}

@[simp] theorem mergePrev_nil : mergePrev [] s = ([], s) := rfl

@[simp] theorem mergePrev_alloc (alloc : p.alloc = true) : mergePrev (pre ++ [p]) s = (pre ++ [p], s) := by
  simp [mergePrev, alloc]

@[simp] theorem mergePrev_free (free : p.alloc = false) :
    mergePrev (pre ++ [p]) s = (pre, { p with size := p.size + s.size }) := by
  simp [mergePrev, free]

@[simp] theorem mergeNext_nil : mergeNext s [] = (s, []) := rfl

@[simp] theorem mergeNext_alloc (alloc : q.alloc = true) : mergeNext s (q :: post) = (s, q :: post) := by
  simp [mergeNext, alloc]

@[simp] theorem mergeNext_free (free : q.alloc = false) :
    mergeNext s (q :: post) = ({ s with size := s.size + q.size }, post) := by
  simp [mergeNext, free]

theorem absorb_take (free : q.alloc = false) (small : s.size < n) :
    absorb n s (q :: rest) = absorb n { s with size := s.size + q.size } rest := by
  rw [absorb, if_pos ⟨free, small⟩]

theorem absorb_left (left : ¬(q.alloc = false ∧ s.size < n)) : absorb n s (q :: rest) = (s, q :: rest) := by
  rw [absorb, if_neg left]

theorem absorb_stop (stop : q.alloc = true ∨ n ≤ s.size) : absorb n s (q :: rest) = (s, q :: rest) := by
  refine absorb_left ?_
  rintro ⟨free, small⟩
  rcases stop with alloc | full
  · rw [free] at alloc
    cases alloc
  · omega

/-- The free segments at the front of the list. -/
def freeRun (segs : List Seg) : List Seg := segs.takeWhile fun q => !q.alloc

def total (segs : List Seg) : Nat := (segs.map Seg.size).sum

@[simp] theorem total_nil : total [] = 0 := rfl

@[simp] theorem total_cons : total (q :: rest) = q.size + total rest := List.sum_cons

@[simp] theorem total_append : total (pre ++ post) = total pre + total post := by
  unfold total
  rw [List.map_append, List.sum_append]

/-- What is taken in is the shortest prefix of free segments that brings `s` to `n`
units, or all of the free segments if they are too few. -/
theorem absorb_spec (n : Nat) (s : Seg) (post : List Seg) : ∃ gone, post = gone ++ (absorb n s post).2 ∧
    (∀ q ∈ gone, q.alloc = false) ∧ (absorb n s post).1 = { s with size := s.size + total gone } ∧
    (∀ front, front <+: gone → front ≠ gone → s.size + total front < n) ∧
    ((absorb n s post).1.size < n → gone = freeRun post) := by
  induction post generalizing s with
  | nil => exact ⟨[], rfl, by simp, by simp [absorb], by simp, fun _ => rfl⟩
  | cons q rest ih =>
    by_cases take : q.alloc = false ∧ s.size < n
    · rw [absorb_take take.1 take.2]
      obtain ⟨gone, split, free, big, shortest, short⟩ := ih { s with size := s.size + q.size }
      refine ⟨q :: gone, by rw [List.cons_append, ← split], ?_, ?_, ?_, fun less => ?_⟩
      · intro x mem
        rcases List.mem_cons.mp mem with rfl | mem
        · exact take.1
        · exact free x mem
      · rw [big, total_cons, Nat.add_assoc]
      · intro front before ne
        cases front with
        | nil => exact take.2
        | cons x front =>
          obtain ⟨rfl, inner⟩ := List.cons_prefix_cons.mp before
          have := shortest front inner fun same => ne (by rw [same])
          rw [total_cons, ← Nat.add_assoc]
          exact this
      · rw [short less, freeRun, freeRun, List.takeWhile_cons_of_pos (by simp [take.1])]
    · have stop : q.alloc = true ∨ n ≤ s.size := by
        rcases alloc : q.alloc with _ | _
        · exact .inr (by by_contra small; exact take ⟨alloc, by omega⟩)
        · exact .inl rfl
      rw [absorb_stop stop]
      refine ⟨[], rfl, by simp, by simp, ?_, fun less => ?_⟩
      · intro front before ne
        exact absurd (List.prefix_nil.mp before) ne
      · have alloc := stop.resolve_right (Nat.not_le.mpr less)
        rw [freeRun, List.takeWhile_cons_of_neg (by simp [alloc])]

theorem absorb_eq (n : Nat) (s : Seg) (post : List Seg) : ∃ gone, post = gone ++ (absorb n s post).2 ∧
    (∀ q ∈ gone, q.alloc = false) ∧ (absorb n s post).1 = { s with size := s.size + total gone } := by
  obtain ⟨gone, split, free, big, _⟩ := absorb_spec n s post
  exact ⟨gone, split, free, big⟩

end Merge

end Splab.Malloc
