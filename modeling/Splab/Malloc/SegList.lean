import Splab.Malloc.Partition

namespace Splab.Malloc
open RedBlack RBTree

/-- The storage of memlib.c: 8-aligned, `MAX_HEAP` bytes, inside the 32-bit address space. -/
structure Arena (h : Heap) : Prop where
  positive : 0 < h.memStartBrk
  aligned : 8 ∣ h.memStartBrk
  limit : h.memMaxAddr = h.memStartBrk + maxHeap
  top : h.memMaxAddr < 2 ^ 32
  brk : h.memBrk ≤ h.memMaxAddr

/-- Where the segment list begins, and the address of the sentinel header that ends it. -/
def Heap.first (h : Heap) : Nat := h.memStartBrk + mmDataSize
def Heap.last (h : Heap) : Nat := h.memBrk - mmHeaderSize

/-- What the header of a segment stores; `prev` is the address of the segment before it. -/
structure HeaderAt (h : Heap) (prev : Nat) (s : Seg) : Prop where
  prev : (h.node s.addr).prev = prev
  size : (h.node s.addr).size = s.size
  alloc : (h.node s.addr).alloc = s.alloc
  null : (h.node s.addr).null = false

/-- The headers of the listed segments, the first of which points back to `p`. -/
def Links (h : Heap) : Nat → List Seg → Prop
  | _, [] => True
  | p, s :: rest => HeaderAt h p s ∧ Links h s.addr rest

/-- The address that the segment behind `segs` points back to. -/
def lastAddr (p : Nat) (segs : List Seg) : Nat := (segs.getLast?.map Seg.addr).getD p

@[simp] theorem lastAddr_nil {p : Nat} : lastAddr p [] = p := rfl

@[simp] theorem lastAddr_concat {p : Nat} {segs : List Seg} {s : Seg} : lastAddr p (segs ++ [s]) = s.addr := by
  simp [lastAddr]

theorem lastAddr_cons {p : Nat} {segs : List Seg} {s : Seg} : lastAddr p (s :: segs) = lastAddr s.addr segs := by
  simp only [lastAddr, List.getLast?_cons, Option.map_some, Option.getD_some]
  cases segs.getLast? <;> rfl

theorem links_append {h : Heap} {p : Nat} {xs ys : List Seg} :
    Links h p (xs ++ ys) ↔ Links h p xs ∧ Links h (lastAddr p xs) ys := by
  induction xs generalizing p with
  | nil => simp [Links]
  | cons s rest ih => simp only [List.cons_append, Links, ih, lastAddr_cons, and_assoc]

section Congruence
variable {h h' : Heap} {p : Nat} {s : Seg} {L : List Seg}

theorem HeaderAt.congr (at' : HeaderAt h p s) (same : ∀ x, s.addr ≤ x → x < s.addr + 8 → h'.bytes x = h.bytes x) :
    HeaderAt h' p s := by
  have first : h'.bytes.word s.addr = h.bytes.word s.addr :=
    Bytes.word_congr fun x low high => same x low (by omega)
  have second : h'.bytes.word (s.addr + 4) = h.bytes.word (s.addr + 4) :=
    Bytes.word_congr fun x low high => same x (by omega) (by omega)
  obtain ⟨prev, size, alloc, null⟩ := at'
  simp only [Heap.node] at prev size alloc null
  exact ⟨by simp only [Heap.node, first, prev], by simp only [Heap.node, second, size],
    by simp only [Heap.node, second, alloc], by simp only [Heap.node, second, null]⟩

theorem Links.imp (links : Links h p L) (imp : ∀ s ∈ L, ∀ q, HeaderAt h q s → HeaderAt h' q s) :
    Links h' p L := by
  induction L generalizing p with
  | nil => trivial
  | cons s rest ih =>
    exact ⟨imp s List.mem_cons_self p links.1, ih links.2 fun x mem => imp x (List.mem_cons_of_mem _ mem)⟩

theorem Links.congr (links : Links h p L)
    (same : ∀ s ∈ L, ∀ x, s.addr ≤ x → x < s.addr + 8 → h'.bytes x = h.bytes x) : Links h' p L :=
  links.imp fun s mem _ header => header.congr (same s mem)

theorem Links.header (links : Links h p L) (mem : s ∈ L) : ∃ q, HeaderAt h q s := by
  induction L generalizing p with
  | nil => cases mem
  | cons x rest ih =>
    rcases List.mem_cons.mp mem with rfl | mem
    · exact ⟨p, links.1⟩
    · exact ih links.2 mem

end Congruence

section Tiling
variable {a e : Nat} {segs pre post : List Seg} {s x y : Seg}

theorem Tiles.disjoint (tiles : Tiles a segs e) (memX : x ∈ segs) (memY : y ∈ segs) :
    x = y ∨ x.stop ≤ y.addr ∨ y.stop ≤ x.addr := by
  let Beside (x y : Seg) : Prop := x.stop ≤ y.addr ∨ y.stop ≤ x.addr
  have sym : Std.Symm Beside := ⟨fun _ _ => Or.symm⟩
  have beside : segs.Pairwise Beside := tiles.ordered.imp Or.inl
  exact or_iff_not_imp_left.mpr fun ne => beside.forall memX memY ne

/-- The nodes of two segments, or of a segment and the sentinel, do not overlap. -/
theorem Tiles.apart (tiles : Tiles a segs e) (memX : x ∈ segs ++ [sentinel e]) (memY : y ∈ segs ++ [sentinel e]) :
    x = y ∨ Apart x.addr y.addr :=
  or_iff_not_imp_left.mpr fun ne =>
    (List.pairwise_map.mp tiles.spread).forall memX memY ne

/-- Where the segments before and after a given one lie. -/
theorem Tiles.around (tiles : Tiles a (pre ++ s :: post) e) :
    (a ≤ s.addr ∧ 2 ≤ s.size ∧ s.addr + 8 * s.size ≤ e) ∧
      (∀ p ∈ pre, a ≤ p.addr ∧ 2 ≤ p.size ∧ p.addr + 8 * p.size ≤ s.addr) ∧
      ∀ q ∈ post, s.addr + 8 * s.size ≤ q.addr ∧ 2 ≤ q.size ∧ q.addr + 8 * q.size ≤ e := by
  obtain ⟨m, front, start, big, back⟩ := tiles_append.mp tiles
  have low := front.le
  have high := back.le
  unfold Seg.stop at back high
  refine ⟨⟨by omega, big, high⟩, fun p mem => ?_, fun q mem => ?_⟩
  · obtain ⟨left, right, size⟩ := front.bounds mem
    exact ⟨left, size, start ▸ right⟩
  · obtain ⟨left, right, size⟩ := back.bounds mem
    exact ⟨left, size, right⟩

theorem Tiles.notMem (tiles : Tiles a (pre ++ s :: post) e) : s ∉ pre ++ post := by
  obtain ⟨⟨_, big, _⟩, before, after⟩ := tiles.around
  intro mem
  rcases List.mem_append.mp mem with mem | mem
  · have := before s mem
    omega
  · have := after s mem
    omega

theorem Tiles.nodup (tiles : Tiles a segs e) : segs.Nodup := by
  refine tiles.ordered.imp_of_mem fun memX _ before eq => ?_
  have := (tiles.bounds memX).2.2
  rw [← eq] at before
  unfold Seg.stop at before
  omega

theorem Tiles.length_le (tiles : Tiles a segs e) : 16 * segs.length ≤ e - a := by
  rw [tiles.end_eq, endAddr]
  have : 2 * segs.length ≤ (segs.map Seg.size).sum := by
    have big : ∀ n ∈ segs.map Seg.size, 2 ≤ n := by
      intro n inside
      obtain ⟨s, mem, rfl⟩ := List.mem_map.mp inside
      exact (tiles.bounds mem).2.2
    have := List.card_nsmul_le_sum _ _ big
    rw [List.length_map, smul_eq_mul] at this
    omega
  omega

end Tiling

theorem Seg.eq_of_key {s s' : Seg} (key : s.key = s'.key) (alloc : s.alloc = s'.alloc) : s = s' := by
  cases s
  cases s'
  injection key with size addr
  simp_all

/-- The tree holds exactly the free ones among the given segments. -/
def Filed (h : Heap) (segs : List Seg) : Prop :=
  ∃ t, Indexed h t ∧ ∀ k, k ∈ t ↔ ∃ s ∈ segs, s.alloc = false ∧ s.key = k

def freeCount (segs : List Seg) : Nat := segs.countP fun s => !s.alloc

/-- No red-black tree of up to `n` nodes is as high as the limit. -/
def Deep (limit n : Nat) : Prop := ∀ t : RBTree Key, t.IsRedBlack → t.toList.length ≤ n → t.height < limit

/-- The segment list in memory. -/
structure Chain (h : Heap) (segs : List Seg) : Prop where
  arena : Arena h
  tiles : Tiles h.first segs h.last
  links : Links h 0 (segs ++ [sentinel h.last])

/-- The segment list while `s` is being changed: what follows `s` points back to
`p`, which need not be `s`. -/
structure Gap (h : Heap) (pre : List Seg) (s : Seg) (p : Nat) (post : List Seg) : Prop where
  arena : Arena h
  tiles : Tiles h.first (pre ++ s :: post) h.last
  front : Links h 0 (pre ++ [s])
  back : Links h p (post ++ [sentinel h.last])

/-- The representation invariant: the list and the tree agree. -/
structure Rep (h : Heap) (segs : List Seg) : Prop where
  chain : Chain h segs
  filed : Filed h segs

/-- The segment `s` is in the list but not in the tree. -/
structure Held (h : Heap) (pre : List Seg) (s : Seg) (p : Nat) (post : List Seg) : Prop where
  gap : Gap h pre s p post
  filed : Filed h (pre ++ post)

section Counts
variable {xs ys : List Seg} {s : Seg} {limit m n : Nat}

@[simp] theorem freeCount_append : freeCount (xs ++ ys) = freeCount xs + freeCount ys := List.countP_append

@[simp] theorem freeCount_nil : freeCount [] = 0 := rfl

theorem freeCount_cons : freeCount (s :: xs) = freeCount xs + if s.alloc then 0 else 1 := by
  rw [freeCount, List.countP_cons]
  cases s.alloc <;> rfl

theorem freeCount_free (free : s.alloc = false) : freeCount (xs ++ s :: ys) = freeCount (xs ++ ys) + 1 := by
  rw [freeCount_append, freeCount_cons, free, freeCount_append, if_neg Bool.false_ne_true, Nat.add_assoc]

theorem freeCount_alloc (alloc : s.alloc = true) : freeCount (xs ++ s :: ys) = freeCount (xs ++ ys) := by
  rw [freeCount_append, freeCount_cons, alloc, freeCount_append, if_pos rfl, Nat.add_zero]

theorem Deep.mono (deep : Deep limit n) (fewer : m ≤ n) : Deep limit m :=
  fun t valid short => deep t valid (short.trans fewer)

theorem deep_of_lt (less : n < limit) : Deep limit n :=
  fun t _ short => (height_le_length t).trans_lt (short.trans_lt less)

end Counts

section Lists
variable {h h' : Heap} {pre post segs : List Seg} {s x : Seg} {p : Nat}

theorem chain_iff_gap : Chain h (pre ++ s :: post) ↔ Gap h pre s s.addr post := by
  have links : Links h 0 (pre ++ s :: post ++ [sentinel h.last]) ↔
      Links h 0 (pre ++ [s]) ∧ Links h s.addr (post ++ [sentinel h.last]) := by
    rw [show pre ++ s :: post ++ [sentinel h.last] = pre ++ [s] ++ (post ++ [sentinel h.last]) by simp,
      links_append, lastAddr_concat]
  constructor
  · rintro ⟨arena, tiles, all⟩
    exact ⟨arena, tiles, (links.mp all).1, (links.mp all).2⟩
  · rintro ⟨arena, tiles, front, back⟩
    exact ⟨arena, tiles, links.mpr ⟨front, back⟩⟩

theorem filed_congr_list {xs ys : List Seg} (filed : Filed h xs)
    (same : ∀ s, s.alloc = false → (s ∈ ys ↔ s ∈ xs)) : Filed h ys := by
  obtain ⟨t, idx, keys⟩ := filed
  refine ⟨t, idx, fun k => (keys k).trans ?_⟩
  constructor
  · rintro ⟨s, mem, free, key⟩
    exact ⟨s, (same s free).mpr mem, free, key⟩
  · rintro ⟨s, mem, free, key⟩
    exact ⟨s, (same s free).mp mem, free, key⟩

/-- An allocated segment is outside the tree, so the invariant holds it as it is. -/
theorem rep_iff_held (alloc : s.alloc = true) : Rep h (pre ++ s :: post) ↔ Held h pre s s.addr post := by
  have free : ∀ x : Seg, x.alloc = false → (x ∈ pre ++ s :: post ↔ x ∈ pre ++ post) := by
    rintro x free
    have : x ≠ s := fun eq => by rw [eq, alloc] at free; cases free
    simp [this]
  constructor
  · rintro ⟨chain, filed⟩
    exact ⟨chain_iff_gap.mp chain, filed_congr_list filed fun x f => (free x f).symm⟩
  · rintro ⟨gap, filed⟩
    exact ⟨chain_iff_gap.mpr gap, filed_congr_list filed free⟩

theorem Gap.header (gap : Gap h pre s p post) : HeaderAt h (lastAddr 0 pre) s :=
  (links_append.mp gap.front).2.1

theorem Gap.exists_header (gap : Gap h pre s p post) (mem : x ∈ pre ++ s :: post) : ∃ q, HeaderAt h q x := by
  rcases List.mem_append.mp mem with mem | mem
  · exact gap.front.header (List.mem_append_left _ mem)
  · rcases List.mem_cons.mp mem with rfl | mem
    · exact gap.front.header (by simp)
    · exact gap.back.header (List.mem_append_left _ mem)

/-- The nodes of the tree are the free segments that it holds. -/
theorem Filed.listed {F : List Seg} {t : RBTree Key} {a : Nat}
    (keys : ∀ k, k ∈ t ↔ ∃ s ∈ F, s.alloc = false ∧ s.key = k) (mem : a ∈ addrs t) :
    ∃ f ∈ F, f.alloc = false ∧ f.addr = a := by
  obtain ⟨k, inT, rfl⟩ := List.mem_map.mp mem
  obtain ⟨f, inF, free, rfl⟩ := (keys k).mp inT
  exact ⟨f, inF, free, rfl⟩

/-- A node apart from the null node and from all of these segments is apart from the nodes of the tree. -/
theorem Filed.spread {F : List Seg} {t : RBTree Key} {a : Nat} (idx : Indexed h t)
    (keys : ∀ k, k ∈ t ↔ ∃ s ∈ F, s.alloc = false ∧ s.key = k) (nil : Apart h.nil a)
    (apart : ∀ f ∈ F, Apart a f.addr) : (h.nil :: a :: addrs t).Pairwise Apart := by
  rw [List.pairwise_cons, List.pairwise_cons]
  refine ⟨fun b mem => ?_, fun b mem => ?_, (List.pairwise_cons.mp idx.own.spread).2⟩
  · rcases List.mem_cons.mp mem with rfl | mem
    · exact nil
    · exact idx.own.nil_apart b mem
  · obtain ⟨f, inF, _, rfl⟩ := Filed.listed keys mem
    exact apart f inF

/-- Only the free segments of the list are in the tree. -/
theorem Filed.length_le {F : List Seg} {t : RBTree Key} (valid : t.IsRedBlack)
    (keys : ∀ k, k ∈ t ↔ ∃ s ∈ F, s.alloc = false ∧ s.key = k) : t.toList.length ≤ freeCount F := by
  have few : t.toList.length ≤ ((F.filter fun s => !s.alloc).map Seg.key).length := by
    refine (List.subperm_of_subset (valid.ordered.imp fun less => less.ne) fun k mem => ?_).length_le
    obtain ⟨s, inF, free, rfl⟩ := (keys k).mp mem
    exact List.mem_map_of_mem (List.mem_filter.mpr ⟨inF, by simp [free]⟩)
  rwa [List.length_map, ← List.countP_eq_length_filter] at few

/-- The storage has no room for so many segments, and two more, that a tree of them reaches the limit. -/
theorem Arena.deep (arena : Arena h) (tiles : Tiles h.first segs h.last) : Deep depthLimit (freeCount segs + 2) := by
  have few : freeCount segs ≤ segs.length := List.countP_le_length
  have room := tiles.length_le
  have limit := arena.limit
  have brk := arena.brk
  unfold Heap.last Heap.first mmDataSize mmHeaderSize at room
  refine deep_of_lt ?_
  unfold depthLimit
  unfold maxHeap at *
  omega

theorem Rep.deep (rep : Rep h segs) : Deep depthLimit (freeCount segs + 2) := rep.chain.arena.deep rep.chain.tiles

theorem Gap.deep (gap : Gap h pre s p post) : Deep depthLimit (freeCount (pre ++ post) + 2) := by
  refine (gap.arena.deep gap.tiles).mono (Nat.add_le_add_right ?_ 2)
  exact ((List.sublist_append_right [s] post).append_left pre).countP_le

/-- The tree never gets deeper than the bound on its recursions. -/
theorem Filed.deep {F : List Seg} {t : RBTree Key} (arena : Arena h) (tiles : Tiles h.first segs h.last)
    (sub : F.Sublist segs) (valid : t.IsRedBlack)
    (keys : ∀ k, k ∈ t ↔ ∃ s ∈ F, s.alloc = false ∧ s.key = k) : t.height < depthLimit :=
  (arena.deep tiles) t valid ((Filed.length_le valid keys).trans (sub.countP_le.trans (Nat.le_add_right _ 2)))

end Lists

/-- The bytes that belong to the clients of the listed segments. -/
def Payload (segs : List Seg) (x : Nat) : Prop :=
  ∃ s ∈ segs, s.alloc = true ∧ s.addr + 8 ≤ x ∧ x < s.addr + 8 * s.size

@[simp] theorem payload_nil {x : Nat} : ¬Payload [] x := by
  rintro ⟨s, mem, _⟩
  cases mem

theorem payload_append {xs ys : List Seg} {x : Nat} : Payload (xs ++ ys) x ↔ Payload xs x ∨ Payload ys x := by
  simp only [Payload, List.mem_append, or_and_right, exists_or]

theorem payload_cons {s : Seg} {xs : List Seg} {x : Nat} :
    Payload (s :: xs) x ↔ (s.alloc = true ∧ s.addr + 8 ≤ x ∧ x < s.addr + 8 * s.size) ∨ Payload xs x := by
  simp only [Payload, List.mem_cons, or_and_right, exists_or, exists_eq_left]

/-- A segment passed to `mm_insert` has room for a tree node. -/
def Call.Fits : Call → Prop
  | .memSbrk _ => True
  | .mmInsert _ size => 2 ≤ size

/-- What was recorded since `h` fits. -/
def Recorded (h h' : Heap) : Prop := ∃ new, h'.calls = new ++ h.calls ∧ ∀ c ∈ new, c.Fits

theorem Recorded.of_eq {h h' : Heap} (same : h'.calls = h.calls) : Recorded h h' :=
  ⟨[], same, by simp⟩

theorem Recorded.of_cons {h h' : Heap} {c : Call} (one : h'.calls = c :: h.calls) (fits : c.Fits) : Recorded h h' :=
  ⟨[c], one, by simpa using fits⟩

theorem Recorded.trans {h h' h'' : Heap} (first : Recorded h h') (second : Recorded h' h'') : Recorded h h'' := by
  obtain ⟨old, calls, fits⟩ := first
  obtain ⟨new, calls', fits'⟩ := second
  refine ⟨new ++ old, by rw [calls', calls, List.append_assoc], fun c mem => ?_⟩
  exact (List.mem_append.mp mem).elim (fits' c) (fits c)

/-- `h'` has the bytes of `h` in the payloads of the listed segments; the break may have moved. -/
structure Steady (kept : List Seg) (h h' : Heap) : Prop where
  start : h'.memStartBrk = h.memStartBrk
  maxAddr : h'.memMaxAddr = h.memMaxAddr
  errno : h'.errno = h.errno
  recorded : Recorded h h'
  bytes : ∀ x, Payload kept x → h'.bytes x = h.bytes x

section Frames
variable {kept : List Seg} {h h' h'' : Heap}

theorem Steady.refl (kept : List Seg) (h : Heap) : Steady kept h h :=
  ⟨rfl, rfl, rfl, .of_eq rfl, fun _ _ => rfl⟩

theorem Steady.trans (first : Steady kept h h') (second : Steady kept h' h'') : Steady kept h h'' where
  start := second.start.trans first.start
  maxAddr := second.maxAddr.trans first.maxAddr
  errno := second.errno.trans first.errno
  recorded := first.recorded.trans second.recorded
  bytes x mem := (second.bytes x mem).trans (first.bytes x mem)

theorem Steady.mono {fewer : List Seg} (steady : Steady kept h h') (sub : ∀ x, Payload fewer x → Payload kept x) :
    Steady fewer h h' :=
  { steady with bytes := fun x mem => steady.bytes x (sub x mem) }

end Frames

/-- A payload holds neither a header nor a free segment's node. -/
theorem Tiles.payload {a e x : Nat} {pre post : List Seg} {s : Seg} (tiles : Tiles a (pre ++ s :: post) e)
    (inside : Payload (pre ++ s :: post) x) :
    a + 8 ≤ x ∧ x < e ∧ (x < s.addr ∨ s.addr + 8 ≤ x) ∧ (s.alloc = false → x < s.addr ∨ s.addr + 8 * s.size ≤ x) := by
  obtain ⟨here, before, after⟩ := tiles.around
  rw [payload_append, payload_cons] at inside
  rcases inside with ⟨y, mem, _, low, high⟩ | ⟨alloc, low, high⟩ | ⟨y, mem, _, low, high⟩
  · have := before y mem
    exact ⟨by omega, by omega, .inl (by omega), fun _ => .inl (by omega)⟩
  · exact ⟨by omega, by omega, .inr low, fun free => by rw [alloc] at free; cases free⟩
  · have := after y mem
    exact ⟨by omega, by omega, .inr (by omega), fun _ => .inr (by omega)⟩

end Splab.Malloc
