import Splab.Malloc.SegSteps

namespace Splab.Malloc

/-- `h'` differs from `h` only in bytes in `P`. -/
structure Edits (P : Nat → Prop) (h h' : Heap) : Prop where
  start : h'.memStartBrk = h.memStartBrk
  brk : h'.memBrk = h.memBrk
  maxAddr : h'.memMaxAddr = h.memMaxAddr
  errno : h'.errno = h.errno
  calls : h'.calls = h.calls
  bytes : ∀ x, ¬P x → h'.bytes x = h.bytes x

/-- The 8 bytes of a header. -/
def InHeader (a x : Nat) : Prop := a ≤ x ∧ x < a + 8

/-- The heap after `mm_clear_header`. -/
def Heap.clear (h : Heap) (a : Nat) : Heap :=
  { h with bytes := fun x => if a ≤ x ∧ x < a + 8 then 0 else h.bytes x }

section Edits
variable {P R : Nat → Prop} {h h' h'' : Heap} {p v : Nat}

theorem Edits.trans (first : Edits P h h') (second : Edits P h' h'') : Edits P h h'' where
  start := second.start.trans first.start
  brk := second.brk.trans first.brk
  maxAddr := second.maxAddr.trans first.maxAddr
  errno := second.errno.trans first.errno
  calls := second.calls.trans first.calls
  bytes x out := (second.bytes x out).trans (first.bytes x out)

theorem Edits.mono (edits : Edits P h h') (sub : ∀ x, P x → R x) : Edits R h h' :=
  { edits with bytes := fun x out => edits.bytes x fun mem => out (sub x mem) }

theorem Edits.steady {kept : List Seg} (edits : Edits P h h') (off : ∀ x, Payload kept x → ¬P x) :
    Steady kept h h' :=
  ⟨edits.start, edits.maxAddr, edits.errno, .of_eq edits.calls, fun x mem => edits.bytes x (off x mem)⟩

theorem Edits.first (edits : Edits P h h') : h'.first = h.first := congrArg (· + mmDataSize) edits.start

theorem Edits.last (edits : Edits P h h') : h'.last = h.last := congrArg (· - mmHeaderSize) edits.brk

theorem Arena.edits (arena : Arena h) (edits : Edits P h h') : Arena h' := by
  obtain ⟨positive, aligned, limit, top, brk⟩ := arena
  rw [← edits.maxAddr] at limit top brk
  rw [← edits.start] at positive aligned limit
  rw [← edits.brk] at brk
  exact ⟨positive, aligned, limit, top, brk⟩

theorem edits_setWord {a : Nat} (inside : ∀ x, a ≤ x → x < a + 4 → P x) : Edits P h (h.setWord a v) where
  start := rfl
  brk := rfl
  maxAddr := rfl
  errno := rfl
  calls := rfl
  bytes x out := Bytes.setWord_outside (by
    by_contra mem
    exact out (inside x (by omega) (by omega)))

theorem edits_setPrev : Edits (InHeader p) h (h.setPrev p v) :=
  edits_setWord fun _ low high => ⟨low, by omega⟩

theorem edits_setSize : Edits (InHeader p) h (h.setSize p v) :=
  edits_setWord fun _ low high => ⟨by omega, by omega⟩

theorem edits_setAlloc {b : Bool} : Edits (InHeader p) h (h.setAlloc p b) :=
  edits_setWord fun _ low high => ⟨by omega, by omega⟩

theorem edits_clear : Edits (InHeader p) h (h.clear p) where
  start := rfl
  brk := rfl
  maxAddr := rfl
  errno := rfl
  calls := rfl
  bytes _ out := if_neg out

theorem word_zero {m : Bytes} {a : Nat} (zero : ∀ x, a ≤ x → x < a + 4 → m x = 0) : m.word a = 0 := by
  unfold Bytes.word
  rw [zero a (by omega) (by omega), zero (a + 1) (by omega) (by omega), zero (a + 2) (by omega) (by omega),
    zero (a + 3) (by omega) (by omega)]
  rfl

theorem headerAt_clear : HeaderAt (h.clear p) 0 ⟨p, 0, false⟩ := by
  have first : (h.clear p).bytes.word p = 0 := word_zero fun x low high => if_pos ⟨low, by omega⟩
  have second : (h.clear p).bytes.word (p + 4) = 0 := word_zero fun x low high => if_pos ⟨by omega, by omega⟩
  exact ⟨first, by simp only [Heap.node, second]; rfl, by simp only [Heap.node, second]; rfl,
    by simp only [Heap.node, second]; rfl⟩

theorem HeaderAt.setSize {q : Nat} {s : Seg} (header : HeaderAt h q s) (bound : v < 2 ^ 29) :
    HeaderAt (h.setSize s.addr v) q { s with size := v } := by
  refine ⟨?_, ?_, ?_, ?_⟩ <;> simp only [node_setSize bound]
  exacts [header.prev, header.alloc, header.null]

theorem HeaderAt.setAlloc {q : Nat} {s : Seg} {b : Bool} (header : HeaderAt h q s) :
    HeaderAt (h.setAlloc s.addr b) q { s with alloc := b } := by
  refine ⟨?_, ?_, ?_, ?_⟩ <;> simp only [node_setAlloc]
  exacts [header.prev, header.size, header.null]

theorem HeaderAt.setPrev {q : Nat} {s : Seg} (header : HeaderAt h q s) (bound : v < 2 ^ 32) :
    HeaderAt (h.setPrev s.addr v) v s := by
  refine ⟨?_, ?_, ?_, ?_⟩ <;> simp only [node_setPrev bound]
  exacts [header.size, header.alloc, header.null]

theorem HeaderAt.edits {q : Nat} {s : Seg} (header : HeaderAt h q s) (edits : Edits P h h')
    (off : ∀ x, P x → x < s.addr ∨ s.addr + 8 ≤ x) : HeaderAt h' q s :=
  header.congr fun x low high => edits.bytes x fun mem => by
    have := off x mem
    omega

theorem runs_mmMemsetLoop {b i n : Nat} {c : UInt8} {Q : Unit → Heap → Prop} (within : h.Within (b + i) n) :
    Runs (mmMemsetLoop b c i n) h Q ↔
      Q () { h with bytes := fun x => if b + i ≤ x ∧ x < b + i + n then c else h.bytes x } := by
  induction n generalizing h i with
  | zero =>
    rw [mmMemsetLoop, runs_pure]
    have same : (fun x => if b + i ≤ x ∧ x < b + i + 0 then c else h.bytes x) = h.bytes := by
      funext x
      exact if_neg (by omega)
    rw [same]
  | succ n ih =>
    unfold Heap.Within at within
    rw [mmMemsetLoop, runs_bind, runs_storeByte (by unfold Heap.Within; omega),
      ih (by simp only [within_setByte]; unfold Heap.Within; omega)]
    have same : (fun x => if b + (i + 1) ≤ x ∧ x < b + (i + 1) + n then c else (h.setByte (b + i) c).bytes x) =
        fun x => if b + i ≤ x ∧ x < b + i + (n + 1) then c else h.bytes x := by
      funext x
      unfold Heap.setByte
      by_cases start : x = b + i
      · simp [start]
      · simp only [start, if_false]
        exact if_congr (by omega) rfl rfl
    rw [same]
    rfl

theorem runs_mmClearHeader {Q : Unit → Heap → Prop} (inside : h.HeaderIn p) :
    Runs (mmClearHeader p) h Q ↔ Q () (h.clear p) := by
  unfold mmClearHeader mmMemset
  rw [runs_bind, runs_bind, runs_mmMemsetLoop (by simpa [Heap.HeaderIn, mmHeaderSize] using inside), runs_pure,
    runs_pure]
  rfl

end Edits

section Replace
variable {h h' : Heap} {pre mids post F : List Seg} {s z : Seg} {p e v : Nat} {P : Nat → Prop}

/-- The segments from `s` on to the address `e` are replaced by others that fill
the same addresses, whose headers have been written; nothing else was changed. -/
theorem Gap.replace (gone : List Seg) (gap : Gap h pre s p (gone ++ post)) (edits : Edits P h h')
    (area : Tiles s.addr (s :: gone) e) (refill : Tiles s.addr (mids ++ [z]) e)
    (inside : ∀ x, P x → s.addr ≤ x ∧ x < e) (headers : Links h' (lastAddr 0 pre) (mids ++ [z])) :
    Gap h' (pre ++ mids) z (lastAddr p gone) post := by
  have around := gap.tiles.around
  obtain ⟨m, front, rest⟩ := tiles_append.mp gap.tiles
  obtain ⟨m', covered, back⟩ := tiles_append.mp (show Tiles m ((s :: gone) ++ post) h.last from rest)
  obtain rfl : s.addr = m := covered.1
  obtain rfl : m' = e := covered.end_eq.trans area.end_eq.symm
  refine ⟨gap.arena.edits edits, ?_, ?_, ?_⟩
  · rw [edits.first, edits.last, show pre ++ mids ++ z :: post = pre ++ (mids ++ [z] ++ post) by simp]
    exact tiles_append.mpr ⟨_, front, tiles_append.mpr ⟨_, refill, back⟩⟩
  · rw [List.append_assoc]
    refine links_append.mpr ⟨?_, headers⟩
    refine (links_append.mp gap.front).1.congr fun y mem x low high => edits.bytes x fun hit => ?_
    have := around.2.1 y mem
    have := inside x hit
    omega
  · rw [edits.last]
    have links := gap.back
    rw [List.append_assoc] at links
    refine (links_append.mp links).2.congr fun y mem x low high => edits.bytes x fun hit => ?_
    have := inside x hit
    rcases List.mem_append.mp mem with mem | mem
    · have := back.bounds mem
      omega
    · rw [List.mem_singleton.mp mem] at low high
      have := back.le
      simp only [sentinel] at low high
      omega

theorem Filed.edits (gone : List Seg) (filed : Filed h F) (gap : Gap h pre s p (gone ++ post)) (edits : Edits P h h')
    (area : Tiles s.addr (s :: gone) e) (inside : ∀ x, P x → s.addr ≤ x ∧ x < e)
    (sub : ∀ f ∈ F, f ∈ pre ++ post) : Filed h' F := by
  have bounds := gap.bounds
  have around := gap.tiles.around
  obtain ⟨m, front, rest⟩ := tiles_append.mp gap.tiles
  obtain ⟨m', covered, back⟩ := tiles_append.mp (show Tiles m ((s :: gone) ++ post) h.last from rest)
  obtain rfl : s.addr = m := covered.1
  obtain rfl : m' = e := covered.end_eq.trans area.end_eq.symm
  refine filed.congr edits.start edits.brk.ge (fun x low high => edits.bytes x fun hit => ?_)
    fun f memF _ x low high => edits.bytes x fun hit => ?_
  · have := inside x hit
    omega
  · have := inside x hit
    rcases List.mem_append.mp (sub f memF) with mem | mem
    · have := around.2.1 f mem
      omega
    · have := back.bounds mem
      omega

theorem tiles_single {s : Seg} (big : 2 ≤ s.size) : Tiles s.addr [s] (s.addr + 8 * s.size) :=
  ⟨rfl, big, rfl⟩

/-- Writing only to the header of a segment that is not in the tree. -/
theorem Gap.edit (gap : Gap h pre s p post) (filed : Filed h F) (sub : ∀ f ∈ F, f ∈ pre ++ post)
    (edits : Edits (InHeader s.addr) h h') (header : HeaderAt h' (lastAddr 0 pre) z) (addr : z.addr = s.addr)
    (size : z.size = s.size) : Gap h' pre z p post ∧ Filed h' F ∧ Steady (pre ++ s :: post) h h' := by
  have big := gap.bounds.2.1
  have inside : ∀ x, InHeader s.addr x → s.addr ≤ x ∧ x < s.addr + 8 * s.size := fun x mem => by
    unfold InHeader at mem
    omega
  have refill : Tiles s.addr ([] ++ [z]) (s.addr + 8 * s.size) := ⟨addr, size ▸ big, by rw [← size, ← addr]; rfl⟩
  refine ⟨?_, filed.edits [] gap edits (tiles_single big) inside sub, ?_⟩
  · simpa using gap.replace [] edits (tiles_single big) refill inside ⟨header, trivial⟩
  · refine edits.steady fun x mem hit => ?_
    have := (gap.tiles.payload mem).2.2.1
    unfold InHeader at hit
    omega

theorem Gap.setAlloc {b : Bool} (gap : Gap h pre s p post) (filed : Filed h F) (sub : ∀ f ∈ F, f ∈ pre ++ post) :
    Gap (h.setAlloc s.addr b) pre { s with alloc := b } p post ∧ Filed (h.setAlloc s.addr b) F ∧
      Steady (pre ++ s :: post) h (h.setAlloc s.addr b) :=
  gap.edit filed sub edits_setAlloc gap.header.setAlloc rfl rfl

theorem Held.setAlloc {b : Bool} (held : Held h pre s p post) :
    Held (h.setAlloc s.addr b) pre { s with alloc := b } p post ∧
      Steady (pre ++ s :: post) h (h.setAlloc s.addr b) := by
  obtain ⟨gap, filed, steady⟩ := held.gap.setAlloc (b := b) held.filed fun f mem => mem
  exact ⟨⟨gap, filed⟩, steady⟩

/-- The held segment `s` takes in the next one, which is not in the tree. -/
theorem Gap.absorb {n : Seg} (gap : Gap h pre s p (n :: post)) (filed : Filed h (pre ++ post)) :
    Held (h.setSize s.addr (s.size + n.size)) pre { s with size := s.size + n.size } n.addr post ∧
      Steady (pre ++ s :: n :: post) h (h.setSize s.addr (s.size + n.size)) := by
  obtain ⟨start, big, tiles⟩ : Tiles s.addr (s :: n :: post) h.last := by
    obtain ⟨m, _, rest⟩ := tiles_append.mp gap.tiles
    exact rest.1 ▸ rest
  obtain ⟨next, bigN, _⟩ := tiles
  have bounds := gap.focus (x := n) (by simp)
  have limit := gap.arena.limit
  have brk := gap.arena.brk
  unfold maxHeap at limit
  unfold Seg.stop at next
  have area : Tiles s.addr (s :: [n]) (s.addr + 8 * (s.size + n.size)) :=
    ⟨rfl, big, next, bigN, by simp only [Tiles, Seg.stop]; omega⟩
  have refill : Tiles s.addr ([] ++ [{ s with size := s.size + n.size }]) (s.addr + 8 * (s.size + n.size)) :=
    ⟨rfl, by simp only; omega, rfl⟩
  have inside : ∀ x, InHeader s.addr x → s.addr ≤ x ∧ x < s.addr + 8 * (s.size + n.size) := fun x mem => by
    unfold InHeader at mem
    omega
  have header := gap.header.setSize (v := s.size + n.size) (by omega)
  refine ⟨⟨?_, ?_⟩, ?_⟩
  · simpa [lastAddr] using gap.replace [n] edits_setSize area refill inside ⟨header, trivial⟩
  · exact filed.edits [n] gap edits_setSize area inside fun f mem => mem
  · refine edits_setSize.steady fun x mem hit => ?_
    have := (gap.tiles.payload mem).2.2.1
    unfold InHeader at hit
    omega

/-- The list of what follows a segment, the sentinel included, starts where the segment ends. -/
theorem Gap.after (gap : Gap h pre s p post) : ∃ y rest, post ++ [sentinel h.last] = y :: rest ∧
    y.addr = s.addr + 8 * s.size ∧ ∀ x ∈ rest, y.addr + 16 ≤ x.addr := by
  obtain ⟨m, _, tiles⟩ := tiles_append.mp gap.tiles
  obtain ⟨rfl, _, tiles⟩ := tiles
  cases post with
  | nil => exact ⟨_, [], rfl, tiles.symm, fun x mem => by cases mem⟩
  | cons q post =>
    obtain ⟨addr, big, back⟩ := tiles
    refine ⟨q, _, rfl, addr, fun x mem => ?_⟩
    have last := back.le
    unfold Seg.stop at back last
    rcases List.mem_append.mp mem with mem | mem
    · have := (back.bounds mem).1
      omega
    · rw [List.mem_singleton.mp mem]
      simp only [sentinel]
      omega

/-- The assignment `mm_get_next(s)->prev = s`. -/
theorem Gap.close (gap : Gap h pre s p post) (filed : Filed h F) (sub : ∀ f ∈ F, f ∈ pre ++ s :: post) :
    Gap (h.setPrev (s.addr + 8 * s.size) s.addr) pre s s.addr post ∧
      Filed (h.setPrev (s.addr + 8 * s.size) s.addr) F ∧
      Steady (pre ++ s :: post) h (h.setPrev (s.addr + 8 * s.size) s.addr) := by
  have bounds := gap.bounds
  have around := gap.tiles.around
  have edits : Edits (fun x => s.addr + 8 * s.size ≤ x ∧ x < s.addr + 8 * s.size + 4) h
      (h.setPrev (s.addr + 8 * s.size) s.addr) := edits_setWord fun x low high => ⟨low, high⟩
  refine ⟨⟨gap.arena.edits edits, gap.tiles, ?_, ?_⟩, ?_, ?_⟩
  · refine gap.front.imp fun y mem q header => header.edits edits fun x hit => ?_
    rcases List.mem_append.mp mem with mem | mem
    · have := around.2.1 y mem
      omega
    · rw [List.mem_singleton.mp mem]
      omega
  · change Links _ s.addr (post ++ [sentinel h.last])
    obtain ⟨y, rest, eq, addr, far⟩ := gap.after
    have links := gap.back
    rw [eq] at links ⊢
    refine ⟨addr ▸ links.1.setPrev (by omega), links.2.imp fun x mem q header => header.edits edits fun b hit => ?_⟩
    have := far x mem
    omega
  · refine filed.congr rfl (Nat.le_refl _) (fun x low high => edits.bytes x fun hit => by omega)
      fun f memF _ x low high => edits.bytes x fun hit => ?_
    rcases List.mem_append.mp (sub f memF) with mem | mem
    · have := around.2.1 f mem
      omega
    · rcases List.mem_cons.mp mem with rfl | mem
      · omega
      · have := around.2.2 f mem
        omega
  · refine edits.steady fun x mem hit => ?_
    rw [payload_append, payload_cons] at mem
    rcases mem with ⟨y, mem, _, low, high⟩ | ⟨_, low, high⟩ | ⟨y, mem, _, low, high⟩
    · have := around.2.1 y mem
      omega
    · omega
    · have := around.2.2 y mem
      omega

theorem Held.close (held : Held h pre s p post) :
    Held (h.setPrev (s.addr + 8 * s.size) s.addr) pre s s.addr post ∧
      Steady (pre ++ s :: post) h (h.setPrev (s.addr + 8 * s.size) s.addr) := by
  obtain ⟨gap, filed, steady⟩ := held.gap.close held.filed fun f mem =>
    (List.sublist_append_right [s] post).append_left pre |>.subset mem
  exact ⟨⟨gap, filed⟩, steady⟩

end Replace

end Splab.Malloc
