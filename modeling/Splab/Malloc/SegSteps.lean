import Splab.Malloc.SegList

namespace Splab.Malloc
open RedBlack RBTree

section Places
variable {h : Heap} {pre post : List Seg} {s x : Seg} {p : Nat}

theorem Gap.bounds (gap : Gap h pre s p post) :
    h.memStartBrk + 24 ≤ s.addr ∧ 2 ≤ s.size ∧ s.addr + 8 * s.size + 8 ≤ h.memBrk ∧ h.memBrk < 2 ^ 32 := by
  obtain ⟨⟨low, big, high⟩, _⟩ := gap.tiles.around
  have brk := gap.arena.brk
  have top := gap.arena.top
  unfold Heap.first mmDataSize at low
  unfold Heap.last mmHeaderSize at high
  omega

theorem Gap.last_eq (gap : Gap h pre s p post) : h.last + 8 = h.memBrk := by
  have := gap.bounds
  unfold Heap.last mmHeaderSize
  omega

theorem Gap.headerIn (gap : Gap h pre s p post) : h.HeaderIn s.addr := by
  have := gap.bounds
  unfold Heap.HeaderIn Heap.Within
  omega

/-- The header behind `s`, which may be the sentinel, lies in the heap. -/
theorem Gap.nextIn (gap : Gap h pre s p post) : h.HeaderIn (s.addr + 8 * s.size) := by
  have := gap.bounds
  unfold Heap.HeaderIn Heap.Within
  omega

theorem Gap.node_lt (gap : Gap h pre s p post) : s.addr + 8 * s.size < 2 ^ 32 ∧ s.size < 2 ^ 22 := by
  have := gap.bounds
  have limit := gap.arena.limit
  have brk := gap.arena.brk
  unfold maxHeap at limit
  omega

theorem Gap.focus (gap : Gap h pre s p post) (mem : x ∈ pre ++ s :: post) :
    h.memStartBrk + 24 ≤ x.addr ∧ 2 ≤ x.size ∧ x.addr + 8 * x.size + 8 ≤ h.memBrk ∧ h.memBrk < 2 ^ 32 := by
  obtain ⟨low, high, big⟩ := gap.tiles.bounds mem
  have := gap.bounds
  have last := gap.last_eq
  unfold Heap.first mmDataSize at low
  unfold Seg.stop at high
  omega

theorem runs_mmGetNext {n : Nat} {Q : Nat → Heap → Prop} {q : Nat} (inside : h.HeaderIn q)
    (size : (h.node q).size = n) (bound : q + 8 * n < 2 ^ 32) :
    Runs (mmGetNext q) h Q ↔ Q (q + 8 * n) h := by
  unfold mmGetNext
  rw [runs_bind, runs_getSize inside, runs_pure, size, Nat.mod_eq_of_lt bound]

theorem Gap.runs_next {Q : Nat → Heap → Prop} (gap : Gap h pre s p post) :
    Runs (mmGetNext s.addr) h Q ↔ Q (s.addr + 8 * s.size) h :=
  runs_mmGetNext gap.headerIn gap.header.size gap.node_lt.1

end Places

section Frames
variable {h h' : Heap} {pre post F xs ys : List Seg} {s d : Seg} {p q limit : Nat} {S : List Nat}

theorem KeyAt.of_bytes {c : Color} {left right : Nat} {k : Key} (at' : KeyAt h c left k right)
    (same : ∀ x, k.addr + 4 ≤ x → x < k.addr + 16 → h'.bytes x = h.bytes x) : KeyAt h' c left k right := by
  have words : ∀ i, 4 ≤ i → i + 4 ≤ 16 → h'.bytes.word (k.addr + i) = h.bytes.word (k.addr + i) :=
    fun i low high => Bytes.word_congr fun x above below => same x (by omega) (by omega)
  have fields := words 4 (by omega) (by omega)
  have lefts := words 8 (by omega) (by omega)
  have rights := words 12 (by omega) (by omega)
  obtain ⟨size, color, null, left, right⟩ := at'
  simp only [Heap.node] at size color null left right
  constructor <;> simp only [Heap.node, fields, lefts, rights] <;> assumption

theorem TreeAt.of_bytes {nil : Nat} {t : RBTree Key} (tree : TreeAt nil h t)
    (same : ∀ a ∈ addrs t, ∀ x, a + 4 ≤ x → x < a + 16 → h'.bytes x = h.bytes x) : TreeAt nil h' t := by
  induction t with
  | null => trivial
  | node c l k r ihl ihr =>
    obtain ⟨here, left, right⟩ := tree
    simp only [addrs_node, List.mem_append, List.mem_cons] at same
    exact ⟨here.of_bytes (same _ (.inr (.inl rfl))), ihl left fun a mem => same a (.inl mem),
      ihr right fun a mem => same a (.inr (.inr mem))⟩

/-- The tree survives every change outside `MM_Data` and outside the nodes of
free segments, and does not read the `prev` fields. -/
theorem Filed.congr (filed : Filed h F) (start : h'.memStartBrk = h.memStartBrk) (brk : h.memBrk ≤ h'.memBrk)
    (area : ∀ x, h.memStartBrk ≤ x → x < h.memStartBrk + 24 → h'.bytes x = h.bytes x)
    (nodes : ∀ f ∈ F, f.alloc = false → ∀ x, f.addr + 4 ≤ x → x < f.addr + 16 → h'.bytes x = h.bytes x) :
    Filed h' F := by
  obtain ⟨t, ⟨own, root, valid⟩, keys⟩ := filed
  have nil : h'.nil = h.nil := congrArg (· + 4) start
  have grown : ∀ a, h.NodeIn a → h'.NodeIn a := fun a inside => by
    unfold Heap.NodeIn Heap.Within at *
    omega
  have word : h'.bytes.word h.memStartBrk = h.bytes.word h.memStartBrk :=
    Bytes.word_congr fun x low high => area x low (by omega)
  refine ⟨t, ⟨?_, by rw [start, word, root, nil], valid⟩, keys⟩
  rw [nil]
  refine ⟨own.nilAt.congr (grown _ own.nilAt.inside) (node_congr fun x low high => ?_), ?_, own.spread,
    fun a mem => ⟨grown a (own.inside a mem).1, (own.inside a mem).2⟩⟩
  · unfold Heap.nil at low high
    exact area x (by omega) (by omega)
  · refine own.tree.of_bytes fun a mem x low high => ?_
    obtain ⟨f, inF, free, rfl⟩ := Filed.listed keys mem
    exact nodes f inF free x low high

theorem HeaderAt.treeOnly (header : HeaderAt h q s) (only : TreeOnly S h h') (above : h.memStartBrk + 4 ≤ s.addr)
    (apart : ∀ a ∈ S, a = s.addr ∨ Apart a s.addr) : HeaderAt h' q s := by
  by_cases mem : s.addr ∈ S
  · have prev : h'.bytes.word s.addr = h.bytes.word s.addr :=
      Bytes.word_congr fun x low high => only.bytes x (by omega) fun a inside => by
        have := apart a inside
        unfold Apart at this
        omega
    obtain ⟨size, alloc, null⟩ := only.fields s.addr mem
    exact ⟨prev.trans header.prev, size.trans header.size, alloc.trans header.alloc, null.trans header.null⟩
  · refine header.congr fun x low high => only.bytes x (by omega) fun a inside => ?_
    have := (apart a inside).resolve_left fun eq => mem (eq ▸ inside)
    unfold Apart at this
    omega

/-- Work on the tree leaves the list and every payload as they are. -/
theorem Gap.treeOnly (gap : Gap h pre s p post) (only : TreeOnly S h h') (recorded : Recorded h h')
    (sub : ∀ a ∈ S, ∃ f ∈ pre ++ s :: post, f.alloc = false ∧ f.addr = a) :
    Gap h' pre s p post ∧ Steady (pre ++ s :: post) h h' := by
  have first : h'.first = h.first := congrArg (· + mmDataSize) only.start
  have last : h'.last = h.last := congrArg (· - mmHeaderSize) only.brk
  have headers : ∀ y ∈ pre ++ s :: post ++ [sentinel h.last], ∀ q, HeaderAt h q y → HeaderAt h' q y := by
    intro y mem q header
    have above : h.memStartBrk + 4 ≤ y.addr := by
      rcases List.mem_append.mp mem with mem | mem
      · have := gap.focus mem
        omega
      · rw [List.mem_singleton.mp mem]
        have := gap.bounds
        have := gap.last_eq
        simp only [sentinel]
        omega
    refine header.treeOnly only above fun a inside => ?_
    obtain ⟨f, memF, _, rfl⟩ := sub a inside
    exact (gap.tiles.apart (List.mem_append_left _ memF) mem).imp_left (congrArg Seg.addr)
  constructor
  · refine ⟨⟨only.start ▸ gap.arena.positive, only.start ▸ gap.arena.aligned, ?_, only.maxAddr ▸ gap.arena.top, ?_⟩,
      first ▸ last ▸ gap.tiles, gap.front.imp fun y mem => headers y ?_, last ▸ gap.back.imp fun y mem => headers y ?_⟩
    · rw [only.maxAddr, only.start, gap.arena.limit]
    · rw [only.maxAddr, only.brk]
      exact gap.arena.brk
    · simp only [List.mem_append, List.mem_cons, List.not_mem_nil, or_false] at mem ⊢
      tauto
    · simp only [List.mem_append, List.mem_cons, List.not_mem_nil, or_false] at mem ⊢
      tauto
  · refine ⟨only.start, only.maxAddr, only.errno, recorded, fun x inside => only.bytes x ?_ fun a mem => ?_⟩
    · have := gap.tiles.payload inside
      unfold Heap.first mmDataSize at this
      omega
    · obtain ⟨f, memF, free, rfl⟩ := sub a mem
      obtain ⟨front, back, eq⟩ := List.append_of_mem memF
      have big := (gap.focus memF).2.1
      have := (eq ▸ gap.tiles : Tiles _ (front ++ f :: back) _).payload (eq ▸ inside)
      have := this.2.2.2 free
      omega

/-- `mm_delete` of a free segment. -/
theorem runs_mmDelete_gap (gap : Gap h pre s p post) (filed : Filed h (xs ++ d :: ys))
    (sub : ∀ f ∈ xs ++ d :: ys, f ∈ pre ++ s :: post) (free : d.alloc = false) (out : d ∉ xs ++ ys)
    (deep : Deep limit (freeCount (xs ++ ys) + 1)) :
    Runs (mmDeleteUpto limit d.addr) h fun _ h' =>
      Gap h' pre s p post ∧ Filed h' (xs ++ ys) ∧ Steady (pre ++ s :: post) h h' := by
  obtain ⟨t, idx, keys⟩ := filed
  have present : d.key ∈ t := (keys d.key).mpr ⟨d, by simp, free, rfl⟩
  have few := Filed.length_le idx.valid keys
  rw [freeCount_free free] at few
  refine (runs_mmDeleteUpto idx present (deep t idx.valid few)).mono ?_
  rintro _ h' ⟨idx', only, calls⟩
  obtain ⟨gap', steady⟩ := gap.treeOnly only (.of_eq calls) fun a mem => by
    obtain ⟨f, inF, free, rfl⟩ := Filed.listed keys mem
    exact ⟨f, sub f inF, free, rfl⟩
  refine ⟨gap', ⟨_, idx', fun k => ?_⟩, steady⟩
  rw [idx.valid.ordered.mem_delete present, keys]
  constructor
  · rintro ⟨⟨f, inF, free', rfl⟩, ne⟩
    have other : f ≠ d := fun eq => ne (congrArg Seg.key eq)
    exact ⟨f, by simpa [other] using inF, free', rfl⟩
  · rintro ⟨f, inF, free', rfl⟩
    refine ⟨⟨f, ?_, free', rfl⟩, fun eq => out (Seg.eq_of_key eq (free'.trans free.symm) ▸ inF)⟩
    exact (List.sublist_append_right [d] ys).append_left xs |>.subset inF

/-- `mm_insert` of a free segment that is not in the tree yet. -/
theorem runs_mmInsert_gap (gap : Gap h pre s p post) (filed : Filed h (xs ++ ys))
    (sub : ∀ f ∈ xs ++ d :: ys, f ∈ pre ++ s :: post) (free : d.alloc = false) (out : d ∉ xs ++ ys)
    (deep : Deep limit (freeCount (xs ++ ys))) :
    Runs (mmInsertUpto limit d.addr) h fun _ h' =>
      Gap h' pre s p post ∧ Filed h' (xs ++ d :: ys) ∧ Steady (pre ++ s :: post) h h' := by
  have fewer : ∀ f ∈ xs ++ ys, f ∈ pre ++ s :: post := fun f mem =>
    sub f ((List.sublist_append_right [d] ys).append_left xs |>.subset mem)
  have memD := sub d (by simp)
  have place := gap.focus memD
  obtain ⟨t, idx, keys⟩ := filed
  have fresh : Fresh h.nil h d.key t := by
    obtain ⟨q, header⟩ := gap.exists_header memD
    refine ⟨Filed.spread idx keys ?_ fun f inF => ?_, ?_, ?_, header.size, header.null⟩
    · exact .inl (by simp only [Heap.nil, Seg.key]; omega)
    · refine (gap.tiles.apart (List.mem_append_left _ memD) (List.mem_append_left _ (fewer f inF))).resolve_left ?_
      exact fun eq => out (eq ▸ inF)
    · simp only [Heap.NodeIn, Heap.Within, Seg.key]
      omega
    · simp only [Seg.key]
      omega
  refine (runs_mmInsertUpto idx fresh (deep t idx.valid (Filed.length_le idx.valid keys))).mono ?_
  rintro _ h' ⟨idx', only, calls⟩
  obtain ⟨gap', steady⟩ := gap.treeOnly only (.of_cons calls place.2.1) fun a mem => by
    rcases List.mem_cons.mp mem with rfl | mem
    · exact ⟨d, memD, free, rfl⟩
    · obtain ⟨f, inF, free, rfl⟩ := Filed.listed keys mem
      exact ⟨f, fewer f inF, free, rfl⟩
  refine ⟨gap', ⟨_, idx', fun k => ?_⟩, steady⟩
  rw [mem_insert, keys]
  simp only [List.mem_append, List.mem_cons]
  constructor
  · rintro (rfl | ⟨f, inF, rest⟩)
    · exact ⟨d, .inr (.inl rfl), free, rfl⟩
    · exact ⟨f, inF.imp_right .inr, rest⟩
  · rintro ⟨f, inF | rfl | inF, free', rfl⟩
    · exact .inr ⟨f, .inl inF, free', rfl⟩
    · exact .inl rfl
    · exact .inr ⟨f, .inr inF, free', rfl⟩

/-- Taking a free segment out of the tree leaves it held. -/
theorem Rep.runs_takeUpto (rep : Rep h (pre ++ s :: post)) (free : s.alloc = false)
    (deep : Deep limit (freeCount (pre ++ post) + 1)) :
    Runs (mmDeleteUpto limit s.addr) h fun _ h' => Held h' pre s s.addr post ∧ Steady (pre ++ s :: post) h h' := by
  have gap := chain_iff_gap.mp rep.chain
  refine (runs_mmDelete_gap gap rep.filed (fun f mem => mem) free gap.tiles.notMem deep).mono ?_
  rintro _ h' ⟨gap', filed, steady⟩
  exact ⟨⟨gap', filed⟩, steady⟩

theorem Rep.runs_take (rep : Rep h (pre ++ s :: post)) (free : s.alloc = false) :
    Runs (mmDelete s.addr) h fun _ h' => Held h' pre s s.addr post ∧ Steady (pre ++ s :: post) h h' :=
  rep.runs_takeUpto free ((chain_iff_gap.mp rep.chain).deep.mono (Nat.le_succ _))

/-- A held free segment goes into the tree. -/
theorem Held.runs_file (held : Held h pre s s.addr post) (free : s.alloc = false)
    (deep : Deep limit (freeCount (pre ++ post))) :
    Runs (mmInsertUpto limit s.addr) h fun _ h' => Rep h' (pre ++ s :: post) ∧ Steady (pre ++ s :: post) h h' := by
  refine (runs_mmInsert_gap held.gap held.filed (fun f mem => mem) free held.gap.tiles.notMem deep).mono ?_
  rintro _ h' ⟨gap', filed, steady⟩
  exact ⟨⟨chain_iff_gap.mpr gap', filed⟩, steady⟩

end Frames

end Splab.Malloc
