import Splab.Malloc.Resize

namespace Splab.Malloc
open RedBlack RBTree

/-- The walk of `mm_check` over the segment list: from `p` by `mm_get_next` up to a header of size 0. -/
def Heap.walk (h : Heap) : Nat → Nat → List Seg
  | 0, _ => []
  | fuel + 1, p =>
    if (h.node p).size = 0 then []
    else ⟨p, (h.node p).size, (h.node p).alloc⟩ :: h.walk fuel (p + 8 * (h.node p).size)

/-- The walk of `mm_check_node` over the tree under `p`. -/
def Heap.readTree (h : Heap) : Nat → Nat → RBTree Key
  | 0, _ => .null
  | fuel + 1, p =>
    if (h.node p).null then .null
    else .node (h.node p).color (h.readTree fuel (h.node p).left) ⟨(h.node p).size, p⟩
      (h.readTree fuel (h.node p).right)

def Heap.segments (h : Heap) : List Seg := h.walk depthLimit h.first

def Heap.freeTree (h : Heap) : RBTree Key := h.readTree depthLimit (h.bytes.word h.memStartBrk)

/-- The heap as it should be between calls, in terms of what the two walks find. -/
structure WellFormed (h : Heap) : Prop where
  tiles : Tiles h.first h.segments h.last
  sentinel : (h.node h.last).size = 0
  links : Links h 0 (h.segments ++ [Malloc.sentinel h.last])
  nodes : h.freeTree.toList.Perm ((h.segments.filter fun s => !s.alloc).map Seg.key)
  tree : h.freeTree.IsRedBlack
  stored : Owns h.nil h h.freeTree
  root : h.bytes.word h.memStartBrk = rootPtr h.nil h.freeTree
  nil : NilAt h.nil h

section Readback
variable {h : Heap} {segs : List Seg} {t : RBTree Key} {nil p a e fuel : Nat}

theorem walk_eq (tiles : Tiles a segs e) (links : Links h p (segs ++ [sentinel e])) (deep : segs.length < fuel) :
    h.walk fuel a = segs := by
  induction segs generalizing fuel a p with
  | nil =>
    obtain ⟨fuel, rfl⟩ : ∃ m, fuel = m + 1 := ⟨fuel - 1, by omega⟩
    obtain rfl : a = e := tiles
    have size : (h.node a).size = 0 := links.1.size
    rw [Heap.walk, if_pos size]
  | cons s rest ih =>
    obtain ⟨fuel, rfl⟩ : ∃ m, fuel = m + 1 := ⟨fuel - 1, by omega⟩
    obtain ⟨rfl, big, tail⟩ := tiles
    obtain ⟨header, links⟩ := links
    rw [Heap.walk, header.size, header.alloc, if_neg (by omega)]
    congr 1
    exact ih tail links (Nat.lt_of_succ_lt_succ deep)

theorem readTree_eq (own : Owns nil h t) (deep : t.height < fuel) : h.readTree fuel (rootPtr nil t) = t := by
  induction t generalizing fuel with
  | null =>
    obtain ⟨fuel, rfl⟩ : ∃ m, fuel = m + 1 := ⟨fuel - 1, by omega⟩
    rw [Heap.readTree, rootPtr_null, if_pos own.nilAt.null]
  | node c l k r ihl ihr =>
    obtain ⟨fuel, rfl⟩ : ∃ m, fuel = m + 1 := ⟨fuel - 1, by omega⟩
    have deeper : l.height < fuel ∧ r.height < fuel := by
      simp only [height] at deep
      omega
    obtain ⟨size, color, null, left, right⟩ := own.keyAt
    rw [Heap.readTree, rootPtr_node, if_neg (by simp [null]), size, color, left, right, ihl own.left deeper.1,
      ihr own.right deeper.2]

theorem Rep.segments_eq (rep : Rep h segs) : h.segments = segs := by
  obtain ⟨⟨arena, tiles, links⟩, _⟩ := rep
  have room := tiles.length_le
  have limit := arena.limit
  have brk := arena.brk
  refine walk_eq tiles links ?_
  unfold Heap.last Heap.first mmDataSize mmHeaderSize at room
  unfold depthLimit
  unfold maxHeap at *
  omega

theorem Rep.freeTree_indexed (rep : Rep h segs) :
    Indexed h h.freeTree ∧ ∀ k, k ∈ h.freeTree ↔ ∃ s ∈ segs, s.alloc = false ∧ s.key = k := by
  obtain ⟨t, idx, keys⟩ := rep.filed
  have deep := Filed.deep rep.chain.arena rep.chain.tiles (List.Sublist.refl _) idx.valid keys
  have same : h.freeTree = t := by
    rw [Heap.freeTree, idx.root]
    exact readTree_eq idx.own deep
  rw [same]
  exact ⟨idx, keys⟩

theorem Rep.wellFormed (rep : Rep h segs) : WellFormed h := by
  obtain ⟨idx, keys⟩ := rep.freeTree_indexed
  obtain ⟨arena, tiles, links⟩ := rep.chain
  have distinct : h.freeTree.toList.Nodup := idx.valid.ordered.imp fun less => less.ne
  refine ⟨?_, (links_append.mp links).2.1.size, ?_, ?_, idx.valid, idx.own, idx.root, idx.own.nilAt⟩
  · rw [rep.segments_eq]
    exact tiles
  · rw [rep.segments_eq]
    exact links
  · rw [rep.segments_eq]
    refine (List.perm_ext_iff_of_nodup distinct ?_).mpr fun k => ?_
    · refine (tiles.nodup.filter _).map_on fun x memX y memY eq => ?_
      rw [List.mem_filter, Bool.not_eq_true'] at memX memY
      exact Seg.eq_of_key eq (memX.2.trans memY.2.symm)
    · refine (keys k).trans ?_
      simp only [List.mem_map, List.mem_filter, Bool.not_eq_true', and_assoc]

end Readback

section Init
variable {start : Nat} {bytes : Bytes}

/-- The heap after `mm_init`. -/
def initHeap (start : Nat) (bytes : Bytes) : Heap :=
  let data : Heap := { memInit start fun x => if start ≤ x ∧ x < start + mmDataSize then 0 else bytes x with
    memBrk := start + mmDataSize }
  let rooted := ((data.setWord start (start + 4)).setColor (start + 4) .black).setNull (start + 4) true
  let grown : Heap := { rooted with
    memBrk := start + mmDataSize + mmHeaderSize
    calls := [.memSbrk mmHeaderSize, .memSbrk mmDataSize] }
  grown.clear (start + mmDataSize)

theorem runs_mmInit {Q : Nat → Heap → Prop} :
    Runs mmInit (memInit start bytes) Q ↔ Q 0 (initHeap start bytes) := by
  unfold mmInit mmMemset setRoot
  rw [runs_bind, runs_memSbrk, runs_bind, runs_bind, runs_mmMemsetLoop, runs_pure, runs_bind, runs_storeWord,
    runs_bind, runs_setColor, runs_bind, runs_setNull, runs_bind, runs_memSbrk, runs_bind, runs_mmClearHeader,
    runs_pure]
  · rfl
  all_goals
    simp only [Heap.HeaderIn, Heap.Within, Heap.setNull, Heap.setColor, Heap.setFields, Heap.setWord, memInit,
      mmDataSize, mmHeaderSize, maxHeap]
    omega

theorem mmInit_run : mmInit (memInit start bytes) = .ok 0 (initHeap start bytes) := by
  have runs : Runs mmInit (memInit start bytes) fun r h => r = 0 ∧ h = initHeap start bytes :=
    runs_mmInit.mpr ⟨rfl, rfl⟩
  obtain ⟨r, h, eq, rfl, rfl⟩ := runs
  exact eq

theorem initHeap_rep (positive : 0 < start) (aligned : 8 ∣ start) (top : start + maxHeap < 2 ^ 32) :
    Rep (initHeap start bytes) [] := by
  let data : Heap := { memInit start fun x => if start ≤ x ∧ x < start + mmDataSize then 0 else bytes x with
    memBrk := start + mmDataSize }
  let painted := (data.setWord start (start + 4)).setColor (start + 4) .black
  have kept : ∀ x, x < start + 24 → (initHeap start bytes).bytes x = (painted.setNull (start + 4) true).bytes x :=
    fun x low => if_neg (by unfold mmDataSize; omega)
  have root : (initHeap start bytes).bytes.word start = start + 4 := by
    have first : (initHeap start bytes).bytes.word start = (data.setWord start (start + 4)).bytes.word start :=
      Bytes.word_congr fun x low high => (kept x (by omega)).trans
        ((Bytes.setWord_outside (.inl (by omega))).trans (Bytes.setWord_outside (.inl (by omega))))
    rw [first]
    exact Bytes.word_setWord (by unfold maxHeap at top; omega)
  have node : (initHeap start bytes).node (start + 4) = (painted.setNull (start + 4) true).node (start + 4) :=
    node_congr fun x low high => kept x (by omega)
  have nilAt : NilAt (start + 4) (initHeap start bytes) := by
    refine ⟨⟨?_, ?_⟩, ?_, ?_⟩
    · exact Nat.le_add_right _ _
    · change start + 4 + 16 ≤ start + 24 + 8
      omega
    · rw [node, node_setNull]
    · rw [node, node_setNull]
      simp only [painted]
      rw [node_setColor]
  refine ⟨⟨⟨positive, aligned, rfl, top, ?_⟩, rfl, ?_, trivial⟩, .null, ⟨⟨nilAt, trivial, ?_, ?_⟩, root, ?_⟩, ?_⟩
  · change start + 24 + 8 ≤ start + maxHeap
    unfold maxHeap
    omega
  · exact headerAt_clear
  · exact List.pairwise_singleton _ _
  · intro a mem
    rw [addrs_null, List.mem_singleton] at mem
    subst mem
    exact ⟨nilAt.inside, by change start + 4 < 2 ^ 32; unfold maxHeap at top; omega⟩
  · exact isRedBlack_iff.mpr ⟨List.Pairwise.nil, 0, .null⟩
  · intro k
    constructor
    · intro mem
      cases mem
    · rintro ⟨s, mem, _⟩
      cases mem

end Init

end Splab.Malloc
