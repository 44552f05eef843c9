import Splab.Malloc.TreeRoot

namespace Splab.Malloc
open RedBlack RBTree

/-- The fields of a node that do not belong to the tree are the same in both heaps. -/
structure SameSegment (h h' : Heap) (a : Nat) : Prop where
  prev : (h'.node a).prev = (h.node a).prev
  size : (h'.node a).size = (h.node a).size
  alloc : (h'.node a).alloc = (h.node a).alloc
  null : (h'.node a).null = (h.node a).null

/-- The heap with `left` and `right` of the null node set to `l` and `r`. -/
def Heap.nilChildren (h : Heap) (l r : Nat) : Heap := (h.setLeft h.nil l).setRight h.nil r

section Calls
variable {h h' : Heap} {t : RBTree Key} {S : List Nat} {a l r : Nat} {del new : Key}

theorem TreeOnly.sameSegment (only : TreeOnly S h h') (spread : S.Pairwise Apart) (mem : a ∈ S)
    (above : h.memStartBrk + 4 ≤ a) : SameSegment h h' a := by
  obtain ⟨size, alloc, null⟩ := only.fields a mem
  have prev : h'.bytes.word a = h.bytes.word a := by
    refine Bytes.word_congr fun x low high => only.bytes x (by omega) fun b inside => ?_
    have sym : Std.Symm Apart := ⟨fun _ _ => Apart.symm⟩
    by_cases same : b = a
    · omega
    · have := spread.forall inside mem same
      unfold Apart at this
      omega
  exact ⟨prev, size, alloc, null⟩

/-- A tree in a heap of memlib.c is never as deep as the bound on the recursions. -/
theorem Owns.height_lt (own : Owns h.nil h t) (fits : h.memBrk ≤ h.memStartBrk + maxHeap) : t.height < depthLimit := by
  have spread := (List.pairwise_cons.mp own.spread).2
  have distinct : (addrs t).Nodup := spread.imp fun apart => apart.ne
  have inside : addrs t ⊆ List.range' h.memStartBrk (h.memBrk - h.memStartBrk - 15) := fun a mem => by
    have bounds := (own.inside a (List.mem_cons_of_mem _ mem)).1
    unfold Heap.NodeIn Heap.Within at bounds
    rw [List.mem_range'_1]
    omega
  have count := (List.subperm_of_subset distinct inside).length_le
  have height := height_le_length t
  have nilIn := own.nilAt.inside
  unfold Heap.NodeIn Heap.Within Heap.nil at nilIn
  rw [List.length_range', addrs, List.length_map] at count
  unfold depthLimit
  omega

theorem Owns.spread_addrs (own : Owns h.nil h t) : (addrs t).Pairwise Apart :=
  (List.pairwise_cons.mp own.spread).2

/-- The tree does not depend on what the null node holds as its children. -/
theorem Indexed.nilChildren (idx : Indexed h t) (left : l < 2 ^ 32) (right : r < 2 ^ 32) :
    Indexed (h.nilChildren l r) t := by
  have nilIn := idx.own.nilAt.inside
  have far := (List.pairwise_cons.mp idx.own.spread).1
  have nodes : ∀ a ∈ addrs t, (h.nilChildren l r).node a = h.node a := fun a mem => by
    rw [Heap.nilChildren, node_setRight_apart (far a mem), node_setLeft_apart (far a mem)]
  have nil : (h.nilChildren l r).node h.nil = { h.node h.nil with left := l, right := r } := by
    rw [Heap.nilChildren, node_setRight right, node_setLeft left]
  refine ⟨⟨⟨nilIn, ?_, ?_⟩, idx.own.tree.congr nodes, idx.own.spread, idx.own.inside⟩, ?_, idx.valid⟩
  · exact (congrArg MMNode.null nil).trans idx.own.nilAt.null
  · exact (congrArg MMNode.color nil).trans idx.own.nilAt.color
  · refine Eq.trans ?_ idx.root
    change ((h.bytes.setWord (h.memStartBrk + 4 + 8) l).setWord (h.memStartBrk + 4 + 12) r).word h.memStartBrk = _
    rw [Bytes.word_setWord_apart (by omega), Bytes.word_setWord_apart (by omega)]

end Calls

/-- The heap with the tree stored in its nodes. -/
def Heap.plant (nil : Nat) : RBTree Key → Heap → Heap
  | .null, h => h
  | .node c l k r, h =>
    let h := Heap.plant nil r (Heap.plant nil l h)
    (((h.setSize k.addr k.size).setColor k.addr c).setLeft k.addr (rootPtr nil l)).setRight k.addr (rootPtr nil r)

/-- Six free segments, two of them red. -/
def sixTree : RBTree Key :=
  node .black
    (node .red (node .black null ⟨2, 32⟩ null) ⟨2, 48⟩ (node .black null ⟨3, 64⟩ (node .red null ⟨3, 88⟩ null)))
    ⟨4, 112⟩ (node .black null ⟨5, 144⟩ null)

/-- A heap with this tree and one more free segment of 3 units at 184. -/
def sixHeap : Heap :=
  let data : Heap := { memInit 8 fun _ => 0 with memBrk := 216 }
  (Heap.plant 12 sixTree ((data.setWord 8 112).setNull 12 true)).setSize 184 3

theorem sixTree_valid : sixTree.IsRedBlack := by
  refine isRedBlack_iff.mpr ⟨?_, 2, ?_⟩
  · change [(⟨2, 32⟩ : Key), ⟨2, 48⟩, ⟨3, 64⟩, ⟨3, 88⟩, ⟨4, 112⟩, ⟨5, 144⟩].Pairwise (· < ·)
    simp [key_lt_iff]
  · exact .black (.red (.black .null .null) (.black .null (.red .null .null))) (.black .null .null)

theorem sixHeap_indexed : Indexed sixHeap sixTree := by
  have nilAt : NilAt sixHeap.nil sixHeap :=
    ⟨by unfold Heap.NodeIn; decide +kernel, by decide +kernel, by decide +kernel⟩
  have tree : TreeAt 12 sixHeap sixTree := by decide +kernel
  refine ⟨⟨nilAt, tree, ?_, ?_⟩, by decide +kernel, sixTree_valid⟩
  · change [12, 32, 48, 64, 88, 112, 144].Pairwise Apart
    simp [Apart]
  · change ∀ a ∈ [12, 32, 48, 64, 88, 112, 144], sixHeap.NodeIn a ∧ a < 2 ^ 32
    unfold Heap.NodeIn
    decide +kernel

section Calls
variable {h : Heap} {t : RBTree Key} {l r : Nat} {del new : Key}

/-- `mm_insert` adds a node to a red-black tree, and every node keeps its segment. -/
theorem mmInsert_adds (idx : Indexed h t) (fits : h.memBrk ≤ h.memStartBrk + maxHeap) (fresh : Fresh h.nil h new t) :
    Runs (mmInsert new.addr) h fun _ h' =>
      (∃ t', Indexed h' t' ∧ ∀ k, k ∈ t' ↔ k = new ∨ k ∈ t) ∧ (h'.node h'.nil).color = .black ∧
        (∀ a ∈ new.addr :: addrs t, SameSegment h h' a) ∧ TreeOnly (new.addr :: addrs t) h h' := by
  have spread := (List.pairwise_cons.mp fresh.spread).2
  have newAbove : h.memStartBrk + 4 ≤ new.addr := by
    have apart := (List.pairwise_cons.mp fresh.spread).1 new.addr List.mem_cons_self
    have inside := fresh.inside
    unfold Apart Heap.nil at apart
    unfold Heap.NodeIn Heap.Within at inside
    omega
  refine (runs_mmInsert idx fresh (idx.own.height_lt fits)).mono ?_
  rintro _ h' ⟨idx', only, _⟩
  refine ⟨⟨_, idx', fun k => mem_insert⟩, idx'.own.nilAt.color, fun a mem => ?_, only⟩
  refine only.sameSegment spread mem ?_
  rcases List.mem_cons.mp mem with rfl | mem
  · exact newAbove
  · have := idx.own.above mem
    omega

/-- The new node comes below a red one, which takes a rotation. -/
theorem mmInsert_adds_repaired : Runs (mmInsert 184) sixHeap fun _ h' =>
    (∃ t', Indexed h' t' ∧ ∀ k, k ∈ t' ↔ k = ⟨3, 184⟩ ∨ k ∈ sixTree) ∧ (h'.node h'.nil).color = .black ∧
      (∀ a ∈ 184 :: addrs sixTree, SameSegment sixHeap h' a) ∧ TreeOnly (184 :: addrs sixTree) sixHeap h' :=
  @mmInsert_adds sixHeap _ ⟨3, 184⟩ sixHeap_indexed (by decide +kernel)
    ⟨by change [12, 184, 32, 48, 64, 88, 112, 144].Pairwise Apart; simp [Apart],
      by unfold Heap.NodeIn; decide +kernel, by decide, by decide +kernel, by decide +kernel⟩

/-- `mm_delete` takes a node out of a red-black tree, and every node keeps its segment.
The children of the null node may point anywhere, so none of them is ever followed. -/
theorem mmDelete_removes (idx : Indexed h t) (fits : h.memBrk ≤ h.memStartBrk + maxHeap) (present : del ∈ t)
    (left : l < 2 ^ 32) (right : r < 2 ^ 32) :
    Runs (mmDelete del.addr) (h.nilChildren l r) fun _ h' =>
      (∃ t', Indexed h' t' ∧ ∀ k, k ∈ t' ↔ k ∈ t ∧ k ≠ del) ∧ (h'.node h'.nil).color = .black ∧
        (∀ a ∈ addrs t, SameSegment (h.nilChildren l r) h' a) ∧ TreeOnly (addrs t) (h.nilChildren l r) h' := by
  have idx0 := idx.nilChildren left right
  refine (runs_mmDelete idx0 present (idx.own.height_lt fits)).mono ?_
  rintro _ h' ⟨idx', only, _⟩
  refine ⟨⟨_, idx', fun k => idx.valid.ordered.mem_delete present⟩, idx'.own.nilAt.color, fun a mem => ?_, only⟩
  refine only.sameSegment idx.own.spread_addrs mem ?_
  have := idx0.own.above mem
  omega

/-- The black successor takes the place of the root, whose other child is red and has a red grandchild inside. -/
theorem mmDelete_removes_root : Runs (mmDelete 112) (sixHeap.nilChildren 1 2) fun _ h' =>
    (∃ t', Indexed h' t' ∧ ∀ k, k ∈ t' ↔ k ∈ sixTree ∧ k ≠ ⟨4, 112⟩) ∧ (h'.node h'.nil).color = .black ∧
      (∀ a ∈ addrs sixTree, SameSegment (sixHeap.nilChildren 1 2) h' a) ∧
        TreeOnly (addrs sixTree) (sixHeap.nilChildren 1 2) h' :=
  @mmDelete_removes sixHeap _ 1 2 ⟨4, 112⟩ sixHeap_indexed (by decide +kernel)
    (show (⟨4, 112⟩ : Key) ∈ sixTree.toList by simp [sixTree]) (by decide) (by decide)

end Calls

end Splab.Malloc
