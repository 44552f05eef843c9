import Splab.Malloc.TreeRemove
import Splab.Malloc.Limits

namespace Splab.Malloc
open RedBlack RBTree

/-- `&data->null` -/
def Heap.nil (h : Heap) : Nat := h.memStartBrk + 4

/-- `data->root` points to the red-black search tree `t`. -/
structure Indexed (h : Heap) (t : RBTree Key) : Prop where
  own : Owns h.nil h t
  root : h.bytes.word h.memStartBrk = rootPtr h.nil t
  valid : t.IsRedBlack

/-- `h'` differs from `h` only in `data->root` and in the `left`, `right` and
`color` of the nodes in `S`. -/
structure TreeOnly (S : List Nat) (h h' : Heap) : Prop where
  start : h'.memStartBrk = h.memStartBrk
  brk : h'.memBrk = h.memBrk
  maxAddr : h'.memMaxAddr = h.memMaxAddr
  errno : h'.errno = h.errno
  bytes : ∀ x, h.memStartBrk + 4 ≤ x → (∀ a ∈ S, x < a + 4 ∨ a + 16 ≤ x) → h'.bytes x = h.bytes x
  fields : ∀ a ∈ S, (h'.node a).size = (h.node a).size ∧ (h'.node a).alloc = (h.node a).alloc ∧
    (h'.node a).null = (h.node a).null

section Root
variable {h h' h'' : Heap} {t : RBTree Key} {S : List Nat} {v limit : Nat}

theorem Relinked.treeOnly (frame : Relinked S h h') : TreeOnly S h h' :=
  { frame with bytes := fun x _ => frame.bytes x }

theorem TreeOnly.trans (first : TreeOnly S h h') (second : TreeOnly S h' h'') : TreeOnly S h h'' where
  start := second.start.trans first.start
  brk := second.brk.trans first.brk
  maxAddr := second.maxAddr.trans first.maxAddr
  errno := second.errno.trans first.errno
  bytes x above out := (second.bytes x (first.start ▸ above) out).trans (first.bytes x above out)
  fields a mem := by
    obtain ⟨s1, a1, n1⟩ := first.fields a mem
    obtain ⟨s2, a2, n2⟩ := second.fields a mem
    exact ⟨s2.trans s1, a2.trans a1, n2.trans n1⟩

theorem node_setRoot {q : Nat} (above : h.memStartBrk + 4 ≤ q) : (h.setWord h.memStartBrk v).node q = h.node q :=
  node_setWord_apart (.inl above)

theorem Owns.above (own : Owns h.nil h t) {a : Nat} (mem : a ∈ addrs t) : h.memStartBrk + 20 ≤ a := by
  have apart := own.nil_apart a mem
  have inside := (own.inside a (List.mem_cons_of_mem _ mem)).1
  unfold Apart Heap.nil at apart
  unfold Heap.NodeIn Heap.Within at inside
  omega

theorem treeOnly_setRoot (above : ∀ a ∈ S, h.memStartBrk + 4 ≤ a) :
    TreeOnly S h (h.setWord h.memStartBrk v) where
  start := rfl
  brk := rfl
  maxAddr := rfl
  errno := rfl
  bytes x high _ := Bytes.setWord_outside (.inr high)
  fields a mem := by
    rw [node_setRoot (above a mem)]
    exact ⟨rfl, rfl, rfl⟩

theorem Owns.setRoot (own : Owns h.nil h t) : Owns h.nil (h.setWord h.memStartBrk v) t where
  nilAt := own.nilAt.congr own.nilAt.inside (node_setRoot (Nat.le_refl _))
  tree := own.tree.congr fun a mem => node_setRoot (by have := own.above mem; omega)
  spread := own.spread
  inside := own.inside

theorem Relinked.root_word (frame : Relinked S h h') (above : ∀ a ∈ S, h.memStartBrk + 4 ≤ a) :
    h'.bytes.word h.memStartBrk = h.bytes.word h.memStartBrk :=
  Bytes.word_congr fun x _ high => frame.bytes x fun a mem => by
    have := above a mem
    omega

theorem Owns.root_within (own : Owns h.nil h t) : h.Within h.memStartBrk 4 := by
  have inside := own.nilAt.inside
  unfold Heap.NodeIn Heap.Within Heap.nil at inside
  unfold Heap.Within
  omega

@[simp] theorem rootPtr_setColor {nil : Nat} {c : Color} {t : RBTree Key} :
    rootPtr nil (t.setColor c) = rootPtr nil t := by
  cases t <;> rfl

/-- The last two statements of `mm_insert` and `mm_delete`: the new root is
stored and painted black. -/
theorem runs_storeRoot {Q : Unit → Heap → Prop} (own : Owns h.nil h t) (above : ∀ a ∈ S, h.memStartBrk + 4 ≤ a)
    (sub : ∀ a ∈ addrs t, a ∈ S) (spread : S.Pairwise Apart)
    (next : ∀ h', Owns h'.nil h' (t.setColor .black) → h'.bytes.word h'.memStartBrk = rootPtr h'.nil t →
      TreeOnly S h h' → h'.calls = h.calls → Q () h') :
    Runs (do
      setRoot h.memStartBrk (rootPtr h.nil t)
      setColor (← getRoot h.memStartBrk) .black) h Q := by
  have stored := own.setRoot (v := rootPtr h.nil t)
  unfold setRoot getRoot
  rw [runs_bind, runs_storeWord own.root_within, runs_bind, runs_loadWord (within_setWord.mpr own.root_within)]
  have word : (h.setWord h.memStartBrk (rootPtr h.nil t)).bytes.word h.memStartBrk = rootPtr h.nil t :=
    Bytes.word_setWord own.root_lt
  rw [word]
  refine runs_paintRoot stored fun h' paint => ?_
  have nilSame : h'.nil = h.nil := congrArg (· + 4) paint.frame.start
  have low : ∀ a ∈ addrs t, h.memStartBrk + 4 ≤ a := fun a mem => by
    have := own.above mem
    omega
  refine next h' (nilSame ▸ paint.own) ?_ ((treeOnly_setRoot (v := rootPtr h.nil t) above).trans ?_) ?_
  · rw [nilSame, paint.frame.start]
    exact (paint.frame.root_word low).trans word
  · exact (paint.frame.widen sub spread).treeOnly
  · exact paint.frame.calls

theorem Owns.nil_eq {h' : Heap} (frame : Relinked S h h') : h'.nil = h.nil :=
  congrArg (· + 4) frame.start

/-- The record of a call is not read by anything. -/
theorem Indexed.record {calls : List Call} (idx : Indexed h t) : Indexed { h with calls := calls } t where
  own :=
    { idx.own with
      nilAt := idx.own.nilAt.congr idx.own.nilAt.inside rfl
      tree := idx.own.tree.congr fun _ _ => rfl }
  root := idx.root
  valid := idx.valid

/-- `mm_insert` adds a node to the tree under `data->root`, with any limit that is above the height of the tree. -/
theorem runs_mmInsertUpto {new : Key} (idx : Indexed h t) (fresh : Fresh h.nil h new t) (deep : t.height < limit) :
    Runs (mmInsertUpto limit new.addr) h fun _ h' =>
      Indexed h' (t.insert new) ∧ TreeOnly (new.addr :: addrs t) h h' ∧
        h'.calls = .mmInsert new.addr new.size :: h.calls := by
  have size : (h.node new.addr).size = new.size := fresh.size
  unfold mmInsertUpto
  rw [runs_bind, runs_modify, size]
  -- from here on with the call on record
  have idx0 : Indexed { h with calls := .mmInsert new.addr new.size :: h.calls } t := idx.record
  have fresh0 : Fresh h.nil { h with calls := .mmInsert new.addr new.size :: h.calls } new t := { fresh with }
  have forget : ∀ {S h'}, TreeOnly S { h with calls := .mmInsert new.addr new.size :: h.calls } h' →
      TreeOnly S h h' := fun only => { only with }
  suffices after : ∀ h0, Indexed h0 t → Fresh h0.nil h0 new t → Runs (do
      let data ← memHeapLo
      setRoot data (← mmInsertNode limit (← getRoot data) new.addr)
      setColor (← getRoot data) .black) h0 fun _ h' =>
        Indexed h' (t.insert new) ∧ TreeOnly (new.addr :: addrs t) h0 h' ∧ h'.calls = h0.calls from
    (after _ idx0 fresh0).mono fun _ h' ⟨idx', only, calls⟩ => ⟨idx', forget only, calls⟩
  clear idx0 fresh0 forget
  intro h idx fresh
  have spread := (List.pairwise_cons.mp fresh.spread).2
  have apartNil := (List.pairwise_cons.mp fresh.spread).1 new.addr List.mem_cons_self
  have newAbove : h.memStartBrk + 4 ≤ new.addr := by
    have inside := fresh.inside
    unfold Apart Heap.nil at apartNil
    unfold Heap.NodeIn Heap.Within at inside
    omega
  have above : ∀ a ∈ new.addr :: addrs t, h.memStartBrk + 4 ≤ a := by
    rintro a (_ | ⟨_, mem⟩)
    · exact newAbove
    · have := idx.own.above mem
      omega
  have notIn : new ∉ t := fun mem =>
    (List.pairwise_cons.mp spread).1 _ (List.mem_map_of_mem mem) |>.ne rfl
  rw [runs_bind, runs_memHeapLo, runs_bind, getRoot, runs_loadWord idx.own.root_within, idx.root, runs_bind]
  refine (runs_mmInsertNode deep idx.own fresh).mono ?_
  rintro _ h1 ⟨rfl, own, frame⟩
  have nilSame : h1.nil = h.nil := Owns.nil_eq frame
  rw [← nilSame] at own ⊢
  rw [← frame.start]
  refine runs_storeRoot own (S := new.addr :: addrs t) (frame.start ▸ above)
    (fun a mem => addrs_insertNode.mem_iff.mp mem) spread fun h2 owned root only calls => ?_
  exact ⟨⟨owned, by rw [root, RBTree.insert, rootPtr_setColor], idx.valid.insert notIn⟩, frame.treeOnly.trans only,
    calls.trans frame.calls⟩

theorem runs_mmInsert {new : Key} (idx : Indexed h t) (fresh : Fresh h.nil h new t) (deep : t.height < depthLimit) :
    Runs (mmInsert new.addr) h fun _ h' =>
      Indexed h' (t.insert new) ∧ TreeOnly (new.addr :: addrs t) h h' ∧
        h'.calls = .mmInsert new.addr new.size :: h.calls :=
  runs_mmInsertUpto idx fresh deep

/-- `mm_delete` takes a node out of the tree under `data->root`. -/
theorem runs_mmDeleteUpto {del : Key} (idx : Indexed h t) (present : del ∈ t) (deep : t.height < limit) :
    Runs (mmDeleteUpto limit del.addr) h fun _ h' =>
      Indexed h' (t.delete del) ∧ TreeOnly (addrs t) h h' ∧ h'.calls = h.calls := by
  have spread := (List.pairwise_cons.mp idx.own.spread).2
  have above : ∀ a ∈ addrs t, h.memStartBrk + 4 ≤ a := fun a mem => by
    have := idx.own.above mem
    omega
  obtain ⟨ordered, n, bal⟩ := isRedBlack_iff.mp idx.valid
  unfold mmDeleteUpto
  rw [runs_bind, runs_memHeapLo, runs_bind, getRoot, runs_loadWord idx.own.root_within, idx.root, runs_bind]
  refine (runs_mmDeleteNode bal idx.own ordered present deep).mono ?_
  rintro _ h1 ⟨rfl, own, frame⟩
  have nilSame : h1.nil = h.nil := Owns.nil_eq frame
  rw [← nilSame] at own ⊢
  rw [← frame.start]
  refine runs_storeRoot own (S := addrs t) (frame.start ▸ above) (addrs_deleteNode_sub ordered present) spread
    fun h2 owned root only calls => ?_
  exact ⟨⟨owned, by rw [root, RBTree.delete, rootPtr_setColor], idx.valid.delete present⟩, frame.treeOnly.trans only,
    calls.trans frame.calls⟩

theorem runs_mmDelete {del : Key} (idx : Indexed h t) (present : del ∈ t) (deep : t.height < depthLimit) :
    Runs (mmDelete del.addr) h fun _ h' =>
      Indexed h' (t.delete del) ∧ TreeOnly (addrs t) h h' ∧ h'.calls = h.calls :=
  runs_mmDeleteUpto idx present deep

/-- The pointer that stands for the result of a search. -/
def foundPtr : Option Key → Nat
  | none => 0
  | some k => k.addr

theorem runs_mmSearchNode {nil fuel size : Nat} (own : Owns nil h t) (positive : ∀ a ∈ addrs t, a ≠ 0)
    (deep : t.height < fuel) {Q : Nat → Heap → Prop} :
    Runs (mmSearchNode fuel (rootPtr nil t) size) h Q ↔
      Q (foundPtr (t.searchNode fun k => decide (size ≤ k.size))) h := by
  induction t generalizing fuel Q with
  | null =>
    obtain ⟨fuel, rfl⟩ : ∃ n, fuel = n + 1 := ⟨fuel - 1, by omega⟩
    rw [mmSearchNode, runs_bind, rootPtr_null, runs_getNull own.nilAt.inside.header, own.nilAt.null, if_pos rfl,
      runs_pure]
    rfl
  | node c l k r ihl ihr =>
    obtain ⟨fuel, rfl⟩ : ∃ n, fuel = n + 1 := ⟨fuel - 1, by omega⟩
    have deeper : l.height < fuel ∧ r.height < fuel := by
      simp only [height] at deep
      omega
    simp only [addrs_node, List.mem_append, List.mem_cons] at positive
    rw [mmSearchNode, runs_bind, rootPtr_node, runs_getNull own.nodeIn.header, own.keyAt.null, if_neg (by simp),
      runs_bind, runs_getSize own.nodeIn.header, own.keyAt.size, searchNode]
    by_cases fits : size ≤ k.size
    · rw [if_pos fits, runs_bind, runs_getLeft_own own, runs_bind,
        ihl own.left (fun a mem => positive a (.inl mem)) deeper.1]
      simp only [fits, decide_true, if_true]
      cases found : l.searchNode fun k => decide (size ≤ k.size) with
      | none => simp only [foundPtr, if_true, runs_pure]
      | some j =>
        have nonzero : j.addr ≠ 0 := positive _ (.inl (List.mem_map_of_mem (searchNode_mem found)))
        simp only [foundPtr, nonzero, if_false, runs_pure]
    · rw [if_neg fits, runs_bind, runs_getRight_own own,
        ihr own.right (fun a mem => positive a (.inr (.inr mem))) deeper.2]
      simp only [fits, decide_false, Bool.false_eq_true, if_false]

theorem runs_mmSearchUpto {size : Nat} (idx : Indexed h t) (deep : t.height < limit) {Q : Nat → Heap → Prop} :
    Runs (mmSearchUpto limit size) h Q ↔ Q (foundPtr (t.toList.find? fun k => decide (size ≤ k.size))) h := by
  unfold mmSearchUpto
  rw [runs_bind, runs_memHeapLo, runs_bind, getRoot, runs_loadWord idx.own.root_within, idx.root,
    runs_mmSearchNode idx.own (fun a mem => by have := idx.own.above mem; omega) deep,
    searchNode_eq_find? idx.valid.ordered]
  intro x y less fits
  rw [key_lt_iff] at less
  rw [decide_eq_true_iff] at fits ⊢
  omega

end Root

end Splab.Malloc
