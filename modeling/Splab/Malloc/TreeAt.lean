import Splab.Malloc.FreeTree

namespace Splab.Malloc
open RedBlack

/-- A free segment as the tree sees it, ordered as `mm_cmp_node` orders nodes. -/
@[ext] structure Key where
  size : Nat
  addr : Nat

instance : LinearOrder Key :=
  LinearOrder.lift' (fun k => toLex (k.size, k.addr)) fun a b eq => by
    have pair := toLex.injective eq
    exact Key.ext (congrArg Prod.fst pair) (congrArg Prod.snd pair)

theorem key_lt_iff {a b : Key} : a < b ↔ a.size < b.size ∨ a.size = b.size ∧ a.addr < b.addr :=
  Prod.Lex.lt_iff

/-- The pointer that stands for a tree; the empty tree is the shared null node. -/
def rootPtr (nil : Nat) : RBTree Key → Nat
  | .null => nil
  | .node _ _ k _ => k.addr

@[simp] theorem rootPtr_null {nil : Nat} : rootPtr nil .null = nil := rfl

@[simp] theorem rootPtr_node {nil : Nat} {c : Color} {l : RBTree Key} {k : Key} {r : RBTree Key} :
    rootPtr nil (.node c l k r) = k.addr := rfl

def addrs (t : RBTree Key) : List Nat := t.toList.map Key.addr

@[simp] theorem addrs_null : addrs .null = [] := rfl

@[simp] theorem addrs_node {c : Color} {l : RBTree Key} {k : Key} {r : RBTree Key} :
    addrs (.node c l k r) = addrs l ++ k.addr :: addrs r := by
  simp [addrs]

theorem addrs_eq {t t' : RBTree Key} (same : t'.toList = t.toList) : addrs t' = addrs t := by
  rw [addrs, addrs, same]

/-- What the heap stores for one node of the tree. -/
structure KeyAt (h : Heap) (c : Color) (left : Nat) (k : Key) (right : Nat) : Prop where
  size : (h.node k.addr).size = k.size
  color : (h.node k.addr).color = c
  null : (h.node k.addr).null = false
  left : (h.node k.addr).left = left
  right : (h.node k.addr).right = right

def TreeAt (nil : Nat) (h : Heap) : RBTree Key → Prop
  | .null => True
  | .node c l k r => KeyAt h c (rootPtr nil l) k (rootPtr nil r) ∧ TreeAt nil h l ∧ TreeAt nil h r

instance {h : Heap} {c : Color} {left right : Nat} {k : Key} : Decidable (KeyAt h c left k right) :=
  decidable_of_iff (_ ∧ _ ∧ _ ∧ _ ∧ _) ⟨fun ⟨size, color, null, left, right⟩ => ⟨size, color, null, left, right⟩,
    fun at' => ⟨at'.size, at'.color, at'.null, at'.left, at'.right⟩⟩

instance decideTreeAt {nil : Nat} {h : Heap} : (t : RBTree Key) → Decidable (TreeAt nil h t)
  | .null => .isTrue trivial
  | .node _ l _ r => @instDecidableAnd _ _ inferInstance (@instDecidableAnd _ _ (decideTreeAt l) (decideTreeAt r))

/-- The shared null node: black and marked as null. -/
structure NilAt (nil : Nat) (h : Heap) : Prop where
  inside : h.NodeIn nil
  null : (h.node nil).null = true
  color : (h.node nil).color = .black

/-- The heap stores the tree `t`, in nodes that lie in the heap and overlap
neither each other nor the null node. -/
structure Owns (nil : Nat) (h : Heap) (t : RBTree Key) : Prop where
  nilAt : NilAt nil h
  tree : TreeAt nil h t
  spread : (nil :: addrs t).Pairwise Apart
  inside : ∀ a ∈ nil :: addrs t, h.NodeIn a ∧ a < 2 ^ 32

/-- `h'` differs from `h` only in the `left`, `right` and `color` of the nodes in `S`. -/
structure Relinked (S : List Nat) (h h' : Heap) : Prop where
  start : h'.memStartBrk = h.memStartBrk
  brk : h'.memBrk = h.memBrk
  maxAddr : h'.memMaxAddr = h.memMaxAddr
  errno : h'.errno = h.errno
  calls : h'.calls = h.calls
  bytes : ∀ x, (∀ a ∈ S, x < a + 4 ∨ a + 16 ≤ x) → h'.bytes x = h.bytes x
  fields : ∀ a ∈ S, (h'.node a).size = (h.node a).size ∧ (h'.node a).alloc = (h.node a).alloc ∧
    (h'.node a).null = (h.node a).null

theorem Relinked.refl (S : List Nat) (h : Heap) : Relinked S h h :=
  ⟨rfl, rfl, rfl, rfl, rfl, fun _ _ => rfl, fun _ _ => ⟨rfl, rfl, rfl⟩⟩

theorem Relinked.node_apart {S : List Nat} {h h' : Heap} {b : Nat} (frame : Relinked S h h')
    (apart : ∀ a ∈ S, Apart a b) : h'.node b = h.node b :=
  node_congr fun x low high => frame.bytes x fun a mem => by
    have := apart a mem
    unfold Apart at this
    omega

theorem Relinked.trans {S : List Nat} {h h' h'' : Heap} (first : Relinked S h h') (second : Relinked S h' h'') :
    Relinked S h h'' where
  start := second.start.trans first.start
  brk := second.brk.trans first.brk
  maxAddr := second.maxAddr.trans first.maxAddr
  errno := second.errno.trans first.errno
  calls := second.calls.trans first.calls
  bytes x out := (second.bytes x out).trans (first.bytes x out)
  fields a mem := by
    obtain ⟨s1, a1, n1⟩ := first.fields a mem
    obtain ⟨s2, a2, n2⟩ := second.fields a mem
    exact ⟨s2.trans s1, a2.trans a1, n2.trans n1⟩

/-- A larger footprint says less, provided its nodes do not overlap. -/
theorem Relinked.mono {S S' : List Nat} {h h' : Heap} (frame : Relinked S h h') (sub : ∀ a ∈ S, a ∈ S')
    (spread : ∀ a ∈ S, ∀ b ∈ S', a = b ∨ Apart a b) : Relinked S' h h' where
  start := frame.start
  brk := frame.brk
  maxAddr := frame.maxAddr
  errno := frame.errno
  calls := frame.calls
  bytes x out := frame.bytes x fun a mem => out a (sub a mem)
  fields b mem := by
    by_cases inside : b ∈ S
    · exact frame.fields b inside
    · have same := frame.node_apart (b := b) fun a hit =>
        (spread a hit b mem).resolve_left fun eq => inside (eq ▸ hit)
      rw [same]
      exact ⟨rfl, rfl, rfl⟩

theorem Relinked.nodeIn {S : List Nat} {h h' : Heap} (frame : Relinked S h h') {p : Nat} :
    h'.NodeIn p ↔ h.NodeIn p := by
  unfold Heap.NodeIn Heap.Within
  rw [frame.start, frame.brk]

theorem Relinked.headerIn {S : List Nat} {h h' : Heap} (frame : Relinked S h h') {p : Nat} :
    h'.HeaderIn p ↔ h.HeaderIn p := by
  unfold Heap.HeaderIn Heap.Within
  rw [frame.start, frame.brk]

/-- A store behind `prev` that leaves the fields outside the tree as they are. -/
theorem relinked_setWord {h : Heap} {p a v : Nat} {n : MMNode} (low : p + 4 ≤ a) (high : a + 4 ≤ p + 16)
    (written : (h.setWord a v).node p = n) (size : n.size = (h.node p).size) (alloc : n.alloc = (h.node p).alloc)
    (null : n.null = (h.node p).null) : Relinked [p] h (h.setWord a v) where
  start := rfl
  brk := rfl
  maxAddr := rfl
  errno := rfl
  calls := rfl
  bytes x out := by
    have apart := out p (List.mem_singleton_self p)
    exact Bytes.setWord_outside (by omega)
  fields b mem := by
    rw [List.mem_singleton.mp mem, written]
    exact ⟨size, alloc, null⟩

theorem relinked_setLeft {h : Heap} {p v : Nat} (bound : v < 2 ^ 32) : Relinked [p] h (h.setLeft p v) :=
  relinked_setWord (by omega) (by omega) (node_setLeft bound) rfl rfl rfl

theorem relinked_setRight {h : Heap} {p v : Nat} (bound : v < 2 ^ 32) : Relinked [p] h (h.setRight p v) :=
  relinked_setWord (by omega) (by omega) (node_setRight bound) rfl rfl rfl

theorem relinked_setColor {h : Heap} {p : Nat} {c : Color} : Relinked [p] h (h.setColor p c) :=
  relinked_setWord (by omega) (by omega) node_setColor rfl rfl rfl

section Frames
variable {nil : Nat} {h h' : Heap}

theorem KeyAt.congr {c : Color} {left right : Nat} {k : Key} (at' : KeyAt h c left k right)
    (same : h'.node k.addr = h.node k.addr) : KeyAt h' c left k right := by
  obtain ⟨size, color, null, left, right⟩ := at'
  exact ⟨same ▸ size, same ▸ color, same ▸ null, same ▸ left, same ▸ right⟩

theorem TreeAt.congr {t : RBTree Key} (tree : TreeAt nil h t) (same : ∀ a ∈ addrs t, h'.node a = h.node a) :
    TreeAt nil h' t := by
  induction t with
  | null => trivial
  | node c l k r ihl ihr =>
    obtain ⟨here, left, right⟩ := tree
    simp only [addrs_node, List.mem_append, List.mem_cons] at same
    exact ⟨here.congr (same _ (.inr (.inl rfl))), ihl left fun a mem => same a (.inl mem),
      ihr right fun a mem => same a (.inr (.inr mem))⟩

theorem NilAt.congr (nilAt : NilAt nil h) (bounds : h'.NodeIn nil) (same : h'.node nil = h.node nil) :
    NilAt nil h' :=
  ⟨bounds, same ▸ nilAt.null, same ▸ nilAt.color⟩

/-- A tree survives every change of links in nodes that do not overlap it. -/
theorem Owns.frame {S : List Nat} {t : RBTree Key} (own : Owns nil h t) (frame : Relinked S h h')
    (apart : ∀ a ∈ S, ∀ b ∈ nil :: addrs t, Apart a b) : Owns nil h' t where
  nilAt := own.nilAt.congr (frame.nodeIn.mpr own.nilAt.inside)
    (frame.node_apart fun a mem => apart a mem nil List.mem_cons_self)
  tree := own.tree.congr fun b mem => frame.node_apart fun a inside => apart a inside b (List.mem_cons_of_mem _ mem)
  spread := own.spread
  inside a mem := ⟨frame.nodeIn.mpr (own.inside a mem).1, (own.inside a mem).2⟩

end Frames

section Parts
variable {nil : Nat} {h : Heap} {c : Color} {l : RBTree Key} {k : Key} {r : RBTree Key}

theorem Owns.left (own : Owns nil h (.node c l k r)) : Owns nil h l where
  nilAt := own.nilAt
  tree := own.tree.2.1
  spread := own.spread.sublist (by rw [addrs_node]; exact (List.sublist_append_left ..).cons_cons nil)
  inside a mem := own.inside a (by
    rw [addrs_node, List.mem_cons, List.mem_append]
    exact (List.mem_cons.mp mem).imp_right .inl)

theorem Owns.right (own : Owns nil h (.node c l k r)) : Owns nil h r where
  nilAt := own.nilAt
  tree := own.tree.2.2
  spread := own.spread.sublist (by
    rw [addrs_node]
    exact ((List.sublist_cons_self ..).trans (List.sublist_append_right ..)).cons_cons nil)
  inside a mem := own.inside a (by
    rw [addrs_node, List.mem_cons, List.mem_append, List.mem_cons]
    exact (List.mem_cons.mp mem).imp_right fun inside => .inr (.inr inside))

theorem Owns.keyAt (own : Owns nil h (.node c l k r)) : KeyAt h c (rootPtr nil l) k (rootPtr nil r) :=
  own.tree.1

theorem Owns.nodeIn (own : Owns nil h (.node c l k r)) : h.NodeIn k.addr :=
  (own.inside _ (by simp)).1

theorem Owns.addr_lt (own : Owns nil h (.node c l k r)) : k.addr < 2 ^ 32 :=
  (own.inside _ (by simp)).2

theorem Owns.root_mem {t : RBTree Key} : rootPtr nil t ∈ nil :: addrs t := by
  cases t <;> simp

theorem Owns.root_in {t : RBTree Key} (own : Owns nil h t) : h.NodeIn (rootPtr nil t) :=
  (own.inside _ Owns.root_mem).1

theorem Owns.root_lt {t : RBTree Key} (own : Owns nil h t) : rootPtr nil t < 2 ^ 32 :=
  (own.inside _ Owns.root_mem).2

/-- The root's node overlaps neither of the subtrees, nor do these overlap each other. -/
structure Split (nil : Nat) (l : RBTree Key) (k : Key) (r : RBTree Key) : Prop where
  nil : Apart k.addr nil
  left : ∀ a ∈ addrs l, Apart k.addr a
  right : ∀ a ∈ addrs r, Apart k.addr a
  cross : ∀ a ∈ addrs l, ∀ b ∈ addrs r, Apart a b

theorem Owns.split (own : Owns nil h (.node c l k r)) : Split nil l k r := by
  have spread := own.spread
  simp only [addrs_node, List.pairwise_cons, List.pairwise_append, List.mem_append, List.mem_cons] at spread
  obtain ⟨fromNil, _, ⟨above, _⟩, cross⟩ := spread
  exact ⟨(fromNil _ (.inr (.inl rfl))).symm, fun a mem => (cross a mem _ (.inl rfl)).symm, above,
    fun a memA b memB => cross a memA b (.inr memB)⟩

theorem Owns.nil_apart {t : RBTree Key} (own : Owns nil h t) : ∀ a ∈ addrs t, Apart nil a :=
  (List.pairwise_cons.mp own.spread).1

/-- Two owned trees and a node between them make an owned tree. -/
theorem Owns.join (left : Owns nil h l) (right : Owns nil h r) (split : Split nil l k r)
    (here : KeyAt h c (rootPtr nil l) k (rootPtr nil r)) (inside : h.NodeIn k.addr) (bound : k.addr < 2 ^ 32) :
    Owns nil h (.node c l k r) where
  nilAt := left.nilAt
  tree := ⟨here, left.tree, right.tree⟩
  spread := by
    simp only [addrs_node, List.pairwise_cons, List.pairwise_append, List.mem_append, List.mem_cons]
    refine ⟨?_, (List.pairwise_cons.mp left.spread).2, ⟨split.right, (List.pairwise_cons.mp right.spread).2⟩, ?_⟩
    · rintro a (mem | rfl | mem)
      · exact left.nil_apart a mem
      · exact split.nil.symm
      · exact right.nil_apart a mem
    · rintro a memA b (rfl | memB)
      · exact (split.left a memA).symm
      · exact split.cross a memA b memB
  inside a mem := by
    simp only [addrs_node, List.mem_cons, List.mem_append] at mem
    rcases mem with rfl | mem | rfl | mem
    · exact left.inside a List.mem_cons_self
    · exact left.inside a (List.mem_cons_of_mem _ mem)
    · exact ⟨inside, bound⟩
    · exact right.inside a (List.mem_cons_of_mem _ mem)

end Parts

end Splab.Malloc
