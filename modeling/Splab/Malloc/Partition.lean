import Splab.Malloc.TreeRoot
import Splab.Malloc.Mm

namespace Splab.Malloc

/-- One entry of the segment list; the size is in units of 8 bytes and counts the header. -/
structure Seg where
  addr : Nat
  size : Nat
  alloc : Bool
  deriving DecidableEq, Repr

def Seg.key (s : Seg) : Key := ⟨s.size, s.addr⟩

/-- The address behind the segment. -/
def Seg.stop (s : Seg) : Nat := s.addr + 8 * s.size

/-- The segments fill the addresses from `a` to `e` without gap or overlap, and
each holds at least a tree node. -/
def Tiles : Nat → List Seg → Nat → Prop
  | a, [], e => a = e
  | a, s :: rest, e => s.addr = a ∧ 2 ≤ s.size ∧ Tiles s.stop rest e

/-- The first address behind the segments, when they start at `a`. -/
def endAddr (a : Nat) (segs : List Seg) : Nat := a + 8 * (segs.map Seg.size).sum

theorem tiles_append {a e : Nat} {xs ys : List Seg} :
    Tiles a (xs ++ ys) e ↔ ∃ m, Tiles a xs m ∧ Tiles m ys e := by
  induction xs generalizing a with
  | nil => exact ⟨fun tiles => ⟨a, rfl, tiles⟩, fun ⟨m, eq, tiles⟩ => by cases eq; exact tiles⟩
  | cons s rest ih =>
    simp only [List.cons_append, Tiles, ih]
    constructor
    · rintro ⟨start, big, m, left, right⟩
      exact ⟨m, ⟨start, big, left⟩, right⟩
    · rintro ⟨m, ⟨start, big, left⟩, right⟩
      exact ⟨start, big, m, left, right⟩

theorem Tiles.end_eq {a e : Nat} {segs : List Seg} (tiles : Tiles a segs e) : e = endAddr a segs := by
  induction segs generalizing a with
  | nil => cases tiles; simp [endAddr]
  | cons s rest ih =>
    obtain ⟨start, _, tail⟩ := tiles
    rw [ih tail]
    simp only [endAddr, Seg.stop, List.map_cons, List.sum_cons, ← start]
    omega

theorem Tiles.le {a e : Nat} {segs : List Seg} (tiles : Tiles a segs e) : a ≤ e := by
  rw [tiles.end_eq, endAddr]
  omega

/-- Every segment lies between the ends. -/
theorem Tiles.bounds {a e : Nat} {segs : List Seg} (tiles : Tiles a segs e) {s : Seg} (mem : s ∈ segs) :
    a ≤ s.addr ∧ s.stop ≤ e ∧ 2 ≤ s.size := by
  induction segs generalizing a with
  | nil => cases mem
  | cons x rest ih =>
    obtain ⟨start, big, tail⟩ := tiles
    have last := tail.le
    rcases List.mem_cons.mp mem with rfl | mem
    · exact ⟨start.ge, last, big⟩
    · obtain ⟨low, high, size⟩ := ih tail mem
      unfold Seg.stop at *
      omega

/-- Of two segments the one that comes first in the list ends before the other starts. -/
theorem Tiles.ordered {a e : Nat} {segs : List Seg} (tiles : Tiles a segs e) :
    segs.Pairwise fun s s' => s.stop ≤ s'.addr := by
  induction segs generalizing a with
  | nil => exact .nil
  | cons s rest ih =>
    obtain ⟨_, _, tail⟩ := tiles
    exact .cons (fun s' mem => (tail.bounds mem).1) (ih tail)

/-- The header that `mm_get_next` meets behind the last segment. -/
def sentinel (e : Nat) : Seg := ⟨e, 0, false⟩

theorem Tiles.spread {a e : Nat} {segs : List Seg} (tiles : Tiles a segs e) :
    ((segs ++ [sentinel e]).map Seg.addr).Pairwise Apart := by
  rw [List.pairwise_map, List.pairwise_append]
  refine ⟨tiles.ordered.imp_of_mem fun memS _ before => ?_, List.pairwise_singleton _ _, ?_⟩
  · have := (tiles.bounds memS).2.2
    unfold Seg.stop at before
    exact .inl (by omega)
  · intro s mem s' last
    obtain ⟨_, high, big⟩ := tiles.bounds mem
    rw [List.mem_singleton.mp last]
    unfold Seg.stop at high
    exact .inl (by simp only [sentinel]; omega)

/-- What `mm_frag_node` leaves of the segment `s` when `n` units of it are asked for. -/
def Seg.front (s : Seg) (n : Nat) : Seg :=
  if s.size < n + mmNodeSize / 8 then s else { s with size := n }

/-- The free segment that it splits off, if any. -/
def Seg.spare (s : Seg) (n : Nat) : List Seg :=
  if s.size < n + mmNodeSize / 8 then [] else [⟨s.addr + 8 * n, s.size - n, false⟩]

/-- The segment that `mm_sbrk` makes of `u` units at the end `e` of the list, and
what is left over of a small extension. -/
def fresh (e u : Nat) : Seg :=
  if 8 * u < mmUnit then (⟨e, mmUnit / 8, true⟩ : Seg).front (u + 1) else ⟨e, u, true⟩

def freshSpare (e u : Nat) : List Seg :=
  if 8 * u < mmUnit then (⟨e, mmUnit / 8, true⟩ : Seg).spare (u + 1) else []

/-- How far `mm_sbrk` moves the break. -/
def growth (u : Nat) : Nat := if 8 * u < mmUnit then mmUnit else 8 * u

@[simp] theorem Seg.front_addr {s : Seg} {n : Nat} : (s.front n).addr = s.addr := by
  unfold front
  split <;> rfl

@[simp] theorem Seg.front_alloc {s : Seg} {n : Nat} : (s.front n).alloc = s.alloc := by
  unfold front
  split <;> rfl

theorem Seg.front_size {s : Seg} {n : Nat} (big : n ≤ s.size) :
    n ≤ (s.front n).size ∧ (s.front n).size ≤ s.size := by
  unfold front
  split
  · exact ⟨big, Nat.le_refl _⟩
  · exact ⟨Nat.le_refl _, big⟩

@[simp] theorem fresh_addr {e u : Nat} : (fresh e u).addr = e := by
  unfold fresh
  split
  · exact Seg.front_addr
  · rfl

@[simp] theorem fresh_alloc {e u : Nat} : (fresh e u).alloc = true := by
  unfold fresh
  split
  · exact Seg.front_alloc
  · rfl

theorem fresh_size {e u : Nat} : u ≤ (fresh e u).size := by
  unfold fresh
  split
  · next small =>
    have big : u + 1 ≤ mmUnit / 8 := by
      unfold mmUnit at *
      omega
    have := (Seg.front_size (s := ⟨e, mmUnit / 8, true⟩) big).1
    omega
  · exact Nat.le_refl _

end Splab.Malloc
