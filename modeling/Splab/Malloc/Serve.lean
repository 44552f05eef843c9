import Splab.Malloc.Client

namespace Splab.Malloc

section Tilings
variable {pre post segs : List Seg} {s : Seg} {a e b n u : Nat}

theorem Seg.with_alloc {k : Bool} (same : s.alloc = k) : { s with alloc := k } = s := by
  subst same
  rfl

theorem Tiles.carve (tiles : Tiles a (pre ++ s :: post) e) (two : n + 2 ≤ s.size → 2 ≤ n) (k : Bool) :
    Tiles a (pre ++ { s.front n with alloc := k } :: (s.spare n ++ post)) e := by
  obtain ⟨m, front, start, big, back⟩ := tiles_append.mp tiles
  refine tiles_append.mpr ⟨m, front, ?_⟩
  unfold Seg.front Seg.spare mmNodeSize
  unfold Seg.stop at back
  split
  · exact ⟨start, big, back⟩
  · refine ⟨start, two (by omega), rfl, by simp only; omega, ?_⟩
    simp only [Seg.stop]
    rw [show s.addr + 8 * n + 8 * (s.size - n) = s.addr + 8 * s.size by omega]
    exact back

theorem Tiles.grown (tiles : Tiles a segs e) (one : 1 ≤ u) :
    Tiles a (segs ++ fresh e u :: freshSpare e u) (e + growth u) := by
  refine tiles_append.mpr ⟨e, tiles, ?_⟩
  unfold fresh freshSpare growth
  split
  · next small =>
    have whole : Tiles e ([] ++ (⟨e, mmUnit / 8, true⟩ : Seg) :: []) (e + mmUnit) :=
      ⟨rfl, by simp only [mmUnit]; omega, rfl⟩
    have carved := whole.carve (n := u + 1) (fun _ => by omega) true
    rw [Seg.with_alloc Seg.front_alloc, List.append_nil] at carved
    exact carved
  · next large =>
    exact ⟨rfl, by unfold mmUnit at large; simp only; omega, rfl⟩

theorem Policy.malloc_tiles (tiles : Tiles a segs e) (clean : NoSliver segs n) :
    ∃ e', Tiles a (Policy.malloc e segs n).1 e' := by
  unfold Policy.malloc
  cases found : bestFit segs n with
  | none => exact ⟨_, tiles.grown clean.1⟩
  | some k =>
    obtain ⟨pre, s, post, rfl, free, fits, rfl, located⟩ := tiles.chosen found
    rw [found] at located
    rw [located]
    exact ⟨e, tiles.carve (clean.2 _ found) true⟩

/-- A freed segment and its free neighbours leave no allocated segment behind. -/
theorem Policy.release_allocated : allocated (Policy.release pre s post) = allocated pre ++ allocated post := by
  have left : allocated (mergePrev pre s).1 = allocated pre := by
    rcases List.eq_nil_or_concat' pre with rfl | ⟨front, x, rfl⟩
    · rfl
    · cases kind : x.alloc with
      | true => rw [mergePrev_alloc kind]
      | false => rw [mergePrev_free kind, allocated_append, allocated_cons_free kind, allocated_nil, List.append_nil]
  have right : allocated (mergeNext (mergePrev pre s).2 post).2 = allocated post := by
    cases post with
    | nil => rfl
    | cons q post =>
      cases kind : q.alloc with
      | true => rw [mergeNext_alloc kind]
      | false => rw [mergeNext_free kind, allocated_cons_free kind]
  unfold Policy.release
  simp only
  rw [allocated_append, left, allocated_cons_free rfl, right]

theorem allocated_absorb (n : Nat) (post : List Seg) (alloc : s.alloc = true) : (absorb n s post).1.alloc = true ∧
    (absorb n s post).1.addr = s.addr ∧ allocated (absorb n s post).2 = allocated post := by
  obtain ⟨gone, split, free, big⟩ := absorb_eq n s post
  refine ⟨by rw [big]; exact alloc, by rw [big], ?_⟩
  have none' : allocated gone = [] := List.filter_eq_nil_iff.mpr fun q mem => by simp [free q mem]
  calc allocated (absorb n s post).2 = allocated (gone ++ (absorb n s post).2) := by
        rw [allocated_append, none', List.nil_append]
    _ = allocated post := by rw [← split]

theorem absorb_enough {free : List Seg} (all : ∀ q ∈ free, q.alloc = false)
    (sum : n ≤ s.size + total free) : n ≤ (absorb n s free).1.size := by
  induction free generalizing s with
  | nil => simpa [absorb] using sum
  | cons q rest ih =>
    by_cases small : s.size < n
    · rw [absorb_take (all q List.mem_cons_self) small]
      refine ih (fun x mem => all x (List.mem_cons_of_mem _ mem)) ?_
      simp only [total_cons] at sum ⊢
      omega
    · rw [absorb_stop (.inr (by omega))]
      exact Nat.le_of_not_lt small

theorem spare_free {q : Seg} (mem : q ∈ s.spare n) : q.alloc = false := by
  unfold Seg.spare at mem
  split at mem
  · cases mem
  · rw [List.mem_singleton.mp mem]

theorem freshSpare_free {q : Seg} (mem : q ∈ freshSpare e u) : q.alloc = false := by
  unfold freshSpare at mem
  split at mem
  · exact spare_free mem
  · cases mem

/-- `mm_realloc` turns the block's segment into one of at least `n` units and keeps the other blocks' segments. -/
theorem Policy.realloc_allocated (tiles : Tiles a (pre ++ s :: post) e) (alloc : s.alloc = true) (two : 2 ≤ n) :
    ∃ z, z.addr + mmHeaderSize = (Policy.realloc e (pre ++ s :: post) (s.addr + mmHeaderSize) n).2 ∧ n ≤ z.size ∧
      (allocated (Policy.realloc e (pre ++ s :: post) (s.addr + mmHeaderSize) n).1).Perm
        (z :: (allocated pre ++ allocated post)) := by
  unfold Policy.realloc
  rw [Nat.add_sub_cancel, tiles.locate]
  simp only
  by_cases shrink : n ≤ s.size
  · rw [if_pos shrink]
    have kind : (s.front n).alloc = true := by rw [Seg.front_alloc, alloc]
    refine ⟨s.front n, by simp, (Seg.front_size shrink).1, ?_⟩
    simp [allocated_cons kind]
  rw [if_neg shrink]
  by_cases enough : n ≤ (absorb n s post).1.size
  · obtain ⟨kind, addr, rest⟩ := allocated_absorb n post alloc
    rw [if_pos enough]
    refine ⟨(absorb n s post).1, by rw [addr], enough, ?_⟩
    simp [allocated_cons kind, rest]
  rw [if_neg enough]
  by_cases ends : (absorb n s post).2 = []
  · rw [if_pos ends]
    obtain ⟨kind, addr, rest⟩ := allocated_absorb n
      (Policy.extended e post (n - (absorb n s post).1.size)) alloc
    obtain ⟨gone, split, free, big⟩ := absorb_eq n s post
    rw [ends, List.append_nil] at split
    subst split
    refine ⟨_, by rw [addr], ?_, ?_⟩
    · refine absorb_enough (fun q mem => ?_) ?_
      · rcases List.mem_append.mp mem with mem | mem
        · exact free q mem
        · rcases List.mem_cons.mp mem with rfl | mem
          · rfl
          · exact freshSpare_free mem
      · have more := fresh_size (e := e) (u := n - (absorb n s post).1.size)
        rw [big] at more enough ⊢
        simp only [Policy.extended, total_append, total_cons] at *
        omega
    · rw [allocated_append, allocated_cons kind, rest]
      have same : allocated (Policy.extended e post (n - (absorb n s post).1.size)) = allocated post := by
        rw [Policy.extended, allocated_append, allocated_cons_free rfl, allocated_freshSpare, List.append_nil]
      rw [same]
      exact List.perm_middle
  · rw [if_neg ends]
    obtain ⟨z, addr, big, after⟩ := Policy.malloc_allocated (e := e) (n := n) tiles
    obtain ⟨e', tiled⟩ := Policy.malloc_tiles tiles (noSliver_of_two two)
    refine ⟨z, addr, big, ?_⟩
    generalize (Policy.malloc e (pre ++ s :: post) n).1 = result at *
    rw [allocated_append, allocated_cons alloc] at after
    have inside : s ∈ result := (mem_allocated.mp (after.mem_iff.mpr (by simp))).1
    obtain ⟨pre1, post1, rfl⟩ := List.append_of_mem inside
    rw [Policy.free, Nat.add_sub_cancel, tiled.locate]
    simp only
    rw [Policy.release_allocated]
    rw [allocated_append, allocated_cons alloc] at after
    refine List.Perm.cons_inv (a := s) ?_
    calc s :: (allocated pre1 ++ allocated post1)
        |>.Perm (allocated pre1 ++ s :: allocated post1) := List.perm_middle.symm
      _ |>.Perm (z :: (allocated pre ++ s :: allocated post)) := after
      _ |>.Perm (z :: s :: (allocated pre ++ allocated post)) := List.perm_middle.cons z
      _ |>.Perm (s :: z :: (allocated pre ++ allocated post)) := .swap ..

end Tilings

end Splab.Malloc
