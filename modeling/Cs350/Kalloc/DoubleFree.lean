import Cs350.Kalloc.Pool

set_option autoImplicit false

/-! # A page that is freed twice

`kfree` does not look whether the page is on the list already. If it is, the list becomes a ring of the
page and those that were before it, and `kalloc` goes round for ever. -/

namespace Cs350.Kalloc

open Transition
open Vm (pgSize kernBase phyStop)

/-- `kalloc` called `n` times. -/
def kallocs (n : Nat) (k : Kmem) : Kmem := (fun k => (kalloc k).2)^[n] k

theorem kallocs_succ (n : Nat) (k : Kmem) : kallocs (n + 1) k = (kalloc (kallocs n k)).2 :=
  Function.iterate_succ_apply' _ n k

/-- The pages in a ring, from the one that the list starts with. -/
structure RingOf (k : Kmem) (ps : List Nat) : Prop where
  head : ps[0]? = some k.freelist
  next : ∀ i p, ps[i]? = some p → ps[(i + 1) % ps.length]? = some (k.mem.load p 4)
  ne_zero : ∀ p ∈ ps, p ≠ 0

theorem RingOf.kallocs {k : Kmem} {ps : List Nat} (h : RingOf k ps) (n : Nat) :
    ps[n % ps.length]? = some (kallocs n k).freelist ∧ (kallocs n k).mem = k.mem := by
  induction n with
  | zero =>
      rw [Nat.zero_mod]
      exact ⟨h.head, rfl⟩
  | succ n ih =>
      obtain ⟨hlist, hmem⟩ := ih
      have hne : (Kalloc.kallocs n k).freelist ≠ 0 := h.ne_zero _ (List.mem_of_getElem? hlist)
      have hnext := h.next _ _ hlist
      rw [Nat.mod_add_mod] at hnext
      rw [kallocs_succ, kalloc, if_pos hne, hmem]
      exact ⟨hnext, rfl⟩

section Free

variable {fin v : Nat} {s : St}

/-- What `kfree` makes of a list that the page is on. -/
theorem kfree_ring (hfin : kernBase ≤ fin) {pre post : List Nat}
    (h : Pool fin s (pre ++ v :: post)) : ∃ k, kfree fin v s.k = .ok k ∧ RingOf k (v :: pre) := by
  have hsize : pgSize = 4096 := rfl
  have hv : v ∈ pre ++ v :: post := List.mem_append_right _ (List.mem_cons_self ..)
  have hvin := h.of_mem v hv
  have hhead : s.k.freelist < 256 ^ 4 := h.threaded.head_lt (by decide) fun p hp =>
    Nat.lt_of_le_of_lt (Nat.le_of_add_right_le (h.of_mem p hp).2.2) (by decide)
  refine ⟨_, kfree_eq hfin hvin, rfl, fun i p hp => ?_, fun p hp => ?_⟩
  · -- the page points to the old head now, the pages before it are as they were
    cases i with
    | zero =>
        cases hp
        rw [Mem.load_store, Nat.mod_eq_of_lt hhead]
        cases pre with
        | nil =>
            have hmod : (0 + 1) % [v].length = 0 := Nat.mod_self 1
            rw [hmod, h.threaded.head_eq rfl]
            rfl
        | cons q pre =>
            have hmod : (0 + 1) % (v :: q :: pre).length = 1 := Nat.mod_eq_of_lt (by simp)
            rw [hmod, h.threaded.head_eq rfl]
            rfl
    | succ i =>
        obtain ⟨hi, rfl⟩ := List.getElem?_eq_some_iff.1 hp
        rw [List.length_cons, Nat.add_lt_add_iff_right] at hi
        have hpre : pre[i] ∈ pre := List.getElem_mem hi
        have hne : pre[i] ≠ v := fun heq => by
          have hdisj := (List.nodup_append.1 h.nodup).2.2
          exact hdisj _ hpre _ (List.mem_cons_self ..) heq
        have hapart := page_apart (h.of_mem _ (List.mem_append_left _ hpre)) hvin hne
        have hload : ((s.k.mem.memset v 1 pgSize).store v 4 s.k.freelist).load pre[i] 4 =
            s.k.mem.load pre[i] 4 := by
          rw [Mem.load_store_of_disjoint _ _ _ _ _ _ (by omega)]
          exact Mem.load_congr fun j hj => Mem.memset_apply _ _ _ _ _ (by omega)
        have hfirst : (pre ++ v :: post)[i]? = some pre[i] := by
          rw [List.getElem?_append_left hi, List.getElem?_eq_getElem hi]
        dsimp only
        rw [List.getElem_cons_succ, hload, List.length_cons]
        by_cases hlast : i + 1 < pre.length
        · have hsecond : (pre ++ v :: post)[i + 1]? = some pre[i + 1] := by
            rw [List.getElem?_append_left hlast, List.getElem?_eq_getElem hlast]
          rw [Nat.mod_eq_of_lt (by omega), List.getElem?_cons_succ, List.getElem?_eq_getElem hlast,
            h.threaded.load_eq hfirst hsecond]
        · have hlen : i + 1 = pre.length := by omega
          have hsecond : (pre ++ v :: post)[i + 1]? = some v := by
            rw [hlen, List.getElem?_append_right (Nat.le_refl _), Nat.sub_self]
            rfl
          rw [hlen, Nat.mod_self, List.getElem?_cons_zero, h.threaded.load_eq hfirst hsecond]
  · rcases List.mem_cons.1 hp with rfl | hp
    · exact h.threaded.ne_zero p hv
    · exact h.threaded.ne_zero p (List.mem_append_left _ hp)

/-- **A double free is not noticed.** Freeing a page that is free already succeeds, and from then on
    `kalloc` gives out the page and the `m` pages before it on the list, which were freed after it,
    again and again: the same page twice in `m + 2` calls, with no free in between, and never zero. -/
theorem double_free (hfin : kernBase ≤ fin) {mem : Mem} (h : Reachable (Step fin) (boot mem) s)
    (hgiven : s.given v) (hfree : ¬s.owned v) :
    ∃ pre post k, Threaded 4 s.k.mem s.k.freelist (pre ++ v :: post) ∧ kfree fin v s.k = .ok k ∧
      (v :: pre).Nodup ∧ (∀ p ∈ v :: pre, s.given p ∧ ¬s.owned p) ∧
      ∀ n, (v :: pre)[n % (pre.length + 1)]? = some (kalloc (kallocs n k)).1 ∧
        (kalloc (kallocs n k)).1 ≠ 0 := by
  obtain ⟨ps, hpool⟩ := reachable_pool hfin h
  obtain ⟨pre, post, rfl⟩ := List.append_of_mem (((hpool.given v).1 hgiven).resolve_right hfree)
  obtain ⟨k, hk, hring⟩ := kfree_ring hfin hpool
  obtain ⟨hnodup, _, hdisj⟩ := List.nodup_append.1 hpool.nodup
  refine ⟨pre, post, k, hpool.threaded, hk, List.nodup_cons.2 ⟨fun hv => ?_, hnodup⟩,
    fun p hp => ?_, fun n => ?_⟩
  · exact hdisj v hv v (List.mem_cons_self ..) rfl
  · have hmem : p ∈ pre ++ v :: post := by
      rcases List.mem_cons.1 hp with rfl | hp
      · exact List.mem_append_right _ (List.mem_cons_self ..)
      · exact List.mem_append_left _ hp
    exact ⟨(hpool.given p).2 (.inl hmem), hpool.free p hmem⟩
  · have hpage := (hring.kallocs n).1
    exact ⟨hpage, hring.ne_zero _ (List.mem_of_getElem? hpage)⟩

theorem double_free_boot : ∃ (k : Kmem) (pre : List Nat), ((kernBase + 4096) :: pre).Nodup ∧
    ∀ n, ((kernBase + 4096) :: pre)[n % (pre.length + 1)]? = some (kalloc (kallocs n k)).1 ∧
      (kalloc (kallocs n k)).1 ≠ 0 := by
  obtain ⟨s, hreach, hgiven, hfree⟩ := boot_two
  obtain ⟨pre, _, k, _, _, hnodup, _, hall⟩ := double_free (by decide) hreach hgiven (hfree _)
  exact ⟨k, pre, hnodup, hall⟩

end Free

end Cs350.Kalloc
