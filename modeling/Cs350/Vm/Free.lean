import Cs350.Vm.Walk

set_option autoImplicit false

/-! # Giving address spaces back

`deallocuvm` unmaps and frees the pages of a range of addresses, `freevm` the whole address space.
Both walk the page tables as they find them, so their effect is stated on the `Space`: `cut` removes
the entries of a range, and after `freevm` only the other pages are in use. -/

namespace Cs350.Vm

open Prog

/-! ## `deallocuvm` -/

theorem page_lt_kernBase {v : Nat} (hv : v < userPages) : v * pgSize < kernBase := by
  unfold userPages kernBase pgSize at *
  omega

theorem kernBase_le {v : Nat} (hv : userPages ≤ v) : kernBase ≤ v * pgSize := by
  unfold userPages kernBase pgSize at *
  omega

/-- The entries from page `v` to address `top` are removed. -/
def Space.cut (S : Space) (v top : Nat) : Space :=
  { S with pte := fun u => if v ≤ u ∧ u * pgSize < top ∧ Present (S.pte u) then 0 else S.pte u }

namespace Space

variable {S : Space} {v top : Nat}

@[simp] theorem cut_tab : (S.cut v top).tab = S.tab := rfl

theorem cut_pte (u : Nat) : (S.cut v top).pte u =
    if v ≤ u ∧ u * pgSize < top ∧ Present (S.pte u) then 0 else S.pte u := rfl

theorem cut_pte_of_lt {u : Nat} (h : u < v) : (S.cut v top).pte u = S.pte u :=
  if_neg fun hu => absurd hu.1 (Nat.not_le.2 h)

theorem cut_pte_of_le {u : Nat} (h : top ≤ u * pgSize) : (S.cut v top).pte u = S.pte u :=
  if_neg fun hu => absurd hu.2.1 (Nat.not_lt.2 h)

theorem cut_pte_of_present {u : Nat} (h : Present ((S.cut v top).pte u)) :
    (S.cut v top).pte u = S.pte u := by
  rw [cut_pte] at h ⊢
  split_ifs at h ⊢ with hu
  · exact absurd h not_present_zero
  · rfl

/-- Nothing is left in the range. -/
theorem cut_not_present {u : Nat} (hv : v ≤ u) (htop : u * pgSize < top) :
    ¬ Present ((S.cut v top).pte u) := by
  rw [cut_pte]
  split_ifs with h
  · exact not_present_zero
  · exact fun hP => h ⟨hv, htop, hP⟩

theorem cut_eq_self (h : ∀ u, v ≤ u → u * pgSize < top → ¬ Present (S.pte u)) :
    S.cut v top = S := by
  refine Space.ext rfl ?_
  funext u
  rw [cut_pte]
  exact if_neg fun hu => h u hu.1 hu.2.1 hu.2.2

/-- Pages that are not mapped may be skipped. -/
theorem cut_skip {v' : Nat} (hle : v ≤ v') (h : ∀ u, v ≤ u → u < v' → ¬ Present (S.pte u)) :
    S.cut v top = S.cut v' top := by
  refine Space.ext rfl ?_
  funext u
  rw [cut_pte, cut_pte]
  by_cases hP : Present (S.pte u)
  · have hiff : v ≤ u ↔ v' ≤ u := by
      refine ⟨fun hu => ?_, hle.trans⟩
      by_contra hlt
      exact h u hu (Nat.not_le.1 hlt) hP
    simp only [hiff]
  · rw [if_neg fun hu => hP hu.2.2, if_neg fun hu => hP hu.2.2]

/-- One page at a time. -/
theorem cut_setPte (htop : v * pgSize < top) (hP : Present (S.pte v)) :
    S.cut v top = (S.setPte v 0).cut (v + 1) top := by
  refine Space.ext rfl ?_
  funext u
  rw [cut_pte, cut_pte]
  by_cases huv : u = v
  · subst huv
    rw [if_pos ⟨le_rfl, htop, hP⟩, if_neg fun hu => absurd hu.1 (Nat.not_succ_le_self u),
      setPte_self]
  · rw [S.setPte_of_ne 0 huv]
    have hiff : v ≤ u ↔ v + 1 ≤ u := by omega
    simp only [hiff]

end Space

section Dealloc

variable {L : Layout} {E : Panic → Prop} {s : State} {S : Space} {R : Multiset Nat} {d : Nat}

/-- A mapped page is freed and its entry cleared. -/
theorem unmap_spec {t v p : Nat} (h : Has L d S R s) (hv : v < userPages)
    (ht : S.tab (v / 1024) = some t) (hp : pageAt (S.pte v) = some p) {α : Type} {m : VmM α}
    {Q : α → State → Prop}
    (hnext : ∀ s', Has L d (S.setPte v 0) R s' → Frame R s s' → Kept (S.setPte v 0) s s' →
      Sat E m s' Q) :
    Sat E (kfree L p >>= fun _ => modify (fun s => s.setEntry t (v % 1024) 0) >>= fun _ => m) s
      Q := by
  have hfoot := S.foot_setPte (d := d) hv 0
  rw [hp, pageAt_zero, held_none, add_zero, held_some] at hfoot
  have hown : Owned L s ({p} + ((S.setPte v 0).foot d + R)) :=
    h.owned.congr rfl (by rw [← hfoot]; abel)
  refine wp_bind (kfree_spec hown) ?_
  rintro - s₁ ⟨hown₁, hframe⟩
  refine wp_modify_bind ?_
  -- the address space is still there, because the freed page is not part of it
  have hkeep : ∀ q ∈ S.foot d, q ≠ p → s₁.mem q = s.mem q := by
    intro q hq hqp
    refine hframe.mem q (Multiset.mem_add.2 (Or.inl ?_))
    rw [← hfoot, Multiset.mem_add, Multiset.mem_singleton] at hq
    exact hq.resolve_right hqp
  have hnd := h.owned.nodup_left
  have hS₁ : space s₁.mem d = S := by
    rw [← h.space] at hnd hp hkeep ⊢
    refine space_congr (hkeep d Space.mem_foot_dir (Space.pte_ne_dir hnd hv hp).symm) ?_
    intro i t' ht'
    exact hkeep t' (Space.mem_foot_of_tab (tab_lt ht') ht')
      (Space.pte_ne_tab hnd hv hp (tab_lt ht') ht').symm
  refine hnext _ ⟨?_, hown₁⟩ ⟨fun q hq => ?_, hframe.proc, hframe.initproc, hframe.kpgdir,
    hframe.pipe⟩ fun u hu q hq => ?_
  · rw [← hS₁]
    refine space_setPte (Nat.two_pow_pos 32) (by rw [hS₁, ht]) ?_
    rw [hS₁]
    exact hnd
  · have hqt : q ≠ t := by
      rintro rfl
      exact h.notMem (Space.mem_foot_of_tab (h.tab_lt ht) ht) hq
    exact (Function.update_of_ne hqt ..).trans (hframe.mem q (Multiset.mem_add.2 (Or.inr hq)))
  · -- another frame
    have huv : u ≠ v := by
      rintro rfl
      rw [S.setPte_self, pageAt_zero] at hq
      exact nomatch hq
    have hmem := hframe.mem q (Multiset.mem_add.2 (Or.inl (Space.mem_foot_of_pte hu hq)))
    rw [S.setPte_of_ne 0 huv] at hq
    exact (Function.update_of_ne (h.frame_ne_tab hu hq ht) ..).trans hmem

theorem deallocLoop_spec {top : Nat} (htop : top ≤ kernBase) (n v : Nat) (h : Has L d S R s)
    (hfuel : top ≤ (v + n) * pgSize) :
    Sat E (deallocLoop L d top n (v * pgSize)) s fun _ s' =>
      Has L d (S.cut v top) R s' ∧ Frame R s s' ∧ Kept (S.cut v top) s s' := by
  induction n generalizing s S v with
  | zero =>
      have hcut : S.cut v top = S := Space.cut_eq_self fun u hu hlt => by
        unfold pgSize at *
        omega
      rw [hcut]
      exact wp_pure ⟨h, Frame.refl R s, Kept.refl S s⟩
  | succ n ih =>
      refine wp_ite (fun hlt => ?_) fun hge => wp_pure ?_
      · have hv : v < userPages := by
          have hkern : v * pgSize < kernBase := hlt.trans_le htop
          unfold userPages kernBase pgSize at *
          omega
        have hv' : v < 2 ^ 19 := hv
        have hnext : uint (v * pgSize + pgSize) = (v + 1) * pgSize := by
          unfold uint pgSize
          omega
        have hfuel' : top ≤ (v + 1 + n) * pgSize := by
          rwa [Nat.add_assoc, Nat.add_comm 1 n]
        have hwalk := walkpgdir_spec (E := E) h.space (v * pgSize)
        rw [pdx_page (by omega), ptx_page] at hwalk
        refine wp_bind hwalk ?_
        rintro r s' ⟨rfl, rfl⟩
        cases ht : S.tab (v / 1024) with
        | none =>
            -- no page table: go on with the next one
            have hjump : uint ((v / 1024 + 1) * 2 ^ 22 - pgSize + pgSize)
                = (v / 1024 + 1) * 1024 * pgSize := by
              unfold uint pgSize
              omega
            have hskip : S.cut v top = S.cut ((v / 1024 + 1) * 1024) top :=
              Space.cut_skip (by omega) fun u hvu hu => by
                have hdiv : u / 1024 = v / 1024 := by omega
                rw [h.pte_of_no_tab (by rw [hdiv, ht])]
                exact not_present_zero
            dsimp only [Option.map_none]
            rw [pdx_page (by omega), hjump, hskip]
            refine ih _ h (hfuel.trans (Nat.mul_le_mul_right pgSize ?_))
            omega
        | some t =>
            have hpte : s'.entry t (v % 1024) = S.pte v := (h.pte_eq ht).symm
            dsimp only [Option.map_some]
            refine wp_get_bind (wp_ite (fun hP => ?_) fun hP => ?_)
            · rw [hpte] at hP ⊢
              have hpage := pageAt_of_present hP
              have hmem := Space.mem_foot_of_pte (d := d) hv hpage
              have hpos := (h.owned.pos_lt (Multiset.mem_add.2 (Or.inl hmem))).1
              refine wp_ite (fun hzero => absurd hzero hpos.ne') fun _ => ?_
              refine unmap_spec h hv ht hpage fun s₁ h₁ hframe hkept => ?_
              rw [hnext, Space.cut_setPte hlt hP]
              refine wp_mono (ih (v + 1) h₁ hfuel') ?_
              rintro - s₂ ⟨h₂, hframe₂, hkept₂⟩
              refine ⟨h₂, hframe.trans hframe₂, (hkept.mono fun u _ hP => ?_).trans hkept₂⟩
              exact Space.cut_pte_of_present hP
            · rw [hpte] at hP
              have hskip : S.cut v top = S.cut (v + 1) top :=
                Space.cut_skip (Nat.le_succ v) fun u hvu hu => by
                  rw [show u = v by omega]
                  exact hP
              rw [hnext, hskip]
              exact ih (v + 1) h hfuel'
      · have hcut : S.cut v top = S := Space.cut_eq_self fun u hu hlt => by
          unfold pgSize at *
          omega
        rw [hcut]
        exact ⟨h, Frame.refl R s, Kept.refl S s⟩

/-- The first page after an address. -/
def pageUp (sz : Nat) : Nat := (sz + (pgSize - 1)) / pgSize

theorem pgRoundUp_eq {sz : Nat} (h : sz ≤ kernBase) : pgRoundUp sz = pageUp sz * pgSize := by
  unfold pgRoundUp uint pageUp kernBase pgSize at *
  omega

theorem deallocuvm_kept {oldsz newsz : Nat} (hold : oldsz ≤ kernBase) (h : Has L d S R s) :
    Sat E (deallocuvm L d oldsz newsz) s fun r s' =>
      r = (if newsz ≥ oldsz then oldsz else newsz) ∧
        Has L d (S.cut (pageUp newsz) oldsz) R s' ∧ Frame R s s' ∧
          Kept (S.cut (pageUp newsz) oldsz) s s' := by
  refine wp_ite (fun hge => wp_pure ?_) fun hlt => ?_
  · have hcut : S.cut (pageUp newsz) oldsz = S := Space.cut_eq_self fun u hu hlt => by
      unfold pageUp pgSize at *
      omega
    rw [if_pos hge, hcut]
    exact ⟨rfl, h, Frame.refl R s, Kept.refl S s⟩
  · rw [pgRoundUp_eq (by omega)]
    refine wp_bind (deallocLoop_spec hold _ _ h ?_) fun _ s' h' => wp_pure ⟨?_, h'⟩
    · have hle : kernBase ≤ 2 ^ 20 * pgSize := by decide
      exact hold.trans (hle.trans (Nat.mul_le_mul_right pgSize (Nat.le_add_left ..)))
    · rw [if_neg hlt]

theorem deallocuvm_spec {oldsz newsz : Nat} (hold : oldsz ≤ kernBase) (h : Has L d S R s) :
    Sat E (deallocuvm L d oldsz newsz) s fun r s' =>
      r = (if newsz ≥ oldsz then oldsz else newsz) ∧
        Has L d (S.cut (pageUp newsz) oldsz) R s' ∧ Frame R s s' :=
  wp_mono (deallocuvm_kept hold h) fun _ _ h' => ⟨h'.1, h'.2.1, h'.2.2.1⟩

/-! ## `freevm` -/

theorem freeTables_spec {S : Space} {m : Mem} (hm : ∀ i < 1024, S.tab i = pageAt (entry m i))
    (is : List Nat) (his : ∀ i ∈ is, i < 1024) (hd : s.mem d = m)
    (h : Owned L s ((is.map fun i => held (S.tab i)).sum + ({d} + R))) :
    Sat E (each (freeTable L d) is) s fun _ s' =>
      Owned L s' ({d} + R) ∧ Frame ({d} + R) s s' := by
  induction is generalizing s with
  | nil => exact wp_pure ⟨h.congr rfl (by simp), Frame.refl _ s⟩
  | cons i is ih =>
      have hi : S.tab i = pageAt (s.entry d i) := by
        rw [hm i (his i List.mem_cons_self), ← hd]
        rfl
      have hrest : ∀ j ∈ is, j < 1024 := fun j hj => his j (List.mem_cons_of_mem i hj)
      rw [List.map_cons, List.sum_cons, hi] at h
      refine wp_bind (P := fun _ s' =>
        Owned L s' ((is.map fun i => held (S.tab i)).sum + ({d} + R)) ∧ Frame ({d} + R) s s')
        (wp_get_bind (wp_ite (fun hP => ?_) fun hP => wp_pure ?_)) ?_
      · rw [pageAt_of_present hP, held_some, add_assoc] at h
        refine wp_mono (kfree_spec h) fun _ s' h' => ⟨h'.1, h'.2.mono fun p hp => ?_⟩
        exact Multiset.mem_add.2 (Or.inr hp)
      · rw [pageAt_of_not_present hP, held_none, zero_add] at h
        exact ⟨h, Frame.refl _ s⟩
      · rintro - s₁ ⟨h₁, hframe⟩
        have hd₁ : s₁.mem d = m := by
          rw [hframe.mem d (by simp), hd]
        refine wp_mono (ih hrest hd₁ h₁) fun _ s' h' => ⟨h'.1, hframe.trans h'.2⟩

theorem freevm_spec (h : Has L d S R s) :
    Sat E (freevm L d) s fun _ s' => Owned L s' R ∧ Frame R s s' := by
  refine wp_ite (fun hzero => absurd hzero h.dir_pos.ne') fun _ => ?_
  refine wp_bind (deallocuvm_spec le_rfl h) ?_
  rintro - s₁ ⟨-, h₁, hframe₁⟩
  -- no page below `KERNBASE` is left
  have hframes : (S.cut (pageUp 0) kernBase).frames = 0 := holdings.eq_zero fun v hv =>
    pageAt_of_not_present (Space.cut_not_present (Nat.zero_le v) (page_lt_kernBase hv))
  have htab : ∀ i < 1024, (S.cut (pageUp 0) kernBase).tab i = pageAt (entry (s₁.mem d) i) := by
    intro i hi
    rw [← h₁.space]
    exact tab_eq hi
  have hown : Owned L s₁ (((List.range 1024).map fun i =>
      held ((S.cut (pageUp 0) kernBase).tab i)).sum + ({d} + R)) := by
    refine h₁.owned.congr rfl ?_
    rw [Space.foot, hframes, Space.tables, holdings.eq_list_sum]
    abel
  have hall : ∀ i ∈ List.range 1024, i < 1024 := fun i hi => List.mem_range.1 hi
  generalize List.range 1024 = is at hall hown ⊢
  refine wp_bind (freeTables_spec htab is hall rfl hown) ?_
  rintro - s₂ ⟨hown₂, hframe₂⟩
  refine wp_mono (kfree_spec hown₂) fun _ s₃ h₃ => ⟨h₃.1, (hframe₁.trans ?_).trans h₃.2⟩
  exact hframe₂.mono fun p hp => Multiset.mem_add.2 (Or.inr hp)

end Dealloc

end Cs350.Vm
