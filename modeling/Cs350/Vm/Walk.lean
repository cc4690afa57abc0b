import Cs350.Vm.Space
import Mathlib.Order.Interval.Finset.Nat

set_option autoImplicit false

/-! # Taking pages, giving them back, and mapping them

`Owned L s A` says who has the pages: those that are not on the free list are the members of `A`,
each once. A specification names the pages that it works on and leaves the others in a multiset
`R`: they stay owned, and their contents stay the same (`Frame`). -/

namespace Cs350.Vm

open Prog

/-- The program returns, with a result and a state in `Q`, or panics with a panic in `E`. -/
abbrev Sat {α : Type} (E : Panic → Prop) (m : VmM α) (s : State) (Q : α → State → Prop) : Prop :=
  wp (fun _ => True) E m s Q

/-! ## Who has the pages -/

/-- The pages that the kernel gives out. -/
def pages (L : Layout) : Finset Nat := Finset.Ico L.fin (phyStop / pgSize)

/-- Every page is either free or in `A`, and once. -/
def Owned (L : Layout) (s : State) (A : Multiset Nat) : Prop :=
  (s.freelist : Multiset Nat) + A = (pages L).val

namespace Owned

variable {L : Layout} {s s' : State} {A B : Multiset Nat} {p : Nat}

theorem nodup_all (h : Owned L s A) : ((s.freelist : Multiset Nat) + A).Nodup := by
  unfold Owned at h
  rw [h]
  exact (pages L).nodup

theorem nodup (h : Owned L s A) : A.Nodup := (Multiset.nodup_add.1 h.nodup_all).2.1

theorem freelist_nodup (h : Owned L s A) : s.freelist.Nodup :=
  Multiset.coe_nodup.1 (Multiset.nodup_add.1 h.nodup_all).1

theorem mem_pages (h : Owned L s A) (hp : p ∈ A) : p ∈ pages L := by
  have hmem : p ∈ (s.freelist : Multiset Nat) + A := Multiset.mem_add.2 (Or.inr hp)
  unfold Owned at h
  rw [h] at hmem
  exact hmem

theorem bounds (h : Owned L s A) (hp : p ∈ A) : L.fin ≤ p ∧ p < phyStop / pgSize :=
  Finset.mem_Ico.1 (h.mem_pages hp)

/-- Pages have small numbers, and the first one is not given out. -/
theorem pos_lt (h : Owned L s A) (hp : p ∈ A) : 0 < p ∧ p < 2 ^ 20 - 1 := by
  have hb := h.bounds hp
  have ht := L.text
  have hf := L.fin_le.1
  rw [show phyStop / pgSize = 57344 from rfl] at hb
  rw [show extMem / pgSize = 256 from rfl] at ht
  omega

theorem congr (h : Owned L s A) (hfree : s'.freelist = s.freelist) (hAB : A = B) :
    Owned L s' B := by
  unfold Owned at *
  rw [hfree, ← hAB, h]

/-- What two owners have is different. -/
theorem notMem_of_mem (h : Owned L s (A + B)) (hp : p ∈ A) : p ∉ B :=
  Multiset.disjoint_left.1 (Multiset.nodup_add.1 h.nodup).2.2 hp

theorem nodup_left (h : Owned L s (A + B)) : A.Nodup := (Multiset.nodup_add.1 h.nodup).1

end Owned

/-- The rest of the state is the same, and so are the contents of the pages in `R`. -/
structure Frame (R : Multiset Nat) (s s' : State) : Prop where
  mem : ∀ p ∈ R, s'.mem p = s.mem p
  proc : s'.proc = s.proc
  initproc : s'.initproc = s.initproc
  kpgdir : s'.kpgdir = s.kpgdir
  pipe : s'.pipe = s.pipe

namespace Frame

variable {R R' : Multiset Nat} {s s' s'' : State}

theorem refl (R : Multiset Nat) (s : State) : Frame R s s := ⟨fun _ _ => rfl, rfl, rfl, rfl, rfl⟩

theorem trans (h : Frame R s s') (h' : Frame R s' s'') : Frame R s s'' where
  mem p hp := (h'.mem p hp).trans (h.mem p hp)
  proc := h'.proc.trans h.proc
  initproc := h'.initproc.trans h.initproc
  kpgdir := h'.kpgdir.trans h.kpgdir
  pipe := h'.pipe.trans h.pipe

theorem mono (h : Frame R s s') (hR : ∀ p ∈ R', p ∈ R) : Frame R' s s' :=
  { h with mem := fun p hp => h.mem p (hR p hp) }

/-- An address space among the other pages stays the same. -/
theorem space (h : Frame R s s') {d : Nat}
    (hR : ∀ p ∈ (Vm.space s.mem d).foot d, p ∈ R) : Vm.space s'.mem d = Vm.space s.mem d :=
  space_congr_foot fun p hp => h.mem p (hR p hp)

end Frame

/-- The contents of the frames of an address space are the same. -/
def Kept (S : Space) (s s' : State) : Prop :=
  ∀ v < userPages, ∀ p, pageAt (S.pte v) = some p → s'.mem p = s.mem p

namespace Kept

variable {S T : Space} {s s' s'' : State}

theorem refl (S : Space) (s : State) : Kept S s s := fun _ _ _ _ => rfl

theorem trans (h : Kept S s s') (h' : Kept S s' s'') : Kept S s s'' := fun v hv p hp =>
  (h' v hv p hp).trans (h v hv p hp)

/-- Fewer frames. -/
theorem mono (h : Kept S s s')
    (hT : ∀ v < userPages, Present (T.pte v) → T.pte v = S.pte v) : Kept T s s' :=
  fun v hv p hp => h v hv p (by rw [← hT v hv (pageAt_eq_some.1 hp).1, hp])

end Kept

/-- The directory `d` describes the address space `S`, whose pages are its own; the other pages in
    use are those in `R`. -/
structure Has (L : Layout) (d : Nat) (S : Space) (R : Multiset Nat) (s : State) : Prop where
  space : Vm.space s.mem d = S
  owned : Owned L s (S.foot d + R)

namespace Has

variable {L : Layout} {d : Nat} {S : Space} {R : Multiset Nat} {s s' : State}

theorem tab_lt (h : Has L d S R s) {i t : Nat} (ht : S.tab i = some t) : i < 1024 :=
  Vm.tab_lt (h.space ▸ ht)

theorem pte_eq (h : Has L d S R s) {v t : Nat} (ht : S.tab (v / 1024) = some t) :
    S.pte v = s.entry t (v % 1024) := by
  rw [← h.space] at ht ⊢
  exact pte_of_tab ht

theorem pte_of_no_tab (h : Has L d S R s) {v : Nat} (ht : S.tab (v / 1024) = none) :
    S.pte v = 0 := by
  rw [← h.space] at ht ⊢
  exact Vm.pte_of_no_tab ht

theorem notMem (h : Has L d S R s) {p : Nat} (hp : p ∈ S.foot d) : p ∉ R := h.owned.notMem_of_mem hp

/-- A write to one of the other pages. -/
theorem write_other (h : Has L d S R s) {p : Nat} (hp : p ∈ R) (m : Mem) :
    Has L d S R (s.setPage p m) := by
  refine ⟨?_, h.owned⟩
  have hkeep : ∀ q ∈ S.foot d, (s.setPage p m).mem q = s.mem q := fun q hq => by
    have hqp : q ≠ p := by
      rintro rfl
      exact h.notMem hq hp
    exact Function.update_of_ne hqp ..
  rw [← h.space] at hkeep ⊢
  exact space_congr_foot hkeep

theorem dir_pos (h : Has L d S R s) : 0 < d :=
  (h.owned.pos_lt (Multiset.mem_add.2 (Or.inl Space.mem_foot_dir))).1

/-- A frame is not the directory. -/
theorem frame_ne_dir (h : Has L d S R s) {v p : Nat} (hv : v < userPages)
    (hp : pageAt (S.pte v) = some p) : p ≠ d :=
  Space.pte_ne_dir h.owned.nodup_left hv hp

/-- A frame is not a page table. -/
theorem frame_ne_tab (h : Has L d S R s) {v p i t : Nat} (hv : v < userPages)
    (hp : pageAt (S.pte v) = some p) (ht : S.tab i = some t) : p ≠ t :=
  Space.pte_ne_tab h.owned.nodup_left hv hp (h.tab_lt ht) ht

/-- A step that changes neither the memory nor the free list. -/
theorem congr (h : Has L d S R s) (hmem : s'.mem = s.mem) (hfree : s'.freelist = s.freelist) :
    Has L d S R s' :=
  ⟨by rw [hmem, h.space], h.owned.congr hfree rfl⟩

end Has

/-! ## `kalloc` and `kfree` -/

/-- How often `kalloc` succeeds before it fails for the first time, with `n` free pages. -/
def credits : Nat → List Bool → Nat
  | 0, _ => 0
  | n + 1, fails => if fails.head? = some true then 0 else credits n fails.tail + 1

def State.credits (s : State) : Nat := Vm.credits s.freelist.length s.fails

section

variable {L : Layout} {E : Panic → Prop} {s : State} {A : Multiset Nat}

theorem kalloc_spec (h : Owned L s A) :
    Sat E kalloc s fun r s' => Frame A s s' ∧ s'.mem = s.mem ∧
      match r with
      | none => s.credits = 0 ∧ s'.freelist = s.freelist ∧ Owned L s' A
      | some p => s'.credits + 1 = s.credits ∧ Owned L s' ({p} + A) := by
  refine wp_get_bind (wp_modify_bind (wp_ite (fun hfail => ?_) fun hfail => ?_))
  · refine wp_pure ⟨⟨fun _ _ => rfl, rfl, rfl, rfl, rfl⟩, rfl, ?_, rfl, h⟩
    unfold State.credits
    cases s.freelist with
    | nil => rfl
    | cons p rest => exact if_pos hfail
  · cases hfree : s.freelist with
    | nil =>
        refine wp_pure ⟨⟨fun _ _ => rfl, rfl, rfl, rfl, rfl⟩, rfl, ?_, rfl, h.congr hfree.symm rfl⟩
        rw [State.credits, hfree]
        rfl
    | cons p rest =>
        refine wp_modify_bind (wp_pure ⟨⟨fun _ _ => rfl, rfl, rfl, rfl, rfl⟩, rfl, ?_, ?_⟩)
        · rw [State.credits, State.credits, hfree]
          exact (if_neg hfail).symm
        · unfold Owned at *
          rw [hfree, ← Multiset.cons_coe, ← Multiset.singleton_add] at h
          rw [← h]
          abel

/-- A new page, filled, beside an address space. -/
theorem Has.hand {d p : Nat} {S : Space} {R : Multiset Nat} {s₁ : State} (h : Has L d S R s)
    (hframe : Frame (S.foot d + R) s s₁) (hown : Owned L s₁ ({p} + (S.foot d + R))) (m : Mem) :
    Has L d S ({p} + R) (s₁.setPage p m) ∧ Frame R s (s₁.setPage p m) := by
  have hkeep : ∀ q ∈ S.foot d + R, (s₁.setPage p m).mem q = s.mem q := by
    intro q hq
    have hne : q ≠ p := by
      rintro rfl
      exact hown.notMem_of_mem (Multiset.mem_singleton_self q) hq
    exact (Function.update_of_ne hne ..).trans (hframe.mem q hq)
  refine ⟨⟨?_, hown.congr rfl (by abel)⟩, fun q hq => hkeep q (Multiset.mem_add.2 (Or.inr hq)),
    hframe.proc, hframe.initproc, hframe.kpgdir, hframe.pipe⟩
  rw [← h.space] at hkeep ⊢
  exact space_congr_foot fun q hq => hkeep q (Multiset.mem_add.2 (Or.inl hq))

/-- A new page is not a frame. -/
theorem Owned.frame_ne_new {d p v q : Nat} {S : Space} {R : Multiset Nat}
    (h : Owned L s ({p} + (S.foot d + R))) (hv : v < userPages) (hq : pageAt (S.pte v) = some q) :
    q ≠ p := by
  rintro rfl
  exact h.notMem_of_mem (Multiset.mem_singleton_self q)
    (Multiset.mem_add.2 (Or.inl (Space.mem_foot_of_pte hv hq)))

theorem Owned.kept_setPage {d p : Nat} {S : Space} {R : Multiset Nat} {s₁ : State}
    (h : Owned L s₁ ({p} + (S.foot d + R))) (hmem : s₁.mem = s.mem) (m : Mem) :
    Kept S s (s₁.setPage p m) := fun _ hv q hq =>
  (Function.update_of_ne (h.frame_ne_new hv hq) ..).trans (congrFun hmem q)

theorem kfree_spec {p : Nat} (h : Owned L s ({p} + A)) :
    Sat E (kfree L p) s fun _ s' => Owned L s' A ∧ Frame A s s' := by
  have hp : p ∈ ({p} : Multiset Nat) + A := by simp
  have hb := h.bounds hp
  refine wp_ite (fun hbad => ?_) fun _ => wp_modify ⟨?_, ?_, rfl, rfl, rfl, rfl⟩
  · omega
  · unfold Owned at *
    dsimp only
    rw [← h, ← Multiset.cons_coe, ← Multiset.singleton_add]
    abel
  · intro q hq
    have hne : q ≠ p := by
      rintro rfl
      exact h.notMem_of_mem (Multiset.mem_singleton_self q) hq
    exact Function.update_of_ne hne ..

end

/-! ## `walkpgdir` -/

/-- What `walkpgdir` with `alloc` does to an address space that has the page table `t` at index `i`
    afterwards: nothing, or it adds this page table, which takes one call of `kalloc`. -/
def Walked (S : Space) (c i t : Nat) (S' : Space) (c' : Nat) : Prop :=
  (S.tab i = some t ∧ S' = S ∧ c' = c) ∨ (S.tab i = none ∧ S' = S.addTab i t ∧ c' + 1 = c)

theorem Walked.tab {S S' : Space} {c c' i t : Nat} (h : Walked S c i t S' c') :
    S'.tab i = some t := by
  rcases h with ⟨ht, rfl, -⟩ | ⟨-, rfl, -⟩
  · exact ht
  · exact S.addTab_self i t

theorem Walked.pte {S S' : Space} {c c' i t : Nat} (h : Walked S c i t S' c') :
    S'.pte = S.pte := by
  rcases h with ⟨-, rfl, -⟩ | ⟨-, rfl, -⟩ <;> rfl

theorem Walked.tab_of_ne {S S' : Space} {c c' i t : Nat} (h : Walked S c i t S' c') {j : Nat}
    (hj : j ≠ i) : S'.tab j = S.tab j := by
  rcases h with ⟨-, rfl, -⟩ | ⟨-, rfl, -⟩
  · rfl
  · exact S.addTab_of_ne t hj

/-- Page tables stay. -/
theorem Walked.tab_mono {S S' : Space} {c c' i t : Nat} (h : Walked S c i t S' c') {j u : Nat}
    (hu : S.tab j = some u) : S'.tab j = some u := by
  rcases h with ⟨-, rfl, -⟩ | ⟨hnone, rfl, -⟩
  · exact hu
  · have hji : j ≠ i := by
      rintro rfl
      rw [hnone] at hu
      exact nomatch hu
    rw [S.addTab_of_ne t hji, hu]

theorem pdx_page {v : Nat} (hv : v < 2 ^ 20) : pdx (v * pgSize) = v / 1024 := by
  unfold pdx pgSize
  omega

theorem ptx_page (v : Nat) : ptx (v * pgSize) = v % 1024 := by
  unfold ptx pgSize
  omega

theorem pdx_lt (va : Nat) : pdx va < 1024 := Nat.mod_lt _ (by decide)

section Walk

variable {L : Layout} {E : Panic → Prop} {s : State} {S : Space} {R : Multiset Nat} {d : Nat}

theorem walkpgdir_spec (hS : space s.mem d = S) (va : Nat) :
    Sat E (walkpgdir d va false) s fun r s' =>
      s' = s ∧ r = (S.tab (pdx va)).map fun t => (t, ptx va) := by
  have htab : S.tab (pdx va) = pageAt (s.entry d (pdx va)) := by
    rw [← hS]
    exact tab_eq (pdx_lt va)
  refine wp_get_bind (wp_ite (fun hP => wp_pure ⟨rfl, ?_⟩) fun hP => wp_pure ⟨rfl, ?_⟩)
  · rw [htab, pageAt_of_present hP]
    rfl
  · rw [htab, pageAt_of_not_present hP]
    rfl

theorem walkpgdir_alloc_spec (h : Has L d S R s) (va : Nat) :
    Sat E (walkpgdir d va true) s fun r s' => Frame R s s' ∧
      match r with
      | none => s.credits = 0 ∧ S.tab (pdx va) = none ∧ Has L d S R s'
      | some (t, i) => i = ptx va ∧ ∃ S', Walked S s.credits (pdx va) t S' s'.credits ∧
          Has L d S' R s' := by
  obtain ⟨hS, h⟩ := h
  have htab : S.tab (pdx va) = pageAt (s.entry d (pdx va)) := by
    rw [← hS]
    exact tab_eq (pdx_lt va)
  refine wp_get_bind (wp_ite (fun hP => ?_) fun hP => ?_)
  · refine wp_pure ⟨Frame.refl R s, rfl, S, Or.inl ⟨?_, rfl, rfl⟩, ⟨hS, h⟩⟩
    rw [htab, pageAt_of_present hP]
  · have hnone : S.tab (pdx va) = none := by rw [htab, pageAt_of_not_present hP]
    refine wp_bind (kalloc_spec h) ?_
    rintro (_ | t) s₁ ⟨hframe, hmem, hcases⟩
    · obtain ⟨hzero, -, hown⟩ := hcases
      exact wp_pure ⟨hframe.mono fun p hp => Multiset.mem_add.2 (Or.inr hp), hzero, hnone,
        ⟨by rw [hmem, hS], hown⟩⟩
    · obtain ⟨hcredits, hown⟩ := hcases
      have ht : t ∈ ({t} : Multiset Nat) := Multiset.mem_singleton_self t
      have htfoot : t ∉ S.foot d := fun hp =>
        hown.notMem_of_mem ht (Multiset.mem_add.2 (Or.inl hp))
      have htd : t ≠ d := by
        rintro rfl
        exact htfoot Space.mem_foot_dir
      have hdR : d ∉ R := h.notMem_of_mem Space.mem_foot_dir
      have htR : t ∉ R := fun hp => hown.notMem_of_mem ht (Multiset.mem_add.2 (Or.inr hp))
      have hlt := (hown.pos_lt (Multiset.mem_add.2 (Or.inl ht))).2
      -- clearing the new page does not change the address space
      have hS₁ : space (Function.update s₁.mem t (filled 0)) d = S := by
        rw [hmem, ← hS]
        refine space_update_of_ne _ htd fun i hi => htfoot ?_
        rw [hS] at hi
        exact Space.mem_foot_of_tab (tab_lt (hS ▸ hi)) hi
      have hw : t * pgSize ||| (pteP ||| pteW ||| pteU) = t * pgSize + 7 :=
        or_eq_add t (by decide)
      have hw_lt : t * pgSize + 7 < 2 ^ 32 := by
        unfold pgSize
        omega
      have hspace : space (Function.update (Function.update s₁.mem t (filled 0)) d
          (((Function.update s₁.mem t (filled 0)) d).store (4 * pdx va) 4 (t * pgSize + 7))) d
          = S.addTab (pdx va) t := by
        rw [← hS₁]
        refine space_addTab (pdx_lt va) hw_lt (pageAt_add (by decide) rfl) ?_ htd ?_ ?_
        · rw [hS₁, hnone]
        · rw [hS₁]
          exact h.nodup_left
        · exact Function.update_self ..
      refine wp_modify_bind (wp_pure ⟨⟨fun p hp => ?_, hframe.proc, hframe.initproc, hframe.kpgdir,
        hframe.pipe⟩, rfl, S.addTab (pdx va) t, Or.inr ⟨hnone, rfl, hcredits⟩,
        ⟨?_, ?_⟩⟩)
      · have hpd : p ≠ d := fun heq => hdR (heq ▸ hp)
        have hpt : p ≠ t := fun heq => htR (heq ▸ hp)
        rw [← hmem]
        exact (Function.update_of_ne hpd ..).trans (Function.update_of_ne hpt ..)
      · rw [hw]
        exact hspace
      · refine hown.congr rfl ?_
        rw [S.foot_addTab (pdx_lt va) hnone]
        abel

theorem walkpgdir_alloc_kept (h : Has L d S R s) (va : Nat) :
    Sat E (walkpgdir d va true) s fun _ s' => Kept S s s' := by
  refine wp_get_bind (wp_ite (fun _ => wp_pure (Kept.refl S s)) fun _ => ?_)
  refine wp_bind (kalloc_spec h.owned) ?_
  rintro (_ | t) s₁ ⟨-, hmem, hcases⟩
  · exact wp_pure fun v hv p hp => by rw [hmem]
  · -- the new page is not a frame, and neither is the directory
    refine wp_modify_bind (wp_pure fun v hv p hp => ?_)
    have hpt := hcases.2.frame_ne_new hv hp
    have hpd := h.frame_ne_dir hv hp
    refine (Function.update_of_ne hpd ..).trans ((Function.update_of_ne hpt ..).trans ?_)
    rw [hmem]

/-! ## `mappages` -/

/-- A word is written to the page table that `walkpgdir` has found. -/
theorem setEntry_spec {t v : Nat} (h : Has L d S R s) (ht : S.tab (v / 1024) = some t) {w : Nat}
    (hw : w < 2 ^ 32) :
    space (s.setEntry t (v % 1024) w).mem d = S.setPte v w ∧
      Frame R s (s.setEntry t (v % 1024) w) := by
  constructor
  · rw [← h.space]
    refine space_setPte hw (by rw [h.space, ht]) ?_
    rw [h.space]
    exact h.owned.nodup_left
  · refine ⟨fun p hp => ?_, rfl, rfl, rfl, rfl⟩
    have hpt : p ≠ t := by
      rintro rfl
      exact h.notMem (Space.mem_foot_of_tab (h.tab_lt ht) ht) hp
    exact Function.update_of_ne hpt ..

/-- One round of the loop of `mappages`, for the virtual page `v`. The page table may have to be
    allocated first, and this may fail. -/
theorem mapLoop_succ {Q : Bool → State → Prop} {v n pa perm : Nat} (h : Has L d S R s)
    (hv : v < 2 ^ 20) (hw : pa ||| (perm ||| pteP) < 2 ^ 32)
    (hclear : ¬ Present (S.pte v) ∨ E .remap)
    (hfail : ∀ s', s.credits = 0 → S.tab (v / 1024) = none → Has L d S R s' → Frame R s s' →
      Q false s')
    (hnext : ∀ t S' s', ¬ Present (S.pte v) → Walked S s.credits (v / 1024) t S' s'.credits →
      space s'.mem d = S'.setPte v (pa ||| (perm ||| pteP)) → Owned L s' (S'.foot d + R) →
      Frame R s s' →
      Sat E (mapLoop d perm n (uint (v * pgSize + pgSize)) (uint (pa + pgSize))) s' Q) :
    Sat E (mapLoop d perm (n + 1) (v * pgSize) pa) s Q := by
  have hwalk := walkpgdir_alloc_spec (E := E) h (v * pgSize)
  rw [pdx_page hv, ptx_page] at hwalk
  refine wp_bind hwalk ?_
  rintro (_ | ⟨t, i⟩) s₁ ⟨hframe, hcases⟩
  · obtain ⟨hzero, hnone, hhas⟩ := hcases
    exact wp_pure (hfail s₁ hzero hnone hhas hframe)
  · obtain ⟨rfl, S', hwalked, hhas⟩ := hcases
    have hpte : s₁.entry t (v % 1024) = S.pte v := by
      rw [← hwalked.pte, hhas.pte_eq hwalked.tab]
    refine wp_get_bind (wp_ite (fun hP => ?_) fun hP => wp_modify_bind ?_)
    · rw [hpte] at hP
      exact wp_stop (hclear.resolve_left (not_not_intro hP))
    · rw [hpte] at hP
      obtain ⟨hset, hframe'⟩ := setEntry_spec hhas hwalked.tab hw
      exact hnext t S' _ hP hwalked hset hhas.owned (hframe.trans hframe')

end Walk

/-- `mappages` on whole pages. -/
theorem mappages_eq {v n : Nat} (hn : 0 < n) (hv : v + n ≤ 2 ^ 20) (d pa perm : Nat) :
    mappages d (v * pgSize) (n * pgSize) pa perm = mapLoop d perm n (v * pgSize) pa := by
  have hlast : uint (v * pgSize + n * pgSize + (2 ^ 32 - 1)) = (v + n) * pgSize - 1 := by
    unfold uint pgSize
    omega
  have hround : pgRoundDown ((v + n) * pgSize - 1) = (v + n - 1) * pgSize := by
    unfold pgRoundDown pgSize
    omega
  have hstart : pgRoundDown (v * pgSize) = v * pgSize := by
    unfold pgRoundDown pgSize
    omega
  have hcount : uint ((v + n - 1) * pgSize + (2 ^ 32 - v * pgSize)) / pgSize + 1 = n := by
    unfold uint pgSize
    omega
  unfold mappages
  dsimp only
  rw [hlast, hround, hstart, hcount]

/-- One page of the user's part: the page `p` goes into the address space. -/
theorem mappages_page_spec {L : Layout} {E : Panic → Prop} {s : State} {S : Space}
    {R : Multiset Nat} {d v p perm : Nat} (h : Has L d S ({p} + R) s) (hv : v < userPages)
    (hperm : perm < pgSize) (hclear : ¬ Present (S.pte v) ∨ E .remap) :
    Sat E (mappages d (v * pgSize) pgSize (p * pgSize) perm) s fun ok s' =>
      Frame ({p} + R) s s' ∧
      if ok then ∃ t S', Walked S s.credits (v / 1024) t S' s'.credits ∧
        Has L d (S'.setPte v (p * pgSize + (perm ||| pteP))) R s'
      else s.credits = 0 ∧ S.tab (v / 1024) = none ∧ Has L d S ({p} + R) s' := by
  have hv' : v < 2 ^ 19 := hv
  have hp : p ∈ S.foot d + ({p} + R) := by simp
  have hlt := (h.owned.pos_lt hp).2
  have hflags : perm ||| pteP < pgSize := Nat.or_lt_two_pow (n := 12) hperm (by decide)
  have hword : p * pgSize ||| (perm ||| pteP) = p * pgSize + (perm ||| pteP) := or_eq_add p hflags
  have hword_lt : p * pgSize + (perm ||| pteP) < 2 ^ 32 := by
    unfold pgSize at *
    omega
  have heq := mappages_eq (v := v) (n := 1) Nat.one_pos (by omega) d (p * pgSize) perm
  rw [Nat.one_mul] at heq
  rw [heq]
  refine mapLoop_succ h (by omega) (by rw [hword]; exact hword_lt) hclear ?_ ?_
  · intro s' hzero hnone hhas hframe
    exact ⟨hframe, hzero, hnone, hhas⟩
  · intro t S' s' hP hwalked hspace hown hframe
    rw [hword] at hspace
    refine wp_pure ⟨hframe, t, S', hwalked, hspace, hown.congr rfl ?_⟩
    have hfoot := S'.foot_setPte (d := d) hv (p * pgSize + (perm ||| pteP))
    rw [hwalked.pte, pageAt_of_not_present hP, held_none, add_zero,
      pageAt_add hflags (by rw [Nat.or_mod_two_eq_one]; exact Or.inr rfl), held_some] at hfoot
    rw [hfoot, add_assoc]

/-- The frames that are there already keep their contents. -/
theorem mappages_page_kept {L : Layout} {E : Panic → Prop} {s : State} {S : Space}
    {R : Multiset Nat} {d v perm : Nat} (h : Has L d S R s) (hv : v < userPages)
    (hclear : ¬ Present (S.pte v) ∨ E .remap) (pa : Nat) :
    Sat E (mappages d (v * pgSize) pgSize pa perm) s fun _ s' => Kept S s s' := by
  have hv' : v < 2 ^ 19 := hv
  have heq := mappages_eq (v := v) (n := 1) Nat.one_pos (by omega) d pa perm
  have hwalk := wp_and (walkpgdir_alloc_spec (E := E) h (v * pgSize))
    (walkpgdir_alloc_kept h (v * pgSize))
  rw [Nat.one_mul] at heq
  rw [pdx_page (by omega), ptx_page] at hwalk
  rw [heq]
  refine wp_bind hwalk ?_
  rintro (_ | ⟨t, i⟩) s₁ ⟨⟨-, hcases⟩, hkept⟩
  · exact wp_pure hkept
  · obtain ⟨rfl, S', hwalked, hhas⟩ := hcases
    have hpte : s₁.entry t (v % 1024) = S.pte v := by
      rw [← hwalked.pte, hhas.pte_eq hwalked.tab]
    refine wp_get_bind (wp_ite (fun hP => ?_) fun _ => wp_modify_bind (wp_pure ?_))
    · rw [hpte] at hP
      exact wp_stop (hclear.resolve_left (not_not_intro hP))
    · refine hkept.trans fun u hu p hp => ?_
      rw [← hwalked.pte] at hp
      exact Function.update_of_ne (hhas.frame_ne_tab hu hp hwalked.tab) ..

end Cs350.Vm
