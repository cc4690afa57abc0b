import Cs350.Vm.Isolation
import Cs350.Vm.Sbrk

set_option autoImplicit false

/-! # The copy of an address space

`copyuvm` walks the page tables of the parent and builds those of the copy. Whatever page tables it
has to allocate on the way, the copy maps the same pages with the same flags, among them the guard
page below the stack, and all that it consists of was free before. -/

namespace Cs350.Vm

open Prog

/-- The address space with directory `d` in `s'` is a copy of the one with directory `pgdir` in
    `s`. -/
structure Duplicate (pgdir d : Nat) (s s' : State) : Prop where
  same : ∀ v < userPages, Present ((space s'.mem d).pte v) ↔ Present ((space s.mem pgdir).pte v)
  flags : ∀ v < userPages, Present ((space s.mem pgdir).pte v) →
    flagsOf ((space s'.mem d).pte v) = flagsOf ((space s.mem pgdir).pte v)
  bytes : ∀ v < userPages, Present ((space s.mem pgdir).pte v) →
    s'.mem (pageOf ((space s'.mem d).pte v)) = s.mem (pageOf ((space s.mem pgdir).pte v))
  /-- The directory, the page tables and the frames of the copy were free, and are no longer. -/
  fresh : ∀ p ∈ footOf s'.mem d, p ∈ s.freelist ∧ p ∉ s'.freelist
  distinct : ∀ u < userPages, ∀ v < userPages, u ≠ v → Present ((space s'.mem d).pte u) →
    Present ((space s'.mem d).pte v) →
    pageOf ((space s'.mem d).pte u) ≠ pageOf ((space s'.mem d).pte v)
  disjoint : ∀ u < userPages, ∀ v < userPages, Present ((space s'.mem d).pte u) →
    Present ((space s.mem pgdir).pte v) →
    pageOf ((space s'.mem d).pte u) ≠ pageOf ((space s.mem pgdir).pte v)
  /-- The directory, the page tables and the frames of the parent are as before. -/
  parent : ∀ p ∈ footOf s.mem pgdir, s'.mem p = s.mem p

section

variable {L : Layout} {s s' : State} {A R : Multiset Nat} {pgdir d sz : Nat} {P S : Space}

/-- What is in use now and was not before was free. -/
theorem Has.free_of_foot (h : Has L d S R s') (hown : Owned L s R) {p : Nat} (hp : p ∈ S.foot d) :
    p ∈ s.freelist ∧ p ∉ s'.freelist := by
  have hmem : p ∈ S.foot d + R := Multiset.mem_add.2 (Or.inl hp)
  have hpages := h.owned.mem_pages hmem
  constructor
  · have hall : p ∈ (s.freelist : Multiset Nat) + R := by
      unfold Owned at hown
      rw [hown]
      exact hpages
    exact (Multiset.mem_add.1 hall).resolve_right (h.notMem hp)
  · intro hfree
    exact Multiset.disjoint_left.1 (Multiset.nodup_add.1 h.owned.nodup_all).2.2
      (Multiset.mem_coe.2 hfree) hmem

/-- An entry of the copy. -/
theorem Mirrors.entry {k v : Nat} (h : Mirrors P k S s) (hv : v < k) :
    Present (P.pte v) ∧ Present (S.pte v) ∧ flagsOf (S.pte v) = flagsOf (P.pte v) ∧
      s.mem (pageOf (S.pte v)) = s.mem (pageOf (P.pte v)) := by
  obtain ⟨hP, p, hpte, hmem⟩ := h v hv
  have hat := pageAt_eq_some.1 (pageAt_add (p := p) (flagsOf_lt _) (flagsOf_odd hP))
  rw [← hpte] at hat
  refine ⟨hP, hat.1, ?_, by rw [hat.2, hmem]⟩
  rw [hpte, flagsOf, flagsOf, Nat.mul_add_mod', Nat.mod_mod]

theorem Mirrors.duplicate (h : Mirrors P (pageUp sz) S s') (hS : Has L d S R s')
    (hown : Owned L s R) (hframe : Frame R s s') (hparent : space s.mem pgdir = P)
    (hPR : ∀ p ∈ P.foot pgdir, p ∈ R) (hP : ∀ v < userPages, Present (P.pte v) → v < pageUp sz)
    (hzero : ∀ v, pageUp sz ≤ v → v < userPages → S.pte v = 0) : Duplicate pgdir d s s' := by
  have hfoot : ∀ v < userPages, Present (P.pte v) → pageOf (P.pte v) ∈ R := fun v hv hp =>
    hPR _ (Space.mem_foot_of_pte hv (pageAt_of_present hp))
  have hsame : ∀ v < userPages, Present (S.pte v) ↔ Present (P.pte v) := by
    intro v hv
    rcases Nat.lt_or_ge v (pageUp sz) with hlt | hge
    · exact ⟨fun _ => (h.entry hlt).1, fun _ => (h.entry hlt).2.1⟩
    · rw [hzero v hge hv]
      exact ⟨fun hp => absurd hp not_present_zero,
        fun hp => absurd (hP v hv hp) (Nat.not_lt.2 hge)⟩
  subst hparent
  obtain rfl := hS.space
  refine ⟨hsame, fun v hv hp => (h.entry (hP v hv hp)).2.2.1, fun v hv hp => ?_,
    fun p hp => hS.free_of_foot hown hp, fun u hu v hv huv hpu hpv => ?_,
    fun u hu v hv hpu hpv => ?_, fun p hp => hframe.mem p (hPR p hp)⟩
  · rw [(h.entry (hP v hv hp)).2.2.2, hframe.mem _ (hfoot v hv hp)]
  · -- two frames of one address space
    have hnd := hS.owned.nodup_left
    rw [Space.foot, Multiset.nodup_add] at hnd
    exact holdings.ne_of_nodup hnd.2.1 hu hv huv (pageAt_of_present hpu) (pageAt_of_present hpv)
  · intro heq
    refine hS.notMem (Space.mem_foot_of_pte hu (pageAt_of_present hpu)) ?_
    rw [heq]
    exact hfoot v hv hpv

/-- **`copyuvm` copies the address space**: it returns, and unless there are not enough pages it
    returns a copy. -/
theorem copyuvm_duplicates (h : Owned L s A) (hsz : sz < kernBase)
    (hfoot : ∀ p ∈ footOf s.mem pgdir, p ∈ A)
    (hpacked : ∀ v < userPages,
      Present ((space s.mem pgdir).pte v) ↔ v * pgSize < pgRoundUp sz) :
    ∃ r s', (copyuvm L pgdir sz s).2 = .ok (r, s') ∧
      (r = none → s.credits < pageUp sz + (pageUp sz + 1023) / 1024 + 66) ∧
      ∀ d, r = some d → Duplicate pgdir d s s' := by
  have hpres : ∀ v < userPages, Present ((space s.mem pgdir).pte v) ↔ v < pageUp sz :=
    fun v hv => (hpacked v hv).trans (below_pgRoundUp hsz.le)
  have hle := pageUp_le hsz.le
  have hspec := copyuvm_mirrors (E := fun _ => False) h hsz.le rfl hfoot
    (Or.inl fun v hv => (hpres v (by omega)).2 hv)
  obtain ⟨r, s', hrun, hframe, hcases⟩ := wp_runs hspec (fun _ _ => trivial) fun _ => id
  refine ⟨r, s', hrun, ?_, ?_⟩
  · rintro rfl
    exact hcases.1
  · rintro d rfl
    obtain ⟨S, hS, -, hmirrors, hzero, -⟩ := hcases
    exact hmirrors.duplicate hS h hframe rfl hfoot (fun v hv hp => (hpres v hv).1 hp) hzero

end

/-- A process with four pages, one of them closed to the user, is copied, and the copy's is closed as
    well. -/
theorem copyuvm_fourPages : ∃ d s', (copyuvm layout 401 (4 * pgSize) fourPages).2 = .ok (some d, s') ∧
    Duplicate 401 d fourPages s' ∧ flagsOf ((space s'.mem d).pte 1) = 7 ∧
    flagsOf ((space s'.mem d).pte 2) = 3 := by
  obtain ⟨R, h⟩ := has_fourPages
  have hfoot : ∀ p ∈ footOf fourPages.mem 401, p ∈ fourSpace.foot 401 + R := by
    intro p hp
    rw [footOf, h.space] at hp
    exact Multiset.mem_add.2 (Or.inl hp)
  have hfour : pgRoundUp (4 * pgSize) = 4 * pgSize := by decide
  have hpacked : ∀ v < userPages,
      Present ((space fourPages.mem 401).pte v) ↔ v * pgSize < pgRoundUp (4 * pgSize) := by
    intro v _
    rw [h.space, present_fourSpace, hfour]
    exact (Nat.mul_lt_mul_right (by decide)).symm
  obtain ⟨r, s', hrun, hnone, hdup⟩ := copyuvm_duplicates h.owned (by decide) hfoot hpacked
  cases r with
  | none =>
      have hcredits : fourPages.credits = 56937 := by
        rw [State.credits]
        show credits fourPages.freelist.length [] = _
        rw [credits_nil]
        show (List.range' 404 56940).tail.tail.tail.length = _
        simp only [List.length_tail, List.length_range']
      have hlt := hnone rfl
      rw [hcredits] at hlt
      exact absurd hlt (by decide)
  | some d =>
      have hcopy := hdup d rfl
      have hflags : ∀ v < 4, flagsOf ((space s'.mem d).pte v) = flagsOf (fourSpace.pte v) := by
        intro v hv
        have hP : Present ((space fourPages.mem 401).pte v) := by
          rw [h.space, present_fourSpace]
          exact hv
        rw [← h.space]
        exact hcopy.flags v (hv.trans (by decide)) hP
      refine ⟨d, s', hrun, hcopy, ?_, ?_⟩
      · rw [hflags 1 (by decide), fourSpace_pte]
        decide
      · rw [hflags 2 (by decide), fourSpace_pte]
        decide

end Cs350.Vm
