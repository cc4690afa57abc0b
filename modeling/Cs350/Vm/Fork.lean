import Cs350.Vm.Owners

set_option autoImplicit false

/-! # Copying an address space (`copyuvm`, `fork`)

`copyuvm` makes a new address space and copies the pages of the parent one by one. When there is no
page for the next copy, it gives back what it has taken. When the copy is made and there is no page
for the page table that it needs, it gives back the new address space, but not the copy. Every 1024
pages a page table is needed, so that this happens for one number of successful calls of `kalloc` in
1025. -/

namespace Cs350.Vm

open Sched (Slot slots)
open Prog

/-! ## `copyuvm` -/

/-- The new address space after `k` pages, if `c` calls of `kalloc` can succeed after `setupkvm`. -/
structure Copied (c k : Nat) (S : Space) (s : State) : Prop where
  pte : ∀ v, k ≤ v → v < userPages → S.pte v = 0
  tab : ∀ i < 512, (S.tab i).isSome ↔ i * 1024 < k
  credits : s.credits + k + (k + 1023) / 1024 = c

theorem Fresh.copied {S : Space} {s : State} (h : Fresh S) : Copied s.credits 0 S s where
  pte v _ hv := h.pte v hv
  tab i hi := by
    have hnot : ¬ (S.tab i).isSome := fun hsome => by
      have hmem : i ∈ S.tabs := Space.mem_tabs.2 ⟨by omega, hsome⟩
      rw [h.tabs, kernelDirs, Finset.mem_union, Finset.mem_Ico, Finset.mem_Ico] at hmem
      omega
    exact ⟨fun hsome => absurd hsome hnot, fun hlt => absurd hlt (Nat.not_lt_zero _)⟩
  credits := rfl

/-- One more page. -/
theorem Copied.next {c k : Nat} {S S' : Space} {s s₁ s' : State} {t w : Nat} (h : Copied c k S s)
    (hk : k < userPages) (hkalloc : s₁.credits + 1 = s.credits)
    (hwalked : Walked S s₁.credits (k / 1024) t S' s'.credits) :
    Copied c (k + 1) (S'.setPte k w) s' where
  pte v hv hlt := by
    rw [S'.setPte_of_ne w (by omega), hwalked.pte]
    exact h.pte v (by omega) hlt
  tab i hi := by
    rw [Space.setPte_tab]
    have hk' : k < 2 ^ 19 := hk
    by_cases hik : i = k / 1024
    · rw [hik, hwalked.tab]
      exact ⟨fun _ => by omega, fun _ => rfl⟩
    · rw [hwalked.tab_of_ne hik, h.tab i hi]
      omega
  credits := by
    have hc := h.credits
    have hk' : k < 2 ^ 19 := hk
    have htab := h.tab (k / 1024) (by omega)
    rcases hwalked with ⟨hsome, -, heq⟩ | ⟨hnone, -, heq⟩
    · rw [hsome] at htab
      have hlt := htab.1 rfl
      omega
    · rw [hnone] at htab
      have hge : ¬ k / 1024 * 1024 < k := fun hlt => (nomatch htab.2 hlt)
      omega

/-- The first `k` pages are copies of those of `P`, with the same flags. -/
def Mirrors (P : Space) (k : Nat) (S : Space) (s : State) : Prop :=
  ∀ v < k, Present (P.pte v) ∧ ∃ p, S.pte v = p * pgSize + flagsOf (P.pte v) ∧
    s.mem p = s.mem (pageOf (P.pte v))

theorem flagsOf_lt (w : Nat) : flagsOf w < pgSize := Nat.mod_lt _ (by decide)

theorem flagsOf_odd {w : Nat} (h : Present w) : flagsOf w % 2 = 1 := by
  unfold Present at h
  unfold flagsOf pgSize
  omega

/-- `mappages` sets a flag that is set. -/
theorem flagsOf_or {w : Nat} (h : Present w) : flagsOf w ||| pteP = flagsOf w := by
  have hsum : flagsOf w = 2 ^ 1 * (flagsOf w / 2) + 1 := by
    have hodd := flagsOf_odd h
    omega
  have hor := Nat.two_pow_add_eq_or_of_lt (i := 1) (b := 1) (by decide) (flagsOf w / 2)
  rw [hsum, hor, pteP, Nat.or_assoc, Nat.or_self]

theorem Mirrors.next {P S S' : Space} {R : Multiset Nat} {s s' : State} {k p : Nat}
    (h : Mirrors P k S s) (hk : k < userPages) (hP : Present (P.pte k)) (hpte : S'.pte = S.pte)
    (hPR : ∀ v < userPages, Present (P.pte v) → pageOf (P.pte v) ∈ R) (hframe : Frame R s s')
    (hkept : Kept S s s') (hnew : s'.mem p = s.mem (pageOf (P.pte k))) :
    Mirrors P (k + 1) (S'.setPte k (p * pgSize + flagsOf (P.pte k))) s' := by
  intro v hv
  have hsame : ∀ v < userPages, Present (P.pte v) →
      s'.mem (pageOf (P.pte v)) = s.mem (pageOf (P.pte v)) := fun v hv hP =>
    hframe.mem _ (hPR v hv hP)
  rcases Nat.lt_succ_iff_lt_or_eq.1 hv with hlt | rfl
  · obtain ⟨hPv, q, hq, hmem⟩ := h v hlt
    have hqat : pageAt (S.pte v) = some q := by
      rw [hq, pageAt_add (flagsOf_lt _) (flagsOf_odd hPv)]
    refine ⟨hPv, q, by rw [S'.setPte_of_ne _ hlt.ne, hpte, hq], ?_⟩
    rw [hkept v (by omega) q hqat, hmem, hsame v (by omega) hPv]
  · exact ⟨hP, p, S'.setPte_self .., hnew.trans (hsame v hk hP).symm⟩

/-- What is lost when the call fails: a page if there is a leak, and nothing otherwise. -/
def Lost (leak : Prop) (lost : Multiset Nat) : Prop :=
  (leak → ∃ p, lost = {p}) ∧ (¬ leak → lost = 0)

section Copy

variable {L : Layout} {E : Panic → Prop} {s : State} {S P : Space} {R : Multiset Nat} {pgdir d : Nat}

theorem copyLoop_spec {c : Nat} (n k : Nat) (h : Has L d S R s) (hcopied : Copied c k S s)
    (hmirrors : Mirrors P k S s) (hclosed : S.Closed) (hparent : space s.mem pgdir = P)
    (hPR : ∀ p ∈ P.foot pgdir, p ∈ R) (hkn : k + n ≤ userPages)
    (hE : (∀ v, k ≤ v → v < k + n → Present (P.pte v)) ∨ E .copyuvmExist ∧ E .copyuvmPresent) :
    Sat E (copyLoop L pgdir d n (k * pgSize)) s fun r s' => Frame R s s' ∧
      match r with
      | none => c < k + n + (k + n + 1023) / 1024 ∧
          ∃ lost, Owned L s' (lost + R) ∧ Lost (∃ j, c = 1025 * j + 1) lost
      | some d' => d' = d ∧ ∃ S', Has L d S' R s' ∧ Copied c (k + n) S' s' ∧
          Mirrors P (k + n) S' s' ∧ S'.Closed := by
  induction n generalizing s S k with
  | zero => exact wp_pure ⟨Frame.refl R s, rfl, S, h, hcopied, hmirrors, hclosed⟩
  | succ n ih =>
      have hk : k < userPages := by omega
      have hk' : k < 2 ^ 19 := hk
      have hwalk := walkpgdir_spec (E := E) hparent (k * pgSize)
      rw [pdx_page (by omega), ptx_page] at hwalk
      refine wp_bind hwalk ?_
      rintro r s' ⟨rfl, rfl⟩
      cases ht : P.tab (k / 1024) with
      | none =>
          refine wp_stop (hE.elim (fun hpres => ?_) And.left)
          have hP := hpres k le_rfl (by omega)
          rw [← hparent, pte_of_no_tab (by rw [hparent, ht])] at hP
          exact absurd hP not_present_zero
      | some t =>
          have hpte : s'.entry t (k % 1024) = P.pte k := by
            rw [← hparent, pte_of_tab (by rw [hparent, ht])]
            rfl
          dsimp only [Option.map_some]
          refine wp_get_bind (wp_ite (fun hP => ?_) fun hP => ?_)
          · refine wp_bind (kalloc_spec h.owned) ?_
            rintro (_ | p) s₁ ⟨hframe, hmem, hcases⟩
            · -- no page for the copy: everything is given back
              obtain ⟨hzero, hfree, -⟩ := hcases
              have hframe₁ : Frame R s' s₁ := hframe.mono fun p hp => Multiset.mem_add.2 (Or.inr hp)
              refine wp_bind (freevm_spec (h.congr hmem hfree)) ?_
              rintro - s₂ ⟨hown, hframe₂⟩
              have hc := hcopied.credits
              refine wp_pure ⟨hframe₁.trans hframe₂, by omega, 0, by rwa [zero_add], ?_,
                fun _ => rfl⟩
              rintro ⟨j, hj⟩
              omega
            · obtain ⟨hcredits, hown⟩ := hcases
              obtain ⟨h₁, hframe₁⟩ := h.hand hframe hown (s₁.mem (pageOf (s'.entry t (k % 1024))))
              have hclear : ¬ Present (S.pte k) ∨ E .remap := by
                rw [hcopied.pte k le_rfl hk]
                exact Or.inl not_present_zero
              have hmap := wp_and (mappages_page_spec h₁ hk
                (flagsOf_lt (s'.entry t (k % 1024))) hclear)
                (mappages_page_kept h₁ hk hclear (p * pgSize))
              refine wp_modify_bind (wp_bind hmap ?_)
              · rintro ok s₂ ⟨⟨hframe₂, hok⟩, hkept₂⟩
                have hframe₂' : Frame R s' s₂ :=
                  hframe₁.trans (hframe₂.mono fun p hp => Multiset.mem_add.2 (Or.inr hp))
                cases ok with
                | true =>
                    obtain ⟨t', S', hwalked, h₂⟩ := hok
                    refine wp_ite (fun _ => ?_) fun hne => absurd rfl hne
                    have hparent₂ : space s₂.mem pgdir = P := by
                      rw [← hparent]
                      exact hframe₂'.space (by rwa [hparent])
                    rw [show k * pgSize + pgSize = (k + 1) * pgSize from (Nat.succ_mul k _).symm]
                    refine wp_mono (ih (k + 1) h₂ (hcopied.next hk hcredits hwalked) ?_ ?_ hparent₂
                      (by omega) ?_) ?_
                    · rw [hpte] at hP
                      have hkept₁ := hown.kept_setPage hmem (s₁.mem (pageOf (s'.entry t (k % 1024))))
                      rw [hpte, flagsOf_or hP]
                      refine hmirrors.next hk hP hwalked.pte (fun v hv hP => hPR _ ?_) hframe₂'
                        (hkept₁.trans hkept₂) ?_
                      · exact Space.mem_foot_of_pte hv (pageAt_of_present hP)
                      · have hp := Multiset.mem_singleton_self p
                        rw [hframe₂.mem p (Multiset.mem_add.2 (Or.inl hp)), hpte, hmem]
                        exact Function.update_self ..
                    · intro v hv
                      rw [S'.setPte_of_ne _ (by omega), hwalked.pte]
                      exact hclosed v hv
                    · exact hE.imp_left fun hpres v hv hlt => hpres v (by omega) (by omega)
                    · rw [show k + 1 + n = k + (n + 1) by omega]
                      exact fun r s₃ h₃ => ⟨hframe₂'.trans h₃.1, h₃.2⟩
                | false =>
                    -- no page for the page table: the copy is not given back
                    obtain ⟨hzero, hnone, h₂⟩ := hok
                    refine wp_ite (fun heq => (nomatch heq)) fun _ => ?_
                    refine wp_bind (freevm_spec h₂) ?_
                    rintro - s₃ ⟨hown₃, hframe₃⟩
                    have hc := hcopied.credits
                    have hc₁ : s₁.credits = 0 := hzero
                    have htab := hcopied.tab (k / 1024) (by omega)
                    rw [hnone] at htab
                    have hge : ¬ k / 1024 * 1024 < k := fun hlt => (nomatch htab.2 hlt)
                    refine wp_pure ⟨hframe₂'.trans (hframe₃.mono fun p hp =>
                      Multiset.mem_add.2 (Or.inr hp)), by omega, {p}, hown₃, fun _ => ⟨p, rfl⟩, ?_⟩
                    exact fun hne => absurd ⟨k / 1024, by omega⟩ hne
          · rw [hpte] at hP
            refine wp_stop (hE.elim (fun hpres => ?_) And.right)
            exact absurd (hpres k le_rfl (by omega)) hP

end Copy

theorem pageUp_le {sz : Nat} (h : sz ≤ kernBase) : pageUp sz ≤ userPages := by
  unfold pageUp userPages kernBase pgSize at *
  omega

theorem Mirrors.zero (P S : Space) (s : State) : Mirrors P 0 S s :=
  fun _ hv => absurd hv (Nat.not_lt_zero _)

theorem copyuvm_mirrors {L : Layout} {E : Panic → Prop} {s : State} {P : Space} {R : Multiset Nat}
    {pgdir sz : Nat} (h : Owned L s R) (hsz : sz ≤ kernBase) (hparent : space s.mem pgdir = P)
    (hPR : ∀ p ∈ P.foot pgdir, p ∈ R)
    (hE : (∀ v < pageUp sz, Present (P.pte v)) ∨ E .copyuvmExist ∧ E .copyuvmPresent) :
    Sat E (copyuvm L pgdir sz) s fun r s' => Frame R s s' ∧
      match r with
      | none => s.credits < pageUp sz + (pageUp sz + 1023) / 1024 + 66 ∧
          ∃ lost, Owned L s' (lost + R) ∧ Lost (∃ j, s.credits = 1025 * j + 66) lost
      | some d => ∃ S, Has L d S R s' ∧ S.Closed ∧ Mirrors P (pageUp sz) S s' ∧
          (∀ v, pageUp sz ≤ v → v < userPages → S.pte v = 0) ∧
          s'.credits + pageUp sz + (pageUp sz + 1023) / 1024 + 65 = s.credits := by
  refine wp_bind (setupkvm_spec h) ?_
  rintro (_ | d) s₁ ⟨hframe, hcases⟩
  · obtain ⟨hown, hlt⟩ := hcases
    refine wp_pure ⟨hframe, by omega, 0, by rwa [zero_add], ?_, fun _ => rfl⟩
    rintro ⟨j, hj⟩
    omega
  · obtain ⟨hcredits, S, hS, hfresh⟩ := hcases
    have hparent₁ : space s₁.mem pgdir = P := by
      rw [← hparent]
      exact hframe.space (by rwa [hparent])
    have hloop := copyLoop_spec (pageUp sz) 0 hS hfresh.copied (Mirrors.zero P S s₁) hfresh.closed
      hparent₁ hPR (by rw [Nat.zero_add]; exact pageUp_le hsz)
      (hE.imp_left fun hpres v _ hv => hpres v (by rwa [Nat.zero_add] at hv))
    rw [Nat.zero_mul, Nat.zero_add] at hloop
    refine wp_mono hloop ?_
    rintro (_ | d') s₂ ⟨hframe₂, hcases⟩
    · obtain ⟨hlt, lost, hown, hleak, hnone⟩ := hcases
      have hiff : (∃ j, s.credits = 1025 * j + 66) ↔ ∃ j, s₁.credits = 1025 * j + 1 :=
        exists_congr fun j => by omega
      exact ⟨hframe.trans hframe₂, by omega, lost, hown, by rwa [hiff], by rwa [hiff]⟩
    · obtain ⟨rfl, S', hS', hcopied, hmirrors, hclosed⟩ := hcases
      have hc := hcopied.credits
      exact ⟨hframe.trans hframe₂, S', hS', hclosed, hmirrors, hcopied.pte, by omega⟩

/-- Who has the pages afterwards. -/
theorem copyuvm_spec {L : Layout} {E : Panic → Prop} {s : State} {P : Space} {R : Multiset Nat}
    {pgdir sz : Nat} (h : Owned L s R) (hsz : sz ≤ kernBase) (hparent : space s.mem pgdir = P)
    (hPR : ∀ p ∈ P.foot pgdir, p ∈ R)
    (hE : (∀ v < pageUp sz, Present (P.pte v)) ∨ E .copyuvmExist ∧ E .copyuvmPresent) :
    Sat E (copyuvm L pgdir sz) s fun r s' => Frame R s s' ∧
      match r with
      | none => ∃ lost, Owned L s' (lost + R) ∧ Lost (∃ j, s.credits = 1025 * j + 66) lost
      | some d => (∃ S, Has L d S R s' ∧ S.Closed) ∧
          s'.credits + pageUp sz + (pageUp sz + 1023) / 1024 + 65 = s.credits := by
  refine wp_mono (copyuvm_mirrors h hsz hparent hPR hE) ?_
  rintro (_ | d) s' ⟨hframe, hcases⟩
  · exact ⟨hframe, hcases.2⟩
  · obtain ⟨S, hS, hclosed, -, -, hcredits⟩ := hcases
    exact ⟨hframe, ⟨S, hS, hclosed⟩, hcredits⟩

/-! ## `allocproc` -/

theorem allocproc_spec {L : Layout} {E : Panic → Prop} {s : State} {A : Multiset Nat}
    (h : Owned L s A) :
    Sat E allocproc s fun r s' => Frame A { s with proc := s'.proc } s' ∧ s'.mem = s.mem ∧
      match r with
      | none => s'.freelist = s.freelist ∧
          (s' = s ∧ (∀ p, (s.proc p).state ≠ .unused) ∨ s.credits = 0 ∧
            ∃ p q, (s.proc p).state = .unused ∧ q.state = .unused ∧
              s'.proc = Function.update s.proc p q)
      | some p => (s.proc p).state = .unused ∧ s'.credits + 1 = s.credits ∧
          ∃ q, q.state = .embryo ∧ s'.proc = Function.update s.proc p q ∧
            Owned L s' ({q.kstack} + A) := by
  refine wp_get_bind ?_
  cases hfind : slots.find? fun p => (s.proc p).state = .unused with
  | none =>
      refine wp_pure ⟨Frame.refl A s, rfl, rfl, Or.inl ⟨rfl, fun p hp => ?_⟩⟩
      have hno := List.find?_eq_none.1 hfind p (List.mem_finRange p)
      exact hno (by simpa using hp)
  | some p =>
      have hunused : (s.proc p).state = .unused := by simpa using List.find?_some hfind
      refine wp_modify_bind (wp_bind (kalloc_spec (A := A) h) ?_)
      -- the two changes of the entry are one
      have htwice : ∀ (f g : Proc → Proc) (s₁ : State), s₁.proc = (s.setProc p f).proc →
          (s₁.setProc p g).proc = Function.update s.proc p (g (f (s.proc p))) := by
        intro f g s₁ heq
        show Function.update s₁.proc p (g (s₁.proc p)) = _
        rw [heq]
        show Function.update (Function.update s.proc p (f (s.proc p))) p
          (g (Function.update s.proc p (f (s.proc p)) p)) = _
        rw [Function.update_self, Function.update_idem]
      rintro (_ | k) s₁ ⟨hframe, hmem, hcases⟩
      · obtain ⟨hzero, hfree, -⟩ := hcases
        refine wp_modify_bind (wp_pure ⟨⟨hframe.mem, rfl, hframe.initproc, hframe.kpgdir,
          hframe.pipe⟩, hmem, hfree, Or.inr ⟨hzero, p, _, hunused, ?_, htwice _ _ s₁ hframe.proc⟩⟩)
        rfl
      · obtain ⟨hcredits, hown⟩ := hcases
        refine wp_modify_bind (wp_pure ⟨⟨hframe.mem, rfl, hframe.initproc, hframe.kpgdir,
          hframe.pipe⟩, hmem, hunused, hcredits, _, ?_, htwice _ _ s₁ hframe.proc, hown⟩)
        rfl

/-! ## `fork` -/

/-- `fork` would lose a page: there is a free entry in the process table, and the first call of
    `kalloc` to fail is one for a page table of the copy. -/
def Leaks (s : State) : Prop :=
  (∃ p, (s.proc p).state = .unused) ∧ ∃ j, s.credits = 1025 * j + 67

section Fork

variable {L : Layout} {E : Panic → Prop} {s : State} {cur : Slot}

theorem fork_spec (h : Sound L s) (hcur : (s.proc cur).Live)
    (hE : (∀ v < pageUp (s.proc cur).sz, Present ((space s.mem (s.proc cur).pgdir).pte v)) ∨
      E .copyuvmExist ∧ E .copyuvmPresent) :
    Sat E (fork L cur) s fun r s' => Sound L s' ∧
      match r with
      | none => ∃ lost, (s.freelist : Multiset Nat) = s'.freelist + lost ∧ Lost (Leaks s) lost
      | some _ => s'.credits + pageUp (s.proc cur).sz + (pageUp (s.proc cur).sz + 1023) / 1024 + 66
          = s.credits := by
  obtain ⟨lost₀, hown₀⟩ := h.owned
  refine wp_bind (allocproc_spec hown₀) ?_
  rintro (_ | np) s₁ ⟨hframe₁, hmem₁, hcases⟩
  · -- no entry, or no kernel stack
    obtain ⟨hfree, hcases⟩ := hcases
    refine wp_pure ⟨?_, 0, by rw [hfree, add_zero], ?_, fun _ => rfl⟩
    · rcases hcases with ⟨rfl, -⟩ | ⟨-, np, q, hunused, hq, hproc⟩
      · exact h
      · have hnp : s₁.proc np = q := by rw [hproc, Function.update_self]
        have hdead : ¬ (s₁.proc np).Live := fun hlive => hlive.1 (by rw [hnp, hq])
        refine h.change (p := np) (fun q' hq' => by rw [hproc, Function.update_of_ne hq'])
          (hframe₁.mono fun x hx => Multiset.mem_add.2 (Or.inl (mem_inUse_of_others hx)))
          ⟨lost₀, hown₀.congr hfree ?_⟩ (fun hlive => absurd hlive hdead)
          (fun hlive => absurd hlive hdead)
        rw [hnp, Proc.pages_unused hq, inUse_eq s np, Proc.pages_unused hunused, add_assoc]
    · rintro ⟨⟨p, hp⟩, j, hj⟩
      rcases hcases with ⟨-, hno⟩ | ⟨hzero, -⟩
      · exact absurd hp (hno p)
      · omega
  · obtain ⟨hunused, hcredits, q, hq, hproc, hown₁⟩ := hcases
    have hinUse : inUse s = others s np := by
      rw [inUse_eq s np, Proc.pages_unused hunused, zero_add]
    have hne : cur ≠ np := by
      rintro rfl
      exact hcur.1 hunused
    have hcur₁ : s₁.proc cur = s.proc cur := by rw [hproc, Function.update_of_ne hne]
    have hnp₁ : s₁.proc np = q := by rw [hproc, Function.update_self]
    have hspace₁ : space s₁.mem (s.proc cur).pgdir = space s.mem (s.proc cur).pgdir := by
      rw [hmem₁]
    have hin : ∀ x ∈ inUse s, x ∈ ({q.kstack} : Multiset Nat) + (inUse s + lost₀) := fun x hx =>
      Multiset.mem_add.2 (Or.inr (Multiset.mem_add.2 (Or.inl hx)))
    have hcopy := copyuvm_spec (E := E) hown₁ (h.size cur hcur) hspace₁
      (fun x hx => hin x (mem_inUse_of_foot hcur hx)) hE
    refine wp_get_bind ?_
    rw [hcur₁, hnp₁]
    refine wp_bind hcopy ?_
    rintro (_ | d) s₂ ⟨hframe₂, hcases⟩
    · -- the rollback
      obtain ⟨lost, hown₂, hlost⟩ := hcases
      have hown₂' : Owned L s₂ ({q.kstack} + (lost + (inUse s + lost₀))) :=
        hown₂.congr rfl (by abel)
      refine wp_modify_bind (wp_bind (kfree_spec (A := lost + (inUse s + lost₀)) hown₂') ?_)
      rintro - s₃ ⟨hown₃, hframe₃⟩
      have hmem : ∀ x ∈ inUse s + lost₀, s₃.mem x = s.mem x := fun x hx => by
        rw [hframe₃.mem x (Multiset.mem_add.2 (Or.inr hx)), ← hmem₁]
        exact hframe₂.mem x (Multiset.mem_add.2 (Or.inr hx))
      have hproc₃ : ∀ q', q' ≠ np → s₃.proc q' = s.proc q' := fun q' hq' => by
        rw [hframe₃.proc]
        rw [State.setProc_of_ne _ _ hq', hframe₂.proc, hproc, Function.update_of_ne hq']
      have hstate : ∀ f : Proc → Proc, (f (s₃.proc np)).state = .unused →
          ((s₃.setProc np f).proc np).state = .unused := fun f hf => by
        rw [State.setProc_self, hf]
      refine wp_modify_bind (wp_pure ⟨?_, lost, ?_, ?_⟩)
      · refine h.change (p := np) (fun q' hq' => ?_) ⟨fun x hx => ?_, rfl, ?_, ?_, ?_⟩
          ⟨lost + lost₀, ?_⟩ (fun hlive => absurd (hstate _ rfl) hlive.1)
          (fun hlive => absurd (hstate _ rfl) hlive.1)
        · rw [State.setProc_of_ne _ _ hq', hproc₃ q' hq']
        · exact hmem x (Multiset.mem_add.2 (Or.inl (mem_inUse_of_others hx)))
        · exact hframe₃.initproc.trans (hframe₂.initproc.trans hframe₁.initproc)
        · exact hframe₃.kpgdir.trans (hframe₂.kpgdir.trans hframe₁.kpgdir)
        · exact hframe₃.pipe.trans (hframe₂.pipe.trans hframe₁.pipe)
        · refine hown₃.congr rfl ?_
          rw [Proc.pages_unused (hstate _ rfl), hinUse]
          abel
      · have heq : (s.freelist : Multiset Nat) + (inUse s + lost₀)
            = s₃.freelist + lost + (inUse s + lost₀) := by
          rw [add_assoc (s₃.freelist : Multiset Nat)]
          exact hown₀.trans hown₃.symm
        exact add_right_cancel heq
      · have hiff : Leaks s ↔ ∃ j, s₁.credits = 1025 * j + 66 := by
          refine ⟨fun ⟨_, j, hj⟩ => ⟨j, by omega⟩, fun ⟨j, hj⟩ => ⟨⟨np, hunused⟩, j, by omega⟩⟩
        exact ⟨fun hl => hlost.1 (hiff.1 hl), fun hl => hlost.2 fun hr => hl (hiff.2 hr)⟩
    · obtain ⟨⟨S, hS, hclosed⟩, hcount⟩ := hcases
      have hmem : ∀ x ∈ inUse s + lost₀, s₂.mem x = s.mem x := fun x hx => by
        rw [hframe₂.mem x (Multiset.mem_add.2 (Or.inr hx)), hmem₁]
      have hproc₂ : ∀ q', q' ≠ np → s₂.proc q' = s.proc q' := fun q' hq' => by
        rw [hframe₂.proc, hproc, Function.update_of_ne hq']
      have hnp₂ : s₂.proc np = q := by rw [hframe₂.proc, hnp₁]
      refine wp_modify_bind (wp_pure ⟨?_, ?_⟩)
      · refine h.change (p := np) (fun q' hq' => ?_) ⟨fun x hx => ?_, rfl, ?_, ?_, ?_⟩
          ⟨lost₀, ?_⟩ (fun _ => ?_) (fun _ => ?_)
        · rw [State.setProc_of_ne _ _ hq', hproc₂ q' hq']
        · exact hmem x (Multiset.mem_add.2 (Or.inl (mem_inUse_of_others hx)))
        · exact hframe₂.initproc.trans hframe₁.initproc
        · exact hframe₂.kpgdir.trans hframe₁.kpgdir
        · exact hframe₂.pipe.trans hframe₁.pipe
        · refine hS.owned.congr rfl ?_
          rw [State.setProc_self, hinUse,
            Proc.pages_live (Proc.live_of_state (s := .runnable) rfl (by decide) (by decide)), footOf]
          show _ = {(s₂.proc np).kstack} + (space s₂.mem d).foot d + _
          rw [hnp₂, hS.space]
          abel
        · rw [State.setProc_self]
          show (s₂.proc cur).sz ≤ kernBase
          rw [hproc₂ cur hne]
          exact h.size cur hcur
        · rw [State.setProc_self]
          show (space s₂.mem d).Closed
          rw [hS.space]
          exact hclosed
      · show s₂.credits + _ + _ + 66 = _
        omega

theorem fork_lost (h : Sound L s) (hcur : (s.proc cur).Live) {s' : State}
    (hrun : (fork L cur s).2 = .ok (none, s')) :
    ∃ lost, (s.freelist : Multiset Nat) = s'.freelist + lost ∧ Lost (Leaks s) lost := by
  have hspec := wp_elim (fork_spec (E := fun _ => True) h hcur (Or.inr ⟨trivial, trivial⟩))
    fun _ _ => trivial
  rw [hrun] at hspec
  exact hspec.2

theorem fork_leaks (h : Sound L s) (hcur : (s.proc cur).Live) {s' : State}
    (hrun : (fork L cur s).2 = .ok (none, s')) (hl : Leaks s) :
    ∃ p, p ∈ s.freelist ∧ p ∉ s'.freelist := by
  obtain ⟨lost, hfree, hleak, -⟩ := fork_lost h hcur hrun
  obtain ⟨p, rfl⟩ := hleak hl
  obtain ⟨lost₀, hown⟩ := h.owned
  have hnd : (s.freelist : Multiset Nat).Nodup := Multiset.coe_nodup.2 hown.freelist_nodup
  rw [hfree, Multiset.nodup_add] at hnd
  refine ⟨p, ?_, fun hp => ?_⟩
  · rw [← Multiset.mem_coe, hfree]
    exact Multiset.mem_add.2 (Or.inr (Multiset.mem_singleton_self p))
  · exact Multiset.disjoint_left.1 hnd.2.2 (Multiset.mem_coe.2 hp) (Multiset.mem_singleton_self p)

/-- **A failed `fork` leaves the free pages as they were, unless it stops at a page table.** -/
theorem fork_free_iff (h : Sound L s) (hcur : (s.proc cur).Live) {s' : State}
    (hrun : (fork L cur s).2 = .ok (none, s')) :
    (∀ p, p ∈ s'.freelist ↔ p ∈ s.freelist) ↔ ¬ Leaks s := by
  constructor
  · intro hsame hl
    obtain ⟨p, hp, hp'⟩ := fork_leaks h hcur hrun hl
    exact hp' ((hsame p).2 hp)
  · intro hl p
    obtain ⟨lost, hfree, -, hnone⟩ := fork_lost h hcur hrun
    rw [hnone hl, add_zero] at hfree
    rw [← Multiset.mem_coe, ← Multiset.mem_coe, hfree]

end Fork

/-! ## A parent with one page -/

/-- A kernel of 400 pages. -/
def layout : Layout where
  data := 300
  fin := 400
  text := by decide
  data_lt := by decide
  fin_le := by decide

/-- The directory is page 401, the page table page 402, the frame page 403. -/
def parentMem : Nat → Mem :=
  let mem := Function.update (fun _ => filled 0) 401
    ((filled 0).store (4 * 0) 4 (402 * pgSize + 7))
  Function.update mem 402 ((mem 402).store (4 * (0 % 1024)) 4 (403 * pgSize + 7))

/-- The first process, before its first call of `fork`; the next calls of `kalloc` fail as `fails`
    says. -/
def parent (fails : List Bool) : State where
  mem := parentMem
  freelist := List.range' 404 56940
  fails := fails
  proc p := if p = 0 then ⟨.running, 400, 401, pgSize, none⟩ else ⟨.unused, 0, 0, 0, none⟩
  initproc := 0
  kpgdir := none
  pipe _ := none

theorem space_parent : space parentMem 401
    = ((Space.mk (fun _ => none) fun _ => 0).addTab 0 402).setPte 0 (403 * pgSize + 7) := by
  have hzero : space (fun _ => filled 0) 401 = ⟨fun _ => none, fun _ => 0⟩ :=
    space_filled_zero rfl
  have hdir : space (Function.update (fun _ => filled 0) 401
      ((filled 0).store (4 * 0) 4 (402 * pgSize + 7))) 401
      = (Space.mk (fun _ => none) fun _ => 0).addTab 0 402 := by
    rw [← hzero]
    refine space_addTab (by decide) (by decide) (pageAt_add (by decide) rfl) ?_ (by decide) ?_ rfl
    · rw [hzero]
    · rw [hzero, foot_empty]
      exact Multiset.nodup_singleton 401
  rw [← hdir]
  refine space_setPte (by decide) ?_ ?_
  · rw [hdir]
    exact Space.addTab_self ..
  · rw [hdir, Space.foot_addTab _ (by decide) rfl, foot_empty]
    decide

theorem foot_parent : footOf parentMem 401 = {401} + {402} + {403} := by
  have hfoot := ((Space.mk (fun _ => none) fun _ => 0).addTab 0 402).foot_setPte (d := 401) (v := 0)
    (by decide) (403 * pgSize + 7)
  rw [Space.addTab_pte, pageAt_zero, held_none, add_zero, Space.foot_addTab _ (by decide) rfl,
    foot_empty, pageAt_add (by decide) rfl, held_some] at hfoot
  rw [footOf, space_parent, hfoot]

theorem inUse_parent (fails : List Bool) :
    inUse (parent fails) = {400} + ({401} + {402} + {403}) := by
  have hothers : others (parent fails) 0 = 0 := by
    have hsum : ∑ q ∈ Finset.univ.erase (0 : Slot), ((parent fails).proc q).pages parentMem = 0 :=
      Finset.sum_eq_zero fun q hq => Proc.pages_unused (by
        show (if q = 0 then _ else _ : Proc).state = _
        rw [if_neg (Finset.ne_of_mem_erase hq)])
    have hpipe : pipePages (parent fails).pipe = 0 := holdings.eq_zero fun _ _ => rfl
    rw [others, kernelPages, hpipe]
    show ∑ q ∈ Finset.univ.erase (0 : Slot), ((parent fails).proc q).pages parentMem + (0 + 0) = 0
    rw [hsum, add_zero, add_zero]
  have hproc : (parent fails).proc 0 = ⟨.running, 400, 401, pgSize, none⟩ := rfl
  rw [inUse_eq _ 0, hothers, add_zero, hproc, Proc.pages_live ⟨by decide, by decide⟩]
  show {400} + footOf parentMem 401 = _
  rw [foot_parent]

theorem sound_parent (fails : List Bool) : Sound layout (parent fails) := by
  have honly : ∀ p, ((parent fails).proc p).Live → p = 0 := fun p hp => by
    by_contra hne
    refine hp.1 ?_
    show (if p = 0 then _ else _ : Proc).state = _
    rw [if_neg hne]
  refine ⟨⟨0, ?_⟩, fun p hp => ?_, fun p hp => ?_⟩
  · have hrange : List.range' 400 56944 = 400 :: 401 :: 402 :: 403 :: List.range' 404 56940 := rfl
    rw [Owned, inUse_parent, add_zero]
    show (List.range' 404 56940 : Multiset Nat) + _ = (List.range' 400 56944 : Multiset Nat)
    rw [hrange, ← Multiset.cons_coe, ← Multiset.cons_coe, ← Multiset.cons_coe, ← Multiset.cons_coe]
    simp only [← Multiset.singleton_add]
    abel
  · rw [honly p hp]
    show pgSize ≤ kernBase
    decide
  · rw [honly p hp]
    intro v hv
    show ¬ User ((space parentMem 401).pte v)
    have hne : v ≠ 0 := fun h => by
      rw [h] at hv
      exact absurd hv (by decide)
    rw [space_parent, Space.setPte_of_ne _ _ hne]
    exact not_user_zero

/-- The call that finds no page for the first page table of the copy. -/
theorem credits_parent : (parent (List.replicate 67 false ++ [true])).credits = 67 := by
  have hlen : (parent (List.replicate 67 false ++ [true])).freelist.length = 56873 + 67 :=
    List.length_range'
  rw [State.credits, hlen]
  rfl

theorem leaks_parent : Leaks (parent (List.replicate 67 false ++ [true])) :=
  ⟨⟨1, rfl⟩, 0, credits_parent⟩

theorem proc_parent (fails : List Bool) :
    (parent fails).proc 0 = ⟨.running, 400, 401, pgSize, none⟩ := rfl

theorem live_parent (fails : List Bool) : ((parent fails).proc 0).Live := by
  rw [proc_parent]
  decide

/-- With too few pages, the call fails. -/
theorem fork_parent (fails : List Bool) (h : (parent fails).credits < 68) :
    ∃ s', (fork layout 0 (parent fails)).2 = .ok (none, s') := by
  have hone : pageUp ((parent fails).proc 0).sz = 1 := by
    rw [proc_parent]
    decide
  have hpage : ∀ v < pageUp ((parent fails).proc 0).sz,
      Present ((space (parent fails).mem ((parent fails).proc 0).pgdir).pte v) := fun v hv => by
    rw [hone] at hv
    show Present ((space parentMem 401).pte v)
    rw [Nat.lt_one_iff.1 hv, space_parent, Space.setPte_self]
    decide
  have hspec := wp_elim (fork_spec (E := fun _ => False) (sound_parent fails) (live_parent fails)
    (Or.inl hpage)) fun _ _ => trivial
  rcases hrun : (fork layout 0 (parent fails)).2 with e | ⟨_ | np, s'⟩
  · rw [hrun] at hspec
    exact hspec.elim
  · exact ⟨s', rfl⟩
  · rw [hrun] at hspec
    have hcount := hspec.2
    dsimp only at hcount
    omega

/-- The call that finds no page for the copy of the first page. -/
def noCopy : List Bool := List.replicate 66 false ++ [true]

theorem credits_noCopy : (parent noCopy).credits = 66 := by
  have hlen : (parent noCopy).freelist.length = 56874 + 66 := List.length_range'
  rw [State.credits, hlen]
  rfl

/-- In `copyuvm`, after the kernel stack and the kernel's part of the address space. -/
theorem fork_free_parent : ∃ s', (fork layout 0 (parent noCopy)).2 = .ok (none, s') ∧
    ¬ Leaks (parent noCopy) ∧ ∀ p, p ∈ s'.freelist ↔ p ∈ (parent noCopy).freelist := by
  obtain ⟨s', hrun⟩ := fork_parent noCopy (by rw [credits_noCopy]; decide)
  have hno : ¬ Leaks (parent noCopy) := by
    rintro ⟨-, j, hj⟩
    rw [credits_noCopy] at hj
    omega
  exact ⟨s', hrun, hno, (fork_free_iff (sound_parent noCopy) (live_parent noCopy) hrun).2 hno⟩

/-- The page for the copy of the first page is lost. -/
theorem fork_loses_page : Sound layout (parent (List.replicate 67 false ++ [true])) ∧
    ∃ s', (fork layout 0 (parent (List.replicate 67 false ++ [true]))).2 = .ok (none, s') ∧
      ∃ p, p ∈ (parent (List.replicate 67 false ++ [true])).freelist ∧ p ∉ s'.freelist := by
  have hsound := sound_parent (List.replicate 67 false ++ [true])
  obtain ⟨s', hrun⟩ := fork_parent (List.replicate 67 false ++ [true])
    (by rw [credits_parent]; decide)
  exact ⟨hsound, s', hrun, fork_leaks hsound (live_parent _) hrun leaks_parent⟩

end Cs350.Vm
