import Cs350.Vm.Fork

set_option autoImplicit false

/-! # Growing and shrinking (`allocuvm`, `growproc`)

`allocuvm` maps fresh pages one by one. When it runs out of memory it unmaps those that it has
mapped, so that the user's part is as before; page tables that it has added stay. -/

namespace Cs350.Vm

open Sched (Slot)
open Prog

/-! ## `allocuvm` -/

/-- The pages from `k` up to `m` have been mapped, and nothing else. -/
structure Grown (S S' : Space) (k m : Nat) : Prop where
  present : ∀ u, k ≤ u → u < m → Present (S'.pte u)
  same : ∀ u, u < k ∨ m ≤ u → S'.pte u = S.pte u
  tab : ∀ i t, S.tab i = some t → S'.tab i = some t
  kernel : ∀ i, 512 ≤ i → S'.tab i = S.tab i

section Alloc

variable {L : Layout} {E : Panic → Prop} {s : State} {S : Space} {R : Multiset Nat} {d : Nat}

theorem pteWU : (pteW ||| pteU) ||| pteP = 7 := rfl

/-- After running out of memory: the new pages are unmapped. -/
theorem unwind_spec {oldsz newsz : Nat} (hnew : newsz ≤ kernBase) (h : Has L d S R s) :
    Sat E (deallocuvm L d newsz oldsz) s fun _ s' => Frame R s s' ∧
      Has L d (S.cut (pageUp oldsz) newsz) R s' ∧ Kept (S.cut (pageUp oldsz) newsz) s s' :=
  wp_mono (deallocuvm_kept hnew h) fun _ _ h' => ⟨h'.2.2.1, h'.2.1, h'.2.2.2⟩

theorem Space.cut_same {oldsz newsz u : Nat} (hu : u < pageUp oldsz ∨ pageUp newsz ≤ u) :
    (S.cut (pageUp oldsz) newsz).pte u = S.pte u := by
  rcases hu with hu | hu
  · exact Space.cut_pte_of_lt hu
  · refine Space.cut_pte_of_le ?_
    unfold pageUp pgSize at *
    omega

/-- Nothing is left of the pages up to `newsz`. -/
theorem Space.cut_clear {oldsz newsz u : Nat} (hold : pageUp oldsz ≤ u) (hu : u < pageUp newsz) :
    ¬ Present ((S.cut (pageUp oldsz) newsz).pte u) := by
  refine Space.cut_not_present hold ?_
  unfold pageUp pgSize at *
  omega

/-- What is left when page `v` is mapped and the pages after it are cut off. -/
theorem Space.cut_succ_pte {T : Space} {u v top : Nat} (hsame : ∀ u, u ≠ v → T.pte u = S.pte u)
    (htop : v * pgSize < top) (hP : Present ((S.cut v top).pte u)) :
    (S.cut v top).pte u = (T.cut (v + 1) top).pte u := by
  have huv : u ≠ v := by
    rintro rfl
    exact Space.cut_not_present le_rfl htop hP
  rw [Space.cut_pte, Space.cut_pte, hsame u huv]
  have hiff : v ≤ u ↔ v + 1 ≤ u := by omega
  simp only [hiff]

/-- The pages from `k` up to `m` are zero. -/
def Zeroed (S : Space) (s : State) (k m : Nat) : Prop :=
  ∀ u, k ≤ u → u < m → ∃ p, S.pte u = p * pgSize + 7 ∧ s.mem p = filled 0

/-- What `allocuvm` leaves of an address space `S`, whether it fails or not. -/
structure Enlarged (L : Layout) (d : Nat) (R : Multiset Nat) (oldsz newsz : Nat) (S : Space)
    (s : State) (S' : Space) (s' : State) : Prop where
  frame : Frame R s s'
  has : Has L d S' R s'
  same : ∀ u, u < pageUp oldsz ∨ pageUp newsz ≤ u → S'.pte u = S.pte u

/-- Page `k` has been mapped, and then the pages after it. -/
theorem Grown.next {S' S₃ : Space} {c c' k m t w : Nat} (hk : k < userPages) (hkm : k < m)
    (hwalked : Walked S c (k / 1024) t S' c') (hw : Present w)
    (h : Grown (S'.setPte k w) S₃ (k + 1) m) : Grown S S₃ k m := by
  have huser : userPages = 2 ^ 19 := rfl
  refine ⟨fun u hu hlt => ?_, fun u hu => ?_, fun i t' ht' => ?_, fun i hi => ?_⟩
  · by_cases huk : u = k
    · rw [huk, h.same k (Or.inl (Nat.lt_succ_self k)), S'.setPte_self]
      exact hw
    · exact h.present u (by omega) hlt
  · rw [h.same u (by omega), S'.setPte_of_ne _ (by omega), hwalked.pte]
  · exact h.tab i t' (hwalked.tab_mono ht')
  · rw [h.kernel i hi, Space.setPte_tab, hwalked.tab_of_ne (by omega)]

theorem Zeroed.next {k m p : Nat} (h : Zeroed S s (k + 1) m) (hpte : S.pte k = p * pgSize + 7)
    (hmem : s.mem p = filled 0) : Zeroed S s k m := by
  intro u hu hlt
  rcases hu.eq_or_lt with rfl | hku
  · exact ⟨p, hpte, hmem⟩
  · exact h u hku hlt

/-- The pages that are left when the new ones are cut off again are kept in both parts. -/
theorem Kept.next_cut {T : Space} {s₂ s₃ : State} {k oldsz newsz : Nat}
    (hsame : ∀ u, u ≠ k → T.pte u = S.pte u) (hold : pageUp oldsz ≤ k) (hk : k < pageUp newsz)
    (h : Kept S s s₂) (h' : Kept (T.cut (pageUp oldsz) newsz) s₂ s₃) :
    Kept (S.cut (pageUp oldsz) newsz) s s₃ := by
  refine (h.mono fun u _ hP => Space.cut_pte_of_present hP).trans (h'.mono fun u hu hP => ?_)
  have huk : u ≠ k := by
    rintro rfl
    exact Space.cut_clear hold hk hP
  rw [Space.cut_pte, Space.cut_pte, hsame u huk]

theorem allocLoop_spec {oldsz newsz : Nat} (hnew : newsz < kernBase) (n k : Nat)
    (h : Has L d S R s) (hold : pageUp oldsz ≤ k) (hkn : k + n = pageUp newsz)
    (hclear : (∀ u, k ≤ u → u < pageUp newsz → ¬ Present (S.pte u)) ∨ E .remap) :
    Sat E (allocLoop L d oldsz newsz n (k * pgSize)) s fun r s' =>
      ∃ S', Enlarged L d R oldsz newsz S s S' s' ∧
        (r = newsz ∧ Grown S S' k (pageUp newsz) ∧ s.credits ≤ s'.credits + 2 * n ∧
            Kept (S.cut k newsz) s s' ∧ Zeroed S' s' k (pageUp newsz) ∨
          r = 0 ∧ s.credits < 2 * n ∧ Kept (S.cut (pageUp oldsz) newsz) s s' ∧
            ∀ u, pageUp oldsz ≤ u → u < pageUp newsz → ¬ Present (S'.pte u)) := by
  have hup := pageUp_le hnew.le
  induction n generalizing s S k with
  | zero =>
      refine wp_pure ⟨S, ⟨Frame.refl R s, h, fun _ _ => rfl⟩, Or.inl ⟨rfl,
        ⟨fun u hu hlt => ?_, fun _ _ => rfl, fun _ _ => id, fun _ _ => rfl⟩, le_rfl,
        Kept.refl _ s, fun u hu hlt => ?_⟩⟩
      · omega
      · omega
  | succ n ih =>
      have hk : k < userPages := by omega
      have hsub : ∀ v, ∀ u < userPages, Present ((S.cut v newsz).pte u) →
          (S.cut v newsz).pte u = S.pte u := fun _ u _ hP => Space.cut_pte_of_present hP
      refine wp_bind (kalloc_spec h.owned) ?_
      rintro (_ | p) s₁ ⟨hframe, hmem, hcases⟩
      · obtain ⟨hzero, hfree, -⟩ := hcases
        have hframe₁ : Frame R s s₁ := hframe.mono fun p hp => Multiset.mem_add.2 (Or.inr hp)
        refine wp_bind (unwind_spec hnew.le (h.congr hmem hfree)) ?_
        rintro - s₂ ⟨hframe₂, h₂, hkept⟩
        rw [Kept, hmem] at hkept
        exact wp_pure ⟨_, ⟨hframe₁.trans hframe₂, h₂, fun u hu => Space.cut_same hu⟩,
          Or.inr ⟨rfl, by omega, hkept, fun u hu hlt => Space.cut_clear hu hlt⟩⟩
      · obtain ⟨hcredits, hown⟩ := hcases
        have hkept₁ := hown.kept_setPage hmem (filled 0)
        obtain ⟨h₁, hframe₁⟩ := h.hand hframe hown (filled 0)
        have hfree : ¬ Present (S.pte k) ∨ E .remap := hclear.imp_left fun hno => hno k le_rfl (by omega)
        refine wp_modify_bind (wp_bind (wp_and (mappages_page_spec h₁ hk (by decide) hfree)
          (mappages_page_kept h₁ hk hfree _)) ?_)
        rintro ok s₂ ⟨⟨hframe₂, hok⟩, hkept₂⟩
        have hframe₂' : Frame R s s₂ :=
          hframe₁.trans (hframe₂.mono fun p hp => Multiset.mem_add.2 (Or.inr hp))
        have hkept₂' : Kept S s s₂ := hkept₁.trans hkept₂
        have hzero₂ : s₂.mem p = filled 0 :=
          (hframe₂.mem p (by simp)).trans (Function.update_self ..)
        have hcredits₁ : (s₁.setPage p (filled 0)).credits = s₁.credits := rfl
        cases ok with
        | true =>
            obtain ⟨t, S', hwalked, h₂⟩ := hok
            rw [pteWU] at h₂
            have hsame : ∀ u, u ≠ k → (S'.setPte k (p * pgSize + 7)).pte u = S.pte u := by
              intro u hu
              rw [S'.setPte_of_ne _ hu, hwalked.pte]
            have hpk : (S'.setPte k (p * pgSize + 7)).pte k = p * pgSize + 7 := S'.setPte_self ..
            have hpage : pageAt (p * pgSize + 7) = some p := pageAt_add (by decide) rfl
            have hspent : s₁.credits ≤ s₂.credits + 1 := by
              rcases hwalked with ⟨-, -, heq⟩ | ⟨-, -, heq⟩ <;> omega
            refine wp_ite (fun _ => ?_) fun hne => absurd rfl hne
            rw [show k * pgSize + pgSize = (k + 1) * pgSize from (Nat.succ_mul k _).symm]
            refine wp_mono (ih (k + 1) h₂ (by omega) (by omega) ?_) ?_
            · refine hclear.imp_left fun hno u hu hlt => ?_
              rw [hsame u (by omega)]
              exact hno u (by omega) hlt
            · rintro r s₃ ⟨S₃, ⟨hframe₃, h₃, hsame₃⟩, hcases⟩
              refine ⟨S₃, ⟨hframe₂'.trans hframe₃, h₃, fun u hu => ?_⟩, ?_⟩
              · rw [hsame₃ u hu, hsame u (by omega)]
              · rcases hcases with ⟨hr, hgrown, hle, hkept₃, hzero₃⟩ | ⟨hr, hlt, hkept₃, hclear₃⟩
                · have hk₃ : S₃.pte k = p * pgSize + 7 := by rw [hgrown.same k (by omega), hpk]
                  have hpk' : ((S'.setPte k (p * pgSize + 7)).cut (k + 1) newsz).pte k
                      = p * pgSize + 7 := by
                    rw [Space.cut_pte_of_lt (Nat.lt_succ_self k), hpk]
                  have hmem₃ : s₃.mem p = filled 0 :=
                    (hkept₃ k hk p (by rw [hpk', hpage])).trans hzero₂
                  refine Or.inl ⟨hr, hgrown.next hk (by omega) hwalked (pageAt_eq_some.1 hpage).1,
                    by omega, ?_, hzero₃.next hk₃ hmem₃⟩
                  refine (hkept₂'.mono (hsub k)).trans (hkept₃.mono fun u hu hP => ?_)
                  exact Space.cut_succ_pte hsame (by unfold pageUp pgSize at *; omega) hP
                · exact Or.inr ⟨hr, by omega, hkept₂'.next_cut hsame hold (by omega) hkept₃, hclear₃⟩
        | false =>
            obtain ⟨hzero, -, h₂⟩ := hok
            refine wp_ite (fun heq => (nomatch heq)) fun _ => ?_
            refine wp_bind (unwind_spec hnew.le h₂) ?_
            rintro - s₃ ⟨hframe₃, h₃, hkept₃⟩
            have hown₃ : Owned L s₃ ({p} + ((S.cut (pageUp oldsz) newsz).foot d + R)) :=
              h₃.owned.congr rfl (by abel)
            refine wp_bind (kfree_spec hown₃) ?_
            rintro - s₄ ⟨hown₄, hframe₄⟩
            refine wp_pure ⟨_, ⟨?_, ⟨?_, hown₄⟩, fun u hu => Space.cut_same hu⟩,
              Or.inr ⟨rfl, by omega, ?_, fun u hu hlt => Space.cut_clear hu hlt⟩⟩
            · refine hframe₂'.trans ((hframe₃.mono fun p hp => ?_).trans (hframe₄.mono fun p hp => ?_))
              · exact Multiset.mem_add.2 (Or.inr hp)
              · exact Multiset.mem_add.2 (Or.inr hp)
            · rw [← h₃.space]
              refine hframe₄.space fun q hq => ?_
              rw [h₃.space] at hq
              exact Multiset.mem_add.2 (Or.inl hq)
            · refine (hkept₂'.mono (hsub _)).trans (hkept₃.trans fun u hu q hq => ?_)
              exact hframe₄.mem q (Multiset.mem_add.2 (Or.inl (Space.mem_foot_of_pte hu hq)))

/-- On success the new pages are mapped and zero; on failure nothing is mapped from `oldsz` on. What
    was mapped before keeps its contents. -/
theorem allocuvm_kept {oldsz newsz : Nat} (hold : oldsz ≤ kernBase) (h : Has L d S R s)
    (hclear : (∀ u, pageUp oldsz ≤ u → u < userPages → ¬ Present (S.pte u)) ∨ E .remap) :
    Sat E (allocuvm L d oldsz newsz) s fun r s' =>
      ∃ S', Enlarged L d R oldsz newsz S s S' s' ∧ Kept (S.cut (pageUp oldsz) newsz) s s' ∧
        (r = max oldsz newsz ∧ newsz < kernBase ∧
            Grown S S' (pageUp oldsz) (max (pageUp oldsz) (pageUp newsz)) ∧
            s.credits ≤ s'.credits + 2 * pageUp newsz ∧
            Zeroed S' s' (pageUp oldsz) (pageUp newsz) ∨
          r = 0 ∧ (kernBase ≤ newsz ∧ s' = s ∨ newsz < kernBase ∧ s.credits < 2 * pageUp newsz ∧
            ∀ u, pageUp oldsz ≤ u → u < pageUp newsz → ¬ Present (S'.pte u))) := by
  have hsub : Kept (S.cut (pageUp oldsz) newsz) s s := Kept.refl _ s
  refine wp_ite (fun hbig => ?_) fun hsmall => wp_ite (fun hlt => ?_) fun hge => ?_
  · exact wp_pure ⟨S, ⟨Frame.refl R s, h, fun _ _ => rfl⟩, hsub, Or.inr ⟨rfl, Or.inl ⟨hbig, rfl⟩⟩⟩
  · have hmono : pageUp newsz ≤ pageUp oldsz := by
      unfold pageUp pgSize
      omega
    refine wp_pure ⟨S, ⟨Frame.refl R s, h, fun _ _ => rfl⟩, hsub, Or.inl ⟨?_, by omega,
      ⟨?_, ?_, ?_, ?_⟩, by omega, ?_⟩⟩
    · omega
    · intro u hu hlt
      omega
    · exact fun _ _ => rfl
    · exact fun _ _ => id
    · exact fun _ _ => rfl
    · intro u hu hlt
      omega
  · have hmono : pageUp oldsz ≤ pageUp newsz := by
      unfold pageUp pgSize
      omega
    have hcount : (newsz - pageUp oldsz * pgSize + (pgSize - 1)) / pgSize
        = pageUp newsz - pageUp oldsz := by
      unfold pageUp pgSize
      omega
    show Sat E (allocLoop L d oldsz newsz ((newsz - pgRoundUp oldsz + (pgSize - 1)) / pgSize)
      (pgRoundUp oldsz)) s _
    rw [pgRoundUp_eq hold, hcount]
    have hup := pageUp_le (Nat.not_le.1 hsmall).le
    refine wp_mono (allocLoop_spec (Nat.not_le.1 hsmall) _ _ h le_rfl (by omega)
      (hclear.imp_left fun hno u hu hlt => hno u hu (by omega))) ?_
    rintro r s' ⟨S', henl, hcases⟩
    rcases hcases with ⟨hr, hgrown, hle, hkept, hzero⟩ | ⟨hr, hlt, hkept, hclear⟩
    · refine ⟨S', henl, hkept, Or.inl ⟨by omega, by omega, ?_, by omega, hzero⟩⟩
      rw [max_eq_right hmono]
      exact hgrown
    · exact ⟨S', henl, hkept, Or.inr ⟨hr, Or.inr ⟨by omega, by omega, hclear⟩⟩⟩

theorem allocuvm_spec {oldsz newsz : Nat} (hold : oldsz ≤ kernBase) (h : Has L d S R s)
    (hclear : (∀ u, pageUp oldsz ≤ u → u < userPages → ¬ Present (S.pte u)) ∨ E .remap) :
    Sat E (allocuvm L d oldsz newsz) s fun r s' => Frame R s s' ∧
      ∃ S', Has L d S' R s' ∧ (∀ u, u < pageUp oldsz ∨ userPages ≤ u → S'.pte u = S.pte u) ∧
        (r = max oldsz newsz ∧ newsz < kernBase ∧
            Grown S S' (pageUp oldsz) (max (pageUp oldsz) (pageUp newsz)) ∧
            s.credits ≤ s'.credits + 2 * pageUp newsz ∨
          r = 0 ∧ (kernBase ≤ newsz ∨ s.credits < 2 * pageUp newsz)) := by
  refine wp_mono (allocuvm_kept hold h hclear) ?_
  rintro r s' ⟨S', henl, -, hcases⟩
  refine ⟨henl.frame, S', henl.has, fun u hu => ?_, ?_⟩
  · rcases Nat.lt_or_ge newsz kernBase with hlt | hge
    · have hup := pageUp_le hlt.le
      exact henl.same u (by omega)
    · -- too big: nothing has been done
      have hs : s' = s := by
        rcases hcases with ⟨-, hlt, -⟩ | ⟨-, ⟨-, hs⟩ | ⟨hlt, -⟩⟩
        · omega
        · exact hs
        · omega
      rw [← henl.has.space, hs, h.space]
  · rcases hcases with ⟨hr, hlt, hgrown, hle, -⟩ | ⟨hr, hwhy⟩
    · exact Or.inl ⟨hr, hlt, hgrown, hle⟩
    · exact Or.inr ⟨hr, hwhy.imp And.left fun h => h.2.1⟩

end Alloc

/-! ## `growproc` -/

theorem Space.Closed.of_same {S S' : Space} (h : S.Closed)
    (hsame : ∀ u, userPages ≤ u → S'.pte u = S.pte u) : S'.Closed := fun u hu => by
  rw [hsame u hu]
  exact h u hu

section Grow

variable {L : Layout} {E : Panic → Prop} {s : State} {p : Slot}

/-- The address space of a live process, and the other pages. -/
theorem Sound.has (h : Sound L s) (hp : (s.proc p).Live) :
    ∃ lost, Has L (s.proc p).pgdir (space s.mem (s.proc p).pgdir)
      ({(s.proc p).kstack} + (others s p + lost)) s := by
  obtain ⟨lost, hown⟩ := h.owned
  refine ⟨lost, rfl, hown.congr rfl ?_⟩
  rw [inUse_eq s p, Proc.pages_live hp, footOf]
  abel

/-- The process has another address space now, or its own has changed. -/
theorem Sound.put {s' : State} {S : Space} {lost : Multiset Nat} {f : Proc → Proc} (h : Sound L s)
    (hp : (s.proc p).Live) (hframe : Frame ({(s.proc p).kstack} + (others s p + lost)) s s')
    (h' : Has L (f (s.proc p)).pgdir S ({(s.proc p).kstack} + (others s p + lost)) s')
    (hclosed : S.Closed) (hstate : (f (s.proc p)).state = (s.proc p).state)
    (hkstack : (f (s.proc p)).kstack = (s.proc p).kstack)
    (hsz : (f (s.proc p)).sz ≤ kernBase) : Sound L (s'.setProc p f) := by
  have hproc : (s'.setProc p f).proc p = f (s.proc p) := by
    rw [State.setProc_self, hframe.proc]
  have hlive : (f (s.proc p)).Live := ⟨by rw [hstate]; exact hp.1, by rw [hstate]; exact hp.2⟩
  refine h.change (p := p) (fun q hq => ?_) ⟨fun x hx => ?_, rfl, hframe.initproc, hframe.kpgdir,
    hframe.pipe⟩ ⟨lost, h'.owned.congr rfl ?_⟩ (fun _ => ?_) (fun _ => ?_)
  · rw [State.setProc_of_ne _ _ hq, hframe.proc]
  · exact hframe.mem x (Multiset.mem_add.2 (Or.inr (Multiset.mem_add.2 (Or.inl hx))))
  · rw [hproc, Proc.pages_live hlive, hkstack, footOf]
    show _ = {(s.proc p).kstack} + (space s'.mem (f (s.proc p)).pgdir).foot _ + _
    rw [h'.space]
    abel
  · rw [hproc]
    exact hsz
  · rw [hproc]
    show (space s'.mem (f (s.proc p)).pgdir).Closed
    rw [h'.space]
    exact hclosed

theorem setProc_id (s : State) (p : Slot) : s.setProc p id = s := by
  unfold State.setProc
  rw [id, Function.update_eq_self]

theorem growproc_spec (hE : E .remap) (h : Sound L s) (hcur : (s.proc p).Live) (n : Int) :
    Sat E (growproc L p n) s fun _ s' => Sound L s' := by
  obtain ⟨lost, hhas⟩ := h.has hcur
  have hsz := h.size p hcur
  have hcl := h.closed p hcur
  refine wp_get_bind (wp_ite (fun _ => ?_) fun _ => wp_ite (fun _ => ?_) fun _ => wp_pure h)
  · refine wp_bind (allocuvm_spec hsz hhas (Or.inr hE)) ?_
    rintro r s₁ ⟨hframe, S, hS, hsame, hcases⟩
    have hclosed : S.Closed := hcl.of_same fun u hu => hsame u (Or.inr hu)
    refine wp_ite (fun _ => wp_pure ?_) fun hr => wp_modify_bind (wp_pure ?_)
    · rw [← setProc_id s₁ p]
      exact h.put hcur hframe hS hclosed rfl rfl hsz
    · refine h.put hcur hframe hS hclosed rfl rfl ?_
      show r ≤ kernBase
      rcases hcases with ⟨hr', hlt, -⟩ | ⟨hr', -⟩
      · omega
      · exact absurd hr' hr
  · refine wp_bind (deallocuvm_spec hsz hhas) ?_
    rintro r s₁ ⟨hr, hS, hframe⟩
    have hclosed := hcl.of_same fun u hu =>
      Space.cut_pte_of_le (v := pageUp (((((s.proc p).sz : Int) + n) % 2 ^ 32).toNat))
        (hsz.trans (kernBase_le hu))
    refine wp_ite (fun _ => wp_pure ?_) fun _ => wp_modify_bind (wp_pure ?_)
    · rw [← setProc_id s₁ p]
      exact h.put hcur hframe hS hclosed rfl rfl hsz
    · refine h.put hcur hframe hS hclosed rfl rfl ?_
      show r ≤ kernBase
      rw [hr]
      split_ifs <;> omega

end Grow

end Cs350.Vm
