import Cs350.Vm.Free
import Mathlib.Data.Finset.Image
import Mathlib.Data.Finset.Card

set_option autoImplicit false

/-! # The kernel's part of an address space (`setupkvm`)

`setupkvm` takes one page for the directory and maps the four ranges of `kmap`, for which it needs
64 page tables. It succeeds exactly when these 65 calls of `kalloc` succeed, and otherwise gives
back what it has taken. -/

namespace Cs350.Vm

open Prog

/-! ## Counting page tables -/

/-- The indices at which there is a page table. -/
def Space.tabs (S : Space) : Finset Nat := {i ∈ Finset.range 1024 | (S.tab i).isSome}

theorem Space.mem_tabs {S : Space} {i : Nat} : i ∈ S.tabs ↔ i < 1024 ∧ (S.tab i).isSome := by
  rw [Space.tabs, Finset.mem_filter, Finset.mem_range]

theorem Space.tabs_setPte (S : Space) (v w : Nat) : (S.setPte v w).tabs = S.tabs := rfl

theorem Walked.tabs {S S' : Space} {c c' i t : Nat} (h : Walked S c i t S' c') (hi : i < 1024) :
    S'.tabs = insert i S.tabs ∧ c' + S'.tabs.card = c + S.tabs.card := by
  rcases h with ⟨ht, rfl, rfl⟩ | ⟨hnone, rfl, rfl⟩
  · have hmem : i ∈ S'.tabs := Space.mem_tabs.2 ⟨hi, by rw [ht]; rfl⟩
    exact ⟨(Finset.insert_eq_of_mem hmem).symm, rfl⟩
  · have hnot : i ∉ S.tabs := fun hmem => by
      have := (Space.mem_tabs.1 hmem).2
      rw [hnone] at this
      exact nomatch this
    have htabs : (S.addTab i t).tabs = insert i S.tabs := by
      ext j
      rw [Finset.mem_insert, Space.mem_tabs, Space.mem_tabs]
      by_cases hji : j = i
      · subst hji
        simp [hi]
      · simp [S.addTab_of_ne t hji, hji]
    refine ⟨htabs, ?_⟩
    rw [htabs, Finset.card_insert_of_notMem hnot]
    omega

/-- The page tables for `n` pages from `v` on. -/
def dirs (v n : Nat) : Finset Nat := (Finset.Ico v (v + n)).image (· / 1024)

theorem mem_dirs {v n i : Nat} : i ∈ dirs v n ↔ ∃ u, (v ≤ u ∧ u < v + n) ∧ u / 1024 = i := by
  rw [dirs, Finset.mem_image]
  simp only [Finset.mem_Ico]

theorem dirs_succ (v n : Nat) : dirs v (n + 1) = insert (v / 1024) (dirs (v + 1) n) := by
  ext i
  rw [Finset.mem_insert, mem_dirs, mem_dirs]
  constructor
  · rintro ⟨u, hu, rfl⟩
    by_cases huv : u = v
    · exact Or.inl (by rw [huv])
    · exact Or.inr ⟨u, by omega, rfl⟩
  · rintro (rfl | ⟨u, hu, rfl⟩)
    · exact ⟨v, by omega, rfl⟩
    · exact ⟨u, by omega, rfl⟩

theorem dirs_zero (v : Nat) : dirs v 0 = ∅ := by
  rw [dirs, Nat.add_zero, Finset.Ico_self, Finset.image_empty]

/-! ## Mapping the kernel -/

theorem not_user_kernel {q perm : Nat} (hperm : perm = 0 ∨ perm = pteW) :
    ¬ User (q * pgSize ||| (perm ||| pteP)) := by
  have hlt : perm ||| pteP < pgSize := by
    rcases hperm with rfl | rfl <;> decide
  have hbit : (perm ||| pteP) / 4 % 2 = 0 := by
    rcases hperm with rfl | rfl <;> decide
  rw [or_eq_add q hlt]
  unfold User
  rw [show pgSize = 4096 from rfl] at *
  omega

/-- What has become of an address space when pages in `U`, of the kernel's part, are mapped. -/
structure Mapped (S : Space) (U : Nat → Prop) (S' : Space) : Prop where
  same : ∀ u, ¬ U u → S'.pte u = S.pte u
  user : ∀ u, ¬ User (S.pte u) → ¬ User (S'.pte u)

theorem Mapped.trans {S S₁ S₂ : Space} {U U₁ U₂ : Nat → Prop} (h₁ : Mapped S U₁ S₁)
    (h₂ : Mapped S₁ U₂ S₂) (hU : ∀ u, U₁ u ∨ U₂ u → U u) : Mapped S U S₂ where
  same u hu := (h₂.same u fun h => hu (hU u (Or.inr h))).trans
    (h₁.same u fun h => hu (hU u (Or.inl h)))
  user u hu := h₂.user u (h₁.user u hu)

/-- The calls of `kalloc` that have been made for page tables: all those in `T` are there, or the
    calls did not suffice. -/
def Charged (ok : Bool) (S : Space) (T : Finset Nat) (S' : Space) (c c' : Nat) : Prop :=
  if ok then S'.tabs = S.tabs ∪ T ∧ c' + S'.tabs.card = c + S.tabs.card
  else c + S.tabs.card < (S.tabs ∪ T).card

section Setup

variable {L : Layout} {E : Panic → Prop} {s : State} {S : Space} {R : Multiset Nat} {d : Nat}

theorem mapLoop_kernel_spec {perm : Nat} (hperm : perm = 0 ∨ perm = pteW) (n v q : Nat)
    (h : Has L d S R s) (hv : userPages ≤ v) (hvn : v + n ≤ 2 ^ 20) (hqn : q + n ≤ 2 ^ 20)
    (hclear : ∀ u, v ≤ u → u < v + n → ¬ Present (S.pte u)) :
    Sat E (mapLoop d perm n (uint (v * pgSize)) (uint (q * pgSize))) s fun ok s' =>
      Frame R s s' ∧ ∃ S', Has L d S' R s' ∧ Mapped S (fun u => v ≤ u ∧ u < v + n) S' ∧
        Charged ok S (dirs v n) S' s.credits s'.credits := by
  induction n generalizing s S v q with
  | zero =>
      refine wp_pure ⟨Frame.refl R s, S, h, ⟨fun _ _ => rfl, fun _ => id⟩, ?_, rfl⟩
      rw [dirs_zero, Finset.union_empty]
  | succ n ih =>
      have hidv : uint (v * pgSize) = v * pgSize := by
        unfold uint pgSize
        omega
      have hidq : uint (q * pgSize) = q * pgSize := by
        unfold uint pgSize
        omega
      have hflags : perm ||| pteP < pgSize := by
        rcases hperm with rfl | rfl <;> decide
      have hword : q * pgSize ||| (perm ||| pteP) < 2 ^ 32 := by
        rw [or_eq_add q hflags]
        unfold pgSize at *
        omega
      have hi : v / 1024 < 1024 := by omega
      rw [hidv, hidq, dirs_succ]
      refine mapLoop_succ h (by omega) hword (Or.inl (hclear v le_rfl (by omega))) ?_ ?_
      · intro s' hzero hnone hhas hframe
        refine ⟨hframe, S, hhas, ⟨fun _ _ => rfl, fun _ => id⟩, ?_⟩
        -- this page table is missing
        have hnot : v / 1024 ∉ S.tabs := fun hmem => by
          have := (Space.mem_tabs.1 hmem).2
          rw [hnone] at this
          exact nomatch this
        have hlt : S.tabs.card < (insert (v / 1024) S.tabs).card := by
          rw [Finset.card_insert_of_notMem hnot]
          omega
        have hle : (insert (v / 1024) S.tabs).card
            ≤ (S.tabs ∪ insert (v / 1024) (dirs (v + 1) n)).card := by
          refine Finset.card_le_card fun j hj => ?_
          rw [Finset.mem_union, Finset.mem_insert]
          rcases Finset.mem_insert.1 hj with hj | hj
          · exact Or.inr (Or.inl hj)
          · exact Or.inl hj
        show s.credits + S.tabs.card < _
        omega
      · intro t S' s' hP hwalked hspace hown hframe
        have hhas : Has L d (S'.setPte v (q * pgSize ||| (perm ||| pteP))) R s' :=
          ⟨hspace, hown.congr rfl (by rw [S'.foot_setPte_kernel hv])⟩
        obtain ⟨htabs, hcard⟩ := hwalked.tabs hi
        have hsame : ∀ u, u ≠ v →
            (S'.setPte v (q * pgSize ||| (perm ||| pteP))).pte u = S.pte u := fun u hu => by
          rw [S'.setPte_of_ne _ hu, hwalked.pte]
        have hmapped : Mapped S (fun u => u = v) (S'.setPte v (q * pgSize ||| (perm ||| pteP))) := by
          refine ⟨hsame, fun u hu => ?_⟩
          by_cases huv : u = v
          · rw [huv, S'.setPte_self]
            exact not_user_kernel hperm
          · rw [hsame u huv]
            exact hu
        have hstep : ∀ x, x * pgSize + pgSize = (x + 1) * pgSize := fun x => (Nat.succ_mul x _).symm
        rw [hstep, hstep]
        refine wp_mono (ih (v + 1) (q + 1) hhas (by omega) (by omega) (by omega) ?_) ?_
        · intro u hu hlt
          rw [hsame u (by omega)]
          exact hclear u (by omega) (by omega)
        · rintro ok s₂ ⟨hframe₂, S₂, hhas₂, hmapped₂, hcharged⟩
          have hset : S.tabs ∪ insert (v / 1024) (dirs (v + 1) n)
              = insert (v / 1024) S.tabs ∪ dirs (v + 1) n := by
            rw [Finset.union_insert, Finset.insert_union]
          refine ⟨hframe.trans hframe₂, S₂, hhas₂, hmapped.trans hmapped₂ fun u hu => ?_, ?_⟩
          · rcases hu with rfl | hu <;> omega
          · unfold Charged at *
            rw [S'.tabs_setPte, htabs] at hcharged
            rw [htabs] at hcard
            rw [hset]
            cases ok with
            | true => exact ⟨hcharged.1, by have := hcharged.2; omega⟩
            | false =>
                have hlt : s'.credits + (insert (v / 1024) S.tabs).card < _ := hcharged
                show s.credits + S.tabs.card < _
                omega

end Setup

/-! ## The ranges of `kmap` -/

/-- A range of `kmap` in pages: the first virtual page, the first physical page, how many. -/
structure Range where
  virt : Nat
  phys : Nat
  count : Nat
  perm : Nat

namespace Range

def toKmap (k : Range) : Kmap :=
  ⟨k.virt * pgSize, k.phys * pgSize, uint ((k.phys + k.count) * pgSize), k.perm⟩

def Mem (k : Range) (u : Nat) : Prop := k.virt ≤ u ∧ u < k.virt + k.count

/-- A range of the kernel's part. -/
structure Ok (k : Range) : Prop where
  count : 0 < k.count
  kernel : userPages ≤ k.virt
  virt : k.virt + k.count ≤ 2 ^ 20
  phys : k.phys + k.count ≤ 2 ^ 20
  perm : k.perm = 0 ∨ k.perm = pteW

end Range

/-- The page tables for some ranges. -/
def dirsOf (ks : List Range) : Finset Nat :=
  ks.foldr (fun k T => dirs k.virt k.count ∪ T) ∅

section Setup

variable {L : Layout} {E : Panic → Prop} {s : State} {S : Space} {R : Multiset Nat} {d : Nat}

theorem mappages_kernel_spec {k : Range} (hk : k.Ok) (h : Has L d S R s)
    (hclear : ∀ u, k.Mem u → ¬ Present (S.pte u)) :
    Sat E (mappages d k.toKmap.virt (uint (k.toKmap.physEnd + (2 ^ 32 - k.toKmap.physStart)))
        k.toKmap.physStart k.toKmap.perm) s fun ok s' =>
      Frame R s s' ∧ ∃ S', Has L d S' R s' ∧ Mapped S k.Mem S' ∧
        Charged ok S (dirs k.virt k.count) S' s.credits s'.credits := by
  have hcount := hk.count
  have hkernel : 2 ^ 19 ≤ k.virt := hk.kernel
  have hvirt := hk.virt
  have hphys := hk.phys
  have hsize : uint (k.toKmap.physEnd + (2 ^ 32 - k.toKmap.physStart)) = k.count * pgSize := by
    unfold Range.toKmap uint pgSize
    dsimp only
    omega
  have hidv : uint (k.virt * pgSize) = k.virt * pgSize := by
    unfold uint pgSize
    omega
  have hidp : uint (k.phys * pgSize) = k.phys * pgSize := by
    unfold uint pgSize
    omega
  have hloop := mapLoop_kernel_spec (E := E) hk.perm k.count k.virt k.phys h hk.kernel hvirt hphys
    fun u hu hlt => hclear u ⟨hu, hlt⟩
  rw [hidv, hidp] at hloop
  rw [hsize]
  show Sat E (mappages d (k.virt * pgSize) _ (k.phys * pgSize) k.perm) s _
  rw [mappages_eq hcount hvirt]
  exact hloop

/-- The loop of `setupkvm`. -/
theorem mapKernel_spec (ks : List Range) (hks : ∀ k ∈ ks, k.Ok)
    (hdisj : ks.Pairwise fun k k' => ∀ u, k.Mem u → ¬ k'.Mem u) (h : Has L d S R s)
    (hclear : ∀ k ∈ ks, ∀ u, k.Mem u → ¬ Present (S.pte u)) :
    Sat E (mapKernel L d (ks.map Range.toKmap)) s fun r s' => Frame R s s' ∧
      match r with
      | none => Owned L s' R ∧ s.credits + S.tabs.card < (S.tabs ∪ dirsOf ks).card
      | some d' => d' = d ∧ ∃ S', Has L d S' R s' ∧ Mapped S (userPages ≤ ·) S' ∧
          Charged true S (dirsOf ks) S' s.credits s'.credits := by
  induction ks generalizing s S with
  | nil =>
      refine wp_pure ⟨Frame.refl R s, rfl, S, h, ⟨fun _ _ => rfl, fun _ => id⟩, ?_, rfl⟩
      rw [dirsOf, List.foldr_nil, Finset.union_empty]
  | cons k ks ih =>
      obtain ⟨hk_disj, hdisj⟩ := List.pairwise_cons.1 hdisj
      have hT : dirsOf (k :: ks) = dirs k.virt k.count ∪ dirsOf ks := rfl
      refine wp_bind (mappages_kernel_spec (hks k List.mem_cons_self) h
        (hclear k List.mem_cons_self)) ?_
      rintro ok s₁ ⟨hframe, S₁, h₁, hmapped, hcharged⟩
      rw [hT]
      cases ok with
      | true =>
          obtain ⟨htabs, hcard⟩ := hcharged
          refine wp_ite (fun _ => ?_) fun hne => absurd rfl hne
          refine wp_mono (ih (fun k' hk' => hks k' (List.mem_cons_of_mem k hk')) hdisj h₁ ?_) ?_
          · intro k' hk' u hu
            rw [hmapped.same u fun hm => hk_disj k' hk' u hm hu]
            exact hclear k' (List.mem_cons_of_mem k hk') u hu
          · rintro (_ | d') s₂ ⟨hframe₂, hcases⟩
            · refine ⟨hframe.trans hframe₂, hcases.1, ?_⟩
              have hlt := hcases.2
              rw [htabs, Finset.union_assoc] at hlt
              rw [htabs] at hcard
              omega
            · obtain ⟨rfl, S₂, h₂, hmapped₂, htabs₂, hcard₂⟩ := hcases
              refine ⟨hframe.trans hframe₂, rfl, S₂, h₂, hmapped.trans hmapped₂ fun u hu => ?_, ?_, ?_⟩
              · rcases hu with hu | hu
                · exact (hks k List.mem_cons_self).kernel.trans hu.1
                · exact hu
              · rw [htabs₂, htabs, Finset.union_assoc]
              · omega
      | false =>
          refine wp_ite (fun heq => (nomatch heq)) fun _ => ?_
          refine wp_bind (freevm_spec h₁) ?_
          rintro - s₂ ⟨hown, hframe₂⟩
          refine wp_pure ⟨hframe.trans hframe₂, hown, ?_⟩
          have hlt : s.credits + S.tabs.card < _ := hcharged
          have hle : (S.tabs ∪ dirs k.virt k.count).card
              ≤ (S.tabs ∪ (dirs k.virt k.count ∪ dirsOf ks)).card := by
            rw [← Finset.union_assoc]
            exact Finset.card_le_card Finset.subset_union_left
          omega

/-- `kmap`, in pages. -/
def ranges (L : Layout) : List Range :=
  [⟨2 ^ 19, 0, 256, pteW⟩, ⟨2 ^ 19 + 256, 256, L.data - 256, 0⟩,
    ⟨2 ^ 19 + L.data, L.data, 57344 - L.data, pteW⟩, ⟨1016 * 1024, 1016 * 1024, 8192, pteW⟩]

theorem kmap_eq (L : Layout) : kmap L = (ranges L).map Range.toKmap := by
  have htext : 256 < L.data := L.text
  have hdata : L.data < 57344 := L.data_lt
  simp only [kmap, ranges, Range.toKmap, List.map_cons, List.map_nil, kernBase, extMem, phyStop,
    devSpace, pgSize, uint, List.cons.injEq, Kmap.mk.injEq, and_true, true_and]
  omega

theorem ranges_ok (L : Layout) : ∀ k ∈ ranges L, k.Ok := by
  have htext : 256 < L.data := L.text
  have hdata : L.data < 57344 := L.data_lt
  have huser : userPages = 2 ^ 19 := rfl
  intro k hk
  simp only [ranges, List.mem_cons, List.not_mem_nil, or_false] at hk
  rcases hk with rfl | rfl | rfl | rfl <;>
    refine ⟨?_, ?_, ?_, ?_, ?_⟩ <;> dsimp only <;> omega

theorem ranges_disjoint (L : Layout) :
    (ranges L).Pairwise fun k k' => ∀ u, k.Mem u → ¬ k'.Mem u := by
  have htext : 256 < L.data := L.text
  have hdata : L.data < 57344 := L.data_lt
  simp only [ranges, List.pairwise_cons, List.mem_cons, List.not_mem_nil, or_false, forall_eq_or_imp,
    forall_eq, Range.Mem, List.Pairwise.nil, and_true, false_implies, implies_true]
  and_intros <;> intro u hu hu' <;> omega

/-- The page tables of the kernel's part. -/
def kernelDirs : Finset Nat := Finset.Ico 512 568 ∪ Finset.Ico 1016 1024

theorem dirsOf_ranges (L : Layout) : dirsOf (ranges L) = kernelDirs := by
  have htext : 256 < L.data := L.text
  have hdata : L.data < 57344 := L.data_lt
  ext i
  simp only [dirsOf, ranges, List.foldr_cons, List.foldr_nil, Finset.union_empty, Finset.mem_union,
    mem_dirs, kernelDirs, Finset.mem_Ico]
  constructor
  · rintro (⟨u, hu, rfl⟩ | ⟨u, hu, rfl⟩ | ⟨u, hu, rfl⟩ | ⟨u, hu, rfl⟩) <;> omega
  · rintro (hi | hi)
    · rcases Nat.lt_or_ge (i * 1024) (2 ^ 19 + 256) with h₁ | h₁
      · exact Or.inl ⟨i * 1024, by omega, by omega⟩
      · rcases Nat.lt_or_ge (i * 1024) (2 ^ 19 + L.data) with h₂ | h₂
        · exact Or.inr (Or.inl ⟨i * 1024, by omega, by omega⟩)
        · exact Or.inr (Or.inr (Or.inl ⟨i * 1024, by omega, by omega⟩))
    · exact Or.inr (Or.inr (Or.inr ⟨i * 1024, by omega, by omega⟩))

theorem kernelDirs_card : kernelDirs.card = 64 := by
  have hdisj : Disjoint (Finset.Ico 512 568) (Finset.Ico 1016 1024) :=
    Finset.disjoint_left.2 fun i hi hi' => by
      rw [Finset.mem_Ico] at hi hi'
      omega
  rw [kernelDirs, Finset.card_union_of_disjoint hdisj, Nat.card_Ico, Nat.card_Ico]

/-! ## `setupkvm` -/

/-- The address space that `setupkvm` makes. -/
structure Fresh (S : Space) : Prop where
  pte : ∀ v < userPages, S.pte v = 0
  user : ∀ v, ¬ User (S.pte v)
  tabs : S.tabs = kernelDirs

/-- The entries above `KERNBASE` are closed to the user. -/
def Space.Closed (S : Space) : Prop := ∀ v, userPages ≤ v → ¬ User (S.pte v)

theorem Fresh.closed {S : Space} (h : Fresh S) : S.Closed := fun v _ => h.user v

/-- An empty directory. -/
theorem space_filled_zero {mem : Nat → Mem} {d : Nat} (h : mem d = filled 0) :
    space mem d = ⟨fun _ => none, fun _ => 0⟩ := by
  have htab : tabOf mem d = fun _ => none := by
    funext i
    unfold tabOf
    rw [h, entry_filled_zero, pageAt_zero, ite_self]
  refine Space.ext htab ?_
  funext v
  show (tabOf mem d (v / 1024)).elim 0 _ = 0
  rw [htab]
  rfl

theorem foot_empty (d : Nat) : Space.foot ⟨fun _ => none, fun _ => 0⟩ d = {d} := by
  rw [Space.foot, Space.tables, Space.frames, holdings.eq_zero fun _ _ => rfl,
    holdings.eq_zero fun _ _ => pageAt_zero, add_zero, add_zero]

theorem setupkvm_spec (h : Owned L s R) :
    Sat E (setupkvm L) s fun r s' => Frame R s s' ∧
      match r with
      | none => Owned L s' R ∧ s.credits < 65
      | some d => s'.credits + 65 = s.credits ∧ ∃ S, Has L d S R s' ∧ Fresh S := by
  refine wp_bind (kalloc_spec h) ?_
  rintro (_ | d) s₁ ⟨hframe, hmem, hcases⟩
  · obtain ⟨hzero, -, hown⟩ := hcases
    exact wp_pure ⟨hframe, hown, by omega⟩
  · obtain ⟨hcredits, hown⟩ := hcases
    refine wp_modify_bind ?_
    have hdR : d ∉ R := hown.notMem_of_mem (Multiset.mem_singleton_self d)
    have hempty : Has L d ⟨fun _ => none, fun _ => 0⟩ R (s₁.setPage d (filled 0)) :=
      ⟨space_filled_zero (Function.update_self ..), hown.congr rfl (by rw [foot_empty])⟩
    have hframe₁ : Frame R s (s₁.setPage d (filled 0)) := by
      refine ⟨fun p hp => ?_, hframe.proc, hframe.initproc, hframe.kpgdir, hframe.pipe⟩
      have hpd : p ≠ d := fun heq => hdR (heq ▸ hp)
      exact (Function.update_of_ne hpd ..).trans (hframe.mem p hp)
    have htabs : Space.tabs ⟨fun _ => none, fun _ => 0⟩ = ∅ := by
      rw [Space.tabs, Finset.filter_false_of_mem fun _ _ h => (nomatch h)]
    rw [kmap_eq]
    refine wp_mono (mapKernel_spec (ranges L) (ranges_ok L) (ranges_disjoint L) hempty
      fun _ _ _ _ => not_present_zero) ?_
    rintro (_ | d') s₂ ⟨hframe₂, hcases⟩
    · refine ⟨hframe₁.trans hframe₂, hcases.1, ?_⟩
      have hlt : s₁.credits + _ < _ := hcases.2
      rw [htabs, Finset.empty_union, dirsOf_ranges, kernelDirs_card, Finset.card_empty] at hlt
      omega
    · obtain ⟨rfl, S, hS, hmapped, htabs₂, hcard⟩ := hcases
      rw [htabs, Finset.empty_union, dirsOf_ranges] at htabs₂
      have hcard' : s₂.credits + S.tabs.card = s₁.credits + _ := hcard
      rw [htabs, htabs₂, kernelDirs_card, Finset.card_empty] at hcard'
      refine ⟨hframe₁.trans hframe₂, by omega, S, hS, ⟨fun v hv => ?_, fun v => ?_, htabs₂⟩⟩
      · exact hmapped.same v (Nat.not_le.2 hv)
      · exact hmapped.user v not_user_zero

end Setup

end Cs350.Vm
