import Cs350.Lib.Word
import Cs350.Vm.Grow

set_option autoImplicit false

/-! # Loading a program (`loaduvm`, `copyout`, `exec`)

`exec` builds a new address space, loads the segments into it, and copies the arguments to its
stack. All that it writes goes to frames of the new address space. An argument for which the stack
has no room makes the stack pointer wrap to an address of the kernel: `copyout` fails there, and
panics when there is no page table for the address, which takes an argument that is more than 32 MB
longer than the room. -/

namespace Cs350.Vm

open Sched (Slot)
open Prog

/-! ## Segments -/

/-- An address space under construction: the pages below `sz` are mapped, those above are not. -/
structure Built (S : Space) (sz : Nat) : Prop where
  le : sz ≤ kernBase
  full : ∀ u < pageUp sz, Present (S.pte u)
  clear : ∀ u, pageUp sz ≤ u → u < userPages → ¬ Present (S.pte u)
  closed : S.Closed
  /-- the page tables from `DEVSPACE` on -/
  dev : ∀ i, 1016 ≤ i → i < 1024 → ∃ t, S.tab i = some t

theorem Fresh.built {S : Space} (h : Fresh S) : Built S 0 where
  le := Nat.zero_le _
  full u hu := absurd hu (Nat.not_lt_zero u)
  clear u _ hu := by
    rw [h.pte u hu]
    exact not_present_zero
  closed := h.closed
  dev i hi hlt := by
    have hmem : i ∈ S.tabs := by
      rw [h.tabs, kernelDirs, Finset.mem_union, Finset.mem_Ico, Finset.mem_Ico]
      omega
    exact Option.isSome_iff_exists.1 (Space.mem_tabs.1 hmem).2

theorem pageUp_max (a b : Nat) : pageUp (max a b) = max (pageUp a) (pageUp b) := by
  unfold pageUp pgSize
  omega

theorem Built.grow {S S' : Space} {oldsz newsz : Nat} (h : Built S oldsz)
    (hgrown : Grown S S' (pageUp oldsz) (max (pageUp oldsz) (pageUp newsz)))
    (hsame : ∀ u, u < pageUp oldsz ∨ userPages ≤ u → S'.pte u = S.pte u)
    (hnew : newsz < kernBase) : Built S' (max oldsz newsz) where
  le := Nat.max_le.2 ⟨h.le, hnew.le⟩
  full u hu := by
    rw [pageUp_max] at hu
    by_cases hlt : u < pageUp oldsz
    · rw [hgrown.same u (Or.inl hlt)]
      exact h.full u hlt
    · exact hgrown.present u (Nat.not_lt.1 hlt) hu
  clear u hu hlt := by
    rw [pageUp_max] at hu
    rw [hgrown.same u (Or.inr hu)]
    exact h.clear u ((Nat.le_max_left ..).trans hu) hlt
  closed := h.closed.of_same fun u hu => hsame u (Or.inr hu)
  dev i hi hlt := by
    obtain ⟨t, ht⟩ := h.dev i hi hlt
    exact ⟨t, hgrown.tab i t ht⟩

section Space

variable {L : Layout} {E : Panic → Prop} {s : State} {S : Space} {R : Multiset Nat} {d : Nat}

/-- A write to a frame. -/
theorem Has.write (h : Has L d S R s) {v p : Nat} (hv : v < userPages)
    (hp : pageAt (S.pte v) = some p) (m : Mem) :
    Has L d S R (s.setPage p m) ∧ Frame R s (s.setPage p m) := by
  have hnd := h.owned.nodup_left
  refine ⟨⟨?_, h.owned⟩, fun q hq => ?_, rfl, rfl, rfl, rfl⟩
  · rw [← h.space] at hnd hp ⊢
    refine space_update_of_ne m (Space.pte_ne_dir hnd hv hp) fun i hi => ?_
    exact Space.pte_ne_tab hnd hv hp (Vm.tab_lt hi) hi rfl
  · have hqp : q ≠ p := by
      rintro rfl
      exact h.notMem (Space.mem_foot_of_pte hv hp) hq
    exact Function.update_of_ne hqp ..

theorem Has.tab_of_present (h : Has L d S R s) {v : Nat} (hP : Present (S.pte v)) :
    ∃ t, S.tab (v / 1024) = some t := by
  cases ht : S.tab (v / 1024) with
  | some t => exact ⟨t, rfl⟩
  | none =>
      rw [h.pte_of_no_tab ht] at hP
      exact absurd hP not_present_zero

/-- `walkpgdir` finds the entry of a page of the user's part. -/
theorem walkpgdir_user_spec {t v : Nat} (h : Has L d S R s) (hv : v < 2 ^ 20)
    (ht : S.tab (v / 1024) = some t) {α : Type} {f : Option (Nat × Nat) → VmM α}
    {Q : α → State → Prop} (hnext : Sat E (f (some (t, v % 1024))) s Q) :
    Sat E (walkpgdir d (v * pgSize) false >>= f) s Q := by
  have hwalk := walkpgdir_spec (E := E) h.space (v * pgSize)
  rw [pdx_page hv, ptx_page, ht] at hwalk
  refine wp_bind hwalk ?_
  rintro r s' ⟨rfl, rfl⟩
  exact hnext

/-! ## `loaduvm` -/

theorem loadLoop_spec {v₀ sz top : Nat} (hbuilt : Built S top) (htop : v₀ * pgSize + sz ≤ top)
    (data : Nat → List UInt8) (n k : Nat) (h : Has L d S R s) (hk : k + n = pageUp sz) :
    Sat E (loadLoop d (v₀ * pgSize) data sz n k) s fun _ s' => Has L d S R s' ∧ Frame R s s' := by
  have hle := pageUp_le hbuilt.le
  have huser : userPages = 2 ^ 19 := rfl
  induction n generalizing s k with
  | zero => exact wp_pure ⟨h, Frame.refl R s⟩
  | succ n ih =>
      have hv : v₀ + k < pageUp top := by
        unfold pageUp pgSize at *
        omega
      have haddr : uint (v₀ * pgSize + k * pgSize) = (v₀ + k) * pgSize := by
        rw [← Nat.add_mul, uint, Nat.mod_eq_of_lt]
        unfold pgSize
        omega
      have hP := hbuilt.full _ hv
      obtain ⟨t, ht⟩ := h.tab_of_present hP
      show Sat E (walkpgdir d (uint (v₀ * pgSize + k * pgSize)) false >>= _) s _
      rw [haddr]
      refine walkpgdir_user_spec h (by omega) ht (wp_get_bind (wp_modify_bind ?_))
      have hpte : s.entry t ((v₀ + k) % 1024) = S.pte (v₀ + k) := (h.pte_eq ht).symm
      rw [hpte]
      obtain ⟨h₁, hframe₁⟩ := h.write (hv.trans_le hle) (pageAt_of_present hP)
        (write (s.mem (pageOf (S.pte (v₀ + k)))) 0
          ((data k).take (min pgSize (sz - k * pgSize))))
      refine wp_ite (fun _ => ?_) fun _ => wp_pure ⟨h₁, hframe₁⟩
      refine wp_mono (ih (k + 1) h₁ (by omega)) ?_
      rintro - s₂ ⟨h₂, hframe₂⟩
      exact ⟨h₂, hframe₁.trans hframe₂⟩

theorem loaduvm_spec {addr sz top : Nat} (hbuilt : Built S top) (haddr : addr % pgSize = 0)
    (htop : addr + sz ≤ top) (data : Nat → List UInt8) (h : Has L d S R s) :
    Sat E (loaduvm d addr data sz) s fun _ s' => Has L d S R s' ∧ Frame R s s' := by
  refine wp_ite (fun hne => absurd haddr hne) fun _ => ?_
  have heq : addr = addr / pgSize * pgSize := by
    unfold pgSize at *
    omega
  rw [heq] at htop ⊢
  exact loadLoop_spec hbuilt htop data _ 0 h (by rw [Nat.zero_add]; rfl)

/-! ## The headers -/

theorem execLoad_spec (phs : List Phdr) (sz : Nat) (h : Has L d S R s) (hbuilt : Built S sz) :
    Sat E (execLoad L d phs sz) s fun r s' => Frame R s s' ∧ ∃ S', Has L d S' R s' ∧
      (S'.Closed ∧ ∀ sz', r = some sz' → Built S' sz') := by
  induction phs generalizing s S sz with
  | nil =>
      refine wp_pure ⟨Frame.refl R s, S, h, hbuilt.closed, ?_⟩
      rintro sz' hsz
      obtain rfl := Option.some.inj hsz
      exact hbuilt
  | cons ph phs ih =>
      have hbad : ∀ {s' : State} {S' : Space}, Has L d S' R s' → Frame R s s' → S'.Closed →
          Sat E (pure none : VmM (Option Nat)) s' fun r s' => Frame R s s' ∧ ∃ S', Has L d S' R s' ∧
            (S'.Closed ∧ ∀ sz', r = some sz' → Built S' sz') :=
        fun h' hframe hclosed =>
          wp_pure ⟨hframe, _, h', hclosed, fun _ hsz => (nomatch hsz)⟩
      refine wp_ite (fun _ => hbad h (Frame.refl R s) hbuilt.closed) fun _ => ?_
      refine wp_ite (fun _ => ih sz h hbuilt) fun _ => ?_
      · refine wp_ite (fun _ => hbad h (Frame.refl R s) hbuilt.closed) fun hmem => ?_
        refine wp_ite (fun _ => hbad h (Frame.refl R s) hbuilt.closed) fun hwrap => ?_
        have hsum : (ph.vaddr + ph.memsz).toNat = ph.vaddr.toNat + ph.memsz.toNat :=
          add_toNat hwrap
        have hle : ph.filesz.toNat ≤ ph.memsz.toNat := by
          rw [UInt32.lt_iff_toNat_lt] at hmem
          omega
        refine wp_bind (allocuvm_spec hbuilt.le h (Or.inl hbuilt.clear)) ?_
        · rintro r s₁ ⟨hframe₁, S₁, h₁, hsame, hcases⟩
          have hclosed₁ : S₁.Closed := hbuilt.closed.of_same fun u hu => hsame u (Or.inr hu)
          refine wp_ite (fun _ => hbad h₁ hframe₁ hclosed₁) fun hr => ?_
          refine wp_ite (fun _ => hbad h₁ hframe₁ hclosed₁) fun halign => ?_
          obtain ⟨rfl, hnew, hgrown, -⟩ := hcases.resolve_right fun hzero => hr hzero.1
          have hbuilt₁ := hbuilt.grow hgrown hsame hnew
          refine wp_bind (loaduvm_spec hbuilt₁ (not_not.1 halign) ?_ ph.data h₁) ?_
          · omega
          · rintro ok s₂ ⟨h₂, hframe₂⟩
            refine wp_ite (fun _ => ?_) fun _ => hbad h₂ (hframe₁.trans hframe₂) hclosed₁
            refine wp_mono (ih _ h₂ hbuilt₁) fun r s' h' => ?_
            obtain ⟨hframe, S', hS', hclosed, hsz⟩ := h'
            exact ⟨(hframe₁.trans hframe₂).trans hframe, S', hS', hclosed, hsz⟩

/-! ## `copyout` -/

/-- One round of the loop of `copyout`, when there is a page table for the address. -/
theorem copyoutLoop_succ {t n va : Nat} {buf : List UInt8} {Q : Bool → State → Prop}
    (h : Has L d S R s) (hclosed : S.Closed) (hva : va < 2 ^ 32)
    (ht : S.tab (va / pgSize / 1024) = some t) (hbuf : buf ≠ []) (hfail : Q false s)
    (hnext : ∀ s', va / pgSize < userPages → Has L d S R s' → Frame R s s' →
      Sat E (copyoutLoop d n (uint (pgRoundDown va + pgSize))
        (buf.drop (min (pgSize - va % pgSize) buf.length))) s' Q) :
    Sat E (copyoutLoop d (n + 1) va buf) s Q := by
  have hlt : va / pgSize < 2 ^ 20 := by
    unfold pgSize
    omega
  refine wp_ite (fun hnil => absurd hnil hbuf) fun _ => ?_
  refine wp_bind (P := fun r s' => s' = s ∧ r = userPage (S.pte (va / pgSize))) ?_ ?_
  · refine walkpgdir_user_spec h hlt ht (wp_get_bind (wp_pure ⟨rfl, ?_⟩))
    rw [h.pte_eq ht]
  · rintro r s' ⟨rfl, rfl⟩
    rw [userPage]
    split_ifs with hP
    · have hv : va / pgSize < userPages := by
        by_contra hge
        exact hclosed _ (Nat.not_lt.1 hge) hP.2
      obtain ⟨h₁, hframe₁⟩ := h.write hv (pageAt_of_present hP.1)
        (write (s'.mem (pageOf (S.pte (va / pgSize)))) (va % pgSize)
          (buf.take (min (pgSize - va % pgSize) buf.length)))
      exact wp_modify_bind (hnext _ hv h₁ hframe₁)
    · exact wp_pure hfail

/-- Into the user's part. -/
theorem copyoutLoop_user_spec {sz : Nat} (hbuilt : Built S sz) (n va : Nat) (buf : List UInt8)
    (h : Has L d S R s) (hin : buf = [] ∨ va + buf.length ≤ sz) :
    Sat E (copyoutLoop d n va buf) s fun _ s' => Has L d S R s' ∧ Frame R s s' := by
  have hle : sz ≤ 2 ^ 31 := hbuilt.le
  induction n generalizing s va buf with
  | zero => exact wp_pure ⟨h, Frame.refl R s⟩
  | succ n ih =>
      by_cases hbuf : buf = []
      · exact wp_ite (fun _ => wp_pure ⟨h, Frame.refl R s⟩) fun hne => absurd hbuf hne
      · have hlen : 0 < buf.length := List.length_pos_iff.2 hbuf
        have hsum := hin.resolve_left hbuf
        have hP := hbuilt.full (va / pgSize) (by
          unfold pageUp pgSize
          omega)
        obtain ⟨t, ht⟩ := h.tab_of_present hP
        refine copyoutLoop_succ h hbuilt.closed (by omega) ht hbuf ⟨h, Frame.refl R s⟩ ?_
        intro s₁ hv h₁ hframe₁
        refine wp_mono (ih _ _ h₁ ?_) fun _ s₂ h₂ => ⟨h₂.1, hframe₁.trans h₂.2⟩
        have hnext : uint (pgRoundDown va + pgSize) = va - va % pgSize + pgSize := by
          unfold uint pgRoundDown pgSize
          omega
        rw [hnext]
        by_cases hlast : buf.length ≤ pgSize - va % pgSize
        · rw [min_eq_right hlast]
          exact Or.inl (List.drop_length ..)
        · rw [min_eq_left (by omega), List.length_drop]
          refine Or.inr ?_
          unfold pgSize at *
          omega

/-- Into the kernel's part: not allowed. From `DEVSPACE` on there are page tables for all
    addresses. -/
theorem copyoutLoop_kernel_spec {sz n va : Nat} (hbuilt : Built S sz) {buf : List UInt8}
    (h : Has L d S R s) (hva : kernBase ≤ va) (hlt : va < 2 ^ 32) (hbuf : buf ≠ [])
    (hE : devSpace ≤ va ∨ E .fault) :
    Sat E (copyoutLoop d (n + 1) va buf) s fun r s' => r = false ∧ s' = s := by
  have huser : userPages = 2 ^ 19 := rfl
  cases ht : S.tab (va / pgSize / 1024) with
  | some t =>
      refine copyoutLoop_succ h hbuilt.closed hlt ht hbuf ⟨rfl, rfl⟩ fun s₁ hv _ _ => ?_
      unfold kernBase pgSize at *
      omega
  | none =>
      have hfault : E .fault := hE.resolve_left fun hdev => by
        obtain ⟨t, ht'⟩ := hbuilt.dev (va / pgSize / 1024)
          (by unfold devSpace pgSize at *; omega) (by unfold pgSize; omega)
        rw [ht] at ht'
        exact nomatch ht'
      have hdir : pdx (pgRoundDown va) = va / pgSize / 1024 := by
        unfold pdx pgRoundDown pgSize
        omega
      refine wp_ite (fun hnil => absurd hnil hbuf) fun _ => ?_
      refine wp_bind (P := fun _ _ => False) (wp_bind (walkpgdir_spec h.space _) ?_)
        fun _ _ hno => hno.elim
      rintro r s' ⟨rfl, rfl⟩
      rw [hdir, ht]
      exact wp_stop hfault

/-- The stack pointer after `n` bytes are pushed. -/
theorem copyout_spec {sz sp n : Nat} (hbuilt : Built S sz) {buf : List UInt8}
    (h : Has L d S R s) (hsp : sp ≤ sz) (hlen : buf.length = n) (hpos : 0 < n)
    (hfit : n ≤ sp + 2 ^ 25 ∨ E .fault ∧ n ≤ kernBase) {a : Nat} (ha : a ∣ 4) :
    Sat E (copyout d (uint (sp + (2 ^ 32 - n)) / a * a) buf) s fun r s' =>
      Has L d S R s' ∧ Frame R s s' ∧ (r = true → n ≤ sp) := by
  have hle : sz ≤ 2 ^ 31 := hbuilt.le
  have hbuf : buf ≠ [] := List.length_pos_iff.1 (hlen ▸ hpos)
  have hround : ∀ x, x / a * a ≤ x := fun x => Nat.div_mul_le_self x a
  unfold copyout
  by_cases hn : n ≤ sp
  · have hu : uint (sp + (2 ^ 32 - n)) = sp - n := by
      unfold uint
      omega
    rw [hu]
    refine wp_mono (copyoutLoop_user_spec hbuilt _ _ buf h (Or.inr ?_)) ?_
    · have := hround (sp - n)
      omega
    · exact fun _ s' h' => ⟨h'.1, h'.2, fun _ => hn⟩
  · have hlong : n ≤ sp + 2 ^ 31 := by
      rcases hfit with hfit | ⟨-, hfit⟩
      · omega
      · unfold kernBase at hfit
        omega
    have hu : uint (sp + (2 ^ 32 - n)) = sp + 2 ^ 32 - n := by
      unfold uint
      omega
    obtain ⟨m, hm⟩ : ∃ m, buf.length = m + 1 := ⟨buf.length - 1, by omega⟩
    rw [hu, hm]
    have hwrap : ∀ b, a ∣ b → n ≤ sp + 2 ^ 32 - b → b ≤ (sp + 2 ^ 32 - n) / a * a :=
      fun b hb hle => by
        rw [← Nat.div_mul_cancel hb]
        exact Nat.mul_le_mul_right a (Nat.div_le_div_right (by omega))
    refine wp_mono (copyoutLoop_kernel_spec hbuilt h ?_ ?_ hbuf ?_) ?_
    · refine hwrap kernBase (ha.trans (by decide)) ?_
      unfold kernBase
      omega
    · have := hround (sp + 2 ^ 32 - n)
      omega
    · refine hfit.imp (fun hnear => hwrap devSpace (ha.trans (by decide)) ?_) And.left
      unfold devSpace
      omega
    · rintro r s' ⟨rfl, rfl⟩
      exact ⟨h, Frame.refl R s', fun hr => (nomatch hr)⟩

/-! ## The stack -/

/-- An argument of less than 32 MB never gets `copyout` to an address without a page table; a longer
    one may end in a panic. -/
def ArgOk (E : Panic → Prop) (arg : List UInt8) : Prop :=
  arg.length < 2 ^ 25 ∨ E .fault ∧ arg.length < kernBase

theorem pushArgs_spec {sz : Nat} (hbuilt : Built S sz) (args : List (List UInt8)) (sp : Nat)
    (ustack : List Nat) (h : Has L d S R s) (hsp : sp ≤ sz) (hok : ∀ arg ∈ args, ArgOk E arg)
    (hmax : ustack.length ≤ maxArg) :
    Sat E (pushArgs d args sp ustack) s fun r s' => Has L d S R s' ∧ Frame R s s' ∧
      ∀ sp' ustack', r = some (sp', ustack') → sp' ≤ sz ∧ ustack'.length ≤ maxArg := by
  have hle : sz ≤ 2 ^ 31 := hbuilt.le
  induction args generalizing s sp ustack with
  | nil =>
      refine wp_pure ⟨h, Frame.refl R s, fun sp' ustack' heq => ?_⟩
      obtain ⟨rfl, rfl⟩ := Prod.mk.inj (Option.some.inj heq)
      exact ⟨hsp, hmax⟩
  | cons arg args ih =>
      have hlen : arg.length + 1 ≤ sp + 2 ^ 25 ∨ E .fault ∧ arg.length + 1 ≤ kernBase :=
        (hok arg List.mem_cons_self).imp (fun hshort => by omega) id
      refine wp_ite (fun _ => wp_pure ⟨h, Frame.refl R s, fun _ _ heq => (nomatch heq)⟩)
        fun _ => ?_
      have hbytes : (arg ++ [0]).length = arg.length + 1 := by
        rw [List.length_append, List.length_singleton]
      refine wp_bind (copyout_spec hbuilt h hsp hbytes (Nat.succ_pos _) hlen (dvd_refl 4)) ?_
      rintro r₁ s₁ ⟨h₁, hframe₁, hroom⟩
      refine wp_ite (fun hr => ?_) fun _ => wp_pure ⟨h₁, hframe₁, fun _ _ heq => (nomatch heq)⟩
      have hfits : arg.length + 1 ≤ sp := hroom hr
      have hu : uint (sp + (2 ^ 32 - (arg.length + 1))) = sp - (arg.length + 1) := by
        unfold uint
        omega
      rw [hu]
      refine wp_mono (ih _ _ h₁ ?_ (fun x hx => hok x (List.mem_cons_of_mem _ hx)) ?_) ?_
      · have := Nat.div_mul_le_self (sp - (arg.length + 1)) 4
        omega
      · rw [List.length_append, List.length_singleton]
        omega
      · exact fun r s₂ h₂ => ⟨h₂.1, hframe₁.trans h₂.2.1, h₂.2.2⟩

theorem length_bytesOf (words : List Nat) : (words.flatMap bytesOf).length = 4 * words.length := by
  induction words with
  | nil => rfl
  | cons w words ih =>
      rw [List.flatMap_cons, List.length_append, ih, List.length_cons]
      show 4 + 4 * words.length = _
      omega

theorem pageAt_clearU (w : Nat) : pageAt (clearU w) = pageAt w := by
  unfold clearU
  split_ifs with hU
  · have hP : Present (w - pteU) ↔ Present w := by
      unfold User at hU
      unfold Present pteU
      omega
    have hp : pageOf (w - pteU) = pageOf w := by
      unfold User at hU
      unfold pageOf pteU pgSize
      omega
    unfold pageAt
    rw [hp]
    simp only [hP]
  · rfl

/-- The page below the stack is closed to the user. -/
theorem clearpteu_spec {sz v : Nat} (hbuilt : Built S sz) (hv : v < pageUp sz)
    (h : Has L d S R s) :
    Sat E (clearpteu d (v * pgSize)) s fun _ s' => Frame R s s' ∧
      ∃ S', Has L d S' R s' ∧ Built S' sz ∧ S'.tab = S.tab := by
  have hle := pageUp_le hbuilt.le
  have huser : userPages = 2 ^ 19 := rfl
  obtain ⟨t, ht⟩ := h.tab_of_present (hbuilt.full v hv)
  have hentry : s.entry t (v % 1024) = S.pte v := (h.pte_eq ht).symm
  have hword : clearU (S.pte v) < 2 ^ 32 := by
    have hlt : S.pte v < 2 ^ 32 := by
      rw [← h.space]
      exact pte_lt _ _ _
    unfold clearU
    split_ifs <;> omega
  obtain ⟨hspace, hframe⟩ := setEntry_spec h ht hword
  have hpage := pageAt_clearU (S.pte v)
  have hfoot : (S.setPte v (clearU (S.pte v))).foot d = S.foot d := by
    have heq := S.foot_setPte (d := d) (hv.trans_le hle) (clearU (S.pte v))
    rw [hpage] at heq
    exact add_right_cancel heq
  refine walkpgdir_user_spec h (by omega) ht (wp_modify ?_)
  rw [hentry]
  refine ⟨hframe, _, ⟨hspace, h.owned.congr rfl (by rw [hfoot])⟩, ?_⟩
  have hsame : ∀ u, u ≠ v → (S.setPte v (clearU (S.pte v))).pte u = S.pte u :=
    fun u hu => S.setPte_of_ne _ hu
  refine ⟨⟨hbuilt.le, fun u hu => ?_, fun u hu hlt => ?_, fun u hu => ?_, hbuilt.dev⟩, rfl⟩
  · by_cases huv : u = v
    · rw [huv, S.setPte_self]
      have hP := pageAt_of_present (hbuilt.full v hv)
      rw [← hpage] at hP
      exact (pageAt_eq_some.1 hP).1
    · rw [hsame u huv]
      exact hbuilt.full u hu
  · rw [hsame u (by omega)]
    exact hbuilt.clear u hu hlt
  · rw [hsame u (by omega)]
    exact hbuilt.closed u hu

/-- `exec` from the stack on, with the new stack pointer; `none` is `goto bad`. -/
def execStackPtr (L : Layout) (pgdir sz : Nat) (argv : List (List UInt8)) :
    VmM (Option (Nat × Nat)) :=
  let sz := pgRoundUp sz
  allocuvm L pgdir sz (uint (sz + 2 * pgSize)) >>= fun sz =>
    if sz = 0 then pure none
    else
      clearpteu pgdir (sz - 2 * pgSize) >>= fun _ =>
        pushArgs pgdir argv sz [] >>= fun
          | none => pure none
          | some (sp, ustack) =>
              let argc := ustack.length
              let words := [0xffffffff, argc, uint (sp + (2 ^ 32 - (argc + 1) * 4))] ++ ustack ++ [0]
              let sp := uint (sp + (2 ^ 32 - (3 + argc + 1) * 4))
              copyout pgdir sp (words.flatMap bytesOf) >>= fun ok =>
                if ok then pure (some (sz, sp)) else pure none

theorem execStack_eq (L : Layout) (pgdir sz : Nat) (argv : List (List UInt8)) :
    execStack L pgdir sz argv =
      execStackPtr L pgdir sz argv >>= fun r => pure (r.map Prod.fst) := by
  unfold execStack execStackPtr
  dsimp only
  rw [Prog.bind_assoc]
  refine congrArg _ (funext fun sz => ?_)
  split_ifs
  · rfl
  · rw [Prog.bind_assoc]
    refine congrArg _ (funext fun _ => ?_)
    rw [Prog.bind_assoc]
    refine congrArg _ (funext fun r => ?_)
    rcases r with _ | ⟨sp, ustack⟩
    · rfl
    · dsimp only
      rw [Prog.bind_assoc]
      refine congrArg _ (funext fun ok => ?_)
      cases ok <;> rfl

/-- The stack, and with it all pages of the new image. -/
theorem execStackPtr_spec {sz : Nat} (hbuilt : Built S sz) (argv : List (List UInt8))
    (h : Has L d S R s) (hok : ∀ arg ∈ argv, ArgOk E arg) :
    Sat E (execStackPtr L d sz argv) s fun r s' => Frame R s s' ∧ ∃ S', Has L d S' R s' ∧
      S'.Closed ∧ ∀ sz' sp, r = some (sz', sp) → Built S' sz' := by
  have hup : pgRoundUp sz = pageUp sz * pgSize := pgRoundUp_eq hbuilt.le
  have hround : pageUp sz * pgSize ≤ kernBase := by
    have := hbuilt.le
    unfold pageUp kernBase pgSize at *
    omega
  have hpages : pageUp (pageUp sz * pgSize) = pageUp sz := by
    unfold pageUp pgSize
    omega
  have hbuilt₀ : Built S (pageUp sz * pgSize) :=
    ⟨hround, by rw [hpages]; exact hbuilt.full, by rw [hpages]; exact hbuilt.clear, hbuilt.closed,
      hbuilt.dev⟩
  have htop : uint (pageUp sz * pgSize + 2 * pgSize) = pageUp sz * pgSize + 2 * pgSize := by
    unfold uint kernBase pgSize at *
    omega
  unfold execStackPtr
  dsimp only
  rw [hup, htop]
  -- the top of the stack
  obtain ⟨top, htop_eq⟩ : ∃ top, top = pageUp sz * pgSize + 2 * pgSize := ⟨_, rfl⟩
  rw [← htop_eq]
  refine wp_bind (allocuvm_spec hround h (Or.inl hbuilt₀.clear)) ?_
  rintro r s₁ ⟨hframe₁, S₁, h₁, hsame, hcases⟩
  have hclosed₁ : S₁.Closed := hbuilt.closed.of_same fun u hu => hsame u (Or.inr hu)
  refine wp_ite (fun _ => wp_pure ⟨hframe₁, S₁, h₁, hclosed₁, fun _ _ hr => (nomatch hr)⟩) fun hr => ?_
  obtain ⟨hr', hnew, hgrown, -⟩ := hcases.resolve_right fun hzero => hr hzero.1
  have hbuilt₁ := hbuilt₀.grow hgrown hsame hnew
  rw [max_eq_right (by omega)] at hbuilt₁ hr'
  subst hr'
  have hguard : r - 2 * pgSize = pageUp sz * pgSize := by omega
  rw [hguard]
  refine wp_bind (clearpteu_spec hbuilt₁ ?_ h₁) ?_
  · rw [htop_eq]
    unfold pageUp pgSize
    omega
  · rintro - s₂ ⟨hframe₂, S₂, h₂, hbuilt₂, -⟩
    have hframe₂' := hframe₁.trans hframe₂
    refine wp_bind (pushArgs_spec hbuilt₂ argv _ [] h₂ le_rfl hok (Nat.zero_le _)) ?_
    rintro (_ | ⟨sp, ustack⟩) s₃ ⟨h₃, hframe₃, hstack⟩
    · exact wp_pure ⟨hframe₂'.trans hframe₃, S₂, h₃, hbuilt₂.closed, fun _ _ hr => (nomatch hr)⟩
    · obtain ⟨hsp, hargc⟩ := hstack sp ustack rfl
      have hbytes : (([0xffffffff, ustack.length,
          uint (sp + (2 ^ 32 - (ustack.length + 1) * 4))] ++ ustack ++ [0]).flatMap bytesOf).length
          = (3 + ustack.length + 1) * 4 := by
        rw [length_bytesOf, List.length_append, List.length_append]
        simp only [List.length_cons, List.length_nil]
        omega
      have hcopy := copyout_spec (E := E) hbuilt₂ h₃ hsp hbytes (by omega)
        (Or.inl (by unfold maxArg at hargc; omega)) (one_dvd 4)
      rw [Nat.div_one, Nat.mul_one] at hcopy
      refine wp_bind hcopy ?_
      rintro ok s₄ ⟨h₄, hframe₄, -⟩
      refine wp_ite (fun _ => wp_pure ?_) fun _ => wp_pure ?_
      · refine ⟨(hframe₂'.trans hframe₃).trans hframe₄, S₂, h₄, hbuilt₂.closed,
          fun sz' sp' hr' => ?_⟩
        obtain ⟨rfl, -⟩ := Prod.mk.inj (Option.some.inj hr')
        exact hbuilt₂
      · exact ⟨(hframe₂'.trans hframe₃).trans hframe₄, S₂, h₄, hbuilt₂.closed,
          fun _ _ hr' => (nomatch hr')⟩

theorem execStack_spec {sz : Nat} (hbuilt : Built S sz) (argv : List (List UInt8))
    (h : Has L d S R s) (hok : ∀ arg ∈ argv, ArgOk E arg) :
    Sat E (execStack L d sz argv) s fun r s' => Frame R s s' ∧ ∃ S', Has L d S' R s' ∧
      S'.Closed ∧ ∀ sz', r = some sz' → Built S' sz' := by
  rw [execStack_eq]
  refine wp_bind (execStackPtr_spec hbuilt argv h hok) ?_
  rintro r s' ⟨hframe, S', h', hclosed, hbuilt'⟩
  refine wp_pure ⟨hframe, S', h', hclosed, fun sz' hr => ?_⟩
  obtain ⟨⟨sz'', sp⟩, hr', rfl⟩ := Option.map_eq_some_iff.1 hr
  exact hbuilt' _ sp hr'

end Space

/-! ## `exec` -/

section Exec

variable {L : Layout} {E : Panic → Prop} {s : State} {cur : Slot} {lost : Multiset Nat}

/-- What the process has, apart from its address space, and what the others have. -/
theorem inUse_live (hcur : (s.proc cur).Live) (lost : Multiset Nat) :
    inUse s + lost = (space s.mem (s.proc cur).pgdir).foot (s.proc cur).pgdir +
      ({(s.proc cur).kstack} + (others s cur + lost)) := by
  rw [inUse_eq s cur, Proc.pages_live hcur, footOf]
  abel

/-- The commit: the new address space is there beside all that was in use, the process changes over
    to it, and the old one is freed. -/
theorem commit_spec (h : Sound L s) (hcur : (s.proc cur).Live) {s₃ : State} {S₃ : Space}
    {d sz' : Nat} (hframe : Frame (inUse s + lost) s s₃) (h₃ : Has L d S₃ (inUse s + lost) s₃)
    (hclosed₃ : S₃.Closed) (hsz : sz' ≤ kernBase) :
    Sat E (freevm L (s.proc cur).pgdir)
      (s₃.setProc cur fun p => { p with pgdir := d, sz := sz' }) fun _ s' =>
        Sound L s' ∧ space s'.mem d = S₃ ∧
          s'.proc cur = { s.proc cur with pgdir := d, sz := sz' } := by
  have hinUse := inUse_live hcur lost
  generalize hold : (s.proc cur).pgdir = old at hinUse
  generalize hP : space s.mem old = P at hinUse
  -- the old address space is still there, and is freed now
  have hspace : space s₃.mem old = P := by
    rw [← hP]
    refine hframe.space fun x hx => ?_
    rw [hP] at hx
    rw [hinUse]
    exact Multiset.mem_add.2 (Or.inl hx)
  have hR : S₃.foot d + (inUse s + lost) = P.foot old + (S₃.foot d +
      ({(s.proc cur).kstack} + (others s cur + lost))) := by
    rw [hinUse]
    abel
  refine wp_mono (freevm_spec (S := P) (R := S₃.foot d +
    ({(s.proc cur).kstack} + (others s cur + lost))) ⟨hspace, h₃.owned.congr rfl hR⟩) ?_
  rintro - s₄ ⟨hown₄, hframe₄⟩
  have hproc : s₄.proc = (s₃.setProc cur fun p => { p with pgdir := d, sz := sz' }).proc :=
    hframe₄.proc
  have hself : s₄.proc cur = { s.proc cur with pgdir := d, sz := sz' } := by
    rw [hproc, State.setProc_self, hframe.proc]
  have hlive : ({ s.proc cur with pgdir := d, sz := sz' } : Proc).Live := hcur
  have hspace₄ : space s₄.mem d = S₃ := by
    rw [← h₃.space]
    refine hframe₄.space (s := s₃.setProc cur _) fun x hx => ?_
    exact Multiset.mem_add.2 (Or.inl (h₃.space ▸ hx))
  refine ⟨h.change (p := cur) (fun q hq => ?_) ⟨fun x hx => ?_, rfl, ?_, ?_, ?_⟩
    ⟨lost, hown₄.congr rfl ?_⟩ (fun _ => ?_) fun _ => ?_, hspace₄, hself⟩
  · rw [hproc, State.setProc_of_ne _ _ hq, hframe.proc]
  · have hmem : x ∈ others s cur + lost := Multiset.mem_add.2 (Or.inl hx)
    have hmem₄ := hframe₄.mem x (Multiset.mem_add.2 (Or.inr (Multiset.mem_add.2
      (Or.inr hmem))))
    rw [hmem₄]
    exact hframe.mem x (Multiset.mem_add.2 (Or.inl (mem_inUse_of_others hx)))
  · exact hframe₄.initproc.trans hframe.initproc
  · exact hframe₄.kpgdir.trans hframe.kpgdir
  · exact hframe₄.pipe.trans hframe.pipe
  · rw [hself, Proc.pages_live hlive, footOf]
    show _ = {(s.proc cur).kstack} + (space s₄.mem d).foot d + _
    rw [hspace₄]
    abel
  · rw [hself]
    exact hsz
  · rw [hself]
    show (space s₄.mem d).Closed
    rw [hspace₄]
    exact hclosed₃

/-- Every page of the process is mapped. -/
def AllMapped (s : State) (p : Slot) : Prop :=
  ∀ v < pageUp (s.proc p).sz, Present ((space s.mem (s.proc p).pgdir).pte v)

theorem exec_spec (h : Sound L s) (hcur : (s.proc cur).Live) (im : Image)
    (argv : List (List UInt8)) (hok : ∀ arg ∈ argv, ArgOk E arg) :
    Sat E (exec L cur im argv) s fun _ s' => Sound L s' ∧
      (s'.proc cur).state = (s.proc cur).state ∧ (AllMapped s cur → AllMapped s' cur) := by
  obtain ⟨lost, hown⟩ := h.owned
  -- nothing has changed but the free list
  have hsame : ∀ s', Frame (inUse s + lost) s s' → Owned L s' (inUse s + lost) → Sound L s' ∧
      (s'.proc cur).state = (s.proc cur).state ∧ (AllMapped s cur → AllMapped s' cur) := by
    intro s' hframe hown'
    have hspace : space s'.mem (s.proc cur).pgdir = space s.mem (s.proc cur).pgdir :=
      hframe.space fun x hx => by
        rw [inUse_live hcur]
        exact Multiset.mem_add.2 (Or.inl hx)
    refine ⟨h.same (hframe.mono fun x hx => Multiset.mem_add.2 (Or.inl hx)) ⟨lost, hown'⟩,
      by rw [hframe.proc], fun hall => ?_⟩
    unfold AllMapped
    rw [hframe.proc, hspace]
    exact hall
  have hbad : ∀ (d : Nat) (S : Space) (s' : State), Has L d S (inUse s + lost) s' →
      Frame (inUse s + lost) s s' → Sat E (execBad L d) s' fun _ s' => Sound L s' ∧
        (s'.proc cur).state = (s.proc cur).state ∧ (AllMapped s cur → AllMapped s' cur) := by
    intro d S s' hS hframe
    refine wp_bind (freevm_spec hS) ?_
    rintro - s'' ⟨hown', hframe'⟩
    exact wp_pure (hsame s'' (hframe.trans hframe') hown')
  refine wp_ite (fun _ => wp_pure ⟨h, rfl, id⟩) fun _ => wp_bind (setupkvm_spec hown) ?_
  rintro (_ | d) s₁ ⟨hframe₁, hcases⟩
  · exact wp_pure (hsame s₁ hframe₁ hcases.1)
  · obtain ⟨-, S, hS, hfresh⟩ := hcases
    refine wp_bind (execLoad_spec im.phdrs 0 hS hfresh.built) ?_
    rintro (_ | sz) s₂ ⟨hframe₂, S₂, h₂, hclosed₂, hload⟩
    · exact hbad d S₂ s₂ h₂ (hframe₁.trans hframe₂)
    · refine wp_bind (execStack_spec (hload sz rfl) argv h₂ hok) ?_
      rintro (_ | sz') s₃ ⟨hframe₃, S₃, h₃, hclosed₃, hbuilt₃⟩
      · exact hbad d S₃ s₃ h₃ ((hframe₁.trans hframe₂).trans hframe₃)
      · have hframe₁₂ := hframe₁.trans hframe₂
        have hbuilt := hbuilt₃ sz' rfl
        refine wp_get_bind ?_
        dsimp only
        rw [hframe₃.proc, hframe₁₂.proc]
        refine wp_modify_bind (wp_bind (commit_spec h hcur (hframe₁₂.trans hframe₃) h₃ hclosed₃
          hbuilt.le) ?_)
        rintro - s₄ ⟨h₄, hspace₄, hself⟩
        refine wp_pure ⟨h₄, by rw [hself], fun _ v hv => ?_⟩
        rw [hself] at hv ⊢
        dsimp only at hv ⊢
        rw [hspace₄]
        exact hbuilt.full v hv

end Exec

end Cs350.Vm
