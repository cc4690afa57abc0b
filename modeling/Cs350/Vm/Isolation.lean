import Cs350.Vm.Exec
import Mathlib.Algebra.Order.Sub.Defs
import Mathlib.Data.Multiset.UnionInter

set_option autoImplicit false

/-! # Isolation

Runs of the system: the kernel boots, and then processes make calls, one after another, with any
pattern of failures of `kalloc`, and write to their memory in between. Every call keeps `Sound`, so
no page ever has two owners. A call that panics is not part of a run: the system ends there. -/

namespace Cs350.Vm

open Sched (Slot ProcState slots)
open Prog Transition

/-! ## The remaining calls -/

section Calls

variable {L : Layout} {E : Panic → Prop} {s s' : State} {cur : Slot}

/-- Only the states and parents of processes change. -/
theorem Sound.relabel (h : Sound L s) (hmem : s'.mem = s.mem) (hfree : s'.freelist = s.freelist)
    (hk : s'.kpgdir = s.kpgdir) (hpipe : s'.pipe = s.pipe)
    (hproc : ∀ p, (s'.proc p).kstack = (s.proc p).kstack ∧ (s'.proc p).pgdir = (s.proc p).pgdir ∧
      (s'.proc p).sz = (s.proc p).sz)
    (hunused : ∀ p, (s'.proc p).state = .unused ↔ (s.proc p).state = .unused)
    (hlive : ∀ p, (s'.proc p).Live ↔ (s.proc p).Live) : Sound L s' := by
  have hpages : ∀ p, (s'.proc p).pages s'.mem = (s.proc p).pages s.mem := fun p => by
    obtain ⟨hkstack, hpgdir, -⟩ := hproc p
    unfold Proc.pages
    simp only [hkstack, hpgdir, hmem, hunused p, hlive p]
  have hinUse : inUse s' = inUse s := by
    have hkernel : kernelPages s' = kernelPages s :=
      kernelPages_congr (fun x _ => by rw [hmem]) hk hpipe
    unfold inUse procPages
    rw [hkernel, Finset.sum_congr rfl fun p _ => hpages p]
  obtain ⟨lost, hown⟩ := h.owned
  refine ⟨⟨lost, hown.congr hfree (by rw [hinUse])⟩, fun p hp => ?_, fun p hp => ?_⟩
  · rw [(hproc p).2.2]
    exact h.size p ((hlive p).1 hp)
  · rw [hmem, (hproc p).2.1]
    exact h.closed p ((hlive p).1 hp)

theorem exit_spec (hE : E .initExiting) (h : Sound L s) (hcur : (s.proc cur).Live) :
    Sat E (exit cur) s fun _ s' => Sound L s' := by
  refine wp_get_bind (wp_ite (fun _ => wp_stop hE) fun _ => wp_modify ?_)
  refine h.relabel rfl rfl rfl rfl (fun p => ?_) (fun p => ?_) fun p => ?_
  · dsimp only
    split_ifs <;> exact ⟨rfl, rfl, rfl⟩
  · dsimp only
    by_cases hp : p = cur
    · rw [if_pos hp, hp]
      exact ⟨fun heq => (nomatch heq), fun heq => absurd heq hcur.1⟩
    · rw [if_neg hp]
      split_ifs <;> rfl
  · dsimp only
    by_cases hp : p = cur
    · rw [if_pos hp, hp]
      exact ⟨fun _ => hcur, fun _ => Proc.live_of_state (s := .zombie) rfl (by decide) (by decide)⟩
    · rw [if_neg hp]
      split_ifs <;> rfl

theorem wait_spec (h : Sound L s) : Sat E (wait L cur) s fun _ s' => Sound L s' := by
  refine wp_get_bind ?_
  split
  next => exact wp_pure h
  next p hfind =>
    have hzombie : (s.proc p).state = .zombie := by
      have := List.find?_some hfind
      simp only [decide_eq_true_eq] at this
      exact this.2
    have hlive : (s.proc p).Live := Proc.live_of_state hzombie (by decide) (by decide)
    obtain ⟨lost, hhas⟩ := h.has hlive
    have hown : Owned L s ({(s.proc p).kstack} +
        ((space s.mem (s.proc p).pgdir).foot (s.proc p).pgdir + (others s p + lost))) :=
      hhas.owned.congr rfl (by abel)
    refine wp_bind (kfree_spec hown) ?_
    rintro - s₁ ⟨hown₁, hframe₁⟩
    refine wp_modify_bind ?_
    have hspace : space s₁.mem (s.proc p).pgdir = space s.mem (s.proc p).pgdir :=
      hframe₁.space fun x hx => Multiset.mem_add.2 (Or.inl hx)
    refine wp_bind (freevm_spec (S := space s.mem (s.proc p).pgdir) (R := others s p + lost)
      ⟨hspace, hown₁⟩) ?_
    rintro - s₂ ⟨hown₂, hframe₂⟩
    refine wp_modify_bind (wp_pure ?_)
    have hdead : ∀ f : Proc → Proc, (f (s₂.proc p)).state = .unused →
        ((s₂.setProc p f).proc p).state = .unused := fun f hf => by rw [State.setProc_self, hf]
    refine h.change (p := p) (fun q hq => ?_) ⟨fun x hx => ?_, rfl, ?_, ?_, ?_⟩
      ⟨lost, hown₂.congr rfl ?_⟩ (fun hl => absurd (hdead _ rfl) hl.1)
      fun hl => absurd (hdead _ rfl) hl.1
    · rw [State.setProc_of_ne _ _ hq, hframe₂.proc, State.setProc_of_ne _ _ hq, hframe₁.proc]
    · have hx' : x ∈ others s p + lost := Multiset.mem_add.2 (Or.inl hx)
      exact (hframe₂.mem x hx').trans (hframe₁.mem x (Multiset.mem_add.2 (Or.inr hx')))
    · exact hframe₂.initproc.trans hframe₁.initproc
    · exact hframe₂.kpgdir.trans hframe₁.kpgdir
    · exact hframe₂.pipe.trans hframe₁.pipe
    · rw [Proc.pages_unused (hdead _ rfl), zero_add]

/-- Only the kernel's own pages change. -/
theorem Sound.kernel (h : Sound L s) (hproc : s'.proc = s.proc)
    (hmem : ∀ x ∈ procPages s, s'.mem x = s.mem x)
    (hown : ∃ lost, Owned L s' (procPages s + (kernelPages s' + lost))) : Sound L s' := by
  have hpages : ∀ p, ∀ x ∈ (s.proc p).pages s.mem, s'.mem x = s.mem x := fun p x hx =>
    hmem x (Multiset.mem_sum.2 ⟨p, Finset.mem_univ p, hx⟩)
  have hprocs : procPages s' = procPages s := by
    unfold procPages
    rw [hproc]
    exact Finset.sum_congr rfl fun p _ => Proc.pages_congr (hpages p)
  obtain ⟨lost, hown⟩ := hown
  refine ⟨⟨lost, hown.congr rfl (by rw [inUse, hprocs, add_assoc])⟩, fun p hp => ?_, fun p hp => ?_⟩
  · rw [hproc] at hp ⊢
    exact h.size p hp
  · rw [hproc] at hp ⊢
    have hspace := space_congr_foot fun x hx => hpages p x (by
      rw [Proc.pages_live hp]
      exact Multiset.mem_add.2 (Or.inr hx))
    rw [hspace]
    exact h.closed p hp

/-- The kernel's pages when a pipe is made or goes away. -/
theorem pipePages_update (pipe : Nat → Option Ends) {x : Nat} (hx : x < phyStop / pgSize)
    (e : Option Ends) :
    pipePages (Function.update pipe x e) + held ((pipe x).map fun _ => x)
      = pipePages pipe + held (e.map fun _ => x) := by
  have h := holdings.update_add (f := fun y => (pipe y).map fun _ => y)
    (g := fun y => (Function.update pipe x e y).map fun _ => y) hx
    fun y hy => by rw [Function.update_of_ne hy]
  rw [Function.update_self] at h
  exact h

theorem mem_inUse_of_pipe {x : Nat} {e : Ends} (hx : x < phyStop / pgSize)
    (hpipe : s.pipe x = some e) : x ∈ inUse s := by
  have hmem : x ∈ pipePages s.pipe := holdings.mem_iff.2 ⟨x, hx, by rw [hpipe]; rfl⟩
  exact Multiset.mem_add.2 (Or.inr (Multiset.mem_add.2 (Or.inr hmem)))

theorem pipealloc_spec (h : Sound L s) (files : Bool) :
    Sat E (pipealloc files) s fun _ s' => Sound L s' := by
  obtain ⟨lost, hown⟩ := h.owned
  refine wp_ite (fun _ => wp_pure h) fun _ => wp_bind (kalloc_spec hown) ?_
  rintro (_ | x) s₁ ⟨hframe, hmem, hcases⟩
  · exact wp_pure (h.same (hframe.mono fun y hy => Multiset.mem_add.2 (Or.inl hy))
      ⟨lost, hcases.2.2⟩)
  · obtain ⟨-, hown₁⟩ := hcases
    have hx : x ∈ ({x} : Multiset Nat) + (inUse s + lost) := by simp
    have hlt : x < phyStop / pgSize := (hown₁.bounds hx).2
    have hnone : s.pipe x = none := by
      cases hpipe : s.pipe x with
      | none => rfl
      | some e =>
          refine absurd (mem_inUse_of_pipe hlt hpipe) fun hin => ?_
          exact hown₁.notMem_of_mem (Multiset.mem_singleton_self x)
            (Multiset.mem_add.2 (Or.inl hin))
    have hpipes := pipePages_update s.pipe hlt (some ⟨true, true⟩)
    rw [hnone, Option.map_none, held_none, add_zero, Option.map_some, held_some] at hpipes
    refine wp_modify_bind (wp_pure (h.kernel hframe.proc (fun y _ => ?_) ⟨lost, hown₁.congr rfl ?_⟩))
    · exact congrFun hmem y
    · show _ = procPages s + (s₁.kpgdir.elim 0 (footOf s₁.mem)
        + pipePages (Function.update s₁.pipe x _) + lost)
      rw [hframe.kpgdir, hframe.pipe, hmem, hpipes, inUse, kernelPages]
      abel

theorem pipeclose_spec (hE : E .kfree) (h : Sound L s) (x : Nat) (writable : Bool) :
    Sat E (pipeclose L x writable) s fun _ s' => Sound L s' := by
  obtain ⟨lost, hown⟩ := h.owned
  refine wp_get_bind ?_
  split
  next => exact wp_pure h
  next e hpipe =>
    refine wp_ite (fun _ => wp_modify_bind ?_) fun _ => wp_modify ?_
    · by_cases hlt : x < phyStop / pgSize
      · have hpipes := pipePages_update s.pipe hlt none
        rw [hpipe, Option.map_some, held_some, Option.map_none, held_none, add_zero] at hpipes
        have hpages : kernelPages s
            = {x} + kernelPages { s with pipe := Function.update s.pipe x none } := by
          unfold kernelPages
          rw [← hpipes]
          abel
        have hown' : Owned L { s with pipe := Function.update s.pipe x none } ({x} +
            (procPages s + (kernelPages { s with pipe := Function.update s.pipe x none } + lost))) :=
          hown.congr rfl (by rw [inUse, hpages]; abel)
        refine wp_mono (kfree_spec hown') ?_
        rintro - s' ⟨hown₁, hframe⟩
        have hsame : kernelPages s' = kernelPages { s with pipe := Function.update s.pipe x none } :=
          kernelPages_congr (fun y hy => hframe.mem y (Multiset.mem_add.2 (Or.inr
            (Multiset.mem_add.2 (Or.inl hy))))) hframe.kpgdir hframe.pipe
        refine h.kernel hframe.proc (fun y hy => hframe.mem y (Multiset.mem_add.2 (Or.inl hy)))
          ⟨lost, hown₁.congr rfl (by rw [hsame])⟩
      · exact wp_ite (fun _ => wp_stop hE) fun hok => absurd (Nat.not_lt.1 hlt) (not_or.1 hok).2
    · -- the other end is still open
      have hpipes : pipePages (Function.update s.pipe x (some (e.close writable)))
          = pipePages s.pipe := holdings.ext fun y _ => by
        by_cases hyx : y = x
        · rw [hyx, Function.update_self, hpipe]
          rfl
        · rw [Function.update_of_ne hyx]
      refine h.kernel rfl (fun _ _ => rfl) ⟨lost, hown.congr rfl ?_⟩
      show _ = procPages s + (s.kpgdir.elim 0 (footOf s.mem) + pipePages _ + lost)
      rw [hpipes, inUse, kernelPages]
      abel

theorem kvmalloc_spec (h : Sound L s) : Sat E (kvmalloc L) s fun _ s' => Sound L s' := by
  obtain ⟨lost, hown⟩ := h.owned
  refine wp_bind (setupkvm_spec hown) ?_
  rintro r s₁ ⟨hframe, hcases⟩
  refine wp_modify (h.kernel hframe.proc (fun y hy => ?_) ?_)
  · exact hframe.mem y (Multiset.mem_add.2 (Or.inl (Multiset.mem_add.2 (Or.inl hy))))
  · -- the old page table, if there was one, is lost
    cases r with
    | none =>
        obtain ⟨hown₁, -⟩ := hcases
        have hkernel : kernelPages { s₁ with kpgdir := none } = pipePages s.pipe := by
          rw [kernelPages, hframe.pipe]
          exact zero_add _
        refine ⟨s.kpgdir.elim 0 (footOf s.mem) + lost, hown₁.congr rfl ?_⟩
        rw [hkernel, inUse, kernelPages]
        abel
    | some d =>
        obtain ⟨-, S, hS, -⟩ := hcases
        have hkernel : kernelPages { s₁ with kpgdir := some d } = S.foot d + pipePages s.pipe := by
          rw [kernelPages, hframe.pipe, Option.elim_some, footOf, hS.space]
        refine ⟨s.kpgdir.elim 0 (footOf s.mem) + lost, hS.owned.congr rfl ?_⟩
        rw [hkernel, inUse, kernelPages]
        abel

/-- The first process: one page, open to the user, and nothing above it. -/
structure First (s s' : State) (p : Slot) : Prop where
  state : (s'.proc p).state = .runnable
  size : (s'.proc p).sz = pgSize
  page : 70 ≤ s.credits → ∃ x, (space s'.mem (s'.proc p).pgdir).pte 0 = x * pgSize + 7
  clear : ∀ u, 1 ≤ u → u < userPages → (space s'.mem (s'.proc p).pgdir).pte u = 0
  credits : s.credits ≤ s'.credits + 70

theorem inituvm_spec {S : Space} {R : Multiset Nat} {d : Nat} (init : List UInt8)
    (hE : 0 < s.credits ∨ E .fault) (h : Has L d S R s) (hfresh : Fresh S) :
    Sat E (inituvm d init) s fun _ s' => Frame R s s' ∧ ∃ S' lost, Has L d S' (lost + R) s' ∧
      S'.Closed ∧ (∀ u, 1 ≤ u → u < userPages → S'.pte u = 0) ∧
      (2 ≤ s.credits → ∃ x, S'.pte 0 = x * pgSize + 7) ∧ s.credits ≤ s'.credits + 2 := by
  refine wp_bind (kalloc_spec h.owned) ?_
  rintro (_ | x) s₁ ⟨hframe, hmem, hcases⟩
  · exact wp_stop (hE.resolve_left (by omega))
  · obtain ⟨hcredits, hown⟩ := hcases
    obtain ⟨h₁, hframe₁⟩ := h.hand hframe hown (filled 0)
    have hzero : S.pte 0 = 0 := hfresh.pte 0 (by decide)
    have hflags : pteW ||| pteU < pgSize := by decide
    have hmap := mappages_page_spec (E := E) (v := 0) h₁ (by decide) hflags
      (Or.inl (by rw [hzero]; exact not_present_zero))
    rw [Nat.zero_mul, pteWU] at hmap
    have hcredits₁ : (s₁.setPage x (filled 0)).credits = s₁.credits := rfl
    refine wp_modify_bind (wp_bind hmap ?_)
    have hxR : x ∉ R := fun hx =>
      hown.notMem_of_mem (Multiset.mem_singleton_self x) (Multiset.mem_add.2 (Or.inr hx))
    rintro ok s₂ ⟨hframe₂, hok⟩
    have hframe' : ∀ m, Frame R s (s₂.setPage x m) := fun m => by
      have hframe₂' := hframe₁.trans (hframe₂.mono fun p hp => Multiset.mem_add.2 (Or.inr hp))
      refine { hframe₂' with mem := fun p hp => ?_ }
      have hpx : p ≠ x := fun heq => hxR (heq ▸ hp)
      exact (Function.update_of_ne hpx ..).trans (hframe₂'.mem p hp)
    refine wp_modify ⟨hframe' _, ?_⟩
    cases ok with
    | false =>
        -- the page is not mapped, and lost
        obtain ⟨hzero', -, h₂⟩ := hok
        refine ⟨S, {x}, h₂.write_other (by simp) _, hfresh.closed, fun u _ hlt => hfresh.pte u hlt,
          fun hge => by omega, by omega⟩
    | true =>
        obtain ⟨t, S', hwalked, h₂⟩ := hok
        have hpte : (S'.setPte 0 (x * pgSize + 7)).pte 0 = x * pgSize + 7 := S'.setPte_self ..
        have hsame : ∀ u, u ≠ 0 → (S'.setPte 0 (x * pgSize + 7)).pte u = S.pte u := fun u hu => by
          rw [S'.setPte_of_ne _ hu, hwalked.pte]
        have hpage : pageAt ((S'.setPte 0 (x * pgSize + 7)).pte 0) = some x := by
          rw [hpte]
          exact pageAt_add (by decide) rfl
        have hspent : s₁.credits ≤ s₂.credits + 1 := by
          rcases hwalked with ⟨-, -, heq⟩ | ⟨-, -, heq⟩ <;> omega
        have hcredits₂ : (s₂.setPage x (write (s₂.mem x) 0 init)).credits = s₂.credits := rfl
        have h₃ := (h₂.write (by decide) hpage (write (s₂.mem x) 0 init)).1
        refine ⟨_, 0, by rwa [zero_add], ?_, fun u hu hlt => ?_, fun _ => ⟨x, hpte⟩, by omega⟩
        · intro u hu
          have huser : userPages = 2 ^ 19 := rfl
          rw [hsame u (by omega)]
          exact hfresh.user u
        · rw [hsame u (by omega)]
          exact hfresh.pte u hlt

theorem userinit_spec (h : Sound L s) (init : List UInt8)
    (hE : (∃ p, (s.proc p).state = .unused) ∧ 70 ≤ s.credits ∨ E .fault ∧ E .userinit) :
    Sat E (userinit L init) s fun _ s' => Sound L s' ∧ ∃ p, First s s' p := by
  obtain ⟨lost, hown⟩ := h.owned
  refine wp_bind (allocproc_spec hown) ?_
  rintro (_ | p) s₁ ⟨hframe₁, hmem₁, hcases⟩
  · obtain ⟨-, hcases⟩ := hcases
    refine wp_stop (hE.elim (fun ⟨⟨p, hp⟩, hge⟩ => ?_) And.left)
    rcases hcases with ⟨-, hno⟩ | ⟨hzero, -⟩
    · exact absurd hp (hno p)
    · omega
  · obtain ⟨hunused, hcredits₁, q, hq, hproc, hown₁⟩ := hcases
    have hinUse : inUse s = others s p := by
      rw [inUse_eq s p, Proc.pages_unused hunused, zero_add]
    have hp₁ : s₁.proc p = q := by rw [hproc, Function.update_self]
    have hown₁' : Owned L { s₁ with initproc := p } ({q.kstack} + (inUse s + lost)) := hown₁
    refine wp_modify_bind (wp_bind (setupkvm_spec hown₁') ?_)
    rintro (_ | d) s₂ ⟨hframe₂, hcases⟩
    · refine wp_stop (hE.elim (fun ⟨_, hge⟩ => ?_) And.right)
      have hlt : s₁.credits < 65 := hcases.2
      omega
    · obtain ⟨hcredits₂, S, hS, hfresh⟩ := hcases
      have hcredits₂' : s₂.credits + 65 = s₁.credits := hcredits₂
      refine wp_bind (inituvm_spec init ?_ hS hfresh) ?_
      · exact hE.imp (fun ⟨_, hge⟩ => by omega) And.left
      · rintro - s₃ ⟨hframe₃, S', lost', h₃, hclosed, hclear, hpage, hcredits₃⟩
        have hframe := hframe₂.trans hframe₃
        have hproc₃ : s₃.proc = s₁.proc := hframe.proc
        refine wp_modify ⟨?_, p, ?_, ?_, ?_, ?_, ?_⟩
        · have h' : Sound L { s with initproc := p } := ⟨h.owned, h.size, h.closed⟩
          refine h'.change (p := p) (fun q' hq' => ?_) ⟨fun x hx => ?_, rfl, ?_, ?_, ?_⟩
            ⟨lost' + lost, ?_⟩ (fun _ => ?_) fun _ => ?_
          · rw [State.setProc_of_ne _ _ hq', hproc₃, hproc, Function.update_of_ne hq']
          · have hx' : x ∈ inUse s + lost :=
              Multiset.mem_add.2 (Or.inl (mem_inUse_of_others (p := p) hx))
            have hmem := hframe.mem x (Multiset.mem_add.2 (Or.inr hx'))
            exact hmem.trans (congrFun hmem₁ x)
          · exact hframe.initproc
          · exact hframe.kpgdir.trans hframe₁.kpgdir
          · exact hframe.pipe.trans hframe₁.pipe
          · refine h₃.owned.congr rfl ?_
            rw [State.setProc_self,
              Proc.pages_live (Proc.live_of_state (s := .runnable) rfl (by decide) (by decide)),
              footOf, hinUse]
            show _ = {(s₃.proc p).kstack} + (space s₃.mem d).foot d + (others s p + _)
            rw [hproc₃, hp₁, h₃.space]
            abel
          · rw [State.setProc_self]
            show pgSize ≤ kernBase
            decide
          · rw [State.setProc_self]
            show (space s₃.mem d).Closed
            rw [h₃.space]
            exact hclosed
        · rw [State.setProc_self]
        · rw [State.setProc_self]
        · intro hge
          rw [State.setProc_self]
          show ∃ x, (space s₃.mem d).pte 0 = x * pgSize + 7
          rw [h₃.space]
          exact hpage (by omega)
        · intro u hu hlt
          rw [State.setProc_self]
          show (space s₃.mem d).pte u = 0
          rw [h₃.space]
          exact hclear u hu hlt
        · show s.credits ≤ s₃.credits + 70
          omega

end Calls

/-! ## Writes of the processes to their own memory -/

/-- The running process writes bytes to one of its pages. If the page table does not allow this, it
    gets a fault, and nothing is written. -/
def userWrite (cur : Slot) (va : Nat) (bytes : List UInt8) : VmM Unit :=
  get >>= fun s =>
    walkpgdir (s.proc cur).pgdir va false >>= fun
      | none => pure ()
      | some (pgtab, i) =>
          get >>= fun s =>
            match userPage (s.entry pgtab i) with
            | none => pure ()
            | some page => modify fun s => s.setPage page (write (s.mem page) (va % pgSize) bytes)

theorem userWrite_spec {L : Layout} {E : Panic → Prop} {s : State} {cur : Slot} (h : Sound L s)
    (hcur : (s.proc cur).Live) {va : Nat} (hva : va < 2 ^ 32) (bytes : List UInt8) :
    Sat E (userWrite cur va bytes) s fun _ s' => Sound L s' ∧
      ∀ x, userPage ((space s.mem (s.proc cur).pgdir).pte (va / pgSize)) = some x →
        s' = s.setPage x (write (s.mem x) (va % pgSize) bytes) := by
  obtain ⟨lost, hhas⟩ := h.has hcur
  have hcl := h.closed cur hcur
  have hpdx : pdx va = va / pgSize / 1024 := by
    unfold pdx pgSize
    omega
  have hptx : ptx va = va / pgSize % 1024 := by
    unfold ptx pgSize
    omega
  refine wp_get_bind (wp_bind (walkpgdir_spec hhas.space va) ?_)
  rintro r s' ⟨rfl, rfl⟩
  rw [hpdx, hptx]
  cases ht : (space s'.mem (s'.proc cur).pgdir).tab (va / pgSize / 1024) with
  | none =>
      refine wp_pure ⟨h, fun x hx => ?_⟩
      rw [pte_of_no_tab ht] at hx
      exact nomatch hx
  | some t =>
      have hentry := hhas.pte_eq ht
      refine wp_get_bind ?_
      rw [hentry]
      split
      next hnone => exact wp_pure ⟨h, fun x hx => by rw [hnone] at hx; exact nomatch hx⟩
      next x hx =>
        rw [← hentry] at hx
        have hPU : Present ((space s'.mem (s'.proc cur).pgdir).pte (va / pgSize)) ∧
            User ((space s'.mem (s'.proc cur).pgdir).pte (va / pgSize)) := by
          by_contra hno
          rw [userPage, if_neg hno] at hx
          exact nomatch hx
        have hpage : pageAt ((space s'.mem (s'.proc cur).pgdir).pte (va / pgSize)) = some x := by
          rw [pageAt_of_present hPU.1, ← hx, userPage, if_pos hPU]
        have hv : va / pgSize < userPages := by
          by_contra hge
          exact hcl _ (Nat.not_lt.1 hge) hPU.2
        obtain ⟨h₁, hframe₁⟩ := hhas.write hv hpage (write (s'.mem x) (va % pgSize) bytes)
        refine wp_modify ⟨?_, fun y hy => ?_⟩
        · rw [← setProc_id (s'.setPage x _) cur]
          exact h.put hcur hframe₁ h₁ hcl rfl rfl (h.size cur hcur)
        · rw [← hentry, hx] at hy
          obtain rfl := Option.some.inj hy
          rfl

/-! ## Runs -/

/-- What can happen to the memory: the kernel boots, a running process makes a call or writes to
    its memory, an end of a pipe is closed. -/
inductive Call
  | kvmalloc
  | userinit (init : List UInt8)
  | fork (cur : Slot)
  | exec (cur : Slot) (im : Image) (argv : List (List UInt8))
  | sbrk (cur : Slot) (n : Int)
  | exit (cur : Slot)
  | wait (cur : Slot)
  | pipe (files : Bool)
  | close (page : Nat) (writable : Bool)
  | userWrite (cur : Slot) (va : Nat) (bytes : List UInt8)

/-- The process can run. -/
def Proc.Runs (q : Proc) : Prop := q.Live ∧ q.state ≠ .zombie

namespace Call

def run (L : Layout) : Call → VmM Unit
  | kvmalloc => Vm.kvmalloc L
  | userinit init => Vm.userinit L init
  | fork cur => Vm.fork L cur >>= fun _ => pure ()
  | exec cur im argv => Vm.exec L cur im argv >>= fun _ => pure ()
  | sbrk cur n => growproc L cur n >>= fun _ => pure ()
  | exit cur => Vm.exit cur
  | wait cur => Vm.wait L cur >>= fun _ => pure ()
  | pipe files => pipealloc files >>= fun _ => pure ()
  | close page writable => pipeclose L page writable
  | userWrite cur va bytes => Vm.userWrite cur va bytes

/-- When a call can be made. The arguments of `exec` are strings in the memory of the caller. -/
def Allowed (s : State) : Call → Prop
  | kvmalloc => s.kpgdir = none
  | userinit _ => ∀ p, (s.proc p).state = .unused
  | fork cur => (s.proc cur).Runs
  | exec cur _ argv => (s.proc cur).Runs ∧
      ∀ arg ∈ argv, (0 : UInt8) ∉ arg ∧ arg.length < (s.proc cur).sz
  | sbrk cur n => (s.proc cur).Runs ∧ -2 ^ 31 ≤ n ∧ n < 2 ^ 31
  | exit cur => (s.proc cur).Runs
  | wait cur => (s.proc cur).Runs
  | pipe _ => True
  | close _ _ => True
  | userWrite cur va bytes => (s.proc cur).Runs ∧ va < 2 ^ 32 ∧ va % pgSize + bytes.length ≤ pgSize

end Call

/-- A call, with the failures of `kalloc` during the call. It does not panic. -/
def Step (L : Layout) (s : State) (a : List Bool × Call) (s' : State) : Prop :=
  a.2.Allowed s ∧ (a.2.run L { s with fails := a.1 }).2 = .ok ((), s')

/-- Before the first process: all pages are free or not yet given to `kalloc`. -/
structure Boot (L : Layout) (s : State) : Prop where
  proc : ∀ p, (s.proc p).state = .unused
  kpgdir : s.kpgdir = none
  pipe : ∀ x, s.pipe x = none
  nodup : s.freelist.Nodup
  range : ∀ p ∈ s.freelist, p ∈ pages L

theorem Boot.sound {L : Layout} {s : State} (h : Boot L s) : Sound L s := by
  have hprocs : procPages s = 0 := Finset.sum_eq_zero fun p _ => Proc.pages_unused (h.proc p)
  have hkernel : kernelPages s = 0 := by
    have hpipes : pipePages s.pipe = 0 := holdings.eq_zero fun x _ => by rw [h.pipe x]; rfl
    rw [kernelPages, h.kpgdir, hpipes]
    rfl
  have hle : (s.freelist : Multiset Nat) ≤ (pages L).val :=
    (Multiset.le_iff_subset (Multiset.coe_nodup.2 h.nodup)).2 fun p hp =>
      h.range p (Multiset.mem_coe.1 hp)
  refine ⟨⟨(pages L).val - s.freelist, ?_⟩, fun p hp => absurd (h.proc p) hp.1,
    fun p hp => absurd (h.proc p) hp.1⟩
  rw [Owned, inUse, hprocs, hkernel, zero_add, zero_add]
  exact add_tsub_cancel_of_le hle

/-- Before the first process: 56944 free pages. -/
def boot : State where
  mem _ := filled 0
  freelist := List.range' 400 56944
  fails := []
  proc _ := ⟨.unused, 0, 0, 0, none⟩
  initproc := 0
  kpgdir := none
  pipe _ := none

theorem boot_ok : Boot layout boot where
  proc _ := rfl
  kpgdir := rfl
  pipe _ := rfl
  nodup := List.nodup_range'
  range p hp := by
    obtain ⟨i, hi, rfl⟩ := List.mem_range'.1 hp
    rw [pages, Finset.mem_Ico]
    show 400 ≤ _ ∧ _ < 57344
    omega

theorem Call.run_spec {L : Layout} {s : State} {call : Call} (h : Sound L s)
    (hallowed : call.Allowed s) :
    Sat (fun _ => True) (call.run L) s fun _ s' => Sound L s' := by
  cases call with
  | kvmalloc => exact kvmalloc_spec h
  | userinit init =>
      exact wp_mono (userinit_spec h init (Or.inr ⟨trivial, trivial⟩)) fun _ _ h' => h'.1
  | fork cur =>
      exact wp_bind (fork_spec h hallowed.1 (Or.inr ⟨trivial, trivial⟩))
        fun _ _ h' => wp_pure h'.1
  | exec cur im argv =>
      have hok : ∀ arg ∈ argv, ArgOk (fun _ => True) arg := fun arg harg =>
        Or.inr ⟨trivial, (hallowed.2 arg harg).2.trans_le (h.size cur hallowed.1.1)⟩
      exact wp_bind (exec_spec h hallowed.1.1 im argv hok) fun _ _ h' => wp_pure h'.1
  | sbrk cur n =>
      exact wp_bind (growproc_spec trivial h hallowed.1.1 n) fun _ _ h' => wp_pure h'
  | exit cur => exact exit_spec trivial h hallowed.1
  | wait cur => exact wp_bind (wait_spec h) fun _ _ h' => wp_pure h'
  | pipe files => exact wp_bind (pipealloc_spec h files) fun _ _ h' => wp_pure h'
  | close page writable => exact pipeclose_spec trivial h page writable
  | userWrite cur va bytes =>
      exact wp_mono (userWrite_spec h hallowed.1.1 hallowed.2.1 bytes) fun _ _ h' => h'.1

/-- Which calls of `kalloc` fail does not matter. -/
theorem Sound.reset {L : Layout} {s : State} (h : Sound L s) (fails : List Bool) :
    Sound L { s with fails := fails } := ⟨h.owned, h.size, h.closed⟩

theorem step_sound {L : Layout} {s s' : State} {a : List Bool × Call} (h : Sound L s)
    (hstep : Step L s a s') : Sound L s' := by
  obtain ⟨hallowed, hrun⟩ := hstep
  have hallowed' : a.2.Allowed { s with fails := a.1 } := hallowed
  have hspec := wp_elim (Call.run_spec (h.reset a.1) hallowed') fun _ _ => trivial
  rw [hrun] at hspec
  exact hspec

/-! ## The first calls of a run -/

section First

variable {L : Layout} {s : State}

theorem credits_nil (n : Nat) : credits n [] = n := by
  induction n with
  | zero => rfl
  | succ n ih =>
      rw [credits, if_neg (by decide), List.tail_nil, ih]

theorem credits_le (n : Nat) (fails : List Bool) : credits n fails ≤ n := by
  induction n generalizing fails with
  | zero => exact le_rfl
  | succ n ih =>
      rw [credits]
      split_ifs
      · exact Nat.zero_le _
      · exact Nat.succ_le_succ (ih _)

/-- A call that does not panic is a step. -/
theorem step_of_sat (fails : List Bool) (call : Call) {Q : Unit → State → Prop}
    (hallowed : call.Allowed s)
    (h : Sat (fun _ => False) (call.run L) { s with fails := fails } Q) :
    ∃ s', Step L s (fails, call) s' ∧ Q () s' := by
  have hrun := wp_elim h fun _ _ => trivial
  cases hres : (call.run L { s with fails := fails }).2 with
  | error e =>
      rw [hres] at hrun
      exact hrun.elim
  | ok r =>
      obtain ⟨⟨⟩, s'⟩ := r
      rw [hres] at hrun
      exact ⟨s', ⟨hallowed, hres⟩, hrun⟩

/-- The result of the call is dropped. -/
theorem sat_void {α : Type} {m : VmM α} {Q : α → State → Prop} (h : Sat (fun _ => False) m s Q) :
    Sat (fun _ => False) (m >>= fun _ => pure ()) s fun _ s' => ∃ a, Q a s' :=
  wp_bind h fun a _ h' => wp_pure ⟨a, h'⟩

theorem kvmalloc_grows (h : Sound L s) (hcredits : 65 ≤ s.credits) :
    Sat (fun _ => False) (kvmalloc L) s fun _ s' => s'.proc = s.proc ∧
      s'.credits + 65 = s.credits := by
  obtain ⟨lost, hown⟩ := h.owned
  refine wp_bind (setupkvm_spec hown) ?_
  rintro (_ | d) s₁ ⟨hframe, hcases⟩
  · exact absurd hcases.2 (by omega)
  · exact wp_modify ⟨hframe.proc, hcases.1⟩

/-- The new size of the process: 8196 pages. -/
theorem growproc_grows {cur : Slot} (h : Sound L s) (hcur : (s.proc cur).Live)
    (hsz : (s.proc cur).sz = pgSize) (hpage : Present ((space s.mem (s.proc cur).pgdir).pte 0))
    (hclear : ∀ u, 1 ≤ u → u < userPages → (space s.mem (s.proc cur).pgdir).pte u = 0)
    (hcredits : 2 * 8196 ≤ s.credits) :
    Sat (fun _ => False) (growproc L cur (8195 * 4096)) s fun _ s' => Sound L s' ∧
      s'.proc cur = { s.proc cur with sz := 8196 * pgSize } ∧ AllMapped s' cur := by
  obtain ⟨lost, hhas⟩ := h.has hcur
  have hle := h.size cur hcur
  have hcl := h.closed cur hcur
  have hnew : (((pgSize : Int) + 8195 * 4096) % 2 ^ 32).toNat = 8196 * pgSize := by decide
  have hpages : pageUp (8196 * pgSize) = 8196 := rfl
  have hone : pageUp pgSize = 1 := rfl
  refine wp_get_bind ?_
  dsimp only
  rw [hsz, hnew]
  rw [hsz] at hle
  refine wp_ite (fun _ => wp_bind (allocuvm_spec hle hhas (Or.inl ?_)) ?_) fun hno =>
    absurd (by decide) hno
  · intro u hu hlt
    rw [hone] at hu
    rw [hclear u hu hlt]
    exact not_present_zero
  · rintro r s₁ ⟨hframe, S, hS, hsame, hcases⟩
    rw [hpages, hone] at hcases
    obtain ⟨hr, -, hgrown, -⟩ := hcases.resolve_right fun hno => by
      rcases hno.2 with hbig | hlt
      · exact absurd hbig (by decide)
      · omega
    have hmax : max pgSize (8196 * pgSize) = 8196 * pgSize := by decide
    rw [hmax] at hr
    subst hr
    have hclosed : S.Closed := hcl.of_same fun u hu => hsame u (Or.inr hu)
    have hself : (s₁.setProc cur fun q => { q with sz := 8196 * pgSize }).proc cur =
        { s.proc cur with sz := 8196 * pgSize } := by
      rw [State.setProc_self, hframe.proc]
    refine wp_ite (fun hzero => absurd hzero (by decide)) fun _ => wp_modify_bind (wp_pure
      ⟨h.put hcur hframe hS hclosed rfl rfl ?_, hself, fun u hu => ?_⟩)
    · show 8196 * pgSize ≤ kernBase
      decide
    · rw [hself] at hu ⊢
      show Present ((space s₁.mem (s.proc cur).pgdir).pte u)
      rw [hS.space]
      by_cases hfirst : u < 1
      · obtain rfl : u = 0 := by omega
        rw [hsame 0 (Or.inl (by decide))]
        exact hpage
      · change u < pageUp (8196 * pgSize) at hu
        rw [hpages] at hu
        exact hgrown.present u (Nat.not_lt.1 hfirst) (hu.trans_le (Nat.le_max_right ..))

theorem credits_boot : boot.credits = 56944 := by
  rw [State.credits]
  show credits (List.range' 400 56944).length [] = _
  rw [List.length_range', credits_nil]

/-- The next call starts with as many pages as the last one has left. -/
theorem credits_reset (s : State) : s.credits ≤ { s with fails := [] }.credits := by
  unfold State.credits
  rw [credits_nil]
  exact credits_le _ _

/-- The first process `p` grows to 8196 pages and executes a file. A first `fork` of it fails, for
    want of a page for the page directory of the child. -/
def firstCalls (p : Slot) : List (List Bool × Call) :=
  [([], .kvmalloc), ([], .userinit []), ([], .sbrk p (8195 * 4096)),
    ([], .exec p ⟨true, true, []⟩ [[47, 97], [98]]), ([false, true], .fork p), ([], .pipe true)]

end First

theorem run_sound {L : Layout} {s₀ s : State} {tr : List (State × (List Bool × Call))}
    (h : Sound L s₀) (hrun : Run (Step L) s₀ tr s) : Along (Sound L) tr s :=
  hrun.invariant h fun _ _ _ h' hs => step_sound h' hs

/-- **No page ever has two owners**, in any run. -/
theorem isolated_along {L : Layout} {s₀ s : State} {tr : List (State × (List Bool × Call))}
    (hboot : Boot L s₀) (hrun : Run (Step L) s₀ tr s) : Along Isolated tr s := by
  obtain ⟨hall, hlast⟩ := run_sound hboot.sound hrun
  exact ⟨fun x hx => (hall x hx).isolated, hlast.isolated⟩

theorem isolated_first : ∃ p tr s, tr.map Prod.snd = firstCalls p ∧
    Run (Step layout) boot tr s ∧ Along Isolated tr s := by
  have hsound := boot_ok.sound
  have hcredits := credits_boot
  have hreset := credits_reset boot
  obtain ⟨s₁, hstep₁, hproc₁, hcredits₁⟩ := step_of_sat [] .kvmalloc boot_ok.kpgdir
    (kvmalloc_grows hsound (by omega))
  have hsound₁ := step_sound hsound hstep₁
  have hunused : ∀ p, (s₁.proc p).state = .unused := fun p => by rw [hproc₁]; rfl
  have hreset₁ := credits_reset s₁
  obtain ⟨s₂, hstep₂, hsound₂, p, hfirst⟩ := step_of_sat [] (.userinit []) hunused
    (userinit_spec (hsound₁.reset []) [] (Or.inl ⟨⟨0, hunused 0⟩, by omega⟩))
  -- from here on the process can run
  have hlive : (s₂.proc p).Live := Proc.live_of_state hfirst.state (by decide) (by decide)
  have hruns : (s₂.proc p).Runs := ⟨hlive, by rw [hfirst.state]; decide⟩
  obtain ⟨f, hpte⟩ := hfirst.page (by omega)
  have hpage : Present ((space s₂.mem (s₂.proc p).pgdir).pte 0) := by
    rw [hpte]
    exact (pageAt_eq_some.1 (pageAt_add (p := f) (by decide) rfl)).1
  have hcredits₂ := hfirst.credits
  have hreset₂ := credits_reset s₂
  obtain ⟨s₃, hstep₃, -, hsound₃, hproc₃, hmapped₃⟩ := step_of_sat [] (.sbrk p (8195 * 4096))
    ⟨hruns, by decide, by decide⟩ (sat_void (growproc_grows (hsound₂.reset []) hlive hfirst.size
      hpage hfirst.clear (by omega)))
  have hstate₃ : (s₃.proc p).state = .runnable := by rw [hproc₃]; exact hfirst.state
  have hlive₃ : (s₃.proc p).Live := Proc.live_of_state hstate₃ (by decide) (by decide)
  have hruns₃ : (s₃.proc p).Runs := ⟨hlive₃, by rw [hstate₃]; decide⟩
  have hsz : (s₃.proc p).sz = 8196 * pgSize := by rw [hproc₃]
  have hargs : ∀ arg ∈ [[(47 : UInt8), 97], [98]], (0 : UInt8) ∉ arg ∧
      arg.length < (s₃.proc p).sz := by
    rw [hsz]
    decide
  have hok : ∀ arg ∈ [[(47 : UInt8), 97], [98]], ArgOk (fun _ => False) arg := fun arg harg =>
    Or.inl (by revert arg; decide)
  obtain ⟨s₄, hstep₄, -, hsound₄, hstate₄, hmapped₄⟩ := step_of_sat [] (.exec p ⟨true, true, []⟩ _)
    ⟨hruns₃, hargs⟩ (sat_void (exec_spec (hsound₃.reset []) hlive₃ ⟨true, true, []⟩ _ hok))
  have hstate₄' : (s₄.proc p).state = .runnable := hstate₄.trans hstate₃
  have hlive₄ : (s₄.proc p).Live := Proc.live_of_state hstate₄' (by decide) (by decide)
  have hruns₄ : (s₄.proc p).Runs := ⟨hlive₄, by rw [hstate₄']; decide⟩
  obtain ⟨s₅, hstep₅, -, hsound₅, -⟩ := step_of_sat [false, true] (.fork p) hruns₄
    (sat_void (fork_spec (hsound₄.reset [false, true]) hlive₄ (Or.inl (hmapped₄ hmapped₃))))
  obtain ⟨s₆, hstep₆, -⟩ := step_of_sat [] (.pipe true) trivial
    (sat_void (pipealloc_spec (hsound₅.reset []) true))
  have hrun := (((((Run.nil.snoc hstep₁).snoc hstep₂).snoc hstep₃).snoc hstep₄).snoc hstep₅).snoc
    hstep₆
  exact ⟨p, _, s₆, rfl, hrun, isolated_along boot_ok hrun⟩

/-! ## What isolation means -/

/-- Two processes share no frame, and no frame is mapped twice. -/
theorem Isolated.frame {s : State} (h : Isolated s) {p q : Slot} {v w x : Nat}
    (hp : (s.proc p).Live) (hq : (s.proc q).Live) (hv : v < userPages) (hw : w < userPages)
    (hpx : pageAt ((space s.mem (s.proc p).pgdir).pte v) = some x)
    (hqx : pageAt ((space s.mem (s.proc q).pgdir).pte w) = some x) : p = q ∧ v = w := by
  have hnd := (Multiset.nodup_add.1 h).2.1
  have hpf : x ∈ (s.proc p).pages s.mem := by
    rw [Proc.pages_live hp]
    exact Multiset.mem_add.2 (Or.inr (Space.mem_foot_of_pte hv hpx))
  have hqf : x ∈ (s.proc q).pages s.mem := by
    rw [Proc.pages_live hq]
    exact Multiset.mem_add.2 (Or.inr (Space.mem_foot_of_pte hw hqx))
  by_cases hpq : p = q
  · subst hpq
    refine ⟨rfl, by_contra fun hvw => ?_⟩
    rw [inUse_eq s p, Proc.pages_live hp, footOf, Space.foot] at hnd
    have hframes := (Multiset.nodup_add.1 (Multiset.nodup_add.1 (Multiset.nodup_add.1 hnd).1).2.1).2.1
    exact holdings.ne_of_nodup hframes hv hw hvw hpx hqx rfl
  · rw [inUse_eq s p] at hnd
    exact absurd (mem_others (Ne.symm hpq) hqf)
      (Multiset.disjoint_left.1 (Multiset.nodup_add.1 hnd).2.2 hpf)

/-- The page that `kalloc` returns is not in use. -/
theorem Isolated.kalloc {s : State} (h : Isolated s) :
    Sat (fun _ => False) kalloc s fun r _ => ∀ p, r = some p → p ∉ inUse s := by
  refine wp_get_bind (wp_modify_bind (wp_ite (fun _ => wp_pure fun _ hr => (nomatch hr)) fun _ => ?_))
  cases hfree : s.freelist with
  | nil => exact wp_pure fun _ hr => (nomatch hr)
  | cons p rest =>
      refine wp_modify_bind (wp_pure fun q hq => ?_)
      obtain rfl := Option.some.inj hq
      have hmem : p ∈ (s.freelist : Multiset Nat) := by
        rw [hfree]
        exact List.mem_cons_self
      exact Multiset.disjoint_left.1 (Multiset.nodup_add.1 h).2.2 hmem

end Cs350.Vm
