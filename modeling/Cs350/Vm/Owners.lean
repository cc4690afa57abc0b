import Cs350.Vm.Setup
import Mathlib.Data.Fintype.Basic

set_option autoImplicit false

/-! # The pages of the whole system

`inUse s` lists the pages that the kernel uses, once for each use: the kernel stacks, the page
directories, page tables and frames of the processes, the kernel's own page table, and the pages of
pipes. `Isolated s` says that this list and the free list together name no page twice. `Sound` is
the invariant that gives it: every page that is not free is in this list, once, or has been lost. -/

namespace Cs350.Vm

open Sched (Slot ProcState)
open Prog

theorem State.setProc_self (s : State) (p : Slot) (f : Proc → Proc) :
    (s.setProc p f).proc p = f (s.proc p) := Function.update_self ..

theorem State.setProc_of_ne (s : State) {p q : Slot} (f : Proc → Proc) (h : q ≠ p) :
    (s.setProc p f).proc q = s.proc q := Function.update_of_ne h ..

/-! ## The pages in use -/

/-- The process has an address space. -/
def Proc.Live (q : Proc) : Prop := q.state ≠ .unused ∧ q.state ≠ .embryo

instance (q : Proc) : Decidable q.Live := inferInstanceAs (Decidable (_ ∧ _))

theorem Proc.live_of_state {q : Proc} {s : ProcState} (h : q.state = s) (hu : s ≠ .unused)
    (he : s ≠ .embryo) : q.Live := ⟨by rwa [h], by rwa [h]⟩

/-- The pages of an address space, those of the directory `d`. -/
def footOf (mem : Nat → Mem) (d : Nat) : Multiset Nat := (space mem d).foot d

/-- The pages of a process. -/
def Proc.pages (mem : Nat → Mem) (q : Proc) : Multiset Nat :=
  (if q.state = .unused then 0 else {q.kstack}) + (if q.Live then footOf mem q.pgdir else 0)

/-- The pages of pipes. -/
def pipePages (pipe : Nat → Option Ends) : Multiset Nat :=
  holdings (phyStop / pgSize) fun x => (pipe x).map fun _ => x

/-- The pages of the kernel's own page table and of the pipes. -/
def kernelPages (s : State) : Multiset Nat :=
  s.kpgdir.elim 0 (footOf s.mem) + pipePages s.pipe

/-- The pages of the processes. -/
def procPages (s : State) : Multiset Nat := ∑ p, (s.proc p).pages s.mem

/-- The pages in use, each as often as it is used. -/
def inUse (s : State) : Multiset Nat := procPages s + kernelPages s

/-- **No page has two owners.** -/
def Isolated (s : State) : Prop := ((s.freelist : Multiset Nat) + inUse s).Nodup

/-- The pages in use that are not those of process `p`. -/
def others (s : State) (p : Slot) : Multiset Nat :=
  ∑ q ∈ Finset.univ.erase p, (s.proc q).pages s.mem + kernelPages s

theorem inUse_eq (s : State) (p : Slot) : inUse s = (s.proc p).pages s.mem + others s p := by
  unfold inUse procPages others
  rw [← Finset.add_sum_erase Finset.univ _ (Finset.mem_univ p), add_assoc]

theorem footOf_congr {mem mem' : Nat → Mem} {d : Nat} (h : ∀ x ∈ footOf mem d, mem' x = mem x) :
    footOf mem' d = footOf mem d := by
  unfold footOf
  rw [space_congr_foot h]

theorem Proc.pages_congr {mem mem' : Nat → Mem} {q : Proc}
    (h : ∀ x ∈ q.pages mem, mem' x = mem x) : q.pages mem' = q.pages mem := by
  unfold Proc.pages at *
  by_cases hlive : q.Live
  · simp only [if_pos hlive] at h ⊢
    rw [footOf_congr fun x hx => h x (Multiset.mem_add.2 (Or.inr hx))]
  · simp only [if_neg hlive]

theorem kernelPages_congr {s s' : State} (hmem : ∀ x ∈ kernelPages s, s'.mem x = s.mem x)
    (hk : s'.kpgdir = s.kpgdir) (hp : s'.pipe = s.pipe) : kernelPages s' = kernelPages s := by
  unfold kernelPages at *
  rw [hk, hp]
  cases hd : s.kpgdir with
  | none => rw [Option.elim_none, Option.elim_none]
  | some d =>
      rw [hd] at hmem
      rw [Option.elim_some, Option.elim_some,
        footOf_congr fun x hx => hmem x (Multiset.mem_add.2 (Or.inl hx))]

/-- The other pages stay the same when only process `p` and pages of its own change. -/
theorem others_congr {s s' : State} {p : Slot} (hproc : ∀ q, q ≠ p → s'.proc q = s.proc q)
    (hmem : ∀ x ∈ others s p, s'.mem x = s.mem x) (hk : s'.kpgdir = s.kpgdir)
    (hp : s'.pipe = s.pipe) : others s' p = others s p := by
  unfold others at *
  have hkernel : kernelPages s' = kernelPages s :=
    kernelPages_congr (fun x hx => hmem x (Multiset.mem_add.2 (Or.inr hx))) hk hp
  rw [hkernel]
  congr 1
  refine Finset.sum_congr rfl fun q hq => ?_
  rw [hproc q (Finset.ne_of_mem_erase hq)]
  exact Proc.pages_congr fun x hx => hmem x (Multiset.mem_add.2 (Or.inl
    (Multiset.mem_sum.2 ⟨q, hq, hx⟩)))

theorem mem_others {s : State} {p q : Slot} (hqp : q ≠ p) {x : Nat}
    (hx : x ∈ (s.proc q).pages s.mem) : x ∈ others s p :=
  Multiset.mem_add.2 (Or.inl (Multiset.mem_sum.2
    ⟨q, Finset.mem_erase.2 ⟨hqp, Finset.mem_univ q⟩, hx⟩))

theorem Proc.pages_unused {mem : Nat → Mem} {q : Proc} (h : q.state = .unused) :
    q.pages mem = 0 := by
  rw [Proc.pages, if_pos h, if_neg fun hlive => hlive.1 h, add_zero]

theorem Proc.pages_live {mem : Nat → Mem} {q : Proc} (h : q.Live) :
    q.pages mem = {q.kstack} + footOf mem q.pgdir := by
  rw [Proc.pages, if_neg h.1, if_pos h]

/-! ## The invariant -/

structure Sound (L : Layout) (s : State) : Prop where
  /-- Every page is free, in use, or lost. -/
  owned : ∃ lost, Owned L s (inUse s + lost)
  size : ∀ p, (s.proc p).Live → (s.proc p).sz ≤ kernBase
  closed : ∀ p, (s.proc p).Live → (space s.mem (s.proc p).pgdir).Closed

theorem Sound.isolated {L : Layout} {s : State} (h : Sound L s) : Isolated s := by
  obtain ⟨lost, hown⟩ := h.owned
  have hnd := hown.nodup_all
  rw [← add_assoc, Multiset.nodup_add] at hnd
  exact hnd.1

theorem mem_inUse_of_others {s : State} {p : Slot} {x : Nat} (hx : x ∈ others s p) :
    x ∈ inUse s := by
  rw [inUse_eq s p]
  exact Multiset.mem_add.2 (Or.inr hx)

/-- The pages of a live process are in use. -/
theorem mem_inUse_of_foot {s : State} {p : Slot} (hp : (s.proc p).Live) {x : Nat}
    (hx : x ∈ footOf s.mem (s.proc p).pgdir) : x ∈ inUse s := by
  rw [inUse_eq s p, Proc.pages_live hp]
  exact Multiset.mem_add.2 (Or.inl (Multiset.mem_add.2 (Or.inr hx)))

/-- A call that works for process `p` changes this process only, and leaves the pages of the others
    alone. -/
theorem Sound.change {L : Layout} {s s' : State} {p : Slot} (h : Sound L s)
    (hproc : ∀ q, q ≠ p → s'.proc q = s.proc q)
    (hframe : Frame (others s p) { s with proc := s'.proc } s')
    (hown : ∃ lost, Owned L s' ((s'.proc p).pages s'.mem + (others s p + lost)))
    (hsize : (s'.proc p).Live → (s'.proc p).sz ≤ kernBase)
    (hclosed : (s'.proc p).Live → (space s'.mem (s'.proc p).pgdir).Closed) : Sound L s' := by
  have hothers : others s' p = others s p :=
    others_congr hproc hframe.mem hframe.kpgdir hframe.pipe
  refine ⟨?_, fun q hq => ?_, fun q hq => ?_⟩
  · obtain ⟨lost, hown⟩ := hown
    refine ⟨lost, hown.congr rfl ?_⟩
    rw [inUse_eq s' p, hothers, add_assoc]
  · by_cases hqp : q = p
    · subst hqp
      exact hsize hq
    · rw [hproc q hqp] at hq ⊢
      exact h.size q hq
  · by_cases hqp : q = p
    · subst hqp
      exact hclosed hq
    · rw [hproc q hqp] at hq ⊢
      have hspace : space s'.mem (s.proc q).pgdir = space s.mem (s.proc q).pgdir :=
        space_congr_foot fun x hx => hframe.mem x (mem_others hqp (by
          rw [Proc.pages_live hq]
          exact Multiset.mem_add.2 (Or.inr hx)))
      rw [hspace]
      exact h.closed q hq

/-- A call that leaves the processes as they are. -/
theorem Sound.same {L : Layout} {s s' : State} (h : Sound L s) (hframe : Frame (inUse s) s s')
    (hown : ∃ lost, Owned L s' (inUse s + lost)) : Sound L s' := by
  -- any process will do
  have hpages : ((s'.proc 0).pages s'.mem) = (s.proc 0).pages s.mem := by
    rw [hframe.proc]
    exact Proc.pages_congr fun x hx => hframe.mem x (by
      rw [inUse_eq s 0]
      exact Multiset.mem_add.2 (Or.inl hx))
  have hframe' : Frame (others s 0) { s with proc := s'.proc } s' :=
    ⟨fun x hx => hframe.mem x (mem_inUse_of_others hx), rfl, hframe.initproc, hframe.kpgdir,
      hframe.pipe⟩
  refine h.change (p := 0) (fun q _ => by rw [hframe.proc]) hframe' ?_ (fun hlive => ?_)
    fun hlive => ?_
  · obtain ⟨lost, hown⟩ := hown
    refine ⟨lost, hown.congr rfl ?_⟩
    rw [hpages, inUse_eq s 0, add_assoc]
  · rw [hframe.proc] at hlive ⊢
    exact h.size 0 hlive
  · rw [hframe.proc] at hlive ⊢
    rw [space_congr_foot fun x hx => hframe.mem x (mem_inUse_of_foot hlive hx)]
    exact h.closed 0 hlive

end Cs350.Vm
