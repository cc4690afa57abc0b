import Cs350.Sched.Tickets
import Mathlib.Algebra.BigOperators.Group.Finset.Piecewise
import Mathlib.Algebra.Order.BigOperators.Group.Finset

set_option autoImplicit false

/-! # Asking for tickets and giving them away

`sys_tickets_owned` and `sys_transfer_tickets` both find their process with `getProc`, which skips
every entry that is not RUNNABLE. A transfer reports the null result as an error, and the error
checks before it and the sum of the tickets keep all the counts positive. `sys_tickets_owned` has no
check: it reads the field of the null pointer, at an address that belongs to the caller. -/

namespace Cs350.Sched

open Transition

/-- The entry is in use. -/
def Proc.Live (p : Proc) : Prop := p.state ≠ .unused

instance (p : Proc) : Decidable p.Live := inferInstanceAs (Decidable (¬ _))

theorem getProc_eq_some {t : Table} {pid : Int} {p : Slot} (h : getProc t pid = some p) :
    (t p).state = .runnable ∧ (t p).pid = pid := by
  simpa using List.find?_some h

theorem getProc_eq_none {t : Table} {pid : Int} :
    getProc t pid = none ↔ ∀ p, (t p).state = .runnable → (t p).pid ≠ pid := by
  simp [getProc, List.find?_eq_none, mem_slots]

/-! ## `sys_tickets_owned` -/

/-- `sys_tickets_owned`: what it returns, and whether it read `p->tickets` through a null pointer.
    Page 0 is mapped in every process, and `nullTickets` is the word the caller has there at the
    offset of the field. -/
def sysTicketsOwned (nullTickets : Int) (t : Table) (pid : Int) : Int × Bool :=
  match getProc t pid with
  | none => (nullTickets, true)
  | some p => ((t p).tickets, false)

/-- The answer is the tickets of a process in use with that pid, or -1 when there is none, and no
    null pointer was followed for it. -/
def OwnedAnswered (t : Table) (pid : Int) (answer : Int × Bool) : Prop :=
  answer.2 = false ∧
    ((∃ p, (t p).Live ∧ (t p).pid = pid ∧ answer.1 = (t p).tickets) ∨
      (∀ p, (t p).Live → (t p).pid ≠ pid) ∧ answer.1 = -1)

/-- **Who gets an answer from `tickets_owned`.** It answers as documented exactly for the pids of
    RUNNABLE processes. For all others, the caller among them, it returns a word of the caller's
    memory. -/
theorem ticketsOwned_answered_iff (nullTickets : Int) (t : Table) (pid : Int) :
    OwnedAnswered t pid (sysTicketsOwned nullTickets t pid) ↔
      ∃ p, (t p).state = .runnable ∧ (t p).pid = pid := by
  unfold OwnedAnswered sysTicketsOwned
  cases hp : getProc t pid with
  | none =>
      have hnone := getProc_eq_none.1 hp
      simp only [Bool.true_eq_false, false_and, false_iff, not_exists, not_and]
      exact hnone
  | some p =>
      obtain ⟨hrun, hpid⟩ := getProc_eq_some hp
      have hlive : (t p).Live := by simp [Proc.Live, hrun]
      exact iff_of_true ⟨rfl, Or.inl ⟨p, hlive, hpid, rfl⟩⟩ ⟨p, hrun, hpid⟩

/-- Process 0 with pid 1 is running and asks for its own 50 tickets. -/
theorem ticketsOwned_caller_unanswered :
    getProc (pairTable 50 50) 1 = none ∧
    ∀ nullTickets, ¬ OwnedAnswered (pairTable 50 50) 1
      (sysTicketsOwned nullTickets (pairTable 50 50) 1) := by
  have hnone : getProc (pairTable 50 50) 1 = none := by decide +kernel
  refine ⟨hnone, fun nullTickets h => ?_⟩
  rw [sysTicketsOwned, hnone] at h
  exact Bool.noConfusion h.1

/-! ## One transfer -/

/-- The tickets of all processes in use. -/
def liveTickets (t : Table) : Int := ∑ p, if (t p).Live then (t p).tickets else 0

/-- The tickets of all entries, with the stale ones of the UNUSED entries. -/
def tableTickets (t : Table) : Int := ∑ p, (t p).tickets

/-- A table whose processes have different pids and a ticket at least, with a sum that is an
    `int`. -/
structure TicketsOk (t : Table) : Prop where
  distinct : ∀ p q, (t p).Live → (t q).Live → (t p).pid = (t q).pid → p = q
  pos : ∀ p, (t p).Live → 1 ≤ (t p).tickets
  fits : liveTickets t ≤ 2 ^ 31 - 1

/-- The table after `n` tickets of `cur` went to `q`. -/
structure Moved (t : Table) (cur q : Slot) (n : Int) (t' : Table) : Prop where
  giver : t' cur = { t cur with tickets := (t cur).tickets - n }
  taker : t' q = { t q with tickets := (t q).tickets + n }
  others : ∀ p, p ≠ cur → p ≠ q → t' p = t p

theorem Moved.live {t t' : Table} {cur q : Slot} {n : Int} (h : Moved t cur q n t') (p : Slot) :
    ((t' p).Live ↔ (t p).Live) ∧ (t' p).pid = (t p).pid := by
  by_cases hcur : p = cur
  · rw [hcur, h.giver]
    exact ⟨Iff.rfl, rfl⟩
  by_cases hq : p = q
  · rw [hq, h.taker]
    exact ⟨Iff.rfl, rfl⟩
  rw [h.others p hcur hq]
  exact ⟨Iff.rfl, rfl⟩

theorem Moved.tickets {t t' : Table} {cur q : Slot} {n : Int} (h : Moved t cur q n t')
    (hne : cur ≠ q) (p : Slot) :
    (t' p).tickets = (t p).tickets + (if p = q then n else 0) - (if p = cur then n else 0) := by
  by_cases hcur : p = cur
  · subst hcur
    simp [h.giver, hne]
  by_cases hq : p = q
  · subst hq
    simp [h.taker, hcur]
  simp [h.others p hcur hq, hcur, hq]

theorem Moved.tableTickets_eq {t t' : Table} {cur q : Slot} {n : Int} (h : Moved t cur q n t')
    (hne : cur ≠ q) : tableTickets t' = tableTickets t := by
  simp only [tableTickets, h.tickets hne, Finset.sum_sub_distrib, Finset.sum_add_distrib,
    Finset.sum_ite_eq', Finset.mem_univ, if_true, add_sub_cancel_right]

theorem Moved.liveTickets_eq {t t' : Table} {cur q : Slot} {n : Int} (h : Moved t cur q n t')
    (hne : cur ≠ q) (hcur : (t cur).Live) (hq : (t q).Live) : liveTickets t' = liveTickets t := by
  have hterm : ∀ p, (if (t' p).Live then (t' p).tickets else 0) =
      (if (t p).Live then (t p).tickets else 0) + (if p = q then n else 0) -
        (if p = cur then n else 0) := by
    intro p
    rw [h.tickets hne, if_congr (h.live p).1 rfl rfl]
    by_cases hp : (t p).Live
    · rw [if_pos hp, if_pos hp]
    · have hpcur : p ≠ cur := fun he => hp (he ▸ hcur)
      have hpq : p ≠ q := fun he => hp (he ▸ hq)
      simp [hp, hpcur, hpq]
  simp only [liveTickets, hterm, Finset.sum_sub_distrib, Finset.sum_add_distrib,
    Finset.sum_ite_eq', Finset.mem_univ, if_true, add_sub_cancel_right]

/-- Two processes together have an `int` of tickets. -/
theorem TicketsOk.two_le {t : Table} (h : TicketsOk t) {p q : Slot} (hne : p ≠ q)
    (hp : (t p).Live) (hq : (t q).Live) : (t p).tickets + (t q).tickets ≤ 2 ^ 31 - 1 := by
  have hnonneg : ∀ r ∈ Finset.univ, 0 ≤ if (t r).Live then (t r).tickets else 0 := by
    intro r _
    by_cases hr : (t r).Live
    · have := h.pos r hr
      rw [if_pos hr]
      omega
    · rw [if_neg hr]
  have hsum := Finset.add_le_sum hnonneg (Finset.mem_univ p) (Finset.mem_univ q) hne
  rw [if_pos hp, if_pos hq] at hsum
  exact hsum.trans h.fits

theorem int32_of_fits {x : Int} (h₁ : -2 ^ 31 ≤ x) (h₂ : x ≤ 2 ^ 31 - 1) : int32 x = x := by
  rw [int32, Int.bmod_eq_of_le] <;> omega

/-- A call either reports an error and changes nothing, or moves `n` tickets to another process and
    returns what the caller has left. -/
theorem sysTransferTickets_cases {t : Table} (h : TicketsOk t) {cur : Slot}
    (hcur : (t cur).state = .running) (pid n : Int) :
    ((sysTransferTickets t cur pid n).1 < 0 ∧ (sysTransferTickets t cur pid n).2 = t) ∨
    ∃ q, q ≠ cur ∧ (t q).Live ∧ (t q).pid = pid ∧ 0 ≤ n ∧ n < (t cur).tickets ∧
      (sysTransferTickets t cur pid n).1 = (t cur).tickets - n ∧
      Moved t cur q n (sysTransferTickets t cur pid n).2 := by
  cases hq : getProc t pid with
  | none =>
      left
      simp [sysTransferTickets, hq]
  | some q =>
      obtain ⟨hrun, hpid⟩ := getProc_eq_some hq
      have hne : q ≠ cur := by
        rintro rfl
        rw [hcur] at hrun
        cases hrun
      have hcurLive : (t cur).Live := by simp [Proc.Live, hcur]
      have hqLive : (t q).Live := by simp [Proc.Live, hrun]
      have hcurPos := h.pos cur hcurLive
      have hqPos := h.pos q hqLive
      have htwo := h.two_le hne hqLive hcurLive
      -- the sum fits in an `int`, so none of the three `int`s computed wraps around
      have hpred : int32 ((t cur).tickets - 1) = (t cur).tickets - 1 :=
        int32_of_fits (by omega) (by omega)
      by_cases hneg : n < 0
      · left
        simp [sysTransferTickets, hq, hneg]
      by_cases hmore : n > int32 ((t cur).tickets - 1)
      · left
        simp [sysTransferTickets, hq, hneg, hmore]
      · right
        have hgive : int32 ((t cur).tickets - n) = (t cur).tickets - n :=
          int32_of_fits (by omega) (by omega)
        have htake : int32 ((t q).tickets + n) = (t q).tickets + n :=
          int32_of_fits (by omega) (by omega)
        refine ⟨q, hne, hqLive, hpid, by omega, by omega, ?_, ?_, ?_, fun p hp hpq => ?_⟩
        · simp [sysTransferTickets, hq, hneg, hmore, Table.modify_of_ne hne.symm, hgive]
        · simp [sysTransferTickets, hq, hneg, hmore, Table.modify_of_ne hne.symm, hgive]
        · simp [sysTransferTickets, hq, hneg, hmore, Table.modify_of_ne hne, htake]
        · simp [sysTransferTickets, hq, hneg, hmore, Table.modify_of_ne hpq, Table.modify_of_ne hp]

/-! ## Any number of transfers -/

/-- A running process calls `transfer_tickets`, or a process in use changes its state: it is
    dispatched, gives up the CPU, sleeps, is woken or exits. -/
inductive Transfer
  | call (cur : Slot) (pid n : Int)
  | switch (p : Slot) (state : ProcState)

/-- One transfer, or one change of state between two of them. -/
def TransferStep (t : Table) : Transfer → Table → Prop
  | .call cur pid n, t' => (t cur).state = .running ∧ t' = (sysTransferTickets t cur pid n).2
  | .switch p state, t' =>
    (t p).Live ∧ state ≠ .unused ∧ t' = t.modify p fun q => { q with state := state }

/-- The sums have not changed since `t`, and the table is still one to transfer in. -/
structure Conserved (t u : Table) : Prop where
  ok : TicketsOk u
  live : liveTickets u = liveTickets t
  table : tableTickets u = tableTickets t

theorem TicketsOk.moved {t t' : Table} {cur q : Slot} {n : Int} (h : TicketsOk t)
    (hmoved : Moved t cur q n t') (hne : q ≠ cur) (hcur : (t cur).Live) (hq : (t q).Live)
    (hn : 0 ≤ n) (hleft : n < (t cur).tickets) : Conserved t t' := by
  have hlive := hmoved.liveTickets_eq hne.symm hcur hq
  refine ⟨⟨fun p r hp hr hpid => ?_, fun p hp => ?_, hlive ▸ h.fits⟩, hlive,
    hmoved.tableTickets_eq hne.symm⟩
  · rw [(hmoved.live p).2, (hmoved.live r).2] at hpid
    exact h.distinct p r ((hmoved.live p).1.1 hp) ((hmoved.live r).1.1 hr) hpid
  · have hpos := h.pos p ((hmoved.live p).1.1 hp)
    rw [hmoved.tickets hne.symm p]
    by_cases hpcur : p = cur
    · subst hpcur
      rw [if_neg hne.symm, if_pos rfl]
      omega
    · rw [if_neg hpcur]
      split_ifs <;> omega

/-- A change of state that keeps the entry in use changes no count. -/
theorem TicketsOk.switched {t : Table} (h : TicketsOk t) {p : Slot} {state : ProcState}
    (hp : (t p).Live) (hstate : state ≠ .unused) :
    Conserved t (t.modify p fun q => { q with state := state }) := by
  have hfields : ∀ q, ((t.modify p fun q => { q with state := state }) q).tickets = (t q).tickets ∧
      ((t.modify p fun q => { q with state := state }) q).pid = (t q).pid ∧
      (((t.modify p fun q => { q with state := state }) q).Live ↔ (t q).Live) := by
    intro q
    by_cases hq : q = p
    · subst hq
      simp only [Table.modify_self, true_and]
      exact iff_of_true hstate hp
    · simp [Table.modify_of_ne hq]
  generalize t.modify p (fun q => { q with state := state }) = t' at hfields
  have hlive : liveTickets t' = liveTickets t :=
    Finset.sum_congr rfl fun q _ => by rw [if_congr (hfields q).2.2 rfl rfl, (hfields q).1]
  have htable : tableTickets t' = tableTickets t :=
    Finset.sum_congr rfl fun q _ => (hfields q).1
  refine ⟨⟨fun q r hq hr hpid => ?_, fun q hq => ?_, hlive ▸ h.fits⟩, hlive, htable⟩
  · rw [(hfields q).2.1, (hfields r).2.1] at hpid
    exact h.distinct q r ((hfields q).2.2.1 hq) ((hfields r).2.2.1 hr) hpid
  · rw [(hfields q).1]
    exact h.pos q ((hfields q).2.2.1 hq)

theorem Conserved.trans {t u v : Table} (h : Conserved t u) (h' : Conserved u v) :
    Conserved t v :=
  ⟨h'.ok, h'.live.trans h.live, h'.table.trans h.table⟩

theorem transferStep_conserved {t t' : Table} {e : Transfer} (h : TicketsOk t)
    (hstep : TransferStep t e t') : Conserved t t' := by
  cases e with
  | call cur pid n =>
      obtain ⟨hcur, rfl⟩ := hstep
      rcases sysTransferTickets_cases h hcur pid n with ⟨-, heq⟩ | ⟨q, hne, hq, -, hn, hlt, -, hmoved⟩
      · rw [heq]
        exact ⟨h, rfl, rfl⟩
      · exact h.moved hmoved hne (by simp [Proc.Live, hcur]) hq hn hlt
  | switch p state =>
      obtain ⟨hp, hstate, rfl⟩ := hstep
      exact h.switched hp hstate

/-- **Transfers conserve tickets.** In a table whose processes have different pids and a ticket at
    least, with a sum that fits in an `int`, `transfer_tickets(pid, n)` of a running process either
    returns a negative code and changes nothing, or moves `n` tickets to the other process with that
    pid and returns the caller's count, which is positive. Over any number of transfers by any
    processes the sum stays and every process keeps a ticket. -/
theorem transfer_conserves {t : Table} (h : TicketsOk t) :
    (∀ cur pid n, (t cur).state = .running →
      ((sysTransferTickets t cur pid n).1 < 0 ∧ (sysTransferTickets t cur pid n).2 = t) ∨
      (1 ≤ (sysTransferTickets t cur pid n).1 ∧ 0 ≤ n ∧
        (sysTransferTickets t cur pid n).1 = ((sysTransferTickets t cur pid n).2 cur).tickets ∧
        (∃ q, q ≠ cur ∧ (t q).Live ∧ (t q).pid = pid ∧
          (∀ p, (t p).Live → (t p).pid = pid → p = q) ∧
          Moved t cur q n (sysTransferTickets t cur pid n).2) ∧
        liveTickets (sysTransferTickets t cur pid n).2 = liveTickets t ∧
        tableTickets (sysTransferTickets t cur pid n).2 = tableTickets t)) ∧
    ∀ tr t', Run TransferStep t tr t' →
      Along (fun u => liveTickets u = liveTickets t ∧ tableTickets u = tableTickets t ∧
        ∀ p, (u p).Live → 1 ≤ (u p).tickets) tr t' := by
  refine ⟨fun cur pid n hcur => ?_, fun tr t' hrun => ?_⟩
  · rcases sysTransferTickets_cases h hcur pid n with herr |
      ⟨q, hne, hq, hpid, hn, hlt, hret, hmoved⟩
    · exact Or.inl herr
    · have hcons := h.moved hmoved hne (by simp [Proc.Live, hcur]) hq hn hlt
      have hunique : ∀ p, (t p).Live → (t p).pid = pid → p = q :=
        fun p hp hppid => h.distinct p q hp hq (hppid.trans hpid.symm)
      refine Or.inr ⟨by omega, hn, ?_, ⟨q, hne, hq, hpid, hunique, hmoved⟩, hcons.live, hcons.table⟩
      rw [hret, hmoved.giver]
  · have hall := hrun.invariant (I := Conserved t) ⟨h, rfl, rfl⟩
      (fun u e u' hu hstep => hu.trans (transferStep_conserved hu.ok hstep))
    have hweaken : ∀ u, Conserved t u → liveTickets u = liveTickets t ∧
        tableTickets u = tableTickets t ∧ ∀ p, (u p).Live → 1 ≤ (u p).tickets :=
      fun u hu => ⟨hu.live, hu.table, hu.ok.pos⟩
    exact ⟨fun x hx => hweaken x.1 (hall.1 x hx), hweaken t' hall.2⟩

theorem pairTable_ticketsOk : TicketsOk (pairTable 70 30) :=
  ⟨by decide +kernel, by decide +kernel, by decide +kernel⟩

/-- Process 0 gives 20 of its 70 tickets to process 1, which has 30. -/
theorem transfer_conserves_pair :
    (sysTransferTickets (pairTable 70 30) 0 2 20).1 = 50 ∧
    liveTickets (sysTransferTickets (pairTable 70 30) 0 2 20).2 = 100 := by
  have hret : (sysTransferTickets (pairTable 70 30) 0 2 20).1 = 50 := by decide +kernel
  have hsum : liveTickets (pairTable 70 30) = 100 := by decide +kernel
  rcases (transfer_conserves pairTable_ticketsOk).1 0 2 20 (by decide +kernel) with herr | hok
  · rw [hret] at herr
    exact absurd herr.1 (by decide)
  · exact ⟨hret, hok.2.2.2.2.1.trans hsum⟩

end Cs350.Sched
