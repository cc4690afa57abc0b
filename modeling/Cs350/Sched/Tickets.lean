import Cs350.Lib.Transition
import Cs350.Sched.Table

set_option autoImplicit false

/-! # Tickets between scheduler iterations

`sys_transfer_tickets` moves tickets between two processes, and the stride of a dispatch is computed
from the tickets of the process. In between, however, every iteration of the stride branch calls
`updateTickets`, which gives each RUNNABLE or RUNNING process the same share `100/count`. Over an
interval in which processes only run and yield, the number of active processes does not change, so
the tickets survive exactly when they are that share already; a transfer is undone by the next
iteration. -/

namespace Cs350.Sched

open Transition

variable {ι : Type} [DecidableEq ι]

/-- What `c->proc` says agrees with the table: it is RUNNING, on one CPU only. -/
structure Sys.CpusOk (s : Sys ι) : Prop where
  running : ∀ c p, s.cpu c = some p → (s.proc p).state = .running
  distinct : ∀ c d p, s.cpu c = some p → s.cpu d = some p → c = d

/-- The steps of an interval without creation, exit, blocking, waking or transfer: scheduler
    iterations, and running processes giving up the CPU. -/
def IntervalStep (s : Sys ι) (e : Event ι) (s' : Sys ι) : Prop :=
  Step s e s' ∧ ∃ c, e = .schedule c ∨ e = .yield c

/-- The process that the event dispatches. -/
def dispatched (s : Sys ι) : Event ι → Option Slot
  | .schedule _ => getminproc (updateTickets s.proc)
  | _ => none

/-- The tickets from which a scheduler iteration computes the stride of `p`. -/
def ticketsUsed (s : Sys ι) (p : Slot) : Int := (updateTickets s.proc p).tickets

/-- The share `updateTickets` gives to every active process. -/
def share (s : Sys ι) : Nat := 100 / activeCount s.proc

/-- Every active process holds its share. -/
def AtShare (s : Sys ι) : Prop := ∀ p, (s.proc p).Active → (s.proc p).tickets = share s

/-- Every process has the tickets it has in `s`, in all states of the run. -/
def TicketsKept (s : Sys ι) (tr : List (Sys ι × Event ι)) (s' : Sys ι) : Prop :=
  Along (fun u => ∀ p, (u.proc p).tickets = (s.proc p).tickets) tr s'

/-! ## One step of an interval -/

/-- What a step of an interval does to the table. -/
theorem intervalStep_cases {s s' : Sys ι} {e : Event ι} (h : IntervalStep s e s') :
    (∃ c, e = .schedule c ∧ s.cpu c = none ∧ s' = s.schedule c) ∨
    (∃ c cur, e = .yield c ∧ s.cpu c = some cur ∧
      s' = s.leave c cur fun q => { q with state := .runnable }) := by
  obtain ⟨hstep, c, rfl | rfl⟩ := h
  · rw [Step, Sys.step] at hstep
    split_ifs at hstep with hc
    exact Or.inl ⟨c, rfl, hc, (Option.some.inj hstep).symm⟩
  · obtain ⟨cur, hcur, rfl⟩ := Option.map_eq_some_iff.1 hstep
    exact Or.inr ⟨c, cur, rfl, hcur, rfl⟩

theorem schedule_cases (s : Sys ι) (c : ι) :
    (getminproc (updateTickets s.proc) = none ∧
      s.schedule c = { s with proc := updateTickets s.proc }) ∨
    ∃ p, getminproc (updateTickets s.proc) = some p ∧
      s.schedule c = { s with
        proc := (updateTickets s.proc).modify p Proc.dispatch
        cpu := Function.update s.cpu c (some p) } := by
  unfold Sys.schedule
  cases h : getminproc (updateTickets s.proc) with
  | none => exact Or.inl ⟨rfl, by simp only [h]⟩
  | some p => exact Or.inr ⟨p, rfl, by simp only [h]⟩

theorem schedule_active (s : Sys ι) (c : ι) (p : Slot) :
    ((s.schedule c).proc p).Active ↔ (s.proc p).Active := by
  rcases schedule_cases s c with ⟨-, h⟩ | ⟨q, hq, h⟩
  · rw [h]
    simp [Proc.Active]
  · rw [h]
    have hrun := (getminproc_eq_some hq).1
    rw [updateTickets_state] at hrun
    by_cases hp : p = q
    · subst hp
      simp [Proc.Active, Proc.dispatch, hrun]
    · simp [Table.modify_of_ne hp, Proc.Active]

/-- The tickets after a scheduler iteration are those it used. -/
theorem schedule_tickets (s : Sys ι) (c : ι) (p : Slot) :
    ((s.schedule c).proc p).tickets = ticketsUsed s p := by
  rcases schedule_cases s c with ⟨-, h⟩ | ⟨q, -, h⟩
  · rw [h]; rfl
  · rw [h]
    by_cases hp : p = q
    · subst hp
      simp [Proc.dispatch, ticketsUsed]
    · simp [Table.modify_of_ne hp, ticketsUsed]

theorem leave_runnable_active {s : Sys ι} (hs : s.CpusOk) {c : ι} {cur : Slot}
    (hc : s.cpu c = some cur) (p : Slot) :
    ((s.leave c cur fun q => { q with state := .runnable }).proc p).Active ↔ (s.proc p).Active := by
  by_cases hp : p = cur
  · subst hp
    simp [Sys.leave, Proc.Active, hs.running c p hc]
  · simp [Sys.leave, Table.modify_of_ne hp]

theorem intervalStep_active {s s' : Sys ι} {e : Event ι} (hs : s.CpusOk) (h : IntervalStep s e s')
    (p : Slot) : (s'.proc p).Active ↔ (s.proc p).Active := by
  obtain ⟨c, rfl, -, rfl⟩ | ⟨c, cur, rfl, hcur, rfl⟩ := intervalStep_cases h
  · exact schedule_active s c p
  · exact leave_runnable_active hs hcur p

theorem intervalStep_cpusOk {s s' : Sys ι} {e : Event ι} (hs : s.CpusOk) (h : IntervalStep s e s') :
    s'.CpusOk := by
  obtain ⟨c, rfl, hc, rfl⟩ | ⟨c, cur, rfl, hcur, rfl⟩ := intervalStep_cases h
  · rcases schedule_cases s c with ⟨-, hsch⟩ | ⟨q, hq, hsch⟩
    · rw [hsch]
      exact ⟨fun d p hd => by simpa using hs.running d p hd, hs.distinct⟩
    · rw [hsch]
      have hrun := (getminproc_eq_some hq).1
      rw [updateTickets_state] at hrun
      -- the chosen process was RUNNABLE, so no other CPU has it
      have hfree : ∀ d, s.cpu d ≠ some q := by
        intro d hd
        have := hs.running d q hd
        rw [hrun] at this
        cases this
      refine ⟨fun d p hd => ?_, fun d d' p hd hd' => ?_⟩
      · by_cases hp : p = q
        · subst hp; simp [Proc.dispatch]
        · by_cases hdc : d = c
          · subst hdc
            simp only [Function.update_self, Option.some.injEq] at hd
            exact absurd hd.symm hp
          · simp only [Function.update_of_ne hdc] at hd
            simpa [Table.modify_of_ne hp] using hs.running d p hd
      · by_cases hdc : d = c <;> by_cases hdc' : d' = c
        · rw [hdc, hdc']
        · subst hdc
          simp only [Function.update_self, Function.update_of_ne hdc', Option.some.injEq] at hd hd'
          exact absurd hd' (hd ▸ hfree d')
        · subst hdc'
          simp only [Function.update_self, Function.update_of_ne hdc, Option.some.injEq] at hd hd'
          exact absurd hd (hd' ▸ hfree d)
        · simp only [Function.update_of_ne hdc, Function.update_of_ne hdc'] at hd hd'
          exact hs.distinct d d' p hd hd'
  · refine ⟨fun d p hd => ?_, fun d d' p hd hd' => ?_⟩
    · by_cases hdc : d = c
      · subst hdc; simp [Sys.leave] at hd
      · simp only [Sys.leave, Function.update_of_ne hdc] at hd
        have hp : p ≠ cur := by
          rintro rfl
          exact hdc (hs.distinct d c p hd hcur)
        simpa [Sys.leave, Table.modify_of_ne hp] using hs.running d p hd
    · by_cases hdc : d = c
      · subst hdc; simp [Sys.leave] at hd
      · by_cases hdc' : d' = c
        · subst hdc'; simp [Sys.leave] at hd'
        · simp only [Sys.leave, Function.update_of_ne hdc, Function.update_of_ne hdc'] at hd hd'
          exact hs.distinct d d' p hd hd'

omit [DecidableEq ι] in
theorem ticketsUsed_of_active {s : Sys ι} {p : Slot} (h : (s.proc p).Active) :
    ticketsUsed s p = share s := updateTickets_tickets_of_active h

omit [DecidableEq ι] in
theorem active_of_dispatched {s : Sys ι} {e : Event ι} {p : Slot} (h : dispatched s e = some p) :
    (s.proc p).Active := by
  cases e with
  | schedule c =>
      have hrun := (getminproc_eq_some h).1
      rw [updateTickets_state] at hrun
      exact Or.inl hrun
  | _ => simp [dispatched] at h

/-! ## Intervals -/

/-- `u` is a state of an interval that began in `s`: the same processes are active. -/
structure SameActive (s u : Sys ι) : Prop where
  cpus : u.CpusOk
  active : ∀ p, (u.proc p).Active ↔ (s.proc p).Active

omit [DecidableEq ι] in
theorem SameActive.share_eq {s u : Sys ι} (h : SameActive s u) : share u = share s := by
  rw [share, share, activeCount_congr h.active]

theorem SameActive.step {s u u' : Sys ι} {e : Event ι} (h : SameActive s u)
    (hstep : IntervalStep u e u') : SameActive s u' :=
  ⟨intervalStep_cpusOk h.cpus hstep,
    fun p => (intervalStep_active h.cpus hstep p).trans (h.active p)⟩

theorem interval_sameActive {s s' : Sys ι} {tr : List (Sys ι × Event ι)} (hs : s.CpusOk)
    (hrun : Run IntervalStep s tr s') : Along (SameActive s) tr s' :=
  hrun.invariant ⟨hs, fun _ => Iff.rfl⟩ (fun _ _ _ h => h.step)

/-- Every dispatch of an interval computes its stride from the equal share. -/
theorem interval_ticketsUsed {s s' : Sys ι} {tr : List (Sys ι × Event ι)} (hs : s.CpusOk)
    (hrun : Run IntervalStep s tr s') {x : Sys ι × Event ι} (hx : x ∈ tr) {p : Slot}
    (hp : dispatched x.1 x.2 = some p) : ticketsUsed x.1 p = share s := by
  rw [ticketsUsed_of_active (active_of_dispatched hp),
    ((interval_sameActive hs hrun).1 x hx).share_eq]

/-- Without a scheduler iteration, or from equal shares, nothing changes. -/
theorem ticketsKept_of_atShare {s s' : Sys ι} {tr : List (Sys ι × Event ι)} (hs : s.CpusOk)
    (hrun : Run IntervalStep s tr s')
    (h : (∀ x ∈ tr, ∀ c, x.2 ≠ Event.schedule c) ∨ AtShare s) : TicketsKept s tr s' := by
  have key := hrun.invariant_of_steps
    (I := fun u => SameActive s u ∧ ∀ p, (u.proc p).tickets = (s.proc p).tickets)
    (C := fun _ e => (∀ c, e ≠ .schedule c) ∨ AtShare s) ⟨⟨hs, fun _ => Iff.rfl⟩, fun _ => rfl⟩
    ?_ (fun x hx => h.imp (fun h => h x hx) id)
  · exact ⟨fun x hx => (key.1 x hx).2, key.2.2⟩
  · rintro u e u' ⟨hact, hkept⟩ hC hstep
    refine ⟨hact.step hstep, fun p => ?_⟩
    obtain ⟨c, rfl, -, rfl⟩ | ⟨c, cur, rfl, -, rfl⟩ := intervalStep_cases hstep
    · have hshare : AtShare s := hC.resolve_left fun hne => hne c rfl
      rw [schedule_tickets]
      by_cases hp : (u.proc p).Active
      · rw [ticketsUsed_of_active hp, hact.share_eq, hshare p ((hact.active p).1 hp)]
      · rw [ticketsUsed, updateTickets_tickets_of_not_active hp, hkept p]
    · rw [← hkept p]
      by_cases hp : p = cur
      · subst hp; simp [Sys.leave]
      · simp [Sys.leave, Table.modify_of_ne hp]

/-- Tickets that survive a scheduler iteration were the equal shares. -/
theorem atShare_of_ticketsKept {s s' : Sys ι} {tr : List (Sys ι × Event ι)} (hs : s.CpusOk)
    (hrun : Run IntervalStep s tr s') (hkept : TicketsKept s tr s') {x : Sys ι × Event ι}
    (hx : x ∈ tr) {c : ι} (hc : x.2 = .schedule c) : AtShare s := by
  induction hrun with
  | nil => simp at hx
  | @snoc tr u u' e hrun hstep ih =>
      rcases List.mem_append.1 hx with hx | hx
      · exact ih ⟨fun y hy => hkept.1 y (List.mem_append_left _ hy), hkept.1 (u, e) (by simp)⟩ hx
      · rw [List.mem_singleton.1 hx] at hc
        have hc : e = .schedule c := hc
        subst hc
        intro p hp
        have hact := (interval_sameActive hs hrun).2
        obtain ⟨d, -, -, rfl⟩ | ⟨d, cur, hd, -, -⟩ := intervalStep_cases hstep
        · rw [← hkept.2 p, schedule_tickets, ticketsUsed_of_active ((hact.active p).2 hp),
            hact.share_eq]
        · cases hd

/-- A successful transfer takes `n` tickets from the caller and gives them to the target. -/
theorem sysTransferTickets_effect {t : Table} {cur q : Slot} {pid n : Int}
    (hcur : (t cur).state = .running) (hq : getProc t pid = some q)
    (hok : 0 ≤ (sysTransferTickets t cur pid n).1) :
    ((sysTransferTickets t cur pid n).2 cur).tickets = int32 ((t cur).tickets - n) ∧
      ((sysTransferTickets t cur pid n).2 q).tickets = int32 ((t q).tickets + n) := by
  have hrun : (t q).state = .runnable := by
    have := List.find?_some hq
    simp only [decide_eq_true_eq] at this
    exact this.1
  have hne : cur ≠ q := by
    rintro rfl
    rw [hcur] at hrun
    cases hrun
  rw [sysTransferTickets, hq] at hok ⊢
  simp only at hok ⊢
  split_ifs at hok ⊢ with h1 h2
  · simp at hok
  · simp at hok
  · simp [Table.modify_of_ne hne, Table.modify_of_ne hne.symm]

/-- **When tickets outlive scheduler iterations.** Over an interval of scheduler iterations and
    yields from `s`, all tickets stay what they were exactly when there is no iteration at all or
    every active process holds the equal share already. And when `s` comes from a successful
    `transfer_tickets(pid, n)` by `cur` with `a` tickets to `q` with `b`, the dispatches of the
    interval use `a - n` and `b + n` exactly when these are the equal share, or the process in
    question is not dispatched. -/
theorem tickets_kept_iff {s s' : Sys ι} {tr : List (Sys ι × Event ι)} (hs : s.CpusOk)
    (hrun : Run IntervalStep s tr s') :
    (TicketsKept s tr s' ↔ (∀ x ∈ tr, ∀ c, x.2 ≠ Event.schedule c) ∨ AtShare s) ∧
    ∀ (t : Table) (cur q : Slot) (pid n : Int), getProc t pid = some q →
      (t cur).state = .running → 0 ≤ (sysTransferTickets t cur pid n).1 →
      s.proc = (sysTransferTickets t cur pid n).2 →
      (s.proc cur).tickets = int32 ((t cur).tickets - n) ∧
      (s.proc q).tickets = int32 ((t q).tickets + n) ∧
      ((∀ x ∈ tr, (dispatched x.1 x.2 = some cur → ticketsUsed x.1 cur = (t cur).tickets - n) ∧
          (dispatched x.1 x.2 = some q → ticketsUsed x.1 q = (t q).tickets + n)) ↔
        ((∀ x ∈ tr, dispatched x.1 x.2 ≠ some cur) ∨ (t cur).tickets - n = share s) ∧
        ((∀ x ∈ tr, dispatched x.1 x.2 ≠ some q) ∨ (t q).tickets + n = share s)) := by
  refine ⟨⟨fun hkept => ?_, ticketsKept_of_atShare hs hrun⟩, ?_⟩
  · rw [or_iff_not_imp_left]
    intro hsome
    push Not at hsome
    obtain ⟨x, hx, c, hc⟩ := hsome
    exact atShare_of_ticketsKept hs hrun hkept hx hc
  · intro t cur q pid n hq hcur hok hproc
    obtain ⟨hcurT, hqT⟩ := sysTransferTickets_effect hcur hq hok
    refine ⟨hproc ▸ hcurT, hproc ▸ hqT, ?_⟩
    have huse := @interval_ticketsUsed _ _ s s' tr hs hrun
    constructor
    · intro h
      refine ⟨?_, ?_⟩
      · rw [or_iff_not_imp_left]
        intro hsome
        push Not at hsome
        obtain ⟨x, hx, hd⟩ := hsome
        rw [← (h x hx).1 hd, huse hx hd]
      · rw [or_iff_not_imp_left]
        intro hsome
        push Not at hsome
        obtain ⟨x, hx, hd⟩ := hsome
        rw [← (h x hx).2 hd, huse hx hd]
    · rintro ⟨h1, h2⟩ x hx
      refine ⟨fun hd => ?_, fun hd => ?_⟩
      · rw [huse hx hd, h1.resolve_left fun hn => hn x hx hd]
      · rw [huse hx hd, h2.resolve_left fun hn => hn x hx hd]

/-- Process 0 with pid 1 running and process 1 with pid 2 runnable, with `a` and `b` tickets. -/
def pairTable (a b : Int) : Table := fun p =>
  if p = 0 then ⟨.running, 1, none, none, false, a, 0⟩
  else if p = 1 then ⟨.runnable, 2, some 0, none, false, b, 0⟩
  else ⟨.unused, 0, none, none, false, 0, 0⟩

/-- A machine with one CPU on that table. -/
def pairSys (t : Table) : Sys Unit := { proc := t, cpu := fun _ => some 0, nextpid := 3, initproc := 0 }

theorem pairSys_cpusOk {t : Table} (h : (t 0).state = .running) : (pairSys t).CpusOk :=
  ⟨fun _ _ hp => Option.some.inj hp ▸ h, fun _ _ _ _ _ => rfl⟩

/-- The running process yields and a scheduler iteration follows. -/
theorem pairSys_run (t : Table) :
    Run IntervalStep (pairSys t)
      [(pairSys t, .yield ()),
        ((pairSys t).leave () 0 fun q => { q with state := .runnable }, .schedule ())]
      (((pairSys t).leave () 0 fun q => { q with state := .runnable }).schedule ()) :=
  (Run.nil.snoc ⟨rfl, (), Or.inr rfl⟩).snoc ⟨rfl, (), Or.inl rfl⟩

/-- Process 0 gives 20 of its 70 tickets to process 1, which has 30: both then hold the equal share,
    and the transfer lasts. -/
theorem tickets_kept_equal_shares :
    let s := pairSys (pairTable 50 50)
    let s₁ := s.leave () 0 fun q => { q with state := .runnable }
    TicketsKept s [(s, .yield ()), (s₁, .schedule ())] (s₁.schedule ()) ∧
    s.proc = (sysTransferTickets (pairTable 70 30) 0 2 20).2 ∧
    ∀ x ∈ [(s, Event.yield ()), (s₁, .schedule ())],
      (dispatched x.1 x.2 = some 0 → ticketsUsed x.1 0 = 70 - 20) ∧
      (dispatched x.1 x.2 = some 1 → ticketsUsed x.1 1 = 30 + 20) := by
  have hproc : (pairSys (pairTable 50 50)).proc
      = (sysTransferTickets (pairTable 70 30) 0 2 20).2 := by decide +kernel
  have hshare : AtShare (pairSys (pairTable 50 50)) := show ∀ p, _ → _ from by decide +kernel
  obtain ⟨hkept, htransfer⟩ :=
    tickets_kept_iff (pairSys_cpusOk (t := pairTable 50 50) rfl) (pairSys_run _)
  refine ⟨hkept.2 (Or.inr hshare), hproc, ?_⟩
  exact (htransfer (pairTable 70 30) 0 1 2 20 (by decide +kernel) rfl (by decide +kernel)
    hproc).2.2.2 ⟨Or.inr (by decide +kernel), Or.inr (by decide +kernel)⟩

/-- Process 0 transfers 20 of its 50 tickets to process 1 and keeps 30, but its next dispatch
    computes the stride from 50. -/
theorem transfer_undone_by_scheduler :
    (sysTransferTickets (pairTable 50 50) 0 2 20).1 = 30 ∧
    let s := pairSys (sysTransferTickets (pairTable 50 50) 0 2 20).2
    let s₁ := s.leave () 0 fun q => { q with state := .runnable }
    Run IntervalStep s [(s, .yield ()), (s₁, .schedule ())] (s₁.schedule ()) ∧
    dispatched s₁ (.schedule ()) = some 0 ∧ ticketsUsed s₁ 0 = 50 ∧
    ¬ TicketsKept s [(s, .yield ()), (s₁, .schedule ())] (s₁.schedule ()) := by
  refine ⟨by decide +kernel, pairSys_run _, by decide +kernel, by decide +kernel, fun h => ?_⟩
  have h0 := h.2 0
  revert h0
  decide +kernel

end Cs350.Sched
