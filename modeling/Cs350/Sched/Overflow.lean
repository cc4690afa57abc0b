import Cs350.Sched.Spread
import Cs350.Sched.Transfers

set_option autoImplicit false

/-! # When `pass` overflows

`pass` is an `int` that every dispatch increases by the stride, and that only `allocproc` sets back.
The machine is extended with the exact total of the strides that each process was charged since it
was allocated. As long as no total passes the largest `int`, pass and total agree and the comparison
in `getminproc` orders the processes by their totals; the first dispatch that goes beyond turns the
pass negative. -/

namespace Cs350.Sched

open Transition

variable {ι : Type} [DecidableEq ι]

/-- `INT_MAX`. -/
def intMax : Int := 2 ^ 31 - 1

/-- The totals of strides after the event: the process dispatched is charged its stride, and the
    entry that `allocproc` takes starts from nothing. -/
def charge (s : Sys ι) (e : Event ι) (total : Slot → Int) : Slot → Int :=
  match e with
  | .allocproc _ =>
    match slots.find? fun p => (s.proc p).state = .unused with
    | none => total
    | some p => Function.update total p 0
  | _ =>
    match dispatched s e with
    | none => total
    | some p => Function.update total p (total p + Int.tdiv 1000 (ticketsUsed s p))

/-- The machine with the totals. -/
def ChargedStep (x : Sys ι × (Slot → Int)) (e : Event ι) (x' : Sys ι × (Slot → Int)) : Prop :=
  Step x.1 e x'.1 ∧ x'.2 = charge x.1 e x.2

/-- No pass has overflowed, and `p->pass < curMin` compares the totals. -/
def PassOrders (x : Sys ι × (Slot → Int)) : Prop :=
  (∀ p, (x.1.proc p).pass = x.2 p) ∧
    ∀ p q, (x.1.proc p).pass < (x.1.proc q).pass ↔ x.2 p < x.2 q

/-- The process that the event dispatches has been charged at most `INT_MAX`, this stride
    included. -/
def ChargeFits (x : Sys ι × (Slot → Int)) (e : Event ι) : Prop :=
  ∀ p, dispatched x.1 e = some p → x.2 p + Int.tdiv 1000 (ticketsUsed x.1 p) ≤ intMax

/-- Passes are totals, and are `int`s. -/
structure Exact (x : Sys ι × (Slot → Int)) : Prop where
  pass : ∀ p, (x.1.proc p).pass = x.2 p
  low : ∀ p, -2 ^ 31 ≤ x.2 p
  high : ∀ p, x.2 p ≤ intMax

/-! ## One event -/

omit [DecidableEq ι] in
/-- Other events charge nothing. -/
theorem charge_eq (s : Sys ι) {e : Event ι} (hsch : ∀ c, e ≠ .schedule c)
    (halloc : ∀ c, e ≠ .allocproc c) (total : Slot → Int) : charge s e total = total := by
  cases e with
  | schedule c => exact absurd rfl (hsch c)
  | allocproc c => exact absurd rfl (halloc c)
  | _ => rfl

/-- What an event does to passes and totals: nothing, or it changes those of one entry, which is
    charged a stride or taken by `allocproc`. -/
theorem chargedStep_cases {x x' : Sys ι × (Slot → Int)} {e : Event ι} (hstep : ChargedStep x e x') :
    (dispatched x.1 e = none ∧ x'.2 = x.2 ∧ ∀ p, (x'.1.proc p).pass = (x.1.proc p).pass) ∨
    ∃ p, (∀ q, q ≠ p → x'.2 q = x.2 q ∧ (x'.1.proc q).pass = (x.1.proc q).pass) ∧
      ((dispatched x.1 e = some p ∧ x'.2 p = x.2 p + Int.tdiv 1000 (ticketsUsed x.1 p) ∧
          (x'.1.proc p).pass = int32 ((x.1.proc p).pass + Int.tdiv 1000 (ticketsUsed x.1 p))) ∨
        (dispatched x.1 e = none ∧ x'.2 p = 0 ∧ (x'.1.proc p).pass = 0)) := by
  obtain ⟨s, total⟩ := x
  obtain ⟨s', total'⟩ := x'
  obtain ⟨hstep, htotal⟩ : Step s e s' ∧ total' = charge s e total := hstep
  subst htotal
  -- only the scheduler charges and only `allocproc` resets; all other sections are calm
  by_cases hsch : ∃ c, e = .schedule c
  · obtain ⟨c, rfl⟩ := hsch
    rw [Step, Sys.step] at hstep
    split_ifs at hstep
    obtain rfl := Option.some.inj hstep
    rcases schedule_cases s c with ⟨hnone, hafter⟩ | ⟨p, hp, hafter⟩
    · have hnone : dispatched s (.schedule c) = none := hnone
      left
      simp [hnone, charge, hafter]
    · have hp : dispatched s (.schedule c) = some p := hp
      refine Or.inr ⟨p, fun q hq => ?_, Or.inl ⟨hp, ?_, ?_⟩⟩
      · simp [charge, hp, hafter, hq, Table.modify_of_ne hq]
      · simp [charge, hp]
      · simp [hafter, Proc.dispatch, ticketsUsed]
  by_cases halloc : ∃ c, e = .allocproc c
  · obtain ⟨c, rfl⟩ := halloc
    obtain ⟨cur, -, rfl⟩ := Option.map_eq_some_iff.1 hstep
    cases hfree : slots.find? fun p => (s.proc p).state = .unused with
    | none =>
        left
        simp [dispatched, charge, Sys.allocproc, hfree]
    | some p =>
        refine Or.inr ⟨p, fun q hq => ?_, Or.inr ⟨rfl, ?_, ?_⟩⟩
        · simp [charge, Sys.allocproc, hfree, hq, Table.modify_of_ne hq]
        · simp [charge, hfree]
        · simp [Sys.allocproc, hfree, Proc.alloc]
  · push Not at hsch halloc
    have hnone : dispatched s e = none := by
      cases e with
      | schedule c => exact absurd rfl (hsch c)
      | _ => rfl
    exact Or.inl ⟨hnone, charge_eq s hsch halloc total,
      fun p => (step_calm hstep hsch halloc p).1⟩

/-- Passes stay totals as long as the charges fit. -/
theorem Exact.step {x x' : Sys ι × (Slot → Int)} {e : Event ι} (h : Exact x)
    (hfits : ChargeFits x e) (hstep : ChargedStep x e x') : Exact x' := by
  obtain ⟨-, htotal, hpass⟩ | ⟨p, hothers, hp⟩ := chargedStep_cases hstep
  · refine ⟨fun q => ?_, fun q => ?_, fun q => ?_⟩
    · rw [hpass, htotal, h.pass]
    · rw [htotal]
      exact h.low q
    · rw [htotal]
      exact h.high q
  · suffices hnew : (x'.1.proc p).pass = x'.2 p ∧ -2 ^ 31 ≤ x'.2 p ∧ x'.2 p ≤ intMax by
      refine ⟨fun q => ?_, fun q => ?_, fun q => ?_⟩ <;> by_cases hq : q = p
      · exact hq ▸ hnew.1
      · rw [(hothers q hq).1, (hothers q hq).2, h.pass]
      · exact hq ▸ hnew.2.1
      · rw [(hothers q hq).1]
        exact h.low q
      · exact hq ▸ hnew.2.2
      · rw [(hothers q hq).1]
        exact h.high q
    rcases hp with ⟨hdisp, htotal, hpass⟩ | ⟨-, htotal, hpass⟩
    · have hstride := stride_bounds hdisp
      have hfit := hfits p hdisp
      have hlow := h.low p
      rw [hpass, htotal, h.pass, int32_of_fits (by omega) hfit]
      exact ⟨rfl, by omega, hfit⟩
    · rw [hpass, htotal]
      decide

/-- A charge that does not fit makes pass and total differ. -/
theorem Exact.overflow {x x' : Sys ι × (Slot → Int)} {e : Event ι} (hbad : ¬ ChargeFits x e)
    (hstep : ChargedStep x e x') : ¬ PassOrders x' := by
  intro h
  unfold ChargeFits at hbad
  push Not at hbad
  obtain ⟨p, hdisp, hover⟩ := hbad
  obtain ⟨hnone, -⟩ | ⟨q, -, ⟨hq, htotal, hpass⟩ | ⟨hnone, -⟩⟩ := chargedStep_cases hstep
  · rw [hnone] at hdisp
    cases hdisp
  · obtain rfl : q = p := Option.some.inj (hq.symm.trans hdisp)
    have hwrapped : int32 ((x.1.proc q).pass + Int.tdiv 1000 (ticketsUsed x.1 q)) ≤ intMax := by
      have := Int.bmod_lt (x := (x.1.proc q).pass + Int.tdiv 1000 (ticketsUsed x.1 q))
        (show 0 < 2 ^ 32 by decide)
      rw [int32, intMax]
      omega
    rw [← hpass, h.1 q, htotal] at hwrapped
    omega
  · rw [hnone] at hdisp
    cases hdisp

/-! ## Runs -/

omit [DecidableEq ι] in
theorem Exact.passOrders {x : Sys ι × (Slot → Int)} (h : Exact x) : PassOrders x :=
  ⟨h.pass, fun p q => by rw [h.pass, h.pass]⟩

/-- How often `p` is dispatched along a trace with totals. -/
def timesDispatched (p : Slot) (tr : List ((Sys ι × (Slot → Int)) × Event ι)) : Nat :=
  tr.countP fun y => dispatched y.1.1 y.2 = some p

omit [DecidableEq ι] in
theorem timesDispatched_snoc (p : Slot) (tr : List ((Sys ι × (Slot → Int)) × Event ι))
    (y : (Sys ι × (Slot → Int)) × Event ι) : timesDispatched p (tr ++ [y]) =
      timesDispatched p tr + if dispatched y.1.1 y.2 = some p then 1 else 0 := by
  rw [timesDispatched, List.countP_append, List.countP_singleton]
  simp [timesDispatched]

/-- Each dispatch charges 1000 at most. -/
theorem total_le {s₀ : Sys ι} {x : Sys ι × (Slot → Int)}
    {tr : List ((Sys ι × (Slot → Int)) × Event ι)}
    (hrun : Run ChargedStep (s₀, fun _ => 0) tr x) (p : Slot) :
    x.2 p ≤ 1000 * timesDispatched p tr := by
  induction hrun with
  | nil => simp [timesDispatched]
  | @snoc tr y y' e hrun hstep ih =>
      rw [timesDispatched_snoc]
      obtain ⟨hnone, htotal, -⟩ | ⟨q, hothers, hq⟩ := chargedStep_cases hstep
      · rw [htotal, if_neg (by simp [hnone])]
        exact ih
      by_cases hpq : p = q
      · subst hpq
        rcases hq with ⟨hdisp, htotal, -⟩ | ⟨-, htotal, -⟩
        · have hstride := stride_bounds hdisp
          rw [htotal, if_pos hdisp]
          omega
        · rw [htotal]
          omega
      · rw [(hothers p hpq).1]
        split_ifs <;> omega

theorem chargeFits_of_few {s₀ : Sys ι} {x : Sys ι × (Slot → Int)}
    {tr : List ((Sys ι × (Slot → Int)) × Event ι)}
    (hrun : Run ChargedStep (s₀, fun _ => 0) tr x)
    (hfew : ∀ p, timesDispatched p tr ≤ 2147483) : ∀ y ∈ tr, ChargeFits y.1 y.2 := by
  induction hrun with
  | nil => simp
  | @snoc tr y y' e hrun hstep ih =>
      simp only [timesDispatched_snoc] at hfew
      have hbefore : ∀ p, timesDispatched p tr ≤ 2147483 :=
        fun p => (Nat.le_add_right _ _).trans (hfew p)
      intro z hz
      rcases List.mem_append.1 hz with hz | hz
      · exact ih hbefore z hz
      · rw [List.mem_singleton.1 hz]
        intro p hp
        have hp : dispatched y.1 e = some p := hp
        have hcount := hfew p
        have htotal := total_le hrun p
        have hstride := stride_bounds hp
        rw [if_pos hp] at hcount
        simp only [intMax]
        omega

/-- **When passes order the processes.** Take a run of the stride scheduler from a machine with all
    passes 0. In all of its states no pass has overflowed and the comparison of passes orders the
    processes by the strides they were charged, exactly when every dispatch leaves the total charged
    to its process since it was allocated at `INT_MAX` at most. This is so as long as no process is
    dispatched more than 2147483 times. -/
theorem pass_orders_iff {s₀ : Sys ι} {x : Sys ι × (Slot → Int)}
    {tr : List ((Sys ι × (Slot → Int)) × Event ι)} (hzero : ∀ p, (s₀.proc p).pass = 0)
    (hrun : Run ChargedStep (s₀, fun _ => 0) tr x) :
    (Along PassOrders tr x ↔ ∀ y ∈ tr, ChargeFits y.1 y.2) ∧
    ((∀ p, timesDispatched p tr ≤ 2147483) → Along PassOrders tr x) := by
  have hiff : Along PassOrders tr x ↔ ∀ y ∈ tr, ChargeFits y.1 y.2 :=
    hrun.along_iff (I := Exact) ⟨hzero, by simp, by simp [intMax]⟩ (fun _ h => h.passOrders)
      (fun _ _ _ h hfits hstep => h.step hfits hstep)
      (fun _ _ _ _ hbad hstep => Exact.overflow hbad hstep)
  exact ⟨hiff, fun hfew => hiff.2 (chargeFits_of_few hrun hfew)⟩

/-! ## A process that runs alone -/

/-- The totals when only process 0 was charged. -/
def loneTotal (n : Int) : Slot → Int := Function.update (fun _ => 0) 0 n

theorem lone_ticketsUsed (n : Int) : ticketsUsed (lone n) 0 = 100 := by
  rw [ticketsUsed, lone_updateTickets]
  rfl

theorem lone_charge (n m : Int) :
    charge (lone n) (.schedule ()) (loneTotal m) = loneTotal (m + 10) := by
  have hstride : Int.tdiv 1000 100 = 10 := rfl
  simp [charge, lone_dispatched, lone_ticketsUsed, loneTotal, hstride]

/-- Alone on the machine, the process is charged 10 with every iteration. -/
theorem lone_charged (n : Nat) (hn : n ≤ 214748364) :
    ∃ tr, Run ChargedStep (lone 0, fun _ => 0) tr (lone (10 * n), loneTotal (10 * n)) ∧
      tr.length = 2 * n := by
  induction n with
  | zero =>
      have hstart : loneTotal (10 * (0 : Nat)) = fun _ => 0 := Function.update_eq_self 0 _
      rw [hstart]
      exact ⟨[], Run.nil, rfl⟩
  | succ n ih =>
      obtain ⟨tr, hrun, hlen⟩ := ih (by omega)
      have hfits : int32 (10 * n + 10) = 10 * n + 10 := int32_of_fits (by omega) (by omega)
      have hsched : ChargedStep (lone (10 * n), loneTotal (10 * n)) (.schedule ())
          (loneRunning (10 * n + 10), loneTotal (10 * n + 10)) :=
        ⟨lone_schedule hfits, (lone_charge _ _).symm⟩
      have hyield : ChargedStep (loneRunning (10 * n + 10), loneTotal (10 * n + 10)) (.yield ())
          (lone (10 * n + 10), loneTotal (10 * n + 10)) :=
        ⟨lone_yield _, rfl⟩
      have hcast : 10 * ((n + 1 : Nat) : Int) = 10 * n + 10 := by omega
      rw [hcast]
      refine ⟨_, (hrun.snoc hsched).snoc hyield, ?_⟩
      rw [List.length_append, List.length_append, hlen]
      rfl

/-- A process that runs alone for 214748364 iterations has pass 2147483640. The next dispatch makes
    it -2147483646. -/
theorem lone_pass_overflows :
    ∃ tr s, Run ChargedStep (lone 0, fun _ => 0) tr (s, loneTotal 2147483650) ∧
      (s.proc 0).pass = -2147483646 ∧ ¬ Along PassOrders tr (s, loneTotal 2147483650) := by
  obtain ⟨tr, hrun, -⟩ := lone_charged 214748364 (by omega)
  have hstep : ChargedStep (lone 2147483640, loneTotal 2147483640) (.schedule ())
      ((lone 2147483640).schedule (), loneTotal 2147483650) :=
    ⟨step_schedule rfl, (lone_charge 2147483640 2147483640).symm⟩
  have hpass : (((lone 2147483640).schedule ()).proc 0).pass = -2147483646 := by decide +kernel
  refine ⟨_, _, hrun.snoc hstep, hpass, fun h => ?_⟩
  have htotal := h.2.1 0
  rw [hpass] at htotal
  exact absurd htotal (by decide)

/-- A million iterations of that process. -/
theorem lone_pass_orders : ∃ tr s, Run ChargedStep (lone 0, fun _ => 0) tr s ∧
    tr.length = 2000000 ∧ (s.1.proc 0).pass = 10000000 ∧ Along PassOrders tr s := by
  have hzero : ∀ p, ((lone 0).proc p).pass = 0 := by decide +kernel
  obtain ⟨tr, hrun, hlen⟩ := lone_charged 1000000 (by omega)
  refine ⟨tr, _, hrun, hlen, rfl, (pass_orders_iff hzero hrun).2 fun p => ?_⟩
  have hle : timesDispatched p tr ≤ tr.length := List.countP_le_length
  omega

end Cs350.Sched
