import Cs350.Sched.Tickets
import Mathlib.Algebra.Order.Ring.Int
import Mathlib.Data.Finset.Lattice.Fold
import Mathlib.Order.Lattice.Nat

set_option autoImplicit false

/-! # How far apart the pass values of runnable processes get

On one CPU the scheduler always dispatches the RUNNABLE process with the least pass and adds a stride
to it, which keeps the pass values of the processes that take part close to each other. A process
that joins (a new child, or a sleeper that is woken) brings whatever pass it has: `allocproc` sets it
to 0, a sleeper keeps an old one. The spread is therefore bounded by the larger of the largest
stride and the largest gap with which a process joined, and the number of dispatches a process can
get in a row follows from it. -/

namespace Cs350.Sched

open Transition

section Measures

variable {ι : Type} [DecidableEq ι]

/-- The stride that the event adds to the pass of the process it dispatches. -/
def strideUsed (s : Sys ι) (e : Event ι) : Nat :=
  match dispatched s e with
  | none => 0
  | some p => (Int.tdiv 1000 (ticketsUsed s p)).toNat

/-- `p` takes part in scheduling from the step on: it was forked or woken by it. -/
def Joins (s s' : Sys ι) (p : Slot) : Prop := ¬ (s.proc p).Active ∧ (s'.proc p).Active

instance (s s' : Sys ι) (p : Slot) : Decidable (Joins s s' p) := inferInstanceAs (Decidable (_ ∧ _))

/-- The largest difference between the pass of a process that joins by the event and the pass of a
    process that is active then. -/
def joinGap (s : Sys ι) (e : Event ι) : Nat :=
  match s.step e with
  | none => 0
  | some s' =>
    Finset.univ.sup fun p => Finset.univ.sup fun q =>
      if Joins s s' p ∧ (s'.proc q).Active then ((s'.proc p).pass - (s'.proc q).pass).natAbs else 0

/-- The largest value of `f` along a trace. -/
def largest (f : Sys ι → Event ι → Nat) (tr : List (Sys ι × Event ι)) : Nat :=
  (tr.map fun x => f x.1 x.2).foldr max 0

/-- The new pass of the process dispatched is an `int`. -/
def PassFits (s : Sys ι) (e : Event ι) : Prop :=
  ∀ p, dispatched s e = some p →
    int32 ((s.proc p).pass + Int.tdiv 1000 (ticketsUsed s p)) =
      (s.proc p).pass + Int.tdiv 1000 (ticketsUsed s p)

/-- How often `p` is dispatched along a trace. -/
def dispatches (p : Slot) (tr : List (Sys ι × Event ι)) : Nat :=
  tr.countP fun x => dispatched x.1 x.2 = some p

omit [DecidableEq ι] in
theorem le_largest {f : Sys ι → Event ι → Nat} {tr : List (Sys ι × Event ι)} {x : Sys ι × Event ι}
    (hx : x ∈ tr) : f x.1 x.2 ≤ largest f tr := by
  induction tr with
  | nil => simp at hx
  | cons y tr ih =>
      rw [largest, List.map_cons, List.foldr_cons]
      rcases List.mem_cons.1 hx with rfl | hx
      · exact le_max_left _ _
      · exact (ih hx).trans (le_max_right _ _)

omit [DecidableEq ι] in
theorem largest_le {f : Sys ι → Event ι → Nat} {tr : List (Sys ι × Event ι)} {m : Nat}
    (h : ∀ x ∈ tr, f x.1 x.2 ≤ m) : largest f tr ≤ m := by
  induction tr with
  | nil => exact Nat.zero_le m
  | cons y tr ih =>
      rw [largest, List.map_cons, List.foldr_cons]
      exact max_le (h y (by simp)) (ih fun x hx => h x (List.mem_cons_of_mem _ hx))

theorem le_joinGap {s s' : Sys ι} {e : Event ι} (hstep : Step s e s') {p q : Slot}
    (hp : Joins s s' p) (hq : (s'.proc q).Active) :
    ((s'.proc p).pass - (s'.proc q).pass).natAbs ≤ joinGap s e := by
  have hstep : s.step e = some s' := hstep
  rw [joinGap, hstep]
  have hin : ((s'.proc p).pass - (s'.proc q).pass).natAbs =
      if Joins s s' p ∧ (s'.proc q).Active then ((s'.proc p).pass - (s'.proc q).pass).natAbs
      else 0 := by rw [if_pos ⟨hp, hq⟩]
  rw [hin]
  refine le_trans ?_ (Finset.le_sup (Finset.mem_univ p))
  exact Finset.le_sup (f := fun q => if Joins s s' p ∧ (s'.proc q).Active then
    ((s'.proc p).pass - (s'.proc q).pass).natAbs else 0) (Finset.mem_univ q)

omit [DecidableEq ι] in
/-- With at most `NPROC` active processes a share is between 1 and 100 tickets, so that a stride is
    between 10 and 1000. -/
theorem stride_bounds {s : Sys ι} {e : Event ι} {p : Slot} (h : dispatched s e = some p) :
    10 ≤ Int.tdiv 1000 (ticketsUsed s p) ∧ Int.tdiv 1000 (ticketsUsed s p) ≤ 1000 := by
  have hact := active_of_dispatched h
  have hpos := activeCount_pos hact
  have hle := activeCount_le s.proc
  rw [ticketsUsed_of_active hact]
  have hcount : 1 ≤ share s ∧ share s ≤ 100 := by
    refine ⟨(Nat.one_le_div_iff hpos).2 (hle.trans (by decide)), Nat.div_le_self _ _⟩
  have hdiv : Int.tdiv 1000 (share s) = ((1000 / share s : Nat) : Int) :=
    (Int.ofNat_tdiv 1000 _).symm
  rw [hdiv]
  have h1 : 10 ≤ 1000 / share s := (Nat.le_div_iff_mul_le hcount.1).2 (by omega)
  have h2 : 1000 / share s ≤ 1000 := Nat.div_le_self _ _
  omega

omit [DecidableEq ι] in
theorem strideUsed_of_dispatched {s : Sys ι} {e : Event ι} {p : Slot}
    (h : dispatched s e = some p) :
    (strideUsed s e : Int) = Int.tdiv 1000 (ticketsUsed s p) := by
  have := stride_bounds h
  simp only [strideUsed, h]
  omega

omit [DecidableEq ι] in
theorem strideUsed_le (s : Sys ι) (e : Event ι) : strideUsed s e ≤ 1000 := by
  cases h : dispatched s e with
  | none => simp [strideUsed, h]
  | some p =>
      have h1 := strideUsed_of_dispatched h
      have h2 := stride_bounds h
      omega

end Measures

/-! ## What the other critical sections do to states and passes -/

/-- From `t` to `t'` no pass changes and no process starts running. -/
def Calm (t t' : Table) : Prop :=
  ∀ p, (t' p).pass = (t p).pass ∧ ((t' p).state = .running → (t p).state = .running)

theorem Calm.refl (t : Table) : Calm t t := fun _ => ⟨rfl, id⟩

theorem Calm.trans {t t' t'' : Table} (h : Calm t t') (h' : Calm t' t'') : Calm t t'' :=
  fun p => ⟨(h' p).1.trans (h p).1, fun hr => (h p).2 ((h' p).2 hr)⟩

theorem calm_modify {t : Table} {p : Slot} {f : Proc → Proc} (hpass : (f (t p)).pass = (t p).pass)
    (hrun : (f (t p)).state = .running → (t p).state = .running) : Calm t (t.modify p f) := by
  intro q
  by_cases hq : q = p
  · subst hq
    simpa using ⟨hpass, hrun⟩
  · simp [Table.modify_of_ne hq]

theorem calm_wakeup1 (chan : Chan) (t : Table) : Calm t (wakeup1 chan t) := by
  intro p
  unfold wakeup1
  split_ifs with h
  · exact ⟨rfl, by simp⟩
  · exact ⟨rfl, id⟩

theorem calm_kill (pid : Int) (t : Table) : Calm t (kill pid t).2 := by
  unfold kill
  split
  · exact Calm.refl t
  · refine calm_modify rfl fun h => ?_
    simp only at h
    split_ifs at h with hs
    exact h

theorem calm_transferTickets (t : Table) (cur : Slot) (pid n : Int) :
    Calm t (sysTransferTickets t cur pid n).2 := by
  unfold sysTransferTickets
  split
  · exact Calm.refl t
  · split_ifs
    · exact Calm.refl t
    · exact Calm.refl t
    · exact (calm_modify rfl id).trans (calm_modify rfl id)

theorem calm_exitStep (cur initproc : Slot) (t : Table) (p : Slot) :
    Calm t (exitStep cur initproc t p) := by
  unfold exitStep
  split_ifs
  · have hparent : Calm t (t.modify p fun q => { q with parent := some initproc }) :=
      calm_modify rfl id
    simp only
    split_ifs
    · exact hparent.trans (calm_wakeup1 _ _)
    · exact hparent
  · exact Calm.refl t

theorem calm_exitTable (cur initproc : Slot) (t : Table) : Calm t (exitTable cur initproc t) := by
  have hfold : ∀ (l : List Slot) (t : Table), Calm t (l.foldl (exitStep cur initproc) t) := by
    intro l
    induction l with
    | nil => exact Calm.refl
    | cons p l ih => exact fun t => (calm_exitStep cur initproc t p).trans (ih _)
  have hlast : ∀ t : Table, Calm t (t.modify cur fun q => { q with state := .zombie }) :=
    fun t => calm_modify rfl (by simp)
  unfold exitTable
  refine (Calm.trans ?_ (hfold slots _)).trans (hlast _)
  split
  · exact Calm.refl t
  · exact calm_wakeup1 _ t

section Effects

variable {ι : Type} [DecidableEq ι]

/-- What every critical section but the scheduler's does: the pass of a process in use stays, no
    process starts running, and the CPUs stay as they are unless a running process leaves its own. -/
structure Quiet (s s' : Sys ι) : Prop where
  pass : ∀ p, (s.proc p).state ≠ .unused → (s'.proc p).pass = (s.proc p).pass
  running : ∀ p, (s'.proc p).state = .running → (s.proc p).state = .running
  cpu : s'.cpu = s.cpu ∨ ∃ c cur, s.cpu c = some cur ∧ (s'.proc cur).state ≠ .running

/-- Every event but a scheduler iteration and `allocproc` leaves all passes alone, and starts
    nothing. -/
theorem step_calm {s s' : Sys ι} {e : Event ι} (hstep : Step s e s')
    (hsch : ∀ c, e ≠ .schedule c) (halloc : ∀ c, e ≠ .allocproc c) : Calm s.proc s'.proc := by
  cases e with
  | schedule c => exact absurd rfl (hsch c)
  | allocproc c => exact absurd rfl (halloc c)
  | yield c =>
      obtain ⟨cur, hcur, rfl⟩ := Option.map_eq_some_iff.1 hstep
      exact calm_modify rfl (by simp)
  | sleep c chan =>
      obtain ⟨cur, hcur, rfl⟩ := Option.map_eq_some_iff.1 hstep
      exact calm_modify rfl (by simp)
  | exit c =>
      obtain ⟨cur, hcur, hif⟩ := Option.bind_eq_some_iff.1 hstep
      split_ifs at hif
      obtain rfl := Option.some.inj hif
      exact calm_exitTable cur s.initproc s.proc
  | wait c =>
      obtain ⟨cur, hcur, rfl⟩ := Option.map_eq_some_iff.1 hstep
      unfold Sys.wait
      split
      · exact calm_modify rfl (by simp [Proc.reap])
      · split_ifs
        · exact calm_modify rfl (by simp)
        · exact Calm.refl _
  | forkFail c np =>
      obtain ⟨cur, -, hif⟩ := Option.bind_eq_some_iff.1 hstep
      split_ifs at hif
      obtain rfl := Option.some.inj hif
      exact calm_modify rfl (by simp)
  | forkDone c np =>
      obtain ⟨cur, -, hif⟩ := Option.bind_eq_some_iff.1 hstep
      split_ifs at hif
      obtain rfl := Option.some.inj hif
      exact calm_modify rfl (by simp)
  | wakeup chan =>
      obtain rfl := Option.some.inj hstep
      exact calm_wakeup1 chan s.proc
  | kill pid =>
      obtain rfl := Option.some.inj hstep
      exact calm_kill pid s.proc
  | transferTickets c pid n =>
      obtain ⟨cur, -, rfl⟩ := Option.map_eq_some_iff.1 hstep
      exact calm_transferTickets s.proc cur pid n

/-- A process leaves the CPU only when it stops running. -/
theorem step_cpu {s s' : Sys ι} {e : Event ι} (hstep : Step s e s') (he : ∀ c, e ≠ .schedule c) :
    s'.cpu = s.cpu ∨ ∃ c cur, s.cpu c = some cur ∧ (s'.proc cur).state ≠ .running := by
  cases e with
  | schedule c => exact absurd rfl (he c)
  | yield c =>
      obtain ⟨cur, hcur, rfl⟩ := Option.map_eq_some_iff.1 hstep
      exact Or.inr ⟨c, cur, hcur, by simp [Sys.leave]⟩
  | sleep c chan =>
      obtain ⟨cur, hcur, rfl⟩ := Option.map_eq_some_iff.1 hstep
      exact Or.inr ⟨c, cur, hcur, by simp [Sys.leave]⟩
  | exit c =>
      obtain ⟨cur, hcur, hif⟩ := Option.bind_eq_some_iff.1 hstep
      split_ifs at hif
      obtain rfl := Option.some.inj hif
      exact Or.inr ⟨c, cur, hcur, by simp [exitTable]⟩
  | wait c =>
      obtain ⟨cur, hcur, rfl⟩ := Option.map_eq_some_iff.1 hstep
      unfold Sys.wait
      split
      · exact Or.inl rfl
      · split_ifs
        · exact Or.inr ⟨c, cur, hcur, by simp [Sys.leave]⟩
        · exact Or.inl rfl
  | allocproc c =>
      obtain ⟨cur, -, rfl⟩ := Option.map_eq_some_iff.1 hstep
      unfold Sys.allocproc
      split <;> exact Or.inl rfl
  | forkFail c np =>
      obtain ⟨cur, -, hif⟩ := Option.bind_eq_some_iff.1 hstep
      split_ifs at hif
      obtain rfl := Option.some.inj hif
      exact Or.inl rfl
  | forkDone c np =>
      obtain ⟨cur, -, hif⟩ := Option.bind_eq_some_iff.1 hstep
      split_ifs at hif
      obtain rfl := Option.some.inj hif
      exact Or.inl rfl
  | transferTickets c pid n =>
      obtain ⟨cur, -, rfl⟩ := Option.map_eq_some_iff.1 hstep
      exact Or.inl rfl
  | _ =>
      obtain rfl := Option.some.inj hstep
      exact Or.inl rfl

omit [DecidableEq ι] in
/-- `allocproc` sets the pass of an entry that was not in use. -/
theorem allocproc_in_use (s : Sys ι) {q : Slot} (hq : (s.proc q).state ≠ .unused) :
    s.allocproc.proc q = s.proc q := by
  unfold Sys.allocproc
  split
  · rfl
  · next p hp =>
      have hunused : (s.proc p).state = .unused := by simpa using List.find?_some hp
      have hne : q ≠ p := fun h => hq (h ▸ hunused)
      simp [Table.modify_of_ne hne]

omit [DecidableEq ι] in
theorem allocproc_running (s : Sys ι) {q : Slot} (hq : (s.allocproc.proc q).state = .running) :
    (s.proc q).state = .running := by
  by_cases hunused : (s.proc q).state = .unused
  · revert hq
    unfold Sys.allocproc
    split
    · exact id
    · next p hp =>
        by_cases hqp : q = p
        · subst hqp
          simp [Proc.alloc]
        · simp [Table.modify_of_ne hqp]
  · rwa [allocproc_in_use s hunused] at hq

theorem step_quiet {s s' : Sys ι} {e : Event ι} (hstep : Step s e s')
    (he : ∀ c, e ≠ .schedule c) : Quiet s s' := by
  have hcpu := step_cpu hstep he
  by_cases halloc : ∃ c, e = .allocproc c
  · obtain ⟨c, rfl⟩ := halloc
    obtain ⟨cur, -, rfl⟩ := Option.map_eq_some_iff.1 hstep
    exact ⟨fun p hp => by rw [allocproc_in_use s hp], fun p => allocproc_running s, hcpu⟩
  · have hcalm := step_calm hstep he (not_exists.1 halloc)
    exact ⟨fun p _ => (hcalm p).1, fun p => (hcalm p).2, hcpu⟩

end Effects

/-! ## One CPU -/

/-- A RUNNING process is the one on the CPU. -/
def OneCpu (s : Sys Unit) : Prop := ∀ p, (s.proc p).state = .running → s.cpu () = some p

/-- One CPU, and the pass values of the active processes are at most `B` apart. -/
structure SpreadOk (B : Nat) (s : Sys Unit) : Prop where
  one : OneCpu s
  near : ∀ p q, (s.proc p).Active → (s.proc q).Active → (s.proc p).pass ≤ (s.proc q).pass + B

theorem Quiet.oneCpu {s s' : Sys Unit} (h : Quiet s s') (hs : OneCpu s) : OneCpu s' := by
  intro p hp
  have hcpu := hs p (h.running p hp)
  rcases h.cpu with heq | ⟨c, cur, hc, hcur⟩
  · rw [heq, hcpu]
  · rw [hcpu] at hc
    exact absurd hp (Option.some.inj hc ▸ hcur)

/-- Passes that were near stay near, and those of the processes that join are within `joinGap`. -/
theorem Quiet.spreadOk {B : Nat} {s s' : Sys Unit} {e : Event Unit} (h : Quiet s s')
    (hs : SpreadOk B s) (hstep : Step s e s') (hgap : joinGap s e ≤ B) : SpreadOk B s' := by
  refine ⟨h.oneCpu hs.one, fun p q hp hq => ?_⟩
  have hinUse : ∀ r, (s.proc r).Active → (s'.proc r).pass = (s.proc r).pass := by
    intro r hr
    refine h.pass r fun hu => ?_
    rcases hr with hr | hr <;> rw [hu] at hr <;> cases hr
  by_cases hp' : (s.proc p).Active
  · by_cases hq' : (s.proc q).Active
    · rw [hinUse p hp', hinUse q hq']
      exact hs.near p q hp' hq'
    · have := le_joinGap hstep ⟨hq', hq⟩ hp
      omega
  · have := le_joinGap hstep ⟨hp', hp⟩ hq
    omega

theorem step_schedule {s : Sys Unit} (hidle : s.cpu () = none) :
    Step s (.schedule ()) (s.schedule ()) := by
  rw [Step, Sys.step, if_pos hidle]

/-- What an iteration does on an idle CPU when some process is RUNNABLE. -/
theorem schedule_dispatch {s : Sys Unit} {p : Slot} (hp : dispatched s (.schedule ()) = some p)
    (hfits : PassFits s (.schedule ())) :
    (s.schedule ()).cpu () = some p ∧ ((s.schedule ()).proc p).state = .running ∧
    ((s.schedule ()).proc p).pass = (s.proc p).pass + strideUsed s (.schedule ()) ∧
    ∀ q, q ≠ p → ((s.schedule ()).proc q).pass = (s.proc q).pass ∧
      ((s.schedule ()).proc q).state = (s.proc q).state := by
  rcases schedule_cases s () with ⟨hnone, -⟩ | ⟨r, hr, hsch⟩
  · rw [dispatched, hnone] at hp
    cases hp
  · obtain rfl : r = p := Option.some.inj (hr.symm.trans hp)
    rw [hsch, strideUsed_of_dispatched hp, ← hfits r hp]
    refine ⟨by simp, by simp [Proc.dispatch], by simp [Proc.dispatch, ticketsUsed], fun q hq => ?_⟩
    simp [Table.modify_of_ne hq]

/-- The process dispatched has the least pass of all RUNNABLE processes. -/
theorem pass_dispatched_le {s : Sys Unit} {p q : Slot} (hp : dispatched s (.schedule ()) = some p)
    (hq : (s.proc q).state = .runnable) : (s.proc p).pass ≤ (s.proc q).pass := by
  have := (getminproc_eq_some hp).2 q (by simpa using hq)
  simp only [updateTickets_pass] at this
  omega

theorem schedule_spreadOk {B : Nat} {s : Sys Unit} (hs : SpreadOk B s) (hidle : s.cpu () = none)
    (hstride : strideUsed s (.schedule ()) ≤ B) (hfits : PassFits s (.schedule ())) :
    SpreadOk B (s.schedule ()) := by
  -- an idle CPU means that nothing is RUNNING
  have hrunnable : ∀ q, (s.proc q).Active → (s.proc q).state = .runnable := by
    intro q hq
    refine hq.resolve_right fun hr => ?_
    rw [hs.one q hr] at hidle
    cases hidle
  cases hp : dispatched s (.schedule ()) with
  | none =>
      have hproc : s.schedule () = { s with proc := updateTickets s.proc } := by
        rcases schedule_cases s () with ⟨-, h⟩ | ⟨r, hr, -⟩
        · exact h
        · rw [dispatched, hr] at hp
          cases hp
      rw [hproc]
      refine ⟨fun q hq => hs.one q (by simpa using hq), fun q r hq hr => ?_⟩
      simpa using hs.near q r (by simpa [Proc.Active] using hq) (by simpa [Proc.Active] using hr)
  | some p =>
      obtain ⟨hcpu, -, hpass, hother⟩ := schedule_dispatch hp hfits
      refine ⟨fun q hq => ?_, fun q r hq hr => ?_⟩
      · by_cases hqp : q = p
        · rw [hqp, hcpu]
        · rw [(hother q hqp).2] at hq
          have := hrunnable q (Or.inr hq)
          rw [hq] at this
          cases this
      · -- the pass that moves was the least one
        rw [schedule_active] at hq hr
        have hleast := fun q hq => pass_dispatched_le hp (hrunnable q hq)
        have hnear := hs.near q r hq hr
        have hq' := hleast q hq
        have hr' := hleast r hr
        by_cases hqp : q = p
        · by_cases hrp : r = p
          · rw [hqp, hrp]
            omega
          · rw [hqp, hpass, (hother r hrp).1]
            omega
        · by_cases hrp : r = p
          · subst hrp
            rw [hpass, (hother q hqp).1]
            omega
          · rw [(hother q hqp).1, (hother r hrp).1]
            exact hnear

theorem step_spreadOk {B : Nat} {s s' : Sys Unit} {e : Event Unit} (hs : SpreadOk B s)
    (hstep : Step s e s') (hstride : strideUsed s e ≤ B) (hgap : joinGap s e ≤ B)
    (hfits : PassFits s e) : SpreadOk B s' := by
  by_cases he : e = .schedule ()
  · subst he
    rw [Step, Sys.step] at hstep
    split_ifs at hstep with hidle
    obtain rfl := Option.some.inj hstep
    exact schedule_spreadOk hs hidle hstride hfits
  · exact (step_quiet hstep fun _ => he).spreadOk hs hstep hgap

/-! ## Runs -/

/-- What bounds the spread along a trace. -/
def spreadBound (tr : List (Sys Unit × Event Unit)) : Nat :=
  max (largest strideUsed tr) (largest joinGap tr)

theorem run_spreadOk {s₀ s : Sys Unit} {tr : List (Sys Unit × Event Unit)} (hone : OneCpu s₀)
    (heq : ∀ p q, (s₀.proc p).pass = (s₀.proc q).pass) (hrun : Run Step s₀ tr s)
    (hfits : ∀ x ∈ tr, PassFits x.1 x.2) : Along (SpreadOk (spreadBound tr)) tr s := by
  refine hrun.invariant_of_steps
    (C := fun u e => strideUsed u e ≤ spreadBound tr ∧ joinGap u e ≤ spreadBound tr ∧ PassFits u e)
    ⟨hone, fun p q _ _ => by rw [heq p q]; omega⟩
    (fun u e u' hu hC hstep => step_spreadOk hu hstep hC.1 hC.2.1 hC.2.2) (fun x hx => ?_)
  exact ⟨(le_largest hx).trans (le_max_left _ _), (le_largest hx).trans (le_max_right _ _),
    hfits x hx⟩

/-- `q` stays RUNNABLE and nothing but `p`, which stays in use, is dispatched. -/
def OnlyDispatches (p q : Slot) (u : Sys Unit) (e : Event Unit) : Prop :=
  (u.proc q).state = .runnable ∧ (u.proc p).state ≠ .unused ∧
    (dispatched u e = none ∨ dispatched u e = some p)

/-- A step without a dispatch changes no pass of a process in use. -/
theorem pass_of_not_dispatched {s s' : Sys Unit} {e : Event Unit} (hstep : Step s e s')
    (hnone : dispatched s e = none) {p : Slot} (hp : (s.proc p).state ≠ .unused) :
    (s'.proc p).pass = (s.proc p).pass := by
  by_cases he : e = .schedule ()
  · subst he
    rw [Step, Sys.step] at hstep
    split_ifs at hstep
    obtain rfl := Option.some.inj hstep
    rcases schedule_cases s () with ⟨-, h⟩ | ⟨r, hr, -⟩
    · rw [h]
      simp
    · rw [dispatched, hr] at hnone
      cases hnone
  · exact (step_quiet hstep fun _ => he).pass p hp

/-- Each dispatch of `p` raises its pass by 10 at least, and it is dispatched only as long as its
    pass is at most that of `q`. After the first dispatch the pass of `q` was at most `B` ahead, so
    the number `k` of dispatches satisfies `10 * (k - 1) ≤ B`. -/
theorem dispatches_bound {B : Nat} {p q : Slot} (hne : p ≠ q) {u s : Sys Unit}
    {tr : List (Sys Unit × Event Unit)} (hrun : Run Step u tr s) (hok : ∀ x ∈ tr, SpreadOk B x.1)
    (hfits : ∀ x ∈ tr, PassFits x.1 x.2) (honly : ∀ x ∈ tr, OnlyDispatches p q x.1 x.2) :
    dispatches p tr = 0 ∨
      (s.proc q).pass + 10 * dispatches p tr ≤ (s.proc p).pass + B ∧
      10 * dispatches p tr ≤ B + 10 := by
  induction hrun with
  | nil => exact Or.inl rfl
  | @snoc tr v v' e hrun hstep ih =>
      have ih := ih (fun x hx => hok x (List.mem_append_left _ hx))
        (fun x hx => hfits x (List.mem_append_left _ hx))
        (fun x hx => honly x (List.mem_append_left _ hx))
      obtain ⟨hq, hp, hdisp⟩ : OnlyDispatches p q v e := honly (v, e) (by simp)
      have hcount : dispatches p (tr ++ [(v, e)]) =
          dispatches p tr + if dispatched v e = some p then 1 else 0 := by
        rw [dispatches, List.countP_append, List.countP_singleton]
        simp [dispatches]
      rcases hdisp with hnone | hsome
      · have hcount : dispatches p (tr ++ [(v, e)]) = dispatches p tr := by
          simpa [hnone] using hcount
        have hqUse : (v.proc q).state ≠ .unused := by rw [hq]; simp
        rw [hcount, pass_of_not_dispatched hstep hnone hp, pass_of_not_dispatched hstep hnone hqUse]
        exact ih
      · rw [if_pos hsome] at hcount
        obtain rfl : e = .schedule () := by
          cases e with
          | schedule c => rfl
          | _ => simp [dispatched] at hsome
        have hstep' := hstep
        rw [Step, Sys.step] at hstep'
        split_ifs at hstep'
        obtain rfl := Option.some.inj hstep'
        obtain ⟨-, -, hpass, hother⟩ := schedule_dispatch hsome (hfits (v, .schedule ()) (by simp))
        have hstride := stride_bounds hsome
        rw [← strideUsed_of_dispatched hsome] at hstride
        have hle := pass_dispatched_le hsome hq
        have hv : SpreadOk B v := hok (v, .schedule ()) (by simp)
        have hnear := hv.near q p (Or.inl hq) (active_of_dispatched hsome)
        right
        rw [hcount, hpass, (hother q hne.symm).1]
        rcases ih with h0 | ⟨h1, h2⟩
        · rw [h0]
          omega
        · omega

/-- **The spread of runnable processes.** On one CPU, in every state reached from equal pass values
    the passes of two RUNNABLE processes differ by at most the largest stride used so far (at most
    1000) or the largest gap with which a process was forked or woken into the active ones. While
    `q` stays RUNNABLE, another process is dispatched in a row at most a tenth of that bound, plus
    one, times. -/
theorem runnable_spread_le {s₀ s : Sys Unit} {tr : List (Sys Unit × Event Unit)} (hone : OneCpu s₀)
    (heq : ∀ p q, (s₀.proc p).pass = (s₀.proc q).pass) (hrun : Run Step s₀ tr s)
    (hfits : ∀ x ∈ tr, PassFits x.1 x.2) :
    largest strideUsed tr ≤ 1000 ∧
    (∀ p q, (s.proc p).state = .runnable → (s.proc q).state = .runnable →
      ((s.proc p).pass - (s.proc q).pass).natAbs ≤
        max (largest strideUsed tr) (largest joinGap tr)) ∧
    ∀ tr₁ tr₂ p q, tr = tr₁ ++ tr₂ → p ≠ q → (∀ x ∈ tr₂, OnlyDispatches p q x.1 x.2) →
      10 * dispatches p tr₂ ≤ max (largest strideUsed tr) (largest joinGap tr) + 10 := by
  have hok := run_spreadOk hone heq hrun hfits
  refine ⟨largest_le fun x _ => strideUsed_le x.1 x.2, fun p q hp hq => ?_, ?_⟩
  · have h1 := hok.2.near p q (Or.inl hp) (Or.inl hq)
    have h2 := hok.2.near q p (Or.inl hq) (Or.inl hp)
    rw [spreadBound] at h1 h2
    omega
  · rintro tr₁ tr₂ p q rfl hne honly
    obtain ⟨u, -, hrun₂⟩ := hrun.split
    have hbound := dispatches_bound hne hrun₂
      (fun x hx => hok.1 x (List.mem_append_right _ hx))
      (fun x hx => hfits x (List.mem_append_right _ hx)) honly
    rcases hbound with h0 | h
    · rw [h0]
      omega
    · exact h.2

/-- Two RUNNABLE processes with equal passes on an idle CPU. -/
def idlePair : Sys Unit where
  proc := (pairTable 50 50).modify 0 fun q => { q with state := .runnable }
  cpu _ := none
  nextpid := 3
  initproc := 0

/-- The same two later on; `c` is the one that runs. -/
def pairAt (st₀ st₁ : ProcState) (a b : Int) (c : Option Slot) : Sys Unit where
  proc p := if p = 0 then ⟨st₀, 1, none, none, false, 50, a⟩
    else if p = 1 then ⟨st₁, 2, some 0, none, false, 50, b⟩
    else ⟨.unused, 0, none, none, false, 0, 0⟩
  cpu _ := c
  nextpid := 3
  initproc := 0

theorem sys_ext {s t : Sys Unit} (hproc : ∀ p, s.proc p = t.proc p) (hcpu : s.cpu () = t.cpu ())
    (hnextpid : s.nextpid = t.nextpid) (hinitproc : s.initproc = t.initproc) : s = t := by
  obtain ⟨proc, cpu, nextpid, initproc⟩ := s
  obtain rfl := funext hproc
  obtain rfl : cpu = t.cpu := funext fun _ => hcpu
  obtain rfl := hnextpid
  obtain rfl := hinitproc
  rfl

/-- Both have a turn, and the first one another. -/
def threeTurns : List (Sys Unit × Event Unit) :=
  [(idlePair, .schedule ()),
    (pairAt .running .runnable 20 0 (some 0), .yield ()),
    (pairAt .runnable .runnable 20 0 none, .schedule ()),
    (pairAt .runnable .running 20 20 (some 1), .yield ()),
    (pairAt .runnable .runnable 20 20 none, .schedule ()),
    (pairAt .running .runnable 40 20 (some 0), .yield ())]

theorem threeTurns_run : Run Step idlePair threeTurns (pairAt .runnable .runnable 40 20 none) := by
  have hstep : ∀ {s t : Sys Unit} {e : Event Unit} {s' : Sys Unit}, s.step e = some t → t = s' →
      Step s e s' := fun h heq => heq ▸ h
  refine Run.cons (hstep rfl (sys_ext ?_ ?_ ?_ ?_)) (Run.cons (hstep rfl (sys_ext ?_ ?_ ?_ ?_))
    (Run.cons (hstep rfl (sys_ext ?_ ?_ ?_ ?_)) (Run.cons (hstep rfl (sys_ext ?_ ?_ ?_ ?_))
    (Run.cons (hstep rfl (sys_ext ?_ ?_ ?_ ?_)) (Run.cons (hstep rfl (sys_ext ?_ ?_ ?_ ?_))
      Run.nil))))) <;> decide +kernel

theorem runnable_spread_two_processes : largest strideUsed threeTurns = 20 ∧
    ∀ p q, ((pairAt .runnable .runnable 40 20 none).proc p).state = .runnable →
      ((pairAt .runnable .runnable 40 20 none).proc q).state = .runnable →
      (((pairAt .runnable .runnable 40 20 none).proc p).pass -
        ((pairAt .runnable .runnable 40 20 none).proc q).pass).natAbs ≤
        max (largest strideUsed threeTurns) (largest joinGap threeTurns) := by
  have hfits : ∀ x ∈ threeTurns, PassFits x.1 x.2 := by
    unfold PassFits
    decide +kernel
  have hone : OneCpu idlePair := by
    unfold OneCpu
    decide +kernel
  exact ⟨by decide +kernel, (runnable_spread_le hone (by decide +kernel) threeTurns_run hfits).2.1⟩

/-! ## A child that starts at pass 0 -/

/-- One RUNNABLE process with pass `n` on an idle CPU; every other entry is as at boot. -/
def lone (n : Int) : Sys Unit where
  proc p := if p = 0 then ⟨.runnable, 1, none, none, false, 100, n⟩
    else ⟨.unused, 0, none, none, false, 0, 0⟩
  cpu _ := none
  nextpid := 2
  initproc := 0

/-- The same with the process dispatched. -/
def loneRunning (n : Int) : Sys Unit where
  proc p := if p = 0 then ⟨.running, 1, none, none, false, 100, n⟩
    else ⟨.unused, 0, none, none, false, 0, 0⟩
  cpu _ := some 0
  nextpid := 2
  initproc := 0

theorem lone_active (n : Int) (p : Slot) : ((lone n).proc p).Active ↔ p = 0 := by
  by_cases hp : p = 0 <;> simp [lone, hp, Proc.Active]

theorem lone_activeCount (n : Int) : activeCount (lone n).proc = 1 := by
  rw [activeCount_congr (t := (lone 0).proc) fun p => by rw [lone_active, lone_active]]
  decide +kernel

theorem lone_updateTickets (n : Int) : updateTickets (lone n).proc = (lone n).proc := by
  funext p
  rw [updateTickets, lone_activeCount]
  by_cases hp : p = 0 <;> simp [lone, hp, Proc.Active]

theorem lone_dispatched (n : Int) : dispatched (lone n) (.schedule ()) = some 0 := by
  rw [dispatched, lone_updateTickets]
  cases h : getminproc (lone n).proc with
  | none => exact absurd rfl (getminproc_eq_none h 0)
  | some p =>
      have hrun := (getminproc_eq_some h).1
      rw [(lone_active n p).1 (Or.inl hrun)]

theorem lone_strideUsed (n : Int) : strideUsed (lone n) (.schedule ()) = 10 := by
  have htickets : ticketsUsed (lone n) 0 = 100 := by
    unfold ticketsUsed
    rw [lone_updateTickets]
    rfl
  simp only [strideUsed, lone_dispatched, htickets]
  rfl

theorem lone_schedule {n : Int} (hn : int32 (n + 10) = n + 10) :
    Step (lone n) (.schedule ()) (loneRunning (n + 10)) := by
  have hmin : getminproc (updateTickets (lone n).proc) = some 0 := lone_dispatched n
  have hproc : (lone n).proc.modify 0 Proc.dispatch = (loneRunning (n + 10)).proc := by
    funext p
    by_cases hp : p = 0
    · subst hp
      simp [lone, loneRunning, Proc.dispatch, hn]
    · simp [Table.modify_of_ne hp, lone, loneRunning, hp]
  have hsched : (lone n).schedule () = loneRunning (n + 10) := by
    simp only [Sys.schedule, hmin]
    rw [lone_updateTickets, hproc]
    rfl
  exact hsched ▸ step_schedule rfl

theorem lone_yield (n : Int) : Step (loneRunning n) (.yield ()) (lone n) := by
  have hproc : ((loneRunning n).proc.modify 0 fun q => { q with state := .runnable }) =
      (lone n).proc := by
    funext p
    by_cases hp : p = 0
    · subst hp
      simp [lone, loneRunning]
    · simp [Table.modify_of_ne hp, lone, loneRunning, hp]
  have hstep : (loneRunning n).step (.yield ()) =
      some ((loneRunning n).leave () 0 fun q => { q with state := .runnable }) := rfl
  rw [Step, hstep, Sys.leave, hproc]
  rfl

/-- Alone on the machine, the process gains 10 with every iteration. -/
theorem lone_rounds (n : Nat) (hn : n ≤ 1000) :
    ∃ tr, Run Step (lone 0) tr (lone (10 * n)) ∧ largest strideUsed tr ≤ 10 := by
  induction n with
  | zero => exact ⟨[], Run.nil, Nat.zero_le _⟩
  | succ n ih =>
      obtain ⟨tr, hrun, hstride⟩ := ih (by omega)
      have hfits : int32 (10 * n + 10) = 10 * n + 10 := by
        rw [int32, Int.bmod_eq_of_le] <;> omega
      have hstep := lone_schedule hfits
      have hcast : 10 * ((n + 1 : Nat) : Int) = 10 * n + 10 := by omega
      rw [hcast]
      refine ⟨_, (hrun.snoc hstep).snoc (lone_yield _), largest_le fun x hx => ?_⟩
      simp only [List.append_assoc, List.mem_append, List.mem_singleton] at hx
      rcases hx with hx | rfl | rfl
      · exact (le_largest hx).trans hstride
      · rw [lone_strideUsed]
      · exact Nat.zero_le _

/-- The running process has forked: the child is RUNNABLE with pass 0. -/
def forked (n : Int) : Sys Unit :=
  { (loneRunning n).allocproc with
    proc := (loneRunning n).allocproc.proc.modify 1 fun q =>
      { q with parent := some 0, state := .runnable } }

/-- A process runs alone from boot until its pass is 1010, forks and yields. At the next scheduler
    iteration parent and child are RUNNABLE and 1010 apart, while no stride was larger than 10. -/
theorem fork_widens_spread :
    ∃ (tr : List (Sys Unit × Event Unit)) (s : Sys Unit),
      OneCpu (lone 0) ∧ (∀ p q, ((lone 0).proc p).pass = ((lone 0).proc q).pass) ∧
      Run Step (lone 0) tr s ∧ largest strideUsed tr ≤ 10 ∧ s.cpu () = none ∧
      (s.proc 0).state = .runnable ∧ (s.proc 1).state = .runnable ∧
      ((s.proc 0).pass - (s.proc 1).pass).natAbs = 1010 := by
  obtain ⟨tr, hrun, hstride⟩ := lone_rounds 100 (by omega)
  have hsched : Step (lone 1000) (.schedule ()) (loneRunning 1010) := lone_schedule (by decide)
  have halloc : Step (loneRunning 1010) (.allocproc ()) (loneRunning 1010).allocproc := rfl
  have hfork : Step (loneRunning 1010).allocproc (.forkDone () 1) (forked 1010) := by
    have hcpu : (loneRunning 1010).allocproc.cpu () = some 0 := by decide +kernel
    have hembryo : ((loneRunning 1010).allocproc.proc 1).state = .embryo := by decide +kernel
    simp only [Step, Sys.step, hcpu, Option.bind_some, hembryo, if_true]
    rfl
  have hcpu : (forked 1010).cpu () = some 0 := by decide +kernel
  have hyield : Step (forked 1010) (.yield ())
      ((forked 1010).leave () 0 fun q => { q with state := .runnable }) := by
    simp only [Step, Sys.step, hcpu, Option.map_some]
  refine ⟨_, _, by unfold OneCpu; decide +kernel, by decide +kernel,
    (((hrun.snoc hsched).snoc halloc).snoc hfork).snoc hyield, ?_, by decide +kernel,
    by decide +kernel, by decide +kernel, by decide +kernel⟩
  refine largest_le fun x hx => ?_
  simp only [List.append_assoc, List.mem_append, List.mem_singleton] at hx
  rcases hx with hx | rfl | rfl | rfl | rfl
  · exact (le_largest hx).trans hstride
  · rw [lone_strideUsed]
  · exact Nat.zero_le _
  · exact Nat.zero_le _
  · exact Nat.zero_le _

end Cs350.Sched
