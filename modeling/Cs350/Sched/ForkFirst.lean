import Cs350.Sched.RoundRobin

set_option autoImplicit false

/-! # Who runs first after `fork`

With `winner == 1`, `fork` makes the child RUNNABLE and then yields. Where the scheduler goes on from
there depends on the branch that dispatched the parent: the loop of the default branch continues
behind the parent's slot, the stride branch starts a new iteration. `str` decides about every
iteration that starts later, so the two can differ. -/

namespace Cs350.Sched

open Transition

/-- In the stride branch `c` comes before `p`. -/
def Beats (t : Table) (c p : Slot) : Prop :=
  (t c).pass < (t p).pass ∨ ((t c).pass = (t p).pass ∧ c < p)

instance (t : Table) (c p : Slot) : Decidable (Beats t c p) := inferInstanceAs (Decidable (_ ∨ _))

/-- When the child `c` of `p` runs first: `br` is the branch that dispatched `p`, and `str` is as it
    is during the call of `fork`. -/
def ChildWins (m : Machine) (br : Branch) (p c : Slot) : Prop :=
  match br with
  | .roundRobin => m.str = 1 → p < c ∨ Beats m.proc c p
  | .stride => if m.str = 1 then Beats m.proc c p else c < p

instance (m : Machine) (br : Branch) (p c : Slot) : Decidable (ChildWins m br p c) :=
  match br with
  | .roundRobin => inferInstanceAs (Decidable (m.str = 1 → p < c ∨ Beats m.proc c p))
  | .stride => inferInstanceAs (Decidable (if m.str = 1 then Beats m.proc c p else c < p))

/-- The process `p` returns from `fork` at the end of the trace, which begins when its child is
    RUNNABLE: the timer may preempt it, then it yields because `winner` is 1, and the next time it is
    dispatched it returns. -/
def ForkReturns (p : Slot) (tr : List (Machine × Label)) : Prop :=
  ∃ tr₁ x tr₂ y, tr = tr₁ ++ [(x, Label.act (.yield ()))] ++ tr₂ ++ [(y, Label.schedule)] ∧
    (∀ z ∈ tr₁, z.1.cur = some p → z.2 = .preempt ∨ ∃ chan, z.2 = .interrupt chan) ∧
    x.cur = some p ∧ x.winner = 1 ∧ (∀ z ∈ tr₂, z.1.dispatched z.2 ≠ some p) ∧
    y.dispatched .schedule = some p

/-! ## When the child wins, it runs first -/

/-- In the iterations of the default branch the loop comes to the child first. -/
def ScanAhead (m : Machine) (p c : Slot) : Prop := dist c m.point.pos < dist c p

/-- In the last pass of the loop before the stride branch takes over, or in the stride branch, the
    child comes first. -/
def StrideAhead (m : Machine) (p c : Slot) : Prop :=
  p < m.point.pos ∧ (m.point.pos ≤ c ∨ Beats m.proc c p)

theorem Beats.congr {t t' : Table} {c p : Slot} (hc : SameEntry t t' c) (hp : SameEntry t t' p) :
    Beats t' c p ↔ Beats t c p := by
  rw [Beats, Beats, hc.2, hp.2]

theorem ScanAhead.step {m m' : Machine} {l : Label} {p c : Slot} (h : ScanAhead m p c)
    (hstr : m.str ≠ 1) (hc : (m.proc c).state = .runnable) (hstep : MStep m l m')
    (hnot : m.dispatched l ≠ some c) : m.dispatched l ≠ some p ∧ ScanAhead m' p c := by
  unfold ScanAhead at *
  rcases step_dist hc hstr hstep hnot with ⟨hnone, hle⟩ | ⟨q, hq, hle, hlt⟩
  · exact ⟨by simp [hnone], by omega⟩
  · refine ⟨fun hp => ?_, by omega⟩
    obtain rfl : q = p := Option.some.inj (hq.symm.trans hp)
    omega

theorem StrideAhead.step {m m' : Machine} {l : Label} {p c : Slot} (h : StrideAhead m p c)
    (hstr : m.str = 1) (hc : (m.proc c).state = .runnable) (hcSame : SameEntry m.proc m'.proc c)
    (hstep : MStep m l m') (hnot : m.dispatched l ≠ some c)
    (hpSame : m.dispatched l ≠ some p → SameEntry m.proc m'.proc p) :
    m.dispatched l ≠ some p ∧ StrideAhead m' p c := by
  obtain ⟨hpos, hahead⟩ := h
  -- what is left to show once the parent is known not to be the one dispatched
  have hkeep : m.dispatched l ≠ some p → p < m'.point.pos →
      (m.point.pos ≤ c → m'.point.pos ≤ c ∨ Beats m.proc c p) →
      m.dispatched l ≠ some p ∧ StrideAhead m' p c := by
    intro hp hpos' hle
    refine ⟨hp, hpos', ?_⟩
    rw [Beats.congr hcSame (hpSame hp)]
    exact hahead.elim hle Or.inr
  cases step_effect hstep with
  | dispatchScan i q dispatched point le _ first point' _ _ =>
      rw [point] at hpos hkeep
      simp only [Point.pos] at hpos
      have hqp : q ≠ p := by
        rintro rfl
        omega
      have hqc : q ≠ c := fun he => hnot (he ▸ dispatched)
      refine hkeep (by simp [dispatched, hqp]) (by simp only [point', Point.pos]; omega) fun hi => ?_
      -- the loop does not go past the child
      have hle : q.val ≤ c.val := Nat.not_lt.1 fun hlt => first c hi hlt hc
      have hne : q.val ≠ c.val := fun he => hqc (Fin.ext he)
      left
      simp only [point', Point.pos]
      omega
  | dispatchStride q dispatched point _ _ least point' _ _ =>
      have hend : ¬ m.point.pos ≤ c := by
        rw [point]
        exact Nat.not_le.2 c.isLt
      have hbeats := hahead.resolve_left hend
      have hqp : q ≠ p := by
        rintro rfl
        rcases least c hc with hlt | ⟨heq, hle⟩
        · rcases hbeats with hlt' | ⟨heq', -⟩ <;> omega
        · rcases hbeats with hlt' | ⟨-, hlt'⟩
          · omega
          · exact absurd hle (not_le.2 hlt')
      exact hkeep (by simp [dispatched, hqp]) (by rw [point']; exact p.isLt) fun _ => Or.inr hbeats
  | startScan _ _ str _ _ => exact absurd hstr str
  | endScan i dispatched point nothing point' _ =>
      refine hkeep (by simp [dispatched]) (by rw [point']; exact p.isLt) fun hi => ?_
      rw [point] at hi
      exact absurd hc (nothing c hi)
  | stay dispatched _ _ point' _ =>
      exact hkeep (by simp [dispatched]) (by rwa [point']) fun hle => Or.inl (by rwa [point'])
  | leave _ _ dispatched _ _ point' _ _ _ =>
      refine hkeep (by simp [dispatched]) ?_ fun hle => Or.inl ?_
      · rwa [point', Point.pos_back]
      · rwa [point', Point.pos_back]

/-- Parent and child wait, and the scheduler comes to the child first; `one` says whether `str` is
    1 during the call. -/
structure ChildAhead (one : Prop) (p c : Slot) (m : Machine) : Prop where
  cur : m.CurRunning
  parent : (m.proc p).state = .runnable
  child : (m.proc c).state = .runnable
  scan : ¬ one → ScanAhead m p c
  stride : one → StrideAhead m p c

theorem ChildAhead.step {m m' : Machine} {l : Label} {p c : Slot} {one : Prop}
    (h : ChildAhead one p c m) (hone : m.str = 1 ↔ one) (hstep : MStep m l m')
    (hnot : m.dispatched l ≠ some c) : m.dispatched l ≠ some p ∧ ChildAhead one p c m' := by
  have hcSame := step_waits h.cur h.child hstep hnot
  have hpSame := step_waits h.cur h.parent hstep
  have hparent : m.dispatched l ≠ some p := by
    by_cases hstr : m.str = 1
    · exact ((h.stride (hone.1 hstr)).step hstr h.child hcSame hstep hnot hpSame).1
    · exact ((h.scan fun ho => hstr (hone.2 ho)).step hstr h.child hstep hnot).1
  refine ⟨hparent, step_curRunning h.cur hstep, (hpSame hparent).1.trans h.parent,
    hcSame.1.trans h.child, fun ho => ?_, fun ho => ?_⟩
  · exact ((h.scan ho).step (fun hstr => ho (hone.1 hstr)) h.child hstep hnot).2
  · exact ((h.stride ho).step (hone.2 ho) h.child hcSame hstep hnot hpSame).2

/-- The parent is on the CPU, with the child RUNNABLE; `m` is the machine before the child was made
    so. -/
structure OnCpu (m : Machine) (br : Branch) (p c : Slot) (u : Machine) : Prop where
  cur : u.CurRunning
  point : u.point = .run p br
  child : (u.proc c).state = .runnable
  beats : Beats u.proc c p ↔ Beats m.proc c p

theorem OnCpu.ne {m u : Machine} {br : Branch} {p c : Slot} (h : OnCpu m br p c u) : p ≠ c := by
  rintro rfl
  have hrun := h.cur p (by simp [Machine.cur, h.point])
  rw [h.child] at hrun
  cases hrun

/-- The parent yields: if the child wins, the scheduler comes to it first. -/
theorem OnCpu.leave {m u u' : Machine} {l : Label} {br : Branch} {p c : Slot}
    (h : OnCpu m br p c u) (hwins : ChildWins m br p c) (hyield : l.IsYield)
    (hstep : MStep u l u') : ChildAhead (m.str = 1) p c u' := by
  have hpoint := h.point
  cases step_effect hstep with
  | dispatchScan _ _ _ point _ _ _ _ _ _ => simp [point] at hpoint
  | dispatchStride _ _ point _ _ _ _ _ _ => simp [point] at hpoint
  | startScan _ point _ _ _ => simp [point] at hpoint
  | endScan _ _ point _ _ _ => simp [point] at hpoint
  | stay _ yields _ _ _ => exact absurd hyield yields
  | leave cur br' _ _ point point' yielded pass same =>
      obtain ⟨rfl, rfl⟩ : p = cur ∧ br = br' := by simpa [hpoint] using point
      have hrun := h.cur p (by simp [Machine.cur, h.point])
      have hchild := same c h.ne.symm (Or.inl h.child)
      have hbeats : Beats u'.proc c p ↔ Beats m.proc c p := by
        rw [← h.beats, Beats, Beats, hchild.2, pass (Or.inr hrun)]
      refine ⟨step_curRunning h.cur hstep, yielded hyield, hchild.1.trans h.child, fun hone => ?_,
        fun hone => ?_⟩
      · unfold ScanAhead
        rw [point', hpoint]
        cases br with
        | roundRobin => exact dist_succ_lt h.ne
        | stride =>
            -- the next scan starts at slot 0, so the child must have the lower slot
            have hcp : c.val < p.val := by simpa [ChildWins, hone] using hwins
            have hp := p.isLt
            rw [Point.back, Point.pos, dist_nproc, dist_of_lt hcp]
            omega
      · unfold StrideAhead
        rw [point', hpoint, hbeats]
        cases br with
        | roundRobin => exact ⟨Nat.lt_succ_self _, hwins hone⟩
        | stride => exact ⟨p.isLt, Or.inr (by simpa [ChildWins, hone] using hwins)⟩

/-- A device interrupt changes nothing. -/
theorem OnCpu.interrupt {m u u' : Machine} {chan : Chan} {br : Branch} {p c : Slot}
    (h : OnCpu m br p c u) (hstep : MStep u (.interrupt chan) u') : OnCpu m br p c u' := by
  have hpoint := h.point
  have hrun := h.cur p (by simp [Machine.cur, h.point])
  cases step_effect hstep with
  | dispatchScan _ _ _ point _ _ _ _ _ _ => simp [point] at hpoint
  | dispatchStride _ _ point _ _ _ _ _ _ => simp [point] at hpoint
  | startScan _ point _ _ _ => simp [point] at hpoint
  | endScan _ _ point _ _ _ => simp [point] at hpoint
  | stay _ _ _ point' same =>
      have hchild := same c (Or.inl h.child)
      have hparent := same p (Or.inr hrun)
      exact ⟨step_curRunning h.cur hstep, point'.trans hpoint, hchild.1.trans h.child,
        (Beats.congr hchild hparent).trans h.beats⟩
  | leave _ _ _ acts _ _ _ _ _ => exact absurd rfl (acts chan)

/-- Before its own `yield` the parent is on the CPU, or waits with the child ahead of it. -/
theorem onCpu_run {m m₁ u : Machine} {br : Branch} {p c : Slot} {tr : List (Machine × Label)}
    (h : OnCpu m br p c m₁) (hwins : ChildWins m br p c) (hrun : Run MStep m₁ tr u)
    (hstr : ∀ z ∈ tr, z.1.str = m.str) (hnot : ∀ z ∈ tr, z.1.dispatched z.2 ≠ some c)
    (hacts : ∀ z ∈ tr, z.1.cur = some p → z.2 = .preempt ∨ ∃ chan, z.2 = .interrupt chan) :
    OnCpu m br p c u ∨ ChildAhead (m.str = 1) p c u := by
  refine (hrun.invariant_of_steps (I := fun v => OnCpu m br p c v ∨ ChildAhead (m.str = 1) p c v)
    (C := fun v l => v.str = m.str ∧ v.dispatched l ≠ some c ∧
    (v.cur = some p → l = .preempt ∨ ∃ chan, l = .interrupt chan)) (Or.inl h) ?_
    fun z hz => ⟨hstr z hz, hnot z hz, hacts z hz⟩).2
  intro v l v' hv hC hstep
  obtain ⟨hvstr, hvnot, hvacts⟩ := hC
  rcases hv with hon | hahead
  · rcases hvacts (by simp [Machine.cur, hon.point]) with rfl | ⟨chan, rfl⟩
    · exact Or.inr (hon.leave hwins (Or.inl rfl) hstep)
    · exact Or.inl (hon.interrupt hstep)
  · exact Or.inr (hahead.step (by rw [hvstr]) hstep hvnot).2

/-- The child stays ahead until it is dispatched. -/
theorem childAhead_run {m v u : Machine} {p c : Slot} {tr : List (Machine × Label)}
    (h : ChildAhead (m.str = 1) p c v) (hrun : Run MStep v tr u)
    (hstr : ∀ z ∈ tr, z.1.str = m.str) (hnot : ∀ z ∈ tr, z.1.dispatched z.2 ≠ some c) :
    ChildAhead (m.str = 1) p c u :=
  (hrun.invariant_of_steps (C := fun w l => w.str = m.str ∧ w.dispatched l ≠ some c) h
    (fun _ _ _ hw hC hstep => (hw.step (by rw [hC.1]) hstep hC.2).2)
    fun z hz => ⟨hstr z hz, hnot z hz⟩).2

theorem forkDone_step {m : Machine} {br : Branch} {p c : Slot} (hpoint : m.point = .run p br)
    (hembryo : (m.proc c).state = .embryo) :
    MStep m (.act (.forkDone () c)) { m with proc := m.proc.modify c fun q =>
      { q with parent := some p, state := .runnable } } := by
  have hcpu : m.cur = some p := by simp [Machine.cur, hpoint]
  simp [MStep, Machine.step, hcpu, Machine.sys, Sys.step, hembryo, Machine.resume]

/-- What `np->state = RUNNABLE` in `fork` does. -/
theorem forkDone_onCpu {m m₁ : Machine} {br : Branch} {p c : Slot} (hcur : m.CurRunning)
    (hpoint : m.point = .run p br) (hembryo : (m.proc c).state = .embryo)
    (hstep : MStep m (.act (.forkDone () c)) m₁) :
    OnCpu m br p c m₁ ∧ m₁.str = m.str ∧ m₁.winner = m.winner := by
  obtain rfl := Option.some.inj ((forkDone_step hpoint hembryo).symm.trans hstep)
  have hpass : ∀ q, ((m.proc.modify c fun q =>
      { q with parent := some p, state := .runnable }) q).pass = (m.proc q).pass := by
    intro q
    by_cases hq : q = c
    · subst hq
      simp
    · rw [Table.modify_of_ne hq]
  exact ⟨⟨step_curRunning hcur hstep, hpoint, by simp, by rw [Beats, Beats, hpass, hpass]⟩, rfl, rfl⟩

theorem child_first_of_wins {m m₁ u : Machine} {br : Branch} {p c : Slot}
    {tr : List (Machine × Label)} (hon : OnCpu m br p c m₁) (hwins : ChildWins m br p c)
    (hrun : Run MStep m₁ tr u) (hstr : ∀ z ∈ tr, z.1.str = m.str) (hret : ForkReturns p tr) :
    ∃ z ∈ tr, z.1.dispatched z.2 = some c := by
  by_contra hnone
  push Not at hnone
  obtain ⟨tr₁, x, tr₂, y, rfl, hacts, -, -, -, hy⟩ := hret
  simp only [List.mem_append, List.mem_singleton] at hstr hnone
  -- up to the parent's own `yield`, and from there to its dispatch
  obtain ⟨hrun, hlast⟩ := hrun.unsnoc
  obtain ⟨v, hrun₁, hrun₂⟩ := hrun.split
  obtain ⟨hrun₁, hyield⟩ := hrun₁.unsnoc
  have hbefore := onCpu_run hon hwins hrun₁ (fun z hz => hstr z (Or.inl (Or.inl (Or.inl hz))))
    (fun z hz => hnone z (Or.inl (Or.inl (Or.inl hz)))) hacts
  have hleft : ChildAhead (m.str = 1) p c v := by
    rcases hbefore with hon' | hahead
    · exact hon'.leave hwins (Or.inr rfl) hyield
    · have hstr' := hstr (x, .act (.yield ())) (Or.inl (Or.inl (Or.inr rfl)))
      exact (hahead.step (by rw [hstr']) hyield (by simp [Machine.dispatched])).2
  have hafter := childAhead_run hleft hrun₂ (fun z hz => hstr z (Or.inl (Or.inr hz)))
    (fun z hz => hnone z (Or.inl (Or.inr hz)))
  have hstr' := hstr (y, .schedule) (Or.inr rfl)
  exact (hafter.step (by rw [hstr']) hlast (hnone (y, .schedule) (Or.inr rfl))).1 hy

/-! ## When it does not, the parent can run first

Every other process that is dispatched before the parent goes to sleep at once. -/

/-- From `u` the machine gets to `u'` without a change to `p` and `c`. -/
def Around (p c : Slot) (u u' : Machine) : Prop :=
  (∃ tr, Run MStep u tr u' ∧ ∀ z ∈ tr, z.1.str = u.str ∧ z.1.dispatched z.2 ≠ some p ∧
    z.1.dispatched z.2 ≠ some c) ∧
  u'.str = u.str ∧ SameEntry u.proc u'.proc p ∧ SameEntry u.proc u'.proc c

theorem SameEntry.refl (t : Table) (p : Slot) : SameEntry t t p := ⟨rfl, rfl⟩

theorem SameEntry.trans {t t' t'' : Table} {p : Slot} (h : SameEntry t t' p)
    (h' : SameEntry t' t'' p) : SameEntry t t'' p :=
  ⟨h'.1.trans h.1, h'.2.trans h.2⟩

theorem Around.refl (p c : Slot) (u : Machine) : Around p c u u :=
  ⟨⟨[], Run.nil, by simp⟩, rfl, .refl _ _, .refl _ _⟩

theorem Around.trans {p c : Slot} {u v w : Machine} (h : Around p c u v) (h' : Around p c v w) :
    Around p c u w := by
  obtain ⟨⟨tr, hrun, htr⟩, hstr, hp, hc⟩ := h
  obtain ⟨⟨tr', hrun', htr'⟩, hstr', hp', hc'⟩ := h'
  refine ⟨⟨tr ++ tr', hrun.append hrun', fun z hz => ?_⟩, hstr'.trans hstr, hp.trans hp',
    hc.trans hc'⟩
  rcases List.mem_append.1 hz with hz | hz
  · exact htr z hz
  · exact hstr ▸ htr' z hz

theorem sleep_step {v : Machine} {q : Slot} {br : Branch} (h : v.point = .run q br) :
    ∃ v', MStep v (.act (.sleep () (.addr 0))) v' ∧ v'.point = v.point.back ∧ v'.str = v.str ∧
      (v'.proc q).state = .sleeping ∧ ∀ r, r ≠ q → SameEntry v.proc v'.proc r := by
  have hcpu : v.cur = some q := by simp [Machine.cur, h]
  refine ⟨v.resume (v.sys.leave () q fun r =>
    { r with chan := some (.addr 0), state := .sleeping }), ?_, ?_, rfl, ?_, fun r hr => ?_⟩
  · simp [MStep, Machine.step, hcpu, Machine.sys, Sys.step]
  · simp [Machine.resume, Sys.leave]
  · simp [Machine.resume, Machine.sys, Sys.leave]
  · simp [Machine.resume, Machine.sys, Sys.leave, SameEntry, Table.modify_of_ne hr]

theorem yield_step {v : Machine} {q : Slot} {br : Branch} (h : v.point = .run q br) :
    ∃ v', MStep v (.act (.yield ())) v' ∧ v'.point = v.point.back ∧ v'.str = v.str ∧
      (v'.proc q).state = .runnable ∧ (v'.proc q).pass = (v.proc q).pass ∧
      ∀ r, r ≠ q → SameEntry v.proc v'.proc r := by
  have hcpu : v.cur = some q := by simp [Machine.cur, h]
  refine ⟨v.resume (v.sys.leave () q fun r => { r with state := .runnable }), ?_, ?_, rfl, ?_, ?_,
    fun r hr => ?_⟩
  · simp [MStep, Machine.step, hcpu, Machine.sys, Sys.step]
  · simp [Machine.resume, Sys.leave]
  · simp [Machine.resume, Machine.sys, Sys.leave]
  · simp [Machine.resume, Machine.sys, Sys.leave]
  · simp [Machine.resume, Machine.sys, Sys.leave, SameEntry, Table.modify_of_ne hr]

/-- Another process is dispatched and goes to sleep. -/
theorem around_dispatch {u v : Machine} {p c q : Slot} {br : Branch} (hstep : MStep u .schedule v)
    (hd : u.dispatched .schedule = some q) (hpoint : v.point = .run q br) (hstr : v.str = u.str)
    (hothers : ∀ r, r ≠ q → SameEntry u.proc v.proc r) (hp : p ≠ q) (hc : c ≠ q) :
    ∃ u', Around p c u u' ∧ u'.point = v.point.back ∧ (u'.proc q).state = .sleeping ∧
      ∀ r, r ≠ q → SameEntry u.proc u'.proc r := by
  obtain ⟨v', hsleep, hback, hstr', hstate, hothers'⟩ := sleep_step hpoint
  have hsame : ∀ r, r ≠ q → SameEntry u.proc v'.proc r :=
    fun r hr => (hothers r hr).trans (hothers' r hr)
  refine ⟨v', ⟨⟨_, (Run.nil.snoc hstep).snoc hsleep, ?_⟩, hstr'.trans hstr, hsame p hp,
    hsame c hc⟩, hback, hstate, hsame⟩
  intro z hz
  simp only [List.nil_append, List.cons_append, List.mem_cons, List.not_mem_nil, or_false] at hz
  rcases hz with rfl | rfl
  · refine ⟨rfl, ?_, ?_⟩
    · simp [hd, hp.symm]
    · simp [hd, hc.symm]
  · exact ⟨hstr, by simp [Machine.dispatched], by simp [Machine.dispatched]⟩

theorem scan_step {u : Machine} {i : Nat} (h : u.point = .scan i) :
    MStep u .schedule (u.scanFrom i) ∧ u.dispatched .schedule = nextRunnable u.proc i := by
  simp [MStep, Machine.step, Machine.dispatched, h]

/-- The loop comes to slot `j`, with nothing RUNNABLE left on the way. -/
theorem around_scan {p c : Slot} {j : Nat} {u : Machine} {i : Nat}
    (hpoint : u.point = .scan i) (hij : i ≤ j) (hp : p < i ∨ j ≤ p) (hc : c < i ∨ j ≤ c) :
    ∃ u' i', Around p c u u' ∧ u'.point = .scan i' ∧ i ≤ i' ∧ i' ≤ j ∧
      ∀ q : Slot, i' ≤ q → q < j → (u'.proc q).state ≠ .runnable := by
  induction hn : j - i using Nat.strong_induction_on generalizing u i with
  | h n ih =>
      by_cases hnext : ∃ q, nextRunnable u.proc i = some q ∧ q < j
      · obtain ⟨q, hq, hqj⟩ := hnext
        obtain ⟨hle, -, -⟩ := nextRunnable_eq_some hq
        obtain ⟨hstep, hd⟩ := scan_step hpoint
        have hpq : p ≠ q := by
          rintro rfl
          omega
        have hcq : c ≠ q := by
          rintro rfl
          omega
        have hscan : u.scanFrom i = { u with
            proc := u.proc.modify q fun r => { r with state := .running }
            point := .run q .roundRobin } := by
          simp only [Machine.scanFrom, hq]
        have hothers : ∀ r, r ≠ q → SameEntry u.proc (u.scanFrom i).proc r := by
          intro r hr
          simp [hscan, SameEntry, Table.modify_of_ne hr]
        obtain ⟨v, haround, hback, -, -⟩ := around_dispatch (p := p) (c := c) hstep
          (hd.trans hq) (by rw [hscan]) (by rw [hscan]) hothers hpq hcq
        have hvpoint : v.point = .scan (q + 1) := by
          rw [hback, hscan]
          rfl
        -- the scan goes on behind the slot it has dispatched
        obtain ⟨w, i', hw, hwpoint, hle', hi'j, hnone⟩ := ih (j - (q + 1)) (by omega) hvpoint
          (by omega) (by omega) (by omega) rfl
        exact ⟨w, i', haround.trans hw, hwpoint, by omega, hi'j, hnone⟩
      · refine ⟨u, i, .refl p c u, hpoint, le_refl i, hij, fun q hq hqj hrun => ?_⟩
        cases hfound : nextRunnable u.proc i with
        | none => exact nextRunnable_eq_none hfound q hq hrun
        | some r =>
            obtain ⟨-, -, hfirst⟩ := nextRunnable_eq_some hfound
            refine hnext ⟨r, hfound, ?_⟩
            by_contra hge
            exact hfirst q hq (show q.val < r.val by omega) hrun

theorem stride_step {u : Machine} (h : u.point = .top) (hstr : u.str = 1) :
    MStep u .schedule u.strideBranch ∧
      u.dispatched .schedule = getminproc (updateTickets u.proc) := by
  simp [MStep, Machine.step, Machine.dispatched, h, hstr]

/-- The RUNNABLE processes. -/
def runnables (t : Table) : Finset Slot := Finset.univ.filter fun p => (t p).state = .runnable

theorem card_runnables_lt {t t' : Table} {q : Slot} (hq : (t q).state = .runnable)
    (hq' : (t' q).state ≠ .runnable) (hothers : ∀ r, r ≠ q → SameEntry t t' r) :
    (runnables t').card < (runnables t).card := by
  refine Finset.card_lt_card (Finset.ssubset_iff_subset_ne.2 ⟨fun r hr => ?_, fun heq => ?_⟩)
  · have hr' : (t' r).state = .runnable := by simpa [runnables] using hr
    have hrq : r ≠ q := fun he => hq' (he ▸ hr')
    simpa [runnables, (hothers r hrq).1] using hr'
  · have hmem : q ∈ runnables t' := by
      rw [heq]
      simpa [runnables] using hq
    exact hq' (by simpa [runnables] using hmem)

/-- The stride branch comes to the parent. -/
theorem around_stride {p c : Slot} {u : Machine} (hpoint : u.point = .top)
    (hstr : u.str = 1) (hp : (u.proc p).state = .runnable) (hc : (u.proc c).state = .runnable)
    (hbeats : ¬ Beats u.proc c p) :
    ∃ u', Around p c u u' ∧ u'.point = .top ∧ u'.dispatched .schedule = some p := by
  induction hn : (runnables u.proc).card using Nat.strong_induction_on generalizing u with
  | h n ih =>
      obtain ⟨hstep, hd⟩ := stride_step hpoint hstr
      cases hmin : getminproc (updateTickets u.proc) with
      | none => exact absurd hp (by simpa using getminproc_eq_none hmin p)
      | some q =>
          obtain ⟨hrun, hleast⟩ := getminproc_eq_some hmin
          simp only [updateTickets_state, updateTickets_pass] at hrun hleast
          by_cases hqp : q = p
          · exact ⟨u, .refl p c u, hpoint, by rw [hd, hmin, hqp]⟩
          have hcq : c ≠ q := by
            rintro rfl
            refine hbeats ((hleast p hp).imp id fun h => ⟨h.1, lt_of_le_of_ne h.2 hqp⟩)
          have hbranch : u.strideBranch = { u with
              proc := (updateTickets u.proc).modify q Proc.dispatch
              point := .run q .stride } := by
            simp only [Machine.strideBranch, hmin]
          have hothers : ∀ r, r ≠ q → SameEntry u.proc u.strideBranch.proc r := by
            intro r hr
            simp [hbranch, SameEntry, Table.modify_of_ne hr]
          obtain ⟨v, haround, hback, hsleeping, hsame⟩ := around_dispatch (p := p) (c := c) hstep
            (hd.trans hmin) (by rw [hbranch]) (by rw [hbranch]) hothers (Ne.symm hqp) hcq
          have hpSame := haround.2.2.1
          have hcSame := haround.2.2.2
          -- the process that went first is SLEEPING now, so one less is in the way of the parent
          have hless := card_runnables_lt hrun (by rw [hsleeping]; decide) hsame
          obtain ⟨w, hw, hwpoint, hwd⟩ := ih _ (hn ▸ hless) (by rw [hback, hbranch]; rfl)
            (haround.2.1.trans hstr) (hpSame.1.trans hp) (hcSame.1.trans hc)
            (by rwa [Beats.congr hcSame hpSame]) rfl
          exact ⟨w, haround.trans hw, hwpoint, hwd⟩

/-- The loop of the default branch comes to the parent. -/
theorem around_scan_parent {p c : Slot} {u : Machine} {i : Nat} (hpoint : u.point = .scan i)
    (hi : i ≤ p) (hc : c < i ∨ p.val ≤ c) (hp : (u.proc p).state = .runnable) :
    ∃ u' i', Around p c u u' ∧ u'.point = .scan i' ∧ u'.dispatched .schedule = some p := by
  obtain ⟨v, i', haround, hvpoint, hle, hi'p, hnone⟩ :=
    around_scan hpoint hi (Or.inr (le_refl _)) hc
  have hp' : (v.proc p).state = .runnable := haround.2.2.1.1.trans hp
  refine ⟨v, i', haround, hvpoint, ?_⟩
  rw [(scan_step hvpoint).2]
  cases hfound : nextRunnable v.proc i' with
  | none => exact absurd hp' (nextRunnable_eq_none hfound p hi'p)
  | some q =>
      obtain ⟨hle', hrun, hfirst⟩ := nextRunnable_eq_some hfound
      by_cases hqp : q < p
      · exact absurd hrun (hnone q hle' hqp)
      · by_cases hpq : p < q
        · exact absurd hp' (hfirst p hi'p hpq)
        · rw [le_antisymm (not_lt.1 hpq) (not_lt.1 hqp)]

/-- The loop ends without coming to parent or child. -/
theorem around_scan_end {p c : Slot} {u : Machine} {i : Nat} (hpoint : u.point = .scan i)
    (hi : i ≤ nproc) (hp : p < i) (hc : c < i) :
    ∃ u', Around p c u u' ∧ u'.point = .top := by
  obtain ⟨v, i', haround, hvpoint, hle, -, hnone⟩ :=
    around_scan hpoint hi (Or.inl hp) (Or.inl hc)
  obtain ⟨hstep, hd⟩ := scan_step hvpoint
  have hnext : nextRunnable v.proc i' = none := by
    cases hfound : nextRunnable v.proc i' with
    | none => rfl
    | some q =>
        obtain ⟨hle', hrun, -⟩ := nextRunnable_eq_some hfound
        exact absurd hrun (hnone q hle' q.isLt)
  have hend : v.scanFrom i' = { v with point := .top } := by
    simp only [Machine.scanFrom, hnext]
  rw [hend] at hstep
  refine ⟨_, haround.trans ⟨⟨_, Run.nil.snoc hstep, ?_⟩, rfl, .refl _ _, .refl _ _⟩, rfl⟩
  intro z hz
  obtain rfl : z = (v, .schedule) := by simpa using hz
  simp [hd, hnext]

/-- If the child does not win, there is a run in which the parent returns before it. -/
theorem parent_first_of_not_wins {m m₁ : Machine} {br : Branch} {p c : Slot}
    (hon : OnCpu m br p c m₁) (hstr : m₁.str = m.str) (hwinner : m₁.winner = 1)
    (hlose : ¬ ChildWins m br p c) :
    ∃ tr u, Run MStep m₁ tr u ∧ (∀ z ∈ tr, z.1.str = m.str) ∧ ForkReturns p tr ∧
      ∀ z ∈ tr, z.1.dispatched z.2 ≠ some c := by
  obtain ⟨v, hyield, hback, hvstr, hvp, hvpass, hothers⟩ := yield_step hon.point
  have hvc := hothers c hon.ne.symm
  have hvchild : (v.proc c).state = .runnable := hvc.1.trans hon.child
  have hvbeats : Beats v.proc c p ↔ Beats m.proc c p := by
    rw [← hon.beats, Beats, Beats, hvc.2, hvpass]
  rw [hon.point] at hback
  -- from there the scheduler can come to the parent
  suffices h : ∃ u, Around p c v u ∧ (u.point = .top ∨ ∃ i, u.point = .scan i) ∧
      u.dispatched .schedule = some p by
    obtain ⟨u, ⟨⟨tr, hrun, htr⟩, hustr, -, -⟩, hupoint, hud⟩ := h
    have hlast : ∃ w, MStep u .schedule w := by
      rcases hupoint with htop | ⟨i, hscan⟩
      · exact ⟨if u.str = 1 then u.strideBranch else { u with point := .scan 0 },
          by simp only [MStep, Machine.step, htop]⟩
      · exact ⟨_, (scan_step hscan).1⟩
    obtain ⟨w, hw⟩ := hlast
    refine ⟨[(m₁, .act (.yield ()))] ++ tr ++ [(u, .schedule)], w,
      ((Run.nil.snoc hyield).append hrun).snoc hw, fun z hz => ?_,
      ⟨[], m₁, tr, u, rfl, by simp, by simp [Machine.cur, hon.point], hwinner,
        fun z hz => (htr z hz).2.1, hud⟩, fun z hz => ?_⟩
    · simp only [List.mem_append, List.mem_singleton] at hz
      rcases hz with (rfl | hz) | rfl
      · exact hstr
      · exact (htr z hz).1.trans (hvstr.trans hstr)
      · exact hustr.trans (hvstr.trans hstr)
    · simp only [List.mem_append, List.mem_singleton] at hz
      rcases hz with (rfl | hz) | rfl
      · simp [Machine.dispatched]
      · exact (htr z hz).2.2
      · rw [hud]
        exact fun he => hon.ne (Option.some.inj he)
  cases br with
  | roundRobin =>
      obtain ⟨hone, hle, hnot⟩ : m.str = 1 ∧ ¬ p < c ∧ ¬ Beats m.proc c p := by
        simpa [ChildWins] using hlose
      have hcp : c.val < p.val + 1 := by
        have : c.val ≤ p.val := Nat.not_lt.1 hle
        omega
      obtain ⟨u, haround, htop⟩ :=
        around_scan_end hback p.isLt (Nat.lt_succ_self p.val) hcp
      obtain ⟨w, haround', hwtop, hwd⟩ := around_stride htop
        (haround.2.1.trans (hvstr.trans (hstr.trans hone))) (haround.2.2.1.1.trans hvp)
        (haround.2.2.2.1.trans hvchild)
        (by rwa [Beats.congr haround.2.2.2 haround.2.2.1, hvbeats])
      exact ⟨w, haround.trans haround', Or.inl hwtop, hwd⟩
  | stride =>
      by_cases hone : m.str = 1
      · have hnot : ¬ Beats m.proc c p := by simpa [ChildWins, hone] using hlose
        obtain ⟨w, haround, hwtop, hwd⟩ := around_stride hback
          (hvstr.trans (hstr.trans hone)) hvp hvchild (by rwa [hvbeats])
        exact ⟨w, haround, Or.inl hwtop, hwd⟩
      · have hpc : p.val ≤ c.val := by
          have : ¬ c < p := by simpa [ChildWins, hone] using hlose
          exact Nat.not_lt.1 this
        have hvone : v.str ≠ 1 := by rwa [hvstr, hstr]
        have hstart : MStep v .schedule { v with point := .scan 0 } := by
          have hback : v.point = .top := hback
          simp [MStep, Machine.step, hback, hvone]
        have hstartd : v.dispatched .schedule = none := by
          have hback : v.point = .top := hback
          simp [Machine.dispatched, hback, hvone]
        obtain ⟨w, i, haround, hwpoint, hwd⟩ := around_scan_parent (p := p) (c := c)
          (u := { v with point := .scan 0 }) rfl p.val.zero_le (Or.inr hpc) hvp
        refine ⟨w, Around.trans ⟨⟨_, Run.nil.snoc hstart, ?_⟩, rfl, .refl _ _, .refl _ _⟩ haround,
          Or.inr ⟨i, hwpoint⟩, hwd⟩
        intro z hz
        obtain rfl : z = (v, .schedule) := by simpa using hz
        simp [hstartd]

/-- **Child-first fork.** On one CPU with `winner == 1` and `str` fixed during the call, the child
    `c` of `p` is dispatched before `p` returns from `fork`, in every run, exactly when it wins. If
    the default branch dispatched `p`, this fails only when `str` is 1, the child has a lower slot
    and yet comes later by its pass, which is 0. If the stride branch did, the child must come first
    by its pass, and in a lower slot when the next iteration is one of the default branch. -/
theorem child_first_iff {m m₁ : Machine} {br : Branch} {p c : Slot} (hcur : m.CurRunning)
    (hpoint : m.point = .run p br) (hembryo : (m.proc c).state = .embryo) (hwinner : m.winner = 1)
    (hfork : MStep m (.act (.forkDone () c)) m₁) :
    (∀ tr u, Run MStep m₁ tr u → (∀ z ∈ tr, z.1.str = m.str) → ForkReturns p tr →
      ∃ z ∈ tr, z.1.dispatched z.2 = some c) ↔ ChildWins m br p c := by
  obtain ⟨hon, hstr, hwin⟩ := forkDone_onCpu hcur hpoint hembryo hfork
  constructor
  · intro hall
    by_contra hlose
    obtain ⟨tr, u, hrun, htr, hret, hnone⟩ :=
      parent_first_of_not_wins hon hstr (hwin.trans hwinner) hlose
    obtain ⟨z, hz, hzc⟩ := hall tr u hrun htr hret
    exact hnone z hz hzc
  · exact fun hwins tr u hrun htr hret => child_first_of_wins hon hwins hrun htr hret

/-- Process 0, dispatched by the branch `br`, has set `str` and `winner`, and is in `fork` with its
    child in slot 1. -/
def forking (br : Branch) (str : Int) : Machine where
  proc p := if p = 0 then ⟨.running, 1, none, none, false, 100, 10⟩
    else if p = 1 then ⟨.embryo, 2, none, none, false, 25, 0⟩
    else ⟨.unused, 0, none, none, false, 0, 0⟩
  nextpid := 3
  initproc := 0
  str := str
  winner := 1
  point := .run 0 br

theorem forking_curRunning (br : Branch) (str : Int) : (forking br str).CurRunning := by
  intro cur hcur
  obtain rfl : 0 = cur := Option.some.inj hcur
  rfl

/-- In stride mode the child, with pass 0, runs before the parent, with pass 10. -/
theorem child_first_stride :
    ∃ m₁, MStep (forking .stride 1) (.act (.forkDone () 1)) m₁ ∧
      ∀ tr u, Run MStep m₁ tr u → (∀ z ∈ tr, z.1.str = 1) → ForkReturns 0 tr →
        ∃ z ∈ tr, z.1.dispatched z.2 = some 1 := by
  have hfork := forkDone_step (m := forking .stride 1) (p := 0) (c := 1) rfl rfl
  exact ⟨_, hfork, (child_first_iff (forking_curRunning _ _) rfl rfl rfl hfork).2 (by decide +kernel)⟩

/-- The process was dispatched in stride mode, called `set_sched(0)` and forks: the next iteration is
    one of the default branch, which comes to slot 0 first. -/
theorem parent_first_after_set_sched :
    ∃ m₁, MStep (forking .stride 0) (.act (.forkDone () 1)) m₁ ∧
      ∃ tr u, Run MStep m₁ tr u ∧ (∀ z ∈ tr, z.1.str = 0) ∧ ForkReturns 0 tr ∧
        ∀ z ∈ tr, z.1.dispatched z.2 ≠ some 1 := by
  have hfork := forkDone_step (m := forking .stride 0) (p := 0) (c := 1) rfl rfl
  obtain ⟨hon, hstr, hwinner⟩ := forkDone_onCpu (forking_curRunning _ _) rfl rfl hfork
  exact ⟨_, hfork, parent_first_of_not_wins hon hstr hwinner (by decide +kernel)⟩

end Cs350.Sched
