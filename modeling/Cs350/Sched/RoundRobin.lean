import Cs350.Sched.Machine

set_option autoImplicit false

/-! # How long a process waits in the default branch

The loop of the default branch visits the slots in cyclic order. While a process waits, the position
of the loop comes closer to its slot with every dispatch, so no slot is visited twice before it. -/

namespace Cs350.Sched

open Transition

/-- The slot that the loop looks at next, `NPROC` standing for its end. -/
def Point.pos : Point → Nat
  | .top => nproc
  | .scan i => i
  | .run cur .roundRobin => cur + 1
  | .run _ .stride => nproc

/-- How many slots the loop passes from position `i` until it comes to `p`. -/
def dist (p : Slot) (i : Nat) : Nat := if i ≤ p then p - i else nproc - i + p

@[simp] theorem Point.pos_back (point : Point) : point.back.pos = point.pos := by
  cases point with
  | run cur br => cases br <;> rfl
  | _ => rfl

theorem dist_of_le {p : Slot} {i : Nat} (h : i ≤ p) : dist p i = p - i := if_pos h

theorem dist_of_lt {p : Slot} {i : Nat} (h : p < i) : dist p i = nproc - i + p :=
  if_neg (Nat.not_le.2 h)

theorem dist_nproc (p : Slot) : dist p nproc = p := by
  rw [dist_of_lt p.isLt, Nat.sub_self, Nat.zero_add]

theorem dist_le_of_first {p q : Slot} {i : Nat} (hi : i ≤ q) (hfirst : i ≤ p → q ≤ p) :
    dist p q ≤ dist p i := by
  by_cases hip : i ≤ p
  · rw [dist_of_le hip, dist_of_le (hfirst hip)]
    omega
  · have hpi : p < i := Nat.not_le.1 hip
    rw [dist_of_lt hpi, dist_of_lt (show p.val < q.val by omega)]
    omega

theorem dist_succ_lt {p q : Slot} (hne : q ≠ p) : dist p (q + 1) < dist p q := by
  have hne : q.val ≠ p.val := fun h => hne (Fin.ext h)
  have hq := q.isLt
  unfold dist
  split_ifs <;> omega

/-- While `p` waits, the loop comes closer, and strictly so with every dispatch. -/
theorem step_dist {m m' : Machine} {l : Label} {p : Slot} (hp : (m.proc p).state = .runnable)
    (hstr : m.str ≠ 1) (hstep : MStep m l m') (hnot : m.dispatched l ≠ some p) :
    (m.dispatched l = none ∧ dist p m'.point.pos ≤ dist p m.point.pos) ∨
    ∃ q, m.dispatched l = some q ∧ dist p q ≤ dist p m.point.pos ∧
      dist p m'.point.pos < dist p q := by
  cases step_effect hstep with
  | dispatchScan i q dispatched point le _ first point' _ _ =>
      have hne : q ≠ p := fun he => hnot (he ▸ dispatched)
      have hfirst : i ≤ p → q ≤ p := fun hi => not_lt.1 fun hlt => first p hi hlt hp
      rw [point, point']
      exact Or.inr ⟨q, dispatched, dist_le_of_first le hfirst, dist_succ_lt hne⟩
  | dispatchStride _ _ _ str _ _ _ _ _ => exact absurd str hstr
  | startScan dispatched point _ point' _ =>
      rw [point, point']
      exact Or.inl ⟨dispatched, by rw [Point.pos, Point.pos, dist_nproc, dist_of_le p.val.zero_le]; rfl⟩
  | endScan i dispatched point nothing point' _ =>
      have hi : p < i := not_le.1 fun hle => nothing p hle hp
      rw [point, point']
      exact Or.inl ⟨dispatched, by rw [Point.pos, Point.pos, dist_nproc, dist_of_lt hi]; omega⟩
  | stay dispatched _ _ point' _ => exact Or.inl ⟨dispatched, by rw [point']⟩
  | leave _ _ dispatched _ _ point' _ _ _ =>
      exact Or.inl ⟨dispatched, by rw [point', Point.pos_back]⟩

/-- How often `q` is dispatched along a trace of the machine. -/
def dispatchCount (q : Slot) (tr : List (Machine × Label)) : Nat :=
  tr.countP fun x => x.1.dispatched x.2 = some q

/-- What holds while `p` waits: all slots dispatched so far are different, and farther from `p` than
    the loop is now. -/
structure Passed (p : Slot) (tr : List (Machine × Label)) (m : Machine) : Prop where
  cur : m.CurRunning
  runnable : (m.proc p).state = .runnable
  once : ∀ q, dispatchCount q tr ≤ 1
  behind : ∀ q, 0 < dispatchCount q tr → dist p m.point.pos < dist p q

theorem dispatchCount_snoc (q : Slot) (tr : List (Machine × Label)) (x : Machine × Label) :
    dispatchCount q (tr ++ [x]) =
      dispatchCount q tr + if x.1.dispatched x.2 = some q then 1 else 0 := by
  rw [dispatchCount, List.countP_append, List.countP_singleton]
  simp [dispatchCount]

theorem Passed.step {p : Slot} {tr : List (Machine × Label)} {m m' : Machine} {l : Label}
    (h : Passed p tr m) (hstr : m.str ≠ 1) (hstep : MStep m l m')
    (hnot : m.dispatched l ≠ some p) : Passed p (tr ++ [(m, l)]) m' := by
  have hsame := step_waits h.cur h.runnable hstep hnot
  have hcur := step_curRunning h.cur hstep
  have hrunnable := hsame.1.trans h.runnable
  rcases step_dist h.runnable hstr hstep hnot with ⟨hnone, hle⟩ | ⟨r, hr, hle, hlt⟩
  · have hcount : ∀ q, dispatchCount q (tr ++ [(m, l)]) = dispatchCount q tr := by
      intro q
      rw [dispatchCount_snoc, hnone]
      simp
    refine ⟨hcur, hrunnable, fun q => ?_, fun q hq => ?_⟩
    · rw [hcount]
      exact h.once q
    · rw [hcount] at hq
      have := h.behind q hq
      omega
  · -- the slot dispatched now is nearer than all those before, so it is a new one
    have hnew : dispatchCount r tr = 0 := by
      by_contra hne
      have := h.behind r (Nat.pos_of_ne_zero hne)
      omega
    have hcount : ∀ q, dispatchCount q (tr ++ [(m, l)]) =
        dispatchCount q tr + if r = q then 1 else 0 := by
      intro q
      rw [dispatchCount_snoc, hr, if_congr Option.some_inj rfl rfl]
    refine ⟨hcur, hrunnable, fun q => ?_, fun q hq => ?_⟩
    · rw [hcount]
      by_cases hq : r = q
      · subst hq
        rw [hnew, if_pos rfl]
      · rw [if_neg hq]
        exact h.once q
    · rw [hcount] at hq
      by_cases hrq : r = q
      · exact hrq ▸ hlt
      · rw [if_neg hrq] at hq
        have := h.behind q hq
        omega

/-- **Bounded waiting.** On one CPU with `str != 1`, from any moment at which a process is RUNNABLE
    until it is dispatched, whatever the processes that run in between do, every entry of the table,
    and so every other process, is dispatched once at most. -/
theorem roundRobin_bounded {m m' : Machine} {tr : List (Machine × Label)} {p : Slot}
    (hcur : m.CurRunning) (hp : (m.proc p).state = .runnable) (hrun : Run MStep m tr m')
    (hstr : ∀ x ∈ tr, x.1.str ≠ 1) (hnot : ∀ x ∈ tr, x.1.dispatched x.2 ≠ some p) :
    ∀ q, dispatchCount q tr ≤ 1 := by
  suffices h : Passed p tr m' from h.once
  induction hrun with
  | nil => exact ⟨hcur, hp, by simp [dispatchCount], by simp [dispatchCount]⟩
  | @snoc tr u u' l hrun hstep ih =>
      have hbefore := ih (fun x hx => hstr x (List.mem_append_left _ hx))
        (fun x hx => hnot x (List.mem_append_left _ hx))
      exact hbefore.step (hstr (u, l) (by simp)) hstep (hnot (u, l) (by simp))

/-- Two RUNNABLE processes, and the scheduler between two iterations. -/
def pairMachine : Machine where
  proc := idlePair.proc
  nextpid := 3
  initproc := 0
  str := 0
  winner := 0
  point := .top

/-- Process 1 waits while process 0 is dispatched. -/
theorem roundRobin_bounded_pair :
    let m := { pairMachine with point := .scan 0 }
    Run MStep pairMachine [(pairMachine, .schedule), (m, .schedule)] (m.scanFrom 0) ∧
    dispatchCount 0 [(pairMachine, .schedule), (m, .schedule)] = 1 ∧
    ∀ q, dispatchCount q [(pairMachine, .schedule), (m, .schedule)] ≤ 1 := by
  intro m
  have hrun : Run MStep pairMachine [(pairMachine, .schedule), (m, .schedule)] (m.scanFrom 0) :=
    (Run.nil.snoc rfl).snoc rfl
  have hcur : pairMachine.CurRunning := by
    intro cur hcur
    cases hcur
  refine ⟨hrun, by decide +kernel, ?_⟩
  exact roundRobin_bounded (p := 1) hcur (by decide +kernel) hrun (by simp [m, pairMachine])
    (by decide +kernel)

end Cs350.Sched
