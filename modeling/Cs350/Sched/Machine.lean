import Cs350.Sched.Spread

set_option autoImplicit false

/-! # One CPU and its scheduler

`scheduler` with both branches, on a machine with one CPU. The default branch is a loop over the
table that keeps its position while the process it dispatched is running, so the machine has a
point of control: between two iterations, in that loop, or in a process. From `swtch` back to the
next `swtch` of the loop `ptable.lock` is held, and only between two iterations can an interrupt
wake a process while none is running. The running process makes the critical sections of `Event`,
and is preempted by the timer at any time. -/

namespace Cs350.Sched

open Transition

/-- The branch of `scheduler` from which a process was dispatched. -/
inductive Branch
  | roundRobin | stride
  deriving DecidableEq, Repr

/-- Where the scheduler is: between two iterations, in the loop of the default branch with the slots
    from `i` on still to visit, or in `swtch` to the process `cur`. -/
inductive Point
  | top
  | scan (i : Nat)
  | run (cur : Slot) (br : Branch)
  deriving DecidableEq, Repr

/-- Where the scheduler goes on when the process it runs switches back. -/
def Point.back : Point → Point
  | .run cur .roundRobin => .scan (cur + 1)
  | .run _ .stride => .top
  | point => point

/-- The table, the globals `str` and `winner`, and the point of control. -/
structure Machine where
  proc : Table
  nextpid : Int
  initproc : Slot
  str : Int
  winner : Int
  point : Point

/-- `c->proc`. -/
def Machine.cur (m : Machine) : Option Slot :=
  match m.point with
  | .run cur _ => some cur
  | _ => none

/-- The machine without its point of control. -/
def Machine.sys (m : Machine) : Sys Unit :=
  { proc := m.proc, cpu := fun _ => m.cur, nextpid := m.nextpid, initproc := m.initproc }

/-- After a critical section that led to `s`: if the process has left the CPU, the scheduler goes
    on. -/
def Machine.resume (m : Machine) (s : Sys Unit) : Machine :=
  { m with
    proc := s.proc
    nextpid := s.nextpid
    point := if s.cpu () = none then m.point.back else m.point }

/-- The stride branch up to `swtch`. -/
def Machine.strideBranch (m : Machine) : Machine :=
  let t := updateTickets m.proc
  match getminproc t with
  | none => { m with proc := t }
  | some p => { m with proc := t.modify p Proc.dispatch, point := .run p .stride }

/-- The first RUNNABLE slot from `i` on. -/
def nextRunnable (t : Table) (i : Nat) : Option Slot :=
  slots.find? fun p => i ≤ p.val ∧ (t p).state = .runnable

/-- The loop of the default branch from slot `i` up to `swtch`, or to its end. -/
def Machine.scanFrom (m : Machine) (i : Nat) : Machine :=
  match nextRunnable m.proc i with
  | none => { m with point := .top }
  | some p =>
    { m with
      proc := m.proc.modify p fun q => { q with state := .running }
      point := .run p .roundRobin }

/-- What can happen next: the scheduler goes on, a device interrupt calls `wakeup`, the timer calls
    `yield`, or the running process makes a critical section, or sets `str` or `winner`. -/
inductive Label
  | schedule
  | interrupt (chan : Chan)
  | preempt
  | act (e : Event Unit)
  | setSched (v : Int)
  | forkWinner (v : Int)

/-- One step of the machine. -/
def Machine.step (m : Machine) : Label → Option Machine
  | .schedule =>
    match m.point with
    | .top => some (if m.str = 1 then m.strideBranch else { m with point := .scan 0 })
    | .scan i => some (m.scanFrom i)
    | .run _ _ => none
  | .interrupt chan =>
    match m.point with
    | .scan _ => none
    | _ => some { m with proc := wakeup1 chan m.proc }
  | .preempt => (m.sys.step (.yield ())).map m.resume
  | .act (.schedule _) => none
  | .act e => m.cur.bind fun _ => (m.sys.step e).map m.resume
  | .setSched v => m.cur.map fun _ => { m with str := v }
  | .forkWinner v => m.cur.map fun _ => { m with winner := v }

/-- The step relation of the machine. -/
def MStep (m : Machine) (l : Label) (m' : Machine) : Prop := m.step l = some m'

/-- The process that the step dispatches. -/
def Machine.dispatched (m : Machine) : Label → Option Slot
  | .schedule =>
    match m.point with
    | .top => if m.str = 1 then getminproc (updateTickets m.proc) else none
    | .scan i => nextRunnable m.proc i
    | .run _ _ => none
  | _ => none

/-- The process that the scheduler runs is RUNNING. -/
def Machine.CurRunning (m : Machine) : Prop := ∀ cur, m.cur = some cur → (m.proc cur).state = .running

/-! ## What the critical sections do to active processes -/

/-- The process `p`, if it is active, keeps its state. -/
def Stays (t t' : Table) (p : Slot) : Prop := (t p).Active → (t' p).state = (t p).state

theorem Stays.refl (t : Table) (p : Slot) : Stays t t p := fun _ => rfl

theorem Stays.trans {t t' t'' : Table} {p : Slot} (h : Stays t t' p) (h' : Stays t' t'' p) :
    Stays t t'' p := by
  intro hact
  have hstate := h hact
  have hact' : (t' p).Active := by simpa [Proc.Active, hstate] using hact
  rw [h' hact', hstate]

theorem stays_modify {t : Table} {p : Slot} {f : Proc → Proc}
    (h : (t p).Active → (f (t p)).state = (t p).state) (q : Slot) : Stays t (t.modify p f) q := by
  intro hact
  by_cases hq : q = p
  · subst hq
    simpa using h hact
  · rw [Table.modify_of_ne hq]

theorem stays_modify_of_ne {t : Table} {p q : Slot} (hq : q ≠ p) (f : Proc → Proc) :
    Stays t (t.modify p f) q := by
  intro _
  rw [Table.modify_of_ne hq]

theorem not_active_of_state {p : Proc} {st : ProcState} (h : p.state = st)
    (hst : st ≠ .runnable ∧ st ≠ .running) : ¬ p.Active := by
  rintro (hact | hact) <;> rw [h] at hact
  · exact hst.1 hact
  · exact hst.2 hact

theorem stays_wakeup1 (chan : Chan) (t : Table) (p : Slot) : Stays t (wakeup1 chan t) p := by
  intro hact
  have hnot : ¬ ((t p).state = .sleeping ∧ (t p).chan = some chan) :=
    fun h => not_active_of_state h.1 (by decide) hact
  rw [wakeup1, if_neg hnot]

theorem stays_kill (pid : Int) (t : Table) (p : Slot) : Stays t (kill pid t).2 p := by
  unfold kill
  split
  · exact Stays.refl t p
  · refine stays_modify (fun hact => ?_) p
    exact if_neg fun h => not_active_of_state h (by decide) hact

theorem stays_transferTickets (t : Table) (cur : Slot) (pid n : Int) (p : Slot) :
    Stays t (sysTransferTickets t cur pid n).2 p := by
  unfold sysTransferTickets
  split
  · exact Stays.refl t p
  · split_ifs
    · exact Stays.refl t p
    · exact Stays.refl t p
    · exact (stays_modify (fun _ => rfl) p).trans (stays_modify (fun _ => rfl) p)

theorem stays_exitStep (cur initproc : Slot) (t : Table) (q p : Slot) :
    Stays t (exitStep cur initproc t q) p := by
  unfold exitStep
  split_ifs
  · have hparent : Stays t (t.modify q fun r => { r with parent := some initproc }) p :=
      stays_modify (fun _ => rfl) p
    simp only
    split_ifs
    · exact hparent.trans (stays_wakeup1 _ _ p)
    · exact hparent
  · exact Stays.refl t p

theorem stays_exitTable {cur : Slot} (initproc : Slot) (t : Table) {p : Slot} (hp : p ≠ cur) :
    Stays t (exitTable cur initproc t) p := by
  have hfold : ∀ (l : List Slot) (t : Table), Stays t (l.foldl (exitStep cur initproc) t) p := by
    intro l
    induction l with
    | nil => exact fun t => Stays.refl t p
    | cons q l ih => exact fun t => (stays_exitStep cur initproc t q p).trans (ih _)
  unfold exitTable
  refine (Stays.trans ?_ (hfold slots _)).trans (stays_modify_of_ne hp _)
  split
  · exact Stays.refl t p
  · exact stays_wakeup1 _ t p

/-- A critical section other than the scheduler's: all active processes keep their state, or one of
    them gives up its CPU and all others do. -/
theorem step_stays {s s' : Sys Unit} {e : Event Unit} (hstep : Step s e s')
    (he : ∀ c, e ≠ .schedule c) :
    (s'.cpu = s.cpu ∧ ∀ p, Stays s.proc s'.proc p) ∨
    ∃ cur, s.cpu () = some cur ∧ s'.cpu () = none ∧ ∀ p, p ≠ cur → Stays s.proc s'.proc p := by
  have hleave : ∀ {cur : Slot} {f : Proc → Proc}, s.cpu () = some cur →
      ∃ cur', s.cpu () = some cur' ∧ (s.leave () cur f).cpu () = none ∧
        ∀ p, p ≠ cur' → Stays s.proc (s.leave () cur f).proc p :=
    fun {cur f} hcur => ⟨cur, hcur, by simp [Sys.leave], fun p hp => stays_modify_of_ne hp f⟩
  cases e with
  | schedule c => exact absurd rfl (he c)
  | yield c =>
      obtain ⟨cur, hcur, rfl⟩ := Option.map_eq_some_iff.1 hstep
      exact Or.inr (hleave hcur)
  | sleep c chan =>
      obtain ⟨cur, hcur, rfl⟩ := Option.map_eq_some_iff.1 hstep
      exact Or.inr (hleave hcur)
  | exit c =>
      obtain ⟨cur, hcur, hif⟩ := Option.bind_eq_some_iff.1 hstep
      split_ifs at hif
      obtain rfl := Option.some.inj hif
      exact Or.inr ⟨cur, hcur, by simp, fun p hp => stays_exitTable s.initproc s.proc hp⟩
  | wait c =>
      obtain ⟨cur, hcur, rfl⟩ := Option.map_eq_some_iff.1 hstep
      unfold Sys.wait
      split
      · rename_i q hq
        have hzombie : (s.proc q).state = .zombie := by
          have := List.find?_some hq
          simp only [decide_eq_true_eq] at this
          exact this.2
        refine Or.inl ⟨rfl, stays_modify fun hact => ?_⟩
        exact absurd hact (not_active_of_state hzombie (by decide))
      · split_ifs
        · exact Or.inr (hleave hcur)
        · exact Or.inl ⟨rfl, Stays.refl _⟩
  | allocproc c =>
      obtain ⟨cur, -, rfl⟩ := Option.map_eq_some_iff.1 hstep
      unfold Sys.allocproc
      split
      · exact Or.inl ⟨rfl, Stays.refl _⟩
      · rename_i q hq
        have hunused : (s.proc q).state = .unused := by simpa using List.find?_some hq
        refine Or.inl ⟨rfl, stays_modify fun hact => ?_⟩
        exact absurd hact (not_active_of_state hunused (by decide))
  | forkFail c np =>
      obtain ⟨cur, -, hif⟩ := Option.bind_eq_some_iff.1 hstep
      split_ifs at hif with hembryo
      obtain rfl := Option.some.inj hif
      refine Or.inl ⟨rfl, stays_modify fun hact => ?_⟩
      exact absurd hact (not_active_of_state hembryo (by decide))
  | forkDone c np =>
      obtain ⟨cur, -, hif⟩ := Option.bind_eq_some_iff.1 hstep
      split_ifs at hif with hembryo
      obtain rfl := Option.some.inj hif
      refine Or.inl ⟨rfl, stays_modify fun hact => ?_⟩
      exact absurd hact (not_active_of_state hembryo (by decide))
  | wakeup chan =>
      obtain rfl := Option.some.inj hstep
      exact Or.inl ⟨rfl, stays_wakeup1 chan s.proc⟩
  | kill pid =>
      obtain rfl := Option.some.inj hstep
      exact Or.inl ⟨rfl, stays_kill pid s.proc⟩
  | transferTickets c pid n =>
      obtain ⟨cur, -, rfl⟩ := Option.map_eq_some_iff.1 hstep
      exact Or.inl ⟨rfl, stays_transferTickets s.proc cur pid n⟩

/-! ## What a step of the machine does -/

/-- State and pass of the entry are the same in both tables. -/
def SameEntry (t t' : Table) (p : Slot) : Prop :=
  (t' p).state = (t p).state ∧ (t' p).pass = (t p).pass

/-- The process itself calls `yield`, or the timer does. -/
def Label.IsYield (l : Label) : Prop := l = .preempt ∨ l = .act (.yield ())

/-- What a step does to the point of control, and to states and passes. -/
inductive Effect (m : Machine) (l : Label) (m' : Machine) : Prop
  /-- The loop dispatches the first RUNNABLE process from slot `i` on. -/
  | dispatchScan (i : Nat) (p : Slot) (dispatched : m.dispatched l = some p)
      (point : m.point = .scan i) (le : i ≤ p) (runnable : (m.proc p).state = .runnable)
      (first : ∀ q : Slot, i ≤ q → q < p → (m.proc q).state ≠ .runnable)
      (point' : m'.point = .run p .roundRobin) (running : (m'.proc p).state = .running)
      (others : ∀ q, q ≠ p → SameEntry m.proc m'.proc q)
  /-- The stride branch dispatches the first RUNNABLE process with the least pass. -/
  | dispatchStride (p : Slot) (dispatched : m.dispatched l = some p) (point : m.point = .top)
      (str : m.str = 1) (runnable : (m.proc p).state = .runnable)
      (least : ∀ q, (m.proc q).state = .runnable →
        (m.proc p).pass < (m.proc q).pass ∨ ((m.proc p).pass = (m.proc q).pass ∧ p ≤ q))
      (point' : m'.point = .run p .stride) (running : (m'.proc p).state = .running)
      (others : ∀ q, q ≠ p → SameEntry m.proc m'.proc q)
  /-- The loop starts, -/
  | startScan (dispatched : m.dispatched l = none) (point : m.point = .top) (str : m.str ≠ 1)
      (point' : m'.point = .scan 0) (same : ∀ p, SameEntry m.proc m'.proc p)
  /-- or ends with nothing RUNNABLE from slot `i` on. -/
  | endScan (i : Nat) (dispatched : m.dispatched l = none) (point : m.point = .scan i)
      (nothing : ∀ p : Slot, i ≤ p → (m.proc p).state ≠ .runnable) (point' : m'.point = .top)
      (same : ∀ p, SameEntry m.proc m'.proc p)
  /-- Anything else leaves the point of control and the active processes alone, -/
  | stay (dispatched : m.dispatched l = none) (yields : ¬ l.IsYield) (notScan : ∀ i, m.point ≠ .scan i)
      (point' : m'.point = m.point) (same : ∀ p, (m.proc p).Active → SameEntry m.proc m'.proc p)
  /-- or takes the running process off the CPU. -/
  | leave (cur : Slot) (br : Branch) (dispatched : m.dispatched l = none)
      (acts : ∀ chan, l ≠ .interrupt chan) (point : m.point = .run cur br)
      (point' : m'.point = m.point.back)
      (yielded : l.IsYield → (m'.proc cur).state = .runnable)
      (pass : (m.proc cur).Active → (m'.proc cur).pass = (m.proc cur).pass)
      (same : ∀ p, p ≠ cur → (m.proc p).Active → SameEntry m.proc m'.proc p)

theorem nextRunnable_eq_some {t : Table} {i : Nat} {p : Slot} (h : nextRunnable t i = some p) :
    i ≤ p ∧ (t p).state = .runnable ∧ ∀ q : Slot, i ≤ q → q < p → (t q).state ≠ .runnable := by
  have hfound := List.find?_some h
  simp only [decide_eq_true_eq] at hfound
  refine ⟨hfound.1, hfound.2, fun q hq hqp hrun => ?_⟩
  obtain ⟨-, before, after, hsplit, hbefore⟩ := List.find?_eq_some_iff_append.1 h
  have hsorted : (before ++ p :: after).Pairwise (· < ·) :=
    hsplit ▸ List.pairwise_lt_finRange nproc
  have hmem : q ∈ before ++ p :: after := hsplit ▸ mem_slots q
  rcases List.mem_append.1 hmem with hmem | hmem
  · have := hbefore q hmem
    simp [hq, hrun] at this
  · rcases List.mem_cons.1 hmem with rfl | hmem
    · exact lt_irrefl _ hqp
    · have hafter := (List.pairwise_cons.1 (List.pairwise_append.1 hsorted).2.1).1 q hmem
      exact lt_asymm hqp hafter

theorem nextRunnable_eq_none {t : Table} {i : Nat} (h : nextRunnable t i = none) (p : Slot)
    (hp : i ≤ p) : (t p).state ≠ .runnable := by
  have := List.find?_eq_none.1 h p (mem_slots p)
  simp only [decide_eq_true_eq, not_and] at this
  exact this hp

theorem active_inUse {p : Proc} (h : p.Active) : p.state ≠ .unused :=
  fun hunused => not_active_of_state hunused (by decide) h

theorem point_of_cur {m : Machine} {cur : Slot} (h : m.cur = some cur) :
    ∃ br, m.point = .run cur br := by
  unfold Machine.cur at h
  split at h
  · rename_i p br hp
    exact ⟨br, by rw [hp, Option.some.inj h]⟩
  · cases h

/-- A critical section of the process that is running. -/
theorem resume_effect {m : Machine} {l : Label} {e : Event Unit} {s : Sys Unit}
    (hstep : m.sys.step e = some s) (he : ∀ c, e ≠ .schedule c) (hd : m.dispatched l = none)
    {cur : Slot} (hcur : m.cur = some cur) (hl : ∀ chan, l ≠ .interrupt chan)
    (hyield : l.IsYield → e = .yield ()) : Effect m l (m.resume s) := by
  have hpass := (step_quiet hstep he).pass
  obtain ⟨br, hpoint⟩ := point_of_cur hcur
  rcases step_stays hstep he with ⟨hcpu, hstays⟩ | ⟨cur', hcur', hcpu, hstays⟩
  · have hcpu : s.cpu () = some cur := by
      rw [hcpu]
      exact hcur
    refine .stay hd (fun hy => ?_) (by simp [hpoint]) (by simp [Machine.resume, hcpu])
      (fun p hp => ⟨hstays p hp, hpass p (active_inUse hp)⟩)
    -- a process that yields does not keep the CPU
    obtain rfl := hyield hy
    obtain ⟨c, -, rfl⟩ := Option.map_eq_some_iff.1 hstep
    simp [Sys.leave] at hcpu
  · obtain rfl : cur = cur' := Option.some.inj (hcur.symm.trans hcur')
    refine .leave cur br hd hl hpoint (by simp [Machine.resume, hcpu]) (fun hy => ?_)
      (fun hp => hpass cur (active_inUse hp))
      (fun p hne hp => ⟨hstays p hne hp, hpass p (active_inUse hp)⟩)
    obtain rfl := hyield hy
    obtain ⟨c, hc, rfl⟩ := Option.map_eq_some_iff.1 hstep
    obtain rfl : cur = c := Option.some.inj (hcur.symm.trans hc)
    simp [Machine.resume, Sys.leave]

/-- The scheduler goes on. -/
theorem schedule_effect {m m' : Machine} (hstep : MStep m .schedule m') :
    Effect m .schedule m' := by
  unfold MStep Machine.step at hstep
  cases hpoint : m.point with
  | top =>
      rw [hpoint] at hstep
      obtain rfl := Option.some.inj hstep
      by_cases hstr : m.str = 1
      · have hd : m.dispatched .schedule = getminproc (updateTickets m.proc) := by
          simp [Machine.dispatched, hpoint, hstr]
        rw [if_pos hstr, Machine.strideBranch]
        cases hmin : getminproc (updateTickets m.proc) with
        | none =>
            -- nothing to run: the tickets are shared out all the same
            refine .stay (hd.trans hmin) (by simp [Label.IsYield]) (by simp [hpoint]) rfl
              fun p _ => by simp [SameEntry]
        | some p =>
            obtain ⟨hrun, hleast⟩ := getminproc_eq_some hmin
            simp only [updateTickets_state, updateTickets_pass] at hrun hleast
            refine .dispatchStride p (hd.trans hmin) hpoint hstr hrun hleast rfl
              (by simp [Proc.dispatch]) fun q hq => ?_
            simp [SameEntry, Table.modify_of_ne hq]
      · rw [if_neg hstr]
        exact .startScan (by simp [Machine.dispatched, hpoint, hstr]) hpoint hstr rfl
          fun p => ⟨rfl, rfl⟩
  | scan i =>
      rw [hpoint] at hstep
      obtain rfl := Option.some.inj hstep
      have hd : m.dispatched .schedule = nextRunnable m.proc i := by
        simp [Machine.dispatched, hpoint]
      rw [Machine.scanFrom]
      cases hnext : nextRunnable m.proc i with
      | none =>
          exact .endScan i (hd.trans hnext) hpoint (nextRunnable_eq_none hnext) rfl
            fun p => ⟨rfl, rfl⟩
      | some p =>
          obtain ⟨hle, hrun, hfirst⟩ := nextRunnable_eq_some hnext
          refine .dispatchScan i p (hd.trans hnext) hpoint hle hrun hfirst rfl (by simp)
            fun q hq => ?_
          simp [SameEntry, Table.modify_of_ne hq]
  | run cur br =>
      rw [hpoint] at hstep
      cases hstep

/-- No interrupt comes while the loop holds `ptable.lock`. -/
theorem step_interrupt {m m' : Machine} {chan : Chan} (hstep : MStep m (.interrupt chan) m') :
    (∀ i, m.point ≠ .scan i) ∧ m' = { m with proc := wakeup1 chan m.proc } := by
  have hstep : (match m.point with
    | .scan _ => none
    | _ => some { m with proc := wakeup1 chan m.proc }) = some m' := hstep
  cases hpoint : m.point with
  | top =>
      simp only [hpoint] at hstep
      exact ⟨by simp, hpoint ▸ (Option.some.inj hstep).symm⟩
  | scan i =>
      simp only [hpoint] at hstep
      cases hstep
  | run cur br =>
      simp only [hpoint] at hstep
      exact ⟨by simp, hpoint ▸ (Option.some.inj hstep).symm⟩

theorem step_effect {m m' : Machine} {l : Label} (hstep : MStep m l m') : Effect m l m' := by
  cases l with
  | schedule => exact schedule_effect hstep
  | interrupt chan =>
      obtain ⟨hscan, rfl⟩ := step_interrupt hstep
      exact .stay rfl (by simp [Label.IsYield]) hscan rfl
        fun p hp => ⟨stays_wakeup1 chan m.proc p hp, (calm_wakeup1 chan m.proc p).1⟩
  | preempt =>
      obtain ⟨s, hs, rfl⟩ := Option.map_eq_some_iff.1 hstep
      obtain ⟨cur, hcur, -⟩ := Option.map_eq_some_iff.1 hs
      exact resume_effect hs (by simp) rfl hcur (by simp) fun _ => rfl
  | act e =>
      cases he : e with
      | schedule c =>
          subst he
          cases hstep
      | _ =>
          subst he
          obtain ⟨cur, hcur, hmap⟩ := Option.bind_eq_some_iff.1 hstep
          obtain ⟨s, hs, rfl⟩ := Option.map_eq_some_iff.1 hmap
          exact resume_effect hs (by simp) rfl hcur (by simp) (by simp [Label.IsYield])
  | setSched v =>
      obtain ⟨cur, hcur, rfl⟩ := Option.map_eq_some_iff.1 hstep
      obtain ⟨br, hpoint⟩ := point_of_cur hcur
      exact .stay rfl (by simp [Label.IsYield]) (by simp [hpoint]) rfl fun p _ => ⟨rfl, rfl⟩
  | forkWinner v =>
      obtain ⟨cur, hcur, rfl⟩ := Option.map_eq_some_iff.1 hstep
      obtain ⟨br, hpoint⟩ := point_of_cur hcur
      exact .stay rfl (by simp [Label.IsYield]) (by simp [hpoint]) rfl fun p _ => ⟨rfl, rfl⟩

/-! ## Waiting for the CPU -/

theorem step_curRunning {m m' : Machine} {l : Label} (h : m.CurRunning) (hstep : MStep m l m') :
    m'.CurRunning := by
  intro cur hcur
  obtain ⟨br, hpoint⟩ := point_of_cur hcur
  cases step_effect hstep with
  | dispatchScan i p _ _ _ _ _ point' running _ =>
      rw [point'] at hpoint
      cases hpoint
      exact running
  | dispatchStride p _ _ _ _ _ point' running _ =>
      rw [point'] at hpoint
      cases hpoint
      exact running
  | startScan _ _ _ point' _ =>
      rw [point'] at hpoint
      cases hpoint
  | endScan _ _ _ _ point' _ =>
      rw [point'] at hpoint
      cases hpoint
  | stay _ _ _ point' same =>
      rw [point'] at hpoint
      have hrun := h cur (by simp [Machine.cur, hpoint])
      rw [(same cur (Or.inr hrun)).1, hrun]
  | leave cur' br' _ _ point point' _ _ _ =>
      rw [point', point] at hpoint
      cases br' <;> cases hpoint

/-- A RUNNABLE process that is not dispatched stays as it is. -/
theorem step_waits {m m' : Machine} {l : Label} {p : Slot} (h : m.CurRunning)
    (hp : (m.proc p).state = .runnable) (hstep : MStep m l m') (hnot : m.dispatched l ≠ some p) :
    SameEntry m.proc m'.proc p := by
  cases step_effect hstep with
  | dispatchScan i q dispatched _ _ _ _ _ _ others =>
      exact others p fun he => hnot (he ▸ dispatched)
  | dispatchStride q dispatched _ _ _ _ _ _ others =>
      exact others p fun he => hnot (he ▸ dispatched)
  | startScan _ _ _ _ same => exact same p
  | endScan _ _ _ _ _ same => exact same p
  | stay _ _ _ _ same => exact same p (Or.inl hp)
  | leave cur br _ _ point _ _ _ same =>
      refine same p (fun he => ?_) (Or.inl hp)
      have hrun := h cur (by simp [Machine.cur, point])
      rw [← he, hp] at hrun
      cases hrun

end Cs350.Sched
