import Cs350.Kernel.Proctable

set_option autoImplicit false

/-! # `exit` and `wait`

What a step does that matters to parents and children is read off in `effect`: a process exits, a
call of `wait` returns a child or -1 or goes to sleep, or `fork` enters the parent of its child.
Every other step leaves the family and the zombies as they are. -/

namespace Cs350.Kernel

open Sched Transition

inductive Effect
  | none
  | exit (cur : Slot) (pid : Int)
  /-- `wait`, called by `cur`, finds `p` and returns its pid -/
  | reap (cur p : Slot) (pid : Int)
  /-- `wait`, called by `cur`, returns -1 -/
  | error (cur : Slot)
  /-- `wait`, called by `cur`, goes to sleep -/
  | sleep (cur : Slot)
  /-- `fork`, called by `cur`, enters the parent of `np` -/
  | parent (np cur : Slot)
deriving DecidableEq

/-- A pass of the loop of `wait`. -/
def Effect.ofWait (t : Table) (cur : Slot) : Outcome → Effect
  | .child p => .reap cur p (t p).pid
  | .error => .error cur
  | .sleep => .sleep cur

section Effects

variable {ι : Type} [DecidableEq ι]

/-- What a step does to parents and children. A pass of the loop of `wait` is made when it is called
    and when its caller goes on after a sleep. -/
def effect (k : State ι) : Event ι → Effect
  | .exit c =>
      match k.caller c with
      | some cur => .exit cur (k.proc cur).pid
      | none => .none
  | .wait c =>
      match k.caller c with
      | some cur => .ofWait k.proc cur (waitScan k.proc cur)
      | none => .none
  | .resume c =>
      match k.cpu c with
      | some cur =>
          if k.lock = .process c ∧ k.pc cur = .waiting then
            .ofWait k.proc cur (waitScan k.proc cur)
          else .none
      | none => .none
  | .forkParent c =>
      match k.running c with
      | some cur =>
          match k.pc cur with
          | .forking np => .parent np cur
          | _ => .none
      | none => .none
  | _ => .none

/-- Parents and zombies are the same. -/
structure Still (t t' : Table) : Prop where
  parent : ∀ p, (t' p).parent = (t p).parent
  zombie : ∀ p, (t' p).state = .zombie ↔ (t p).state = .zombie
  pid : ∀ p, (t p).state = .zombie → (t' p).pid = (t p).pid

/-- Also, nobody has gone to sleep in `wait`. -/
structure Calm (t t' : Table) : Prop extends Still t t' where
  asleep : ∀ p, Asleep t' p → Asleep t p

/-- When a step can have an effect, and how the table then changes. -/
def Effect.Change (init : Slot) (t t' : Table) : Effect → Prop
  | .none => Calm t t'
  | .exit cur pid =>
      cur ≠ init ∧ (t cur).state = .running ∧ pid = (t cur).pid ∧ t' = exitTable cur init t
  | .reap cur p pid =>
      (t p).parent = some cur ∧ (t p).state = .zombie ∧ pid = (t p).pid ∧
        ∃ u, Calm t u ∧ t' = u.modify p Proc.reap
  | .error cur => ((∀ p, (t p).parent ≠ some cur) ∨ (t cur).killed = true) ∧ Calm t t'
  | .sleep cur =>
      (∀ p, (t p).parent = some cur → (t p).state ≠ .zombie) ∧ (t cur).state = .running ∧
        ∃ u, Calm t u ∧
          t' = u.modify cur fun q => { q with chan := some (.proc cur), state := .sleeping }
  | .parent np cur =>
      (t np).state = .embryo ∧ (t cur).state = .running ∧
        t' = t.modify np fun q => { q with parent := some cur }

theorem Calm.refl (t : Table) : Calm t t :=
  ⟨⟨fun _ => rfl, fun _ => Iff.rfl, fun _ _ => rfl⟩, fun _ => id⟩

/-- One entry changes, neither from nor to ZOMBIE. -/
theorem Still.modify (t : Table) (p : Slot) (f : Proc → Proc)
    (hparent : (f (t p)).parent = (t p).parent)
    (hzombie : (f (t p)).state = .zombie ↔ (t p).state = .zombie)
    (hpid : (t p).state = .zombie → (f (t p)).pid = (t p).pid) : Still t (t.modify p f) := by
  refine ⟨fun q => ?_, fun q => ?_, fun q hq => ?_⟩
  · by_cases hqp : q = p
    · rw [hqp, Table.modify_self, hparent]
    · rw [Table.modify_of_ne hqp]
  · by_cases hqp : q = p
    · rw [hqp, Table.modify_self, hzombie]
    · rw [Table.modify_of_ne hqp]
  · by_cases hqp : q = p
    · subst hqp
      rw [Table.modify_self, hpid hq]
    · rw [Table.modify_of_ne hqp]

theorem Still.trans {t t' t'' : Table} (h : Still t t') (h' : Still t' t'') : Still t t'' :=
  ⟨fun p => (h'.parent p).trans (h.parent p), fun p => (h'.zombie p).trans (h.zombie p),
    fun p hp => (h'.pid p ((h.zombie p).2 hp)).trans (h.pid p hp)⟩

/-- The same, when that process does not go to sleep in `wait`. -/
theorem Calm.modify (t : Table) (p : Slot) (f : Proc → Proc)
    (hparent : (f (t p)).parent = (t p).parent)
    (hzombie : (f (t p)).state = .zombie ↔ (t p).state = .zombie)
    (hpid : (t p).state = .zombie → (f (t p)).pid = (t p).pid)
    (hasleep : (f (t p)).state = .sleeping → (f (t p)).chan = some (.proc p) → Asleep t p) :
    Calm t (t.modify p f) := by
  refine ⟨Still.modify t p f hparent hzombie hpid, fun q hq => ?_⟩
  unfold Asleep at hq
  by_cases hqp : q = p
  · subst hqp
    rw [Table.modify_self] at hq
    exact hasleep hq.1 hq.2
  · rw [Table.modify_of_ne hqp] at hq
    exact hq

theorem Calm.trans {t t' t'' : Table} (h : Calm t t') (h' : Calm t' t'') : Calm t t'' :=
  ⟨h.toStill.trans h'.toStill, fun p hp => h.asleep p (h'.asleep p hp)⟩

/-- The same, when the entry is not that of a zombie or of a sleeper afterwards. -/
theorem Calm.modify_state (t : Table) (p : Slot) (f : Proc → Proc)
    (hparent : (f (t p)).parent = (t p).parent) (hwas : (t p).state ≠ .zombie)
    (hzombie : (f (t p)).state ≠ .zombie) (hsleep : (f (t p)).state ≠ .sleeping) :
    Calm t (t.modify p f) :=
  Calm.modify t p f hparent (by simp [hwas, hzombie]) (fun hz => absurd hz hwas)
    fun hs => absurd hs hsleep

/-- `fork` is done with its new entry. -/
theorem Calm.embryo {t : Table} {np : Slot} {s : ProcState} (hnp : (t np).state = .embryo)
    (hzombie : s ≠ .zombie) (hsleep : s ≠ .sleeping) :
    Calm t (t.modify np fun q => { q with state := s }) :=
  Calm.modify_state t np (fun q => { q with state := s }) rfl (by rw [hnp]; decide) hzombie hsleep

theorem Calm.wakeup1 (chan : Chan) (t : Table) : Calm t (wakeup1 chan t) := by
  refine ⟨⟨wakeup1_parent chan t, fun p => ?_, fun p _ => (woken_wakeup1 chan t p).pid⟩,
    fun p hp => (woken_wakeup1 chan t p).asleep hp⟩
  rcases (woken_wakeup1 chan t p).state with hs | hs <;> grind

/-- The loop of `wait` looks at parents, states and the caller's `killed` only. -/
theorem waitScan_congr {t t' : Table} {cur : Slot} (hparent : ∀ p, (t' p).parent = (t p).parent)
    (hstate : ∀ p, (t' p).state = (t p).state) (hkilled : (t' cur).killed = (t cur).killed) :
    waitScan t' cur = waitScan t cur := by
  simp only [waitScan, hparent, hstate, hkilled]

theorem Calm.updateTickets (t : Table) : Calm t (updateTickets t) := by
  refine ⟨⟨fun p => ?_, fun p => by rw [updateTickets_state], fun p _ => ?_⟩, fun p hp => ?_⟩
  · simp only [Sched.updateTickets]
    split_ifs <;> rfl
  · simp only [Sched.updateTickets]
    split_ifs <;> rfl
  · refine ⟨updateTickets_state t p ▸ hp.1, ?_⟩
    have hchan := hp.2
    simp only [Sched.updateTickets] at hchan
    split_ifs at hchan <;> exact hchan

theorem Calm.kill (pid : Int) (t : Table) : Calm t (Sched.kill pid t).2 := by
  unfold Sched.kill
  split
  next => exact Calm.refl t
  next p _ =>
    refine Calm.modify t p (fun q =>
      { q with killed := true, state := if q.state = .sleeping then .runnable else q.state }) rfl
      ?_ (fun _ => rfl) fun hs hc => ?_
    · dsimp only
      split_ifs with h
      · simp [h]
      · rfl
    · dsimp only at hs
      split_ifs at hs with h
      exact absurd hs h

variable {k k' : State ι}

theorem waitScan_error {t : Table} {cur : Slot} (h : waitScan t cur = .error) :
    (∀ p, (t p).parent ≠ some cur) ∨ (t cur).killed = true := by
  unfold waitScan at h
  split at h
  · exact nomatch h
  · split_ifs at h with hor
    rcases hor with hnone | hkilled
    · refine Or.inl fun p hp => ?_
      have hno := List.any_eq_false.1 hnone p (mem_slots p)
      simp [hp] at hno
    · exact Or.inr hkilled

theorem waitScan_sleep {t : Table} {cur : Slot} (h : waitScan t cur = .sleep) (p : Slot)
    (hp : (t p).parent = some cur) : (t p).state ≠ .zombie := by
  unfold waitScan at h
  split at h
  next => exact nomatch h
  next hnone =>
    intro hz
    have hno := List.find?_eq_none.1 hnone p (mem_slots p)
    simp [hp, hz] at hno

/-- The loop of `wait`, entered with a table in which at most the channel of the caller differs. -/
theorem waitLoop_change (k : State ι) (c : ι) (cur : Slot) {t : Table} (ht : Calm t k.proc)
    (hcur : (t cur).state = .running) (hscan : waitScan k.proc cur = waitScan t cur)
    (init : Slot) :
    (Effect.ofWait t cur (waitScan t cur)).Change init t (k.waitLoop c cur).proc := by
  unfold State.waitLoop
  rw [hscan]
  cases hw : waitScan t cur with
  | child p => exact ⟨(waitScan_child hw).1, (waitScan_child hw).2, rfl, k.proc, ht, rfl⟩
  | error => exact ⟨waitScan_error hw, ht⟩
  | sleep => exact ⟨waitScan_sleep hw, hcur, k.proc, ht, rfl⟩

/-- `p->chan = 0` -/
theorem Calm.clearChan (t : Table) (cur : Slot) :
    Calm t (t.modify cur fun q => { q with chan := none }) :=
  Calm.modify t cur (fun q => { q with chan := none }) rfl Iff.rfl (fun _ => rfl)
    fun _ hn => (nomatch hn)

/-- A process is chosen to run, or stops running. -/
theorem Calm.turn {t : Table} {p : Slot} {s : ProcState} (hs : s = .runnable ∨ s = .running)
    (hp : (t p).state = .runnable ∨ (t p).state = .running) :
    Calm t (t.modify p fun q => { q with state := s }) := by
  refine Calm.modify_state t p (fun q => { q with state := s }) rfl ?_ ?_ ?_
  · rcases hp with hp | hp <;> simp [hp]
  · rcases hs with rfl | rfl <;> simp
  · rcases hs with rfl | rfl <;> simp

theorem Calm.dispatch {t : Table} {p : Slot} (hp : (t p).state = .runnable) :
    Calm t (t.modify p Proc.dispatch) := by
  refine Calm.modify_state t p Proc.dispatch rfl ?_ ProcState.noConfusion ProcState.noConfusion
  rw [hp]
  exact ProcState.noConfusion

omit [DecidableEq ι] in
theorem Calm.allocproc (k : State ι) (cur : Slot) : Calm k.proc (k.allocproc cur).proc := by
  unfold State.allocproc
  split
  next => exact Calm.refl _
  next p hfind =>
    have hp : (k.proc p).state = .unused := by simpa using List.find?_some hfind
    refine Calm.modify_state k.proc p (·.alloc k.nextpid) rfl ?_ ?_ ?_
    · rw [hp]
      exact ProcState.noConfusion
    · exact ProcState.noConfusion
    · exact ProcState.noConfusion

/-- Only a process that goes on after a sleep in `wait` has an effect. -/
theorem effect_resume {c : ι} (h : ∀ cur, k.cpu c = some cur →
      ¬ (k.lock = .process c ∧ k.pc cur = .waiting)) : effect k (.resume c) = .none := by
  simp only [effect]
  split
  next cur hcpu => exact if_neg (h cur hcpu)
  next => rfl

theorem step_change {b : Prop} {e : Event ι} (h : Inv b k) (hs : Step k e k') :
    (effect k e).Change k.initproc k.proc k'.proc := by
  cases step_moves hs with
  | idle hfree hcpu => exact Calm.updateTickets k.proc
  | stride hfree hcpu hmin =>
      exact (Calm.updateTickets k.proc).trans (Calm.dispatch (getminproc_eq_some hmin).1)
  | roundRobin hfree hcpu => exact Calm.refl k.proc
  | scanned hlock hscan | skip hlock hscan hp =>
      rw [effect_resume fun _ _ => by simp [hlock]]
      exact Calm.refl k.proc
  | pick hlock hscan hp =>
      rw [effect_resume fun _ _ => by simp [hlock]]
      exact Calm.turn (Or.inr rfl) (Or.inl hp)
  | unlock hlock hcpu hpc =>
      rw [effect_resume (by simp [hcpu, hpc])]
      exact Calm.refl k.proc
  | @awake c cur hlock hcpu hpc =>
      rw [effect_resume (by simp [hcpu, hpc])]
      exact Calm.clearChan k.proc cur
  | @again c cur hlock hcpu hpc =>
      have hscan : waitScan (k.proc.modify cur fun q => { q with chan := none }) cur =
          waitScan k.proc cur := by
        refine waitScan_congr (Calm.clearChan k.proc cur).parent (fun p => ?_) ?_
        · rw [modify_apply]
          split_ifs with hp
          · rw [hp]
          · rfl
        · rw [Table.modify_self]
      simp only [effect, hcpu, hlock, hpc, true_and, if_true]
      exact waitLoop_change _ c cur (Calm.clearChan k.proc cur) (h.current hcpu) hscan k.initproc
  | yield hc => exact Calm.turn (Or.inl rfl) (Or.inr (h.current (current_eq_some.1 hc).2))
  | @sleep c cur a hc =>
      have hcur := h.current (caller_eq_some.1 hc).2.1
      refine Calm.modify k.proc cur
        (fun q => { q with chan := some (.addr a), state := .sleeping }) rfl ?_ (fun _ => rfl)
        fun _ hn => ?_
      · simp [hcur]
      · cases hn
  | exit hc hinit =>
      simp only [effect, hc]
      exact ⟨hinit, h.current (caller_eq_some.1 hc).2.1, rfl, rfl⟩
  | @wait c cur hc =>
      simp only [effect, hc]
      exact waitLoop_change k c cur (Calm.refl _) (h.current (caller_eq_some.1 hc).2.1) rfl
        k.initproc
  | @allocproc c cur hc => exact Calm.allocproc k cur
  | @forkParent c cur np hc hpc =>
      simp only [effect, hc, hpc]
      exact ⟨h.forks.embryo cur np (Or.inl hpc), h.current (running_eq_some.1 hc).2, rfl⟩
  | @forkFail c cur np hc hpc =>
      exact Calm.embryo (h.forks.embryo cur np (Or.inl hpc)) ProcState.noConfusion
        ProcState.noConfusion
  | @forkDone c cur np hc hpc =>
      exact Calm.embryo (h.forks.embryo cur np (Or.inr hpc)) ProcState.noConfusion
        ProcState.noConfusion
  | wakeup hfree => exact Calm.wakeup1 _ _
  | @kill c cur pid hc => exact Calm.kill pid _
  | setMode => exact Calm.refl _

end Effects

/-! ## Whole runs -/

/-- The pids that processes of this entry had when they exited, in order. -/
def exited (es : List Effect) (p : Slot) : List Int :=
  es.filterMap fun
    | .exit q pid => if q = p then some pid else none
    | _ => none

/-- The pids that calls of `wait` returned for processes of this entry, in order. -/
def returned (es : List Effect) (p : Slot) : List Int :=
  es.filterMap fun
    | .reap _ q pid => if q = p then some pid else none
    | _ => none

/-- The process that forked the one in this entry, unless it has exited since. -/
def origin (es : List Effect) (p : Slot) : Option Slot :=
  es.foldl (fun o => fun
    | .parent np cur => if np = p then some cur else o
    | .exit cur _ => if o = some cur then none else o
    | _ => o) none

/-- Nobody sleeps in `wait` while one of its children is a ZOMBIE. -/
def Attended (t : Table) : Prop :=
  ∀ p q, Asleep t p → (t q).parent = some p → (t q).state ≠ .zombie

/-- The parent is the original one until that exits, and `init` from then on. -/
def Raised (es : List Effect) (init : Slot) (t : Table) : Prop :=
  ∀ p q, (t p).parent = some q → origin es p = some q ∨ origin es p = none ∧ q = init

/-- The pid of a ZOMBIE, which is still to be returned. -/
def pending (a : Proc) : List Int := if a.state = .zombie then [a.pid] else []

/-- Every process that has exited has been returned by `wait`, once and under its own pid, or is
    still a ZOMBIE. -/
def Accounted (es : List Effect) (t : Table) : Prop :=
  ∀ p, exited es p = returned es p ++ pending (t p)

/-- What is kept along a run. -/
structure Kept (es : List Effect) (init : Slot) (t : Table) : Prop where
  attended : Attended t
  raised : Raised es init t
  accounted : Accounted es t
  /-- nobody forks itself -/
  noSelf : ∀ p, origin es p ≠ some p

section Kept

variable {es : List Effect} {init : Slot} {t t' : Table}

theorem exited_snoc (es : List Effect) (e : Effect) (p : Slot) :
    exited (es ++ [e]) p = exited es p ++ exited [e] p :=
  List.filterMap_append

theorem returned_snoc (es : List Effect) (e : Effect) (p : Slot) :
    returned (es ++ [e]) p = returned es p ++ returned [e] p :=
  List.filterMap_append

theorem Attended.calm (h : Attended t) (hc : Calm t t') : Attended t' := by
  intro p q hp hq hz
  exact h p q (hc.asleep p hp) (by rw [← hc.parent, hq]) ((hc.zombie q).1 hz)

theorem Still.pending (h : Still t t') (p : Slot) : pending (t' p) = pending (t p) := by
  unfold Kernel.pending
  by_cases hz : (t p).state = .zombie
  · rw [if_pos hz, if_pos ((h.zombie p).2 hz), h.pid p hz]
  · rw [if_neg hz, if_neg fun hz' => hz ((h.zombie p).1 hz')]

/-- A step that leaves parents and zombies alone and says nothing about them. -/
theorem Kept.still (h : Kept es init t) (hs : Still t t') (ha : Attended t') {e : Effect}
    (horigin : ∀ p, origin (es ++ [e]) p = origin es p) (hexit : ∀ p, exited [e] p = [])
    (hreturn : ∀ p, returned [e] p = []) : Kept (es ++ [e]) init t' := by
  refine ⟨ha, fun p q hq => ?_, fun p => ?_, fun p => ?_⟩
  · rw [horigin]
    exact h.raised p q (by rw [← hs.parent, hq])
  · rw [exited_snoc, returned_snoc, hexit, hreturn, List.append_nil, List.append_nil,
      h.accounted p, hs.pending]
  · rw [horigin]
    exact h.noSelf p

theorem exitTable_of_ne {cur : Slot} (init : Slot) (t : Table) {p : Slot} (hp : p ≠ cur) :
    exitTable cur init t p = slots.foldl (exitStep cur init) (exitWake cur t) p := by
  rw [exitTable_eq, Table.modify_of_ne hp]

theorem zombie_of_woken {a b : Proc} (h : Woken a b) : b.state = .zombie ↔ a.state = .zombie := by
  rcases h.state with hs | ⟨hs, hr⟩
  · rw [hs]
  · simp [hs, hr]

/-- The parent is woken before the process becomes a ZOMBIE, and it does not see the table in
    between. -/
theorem parent_not_asleep {cur p : Slot} (init : Slot) (hp : (t cur).parent = some p)
    (hne : p ≠ cur) : ¬ Asleep (exitTable cur init t) p := by
  intro hasleep
  unfold Asleep at hasleep
  rw [exitTable_of_ne init t hne] at hasleep
  have hwake : exitWake cur t = wakeup1 (.proc p) t := by simp only [exitWake, hp]
  have hbefore := (exitFold_apply cur init slots (exitWake cur t) p).1.asleep hasleep
  rw [hwake] at hbefore
  exact not_asleep_wakeup1 t p hbefore

/-- `init` is woken when it is given a ZOMBIE. -/
theorem init_not_asleep {cur q : Slot} (hq : (t q).parent = some cur)
    (hz : (t q).state = .zombie) (hne : init ≠ cur) : ¬ Asleep (exitTable cur init t) init := by
  intro hasleep
  unfold Asleep at hasleep
  rw [exitTable_of_ne init t hne] at hasleep
  obtain ⟨hw, hpar⟩ := exitWake_apply cur t q
  exact exitFold_wakes cur init slots (exitWake cur t) (mem_slots q) (hpar.trans hq)
    ((zombie_of_woken hw).2 hz) hasleep

theorem Attended.exit (h : Attended t) {cur : Slot} (hself : (t cur).parent ≠ some cur)
    (hinit : cur ≠ init) : Attended (exitTable cur init t) := by
  intro p q hp hq hz
  have hpc : p ≠ cur := by
    intro hpc
    obtain ⟨b, -, -, heq⟩ := exitTable_apply cur init t p
    have hs := hp.1
    rw [heq, if_pos hpc] at hs
    exact nomatch hs
  obtain ⟨a, hwp, -, heqp⟩ := exitTable_apply cur init t p
  obtain ⟨b, hwq, hparq, heqq⟩ := exitTable_apply cur init t q
  rw [if_neg hpc] at heqp
  by_cases hqc : q = cur
  · -- the one that has just exited
    subst hqc
    rw [if_neg hself] at hparq
    rw [heqq, if_pos rfl] at hq
    exact parent_not_asleep init (hparq.symm.trans hq) hpc hp
  · rw [if_neg hqc] at heqq
    rw [heqq] at hq hz
    have hzq := (zombie_of_woken hwq).1 hz
    rw [hparq] at hq
    split_ifs at hq with hchild
    · -- a child of the one that has exited, itself a ZOMBIE already
      cases hq
      exact init_not_asleep hchild hzq (Ne.symm hinit) hp
    · exact h p q ((heqp ▸ hwp : Woken (t p) (exitTable cur init t p)).asleep hp) hq hzq

theorem origin_exit (es : List Effect) (cur : Slot) (pid : Int) (p : Slot) :
    origin (es ++ [.exit cur pid]) p =
      if origin es p = some cur then none else origin es p := by
  unfold origin
  rw [List.foldl_append]
  rfl

theorem origin_parent (es : List Effect) (np cur p : Slot) :
    origin (es ++ [.parent np cur]) p = if np = p then some cur else origin es p := by
  simp [origin]

theorem Kept.exit (h : Kept es init t) {cur : Slot} (hinit : cur ≠ init)
    (hrun : (t cur).state = .running) :
    Kept (es ++ [.exit cur (t cur).pid]) init (exitTable cur init t) := by
  have hself : (t cur).parent ≠ some cur := by
    intro hp
    rcases h.raised cur cur hp with ho | ⟨-, ho⟩
    · exact h.noSelf cur ho
    · exact hinit ho
  refine ⟨h.attended.exit hself hinit, fun p q hq => ?_, fun p => ?_, fun p => ?_⟩
  · obtain ⟨b, -, hpar, heq⟩ := exitTable_apply cur init t p
    have hq' : (if (t p).parent = some cur then some init else (t p).parent) = some q := by
      rw [← hpar, ← hq, heq]
      split_ifs <;> rfl
    rw [origin_exit]
    split_ifs at hq' with hcur
    · cases hq'
      rcases h.raised p cur hcur with ho | ⟨ho, hc⟩
      · rw [if_pos ho]
        exact Or.inr ⟨rfl, rfl⟩
      · exact absurd hc hinit
    · rcases h.raised p q hq' with ho | ⟨ho, hc⟩
      · rw [if_neg (by rw [ho, ← hq']; exact hcur)]
        exact Or.inl ho
      · rw [if_neg (by simp [ho])]
        exact Or.inr ⟨ho, hc⟩
  · obtain ⟨b, hw, -, heq⟩ := exitTable_apply cur init t p
    have hret : returned [.exit cur (t cur).pid] p = [] := rfl
    rw [exited_snoc, returned_snoc, hret, List.append_nil, h.accounted p, heq]
    by_cases hpc : p = cur
    · subst hpc
      simp [exited, pending, hrun, hw.pid]
    · have hne : ¬ cur = p := fun hc => hpc hc.symm
      simp [exited, pending, hpc, hne, zombie_of_woken hw, hw.pid]
  · rw [origin_exit]
    split_ifs
    · exact fun hn => nomatch hn
    · exact h.noSelf p

theorem Kept.reap (h : Kept es init t) {u : Table} (hc : Calm t u) {cur p : Slot}
    (hz : (t p).state = .zombie) :
    Kept (es ++ [.reap cur p (t p).pid]) init (u.modify p Proc.reap) := by
  have horigin : ∀ q, origin (es ++ [.reap cur p (t p).pid]) q = origin es q := by
    intro q
    simp [origin]
  refine ⟨fun r q hr hq hzq => ?_, fun q r hr => ?_, fun q => ?_, fun q => ?_⟩
  · have hqp : q ≠ p := by
      rintro rfl
      rw [Table.modify_self] at hzq
      exact nomatch hzq
    have hrp : r ≠ p := by
      rintro rfl
      have hs := hr.1
      rw [Table.modify_self] at hs
      exact nomatch hs
    unfold Asleep at hr
    rw [Table.modify_of_ne hqp] at hq hzq
    rw [Table.modify_of_ne hrp] at hr
    exact h.attended.calm hc r q hr hq hzq
  · rw [modify_apply] at hr
    split_ifs at hr
    · exact nomatch hr
    · rw [horigin]
      exact h.raised q r (by rw [← hc.parent, hr])
  · have hexit : exited [.reap cur p (t p).pid] q = [] := rfl
    rw [exited_snoc, returned_snoc, hexit, List.append_nil, h.accounted q, modify_apply]
    by_cases hqp : q = p
    · subst hqp
      simp [returned, pending, hz, Proc.reap]
    · have hne : ¬ p = q := fun hp => hqp hp.symm
      simp [returned, hne, hqp, hc.pending]
  · rw [horigin]
    exact h.noSelf q

theorem Kept.sleep (h : Kept es init t) {u : Table} (hc : Calm t u) {cur : Slot}
    (hkids : ∀ p, (t p).parent = some cur → (t p).state ≠ .zombie)
    (hrun : (t cur).state = .running) :
    Kept (es ++ [.sleep cur]) init
      (u.modify cur fun q => { q with chan := some (.proc cur), state := .sleeping }) := by
  have hcur : (u cur).state ≠ .zombie := by
    intro hz
    rw [(hc.zombie cur).1 hz] at hrun
    exact nomatch hrun
  have hstill : Still t
      (u.modify cur fun q => { q with chan := some (.proc cur), state := .sleeping }) :=
    hc.toStill.trans (Still.modify u cur
      (fun q => { q with chan := some (.proc cur), state := .sleeping }) rfl (by simp [hcur])
      fun _ => rfl)
  refine h.still hstill (fun p q hp hq hz => ?_) (fun p => by simp [origin]) (fun _ => rfl)
    fun _ => rfl
  rw [hstill.parent] at hq
  have hzq := (hstill.zombie q).1 hz
  by_cases hpc : p = cur
  · exact hkids q (hpc ▸ hq) hzq
  · unfold Asleep at hp
    rw [Table.modify_of_ne hpc] at hp
    exact h.attended p q (hc.asleep p hp) hq hzq

theorem Kept.parent (h : Kept es init t) {np cur : Slot} (hnp : (t np).state = .embryo)
    (hrun : (t cur).state = .running) :
    Kept (es ++ [.parent np cur]) init (t.modify np fun q => { q with parent := some cur }) := by
  have hstate : ∀ p, (t.modify np (fun q => { q with parent := some cur }) p).state =
      (t p).state := by
    intro p
    rw [modify_apply]
    split_ifs with hp
    · rw [hp]
    · rfl
  have hne : np ≠ cur := by
    rintro rfl
    rw [hnp] at hrun
    exact nomatch hrun
  refine ⟨fun p q hp hq hz => ?_, fun p q hq => ?_, fun p => ?_, fun p => ?_⟩
  · rw [hstate] at hz
    have hqn : q ≠ np := by
      rintro rfl
      rw [hnp] at hz
      exact nomatch hz
    have hpn : p ≠ np := by
      rintro rfl
      have hs := hp.1
      rw [hstate, hnp] at hs
      exact nomatch hs
    unfold Asleep at hp
    rw [Table.modify_of_ne hpn] at hp
    rw [Table.modify_of_ne hqn] at hq
    exact h.attended p q hp hq hz
  · rw [modify_apply] at hq
    rw [origin_parent]
    split_ifs at hq with hp
    · rw [if_pos hp.symm]
      exact Or.inl hq
    · rw [if_neg fun hn => hp hn.symm]
      exact h.raised p q hq
  · have hexit : exited [.parent np cur] p = [] := rfl
    have hret : returned [.parent np cur] p = [] := rfl
    rw [exited_snoc, returned_snoc, hexit, hret, List.append_nil, List.append_nil, h.accounted p,
      modify_apply]
    split_ifs with hp
    · simp [pending, hp]
    · rfl
  · rw [origin_parent]
    split_ifs with hp
    · intro hcur
      exact hne (hp.trans (Option.some.inj hcur).symm)
    · exact h.noSelf p

theorem Kept.step {e : Effect} (h : Kept es init t) (hs : e.Change init t t') :
    Kept (es ++ [e]) init t' := by
  cases e with
  | none =>
      exact h.still hs.toStill (h.attended.calm hs) (fun p => by simp [origin]) (fun _ => rfl)
        fun _ => rfl
  | error cur =>
      exact h.still hs.2.toStill (h.attended.calm hs.2) (fun p => by simp [origin]) (fun _ => rfl)
        fun _ => rfl
  | exit cur pid =>
      obtain ⟨hinit, hrun, rfl, rfl⟩ := hs
      exact h.exit hinit hrun
  | reap cur p pid =>
      obtain ⟨-, hz, rfl, u, hc, rfl⟩ := hs
      exact h.reap hc hz
  | sleep cur =>
      obtain ⟨hkids, hrun, u, hc, rfl⟩ := hs
      exact h.sleep hc hkids hrun
  | parent np cur =>
      obtain ⟨hnp, hrun, rfl⟩ := hs
      exact h.parent hnp hrun

end Kept

section Run

variable {ι : Type} [DecidableEq ι] {k k' : State ι} {tr : List (State ι × Event ι)}

/-- The effects of the steps of a run, in order. -/
def effects (tr : List (State ι × Event ι)) : List Effect := tr.map fun x => effect x.1 x.2

theorem run_kept (hrun : Run Step (boot ι) tr k) :
    Inv False k ∧ Kept (effects tr) k.initproc k.proc := by
  induction hrun with
  | nil =>
      refine ⟨boot_inv, fun p q hp => ?_, fun p q hq => (nomatch hq), fun p => ?_,
        fun p hp => (nomatch hp)⟩
      · exact nomatch hp.2
      · by_cases hp : p = 0 <;> simp [effects, exited, returned, pending, boot, hp]
  | @snoc tr k k' e hrun hs ih =>
      obtain ⟨hinv, hkept⟩ := ih
      refine ⟨hinv.step hs False.elim, ?_⟩
      rw [effects, List.map_append, (step_globals hs).1]
      exact hkept.step (step_change hinv hs)

/-- What `exit` and `wait` owe to each other after the effects `es`. -/
structure WaitOk (es : List Effect) (k : State ι) : Prop where
  attended : k.lock = .free → ∀ p q, (k.proc p).state = .sleeping →
    (k.proc p).chan = some (.proc p) → (k.proc q).parent = some p → (k.proc q).state ≠ .zombie
  accounted : ∀ p, exited es p = returned es p ++ pending (k.proc p)
  /-- a call of `wait` returns a ZOMBIE whose parent it was made by -/
  reap : ∀ e k' cur p pid, Step k e k' → effect k e = .reap cur p pid →
    (k.proc p).state = .zombie ∧ (k.proc p).pid = pid ∧ (k.proc p).parent = some cur ∧
      (origin es p = some cur ∨ origin es p = none ∧ cur = k.initproc)
  error : ∀ e k' cur, Step k e k' → effect k e = .error cur →
    (∀ p, (k.proc p).parent ≠ some cur) ∨ (k.proc cur).killed = true

/-- **Exit and wait.** Whatever the processes do and in whatever order: nobody sleeps in `wait`
    beside a ZOMBIE child while `ptable.lock` is free, the pids that `wait` has returned for an
    entry are those of the processes that have exited there, once each and in order, except for a
    ZOMBIE that is still there, they are returned to the parent, and `wait` fails only for a
    process that has no child or has been killed. -/
theorem exit_wait (hrun : Run Step (boot ι) tr k) : WaitOk (effects tr) k := by
  obtain ⟨hinv, hkept⟩ := run_kept hrun
  refine ⟨fun _ p q hs hc => hkept.attended p q ⟨hs, hc⟩, hkept.accounted,
    fun e k' cur p pid hs he => ?_, fun e k' cur hs he => ?_⟩
  · have hchange := step_change hinv hs
    rw [he] at hchange
    obtain ⟨hpar, hz, hpid, -⟩ := hchange
    exact ⟨hz, hpid.symm, hpar, hkept.raised p cur hpar⟩
  · have hchange := step_change hinv hs
    rw [he] at hchange
    exact hchange.1

end Run

/-- A grandchild exits, then its parent, while the first process sleeps in `wait`. -/
def orphanWait : List (Event (Fin 2)) :=
  [.setMode true, .acquire 0, .resume 0, .allocproc 0, .forkParent 0, .forkDone 0, .acquire 1,
    .resume 1, .wait 0, .resume 0, .allocproc 1, .forkParent 1, .forkDone 1, .acquire 0, .resume 0,
    .exit 0, .resume 0, .exit 1, .resume 1, .acquire 0, .resume 0, .wait 0, .wait 0]

/-- The first process then finds both. -/
theorem exit_wait_orphan :
    ∃ tr k, Run Step (boot (Fin 2)) tr k ∧
      (effects tr).filter (· ≠ .none) =
        [.parent 1 0, .sleep 0, .parent 2 1, .exit 2 3, .exit 1 2, .reap 0 1 2, .reap 0 2 3,
          .error 0] ∧
      WaitOk (effects tr) k := by
  have hplay : ((play State.next (boot (Fin 2)) orphanWait).map fun r =>
      (effects r.1).filter (· ≠ .none)) = some [.parent 1 0, .sleep 0, .parent 2 1, .exit 2 3,
        .exit 1 2, .reap 0 1 2, .reap 0 2 3, .error 0] := by decide +kernel
  obtain ⟨⟨tr, k⟩, hrun, heffects⟩ := Option.map_eq_some_iff.1 hplay
  obtain ⟨hrun, -⟩ := play_run hrun
  exact ⟨tr, k, hrun, heffects, exit_wait hrun⟩

end Cs350.Kernel
