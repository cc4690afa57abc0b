import Cs350.Kernel.Kill

set_option autoImplicit false

/-! # Kills that are lost

`piperead`, `pipewrite`, `consoleread` and `sys_sleep` test `killed` under a lock of their own and
take `ptable.lock` only in `sleep`. A `kill` on another CPU can come in between; the process then
goes to sleep with `killed` set, and stays asleep until somebody wakes it for another reason. The
functions are modelled on top of the process table: where a process is in one of them, and which of
the steps of the table it may make there. `wait` holds `ptable.lock` from its test on. -/

namespace Cs350.Kernel

open Sched Transition

/-- The functions that test `killed` under a lock of their own. -/
inductive Fn
  | piperead
  | pipewrite
  | consoleread
  | sysSleep
deriving DecidableEq

instance : Fintype Fn :=
  ⟨{.piperead, .pipewrite, .consoleread, .sysSleep}, fun f => by cases f <;> simp⟩

/-- Where a process is in one of them. -/
inductive Place
  | outside
  /-- in the loop, with the lock of the function -/
  | testing (f : Fn)
  /-- behind the test of `killed`, on the way into `sleep` -/
  | passed (f : Fn)
  /-- in the `sleep` of the loop -/
  | sleeping (f : Fn)
  /-- in the `ilock` at the end of `consoleread` -/
  | relocking
  /-- in the `sleep` of that `ilock` -/
  | locking
deriving DecidableEq

/-- Where the function goes from its loop. -/
def Fn.leave : Fn → Place
  | .consoleread => .relocking
  | .piperead | .pipewrite | .sysSleep => .outside

/-- One round of the loop: `ready` if there is nothing to wait for. -/
def Fn.loop (f : Fn) (ready killed : Bool) : Place :=
  if ready || killed then f.leave else .passed f

def Place.doze : Place → Place
  | .passed f => .sleeping f
  | .relocking => .locking
  | a => a

def Place.wake : Place → Place
  | .sleeping f => .testing f
  | .locking => .relocking
  | a => a

structure Calls (ι : Type) where
  kernel : State ι
  place : Slot → Place

inductive CallEvent (ι : Type)
  /-- a call, up to where the function has its lock -/
  | call (c : ι) (f : Fn)
  /-- a round of the loop -/
  | test (c : ι) (ready : Bool)
  /-- `ilock` finds the lock of the inode free -/
  | relock (c : ι)
  | kernel (e : Event ι)
deriving DecidableEq

/-- Where a process may call `sleep`. -/
def Place.maySleep : Place → Bool
  | .outside | .passed _ | .relocking => true
  | .testing _ | .sleeping _ | .locking => false

namespace Calls

section Step

variable {ι : Type} [DecidableEq ι]

def setPlace (s : Calls ι) (p : Slot) (a : Place) : Calls ι :=
  { s with place := Function.update s.place p a }

/-- Where the process on a CPU is. -/
def here (s : Calls ι) (c : ι) : Place := ((s.kernel.cpu c).map s.place).getD .outside

/-- The steps of the process table that the process on a CPU may make where it is. It has interrupts
    turned off while it has a lock, and does nothing else in the four functions. -/
def MayDo (s : Calls ι) : Event ι → Prop
  | .yield c => s.here c = .outside ∨ s.here c = .relocking
  | .sleep c _ => (s.here c).maySleep = true
  | .exit c | .wait c | .allocproc c | .forkParent c | .forkFail c | .forkDone c | .kill c _ =>
      s.here c = .outside
  | .acquire _ | .resume _ | .wakeup _ | .setMode _ => True

instance (s : Calls ι) : (e : Event ι) → Decidable (s.MayDo e)
  | .yield c => inferInstanceAs (Decidable (s.here c = .outside ∨ s.here c = .relocking))
  | .sleep c _ => inferInstanceAs (Decidable ((s.here c).maySleep = true))
  | .exit c | .wait c | .allocproc c | .forkParent c | .forkFail c | .forkDone c | .kill c _ =>
      inferInstanceAs (Decidable (s.here c = .outside))
  | .acquire _ | .resume _ | .wakeup _ | .setMode _ => inferInstanceAs (Decidable True)

/-- The process on a CPU is now somewhere else. -/
def move (s : Calls ι) (c : ι) (f : Place → Place) : Slot → Place :=
  match s.kernel.cpu c with
  | some cur => Function.update s.place cur (f (s.place cur))
  | none => s.place

/-- Where the processes are after a step of the process table. -/
def after (s : Calls ι) : Event ι → Slot → Place
  | .sleep c _ => s.move c Place.doze
  | .resume c => if s.kernel.lock = .process c then s.move c Place.wake else s.place
  | _ => s.place

def next (s : Calls ι) : CallEvent ι → Option (Calls ι)
  | .call c f =>
      (s.kernel.running c).bind fun cur =>
        if s.place cur = .outside ∧ s.kernel.pc cur = .user then
          some (s.setPlace cur (.testing f))
        else none
  | .test c ready =>
      (s.kernel.running c).bind fun cur =>
        match s.place cur with
        | .testing f => some (s.setPlace cur (f.loop ready (s.kernel.proc cur).killed))
        | _ => none
  | .relock c =>
      (s.kernel.running c).bind fun cur =>
        if s.place cur = .relocking then some (s.setPlace cur .outside) else none
  | .kernel e =>
      if s.MayDo e then (s.kernel.next e).map fun k => { kernel := k, place := s.after e }
      else none

end Step

end Calls

/-- The step relation. -/
def CallStep {ι : Type} [DecidableEq ι] (s : Calls ι) (e : CallEvent ι) (s' : Calls ι) : Prop :=
  s.next e = some s'

/-- After `userinit`. -/
def callBoot (ι : Type) : Calls ι := { kernel := boot ι, place := fun _ => .outside }

/-- The process is in one of the four functions, or asleep in `wait`. -/
def Calls.Inside {ι : Type} (s : Calls ι) (p : Slot) : Prop :=
  s.place p ≠ .outside ∨ s.kernel.pc p = .waiting

/-- No kill is lost: who sleeps in one of these functions has not been killed. -/
def NotLost {ι : Type} (s : Calls ι) : Prop :=
  s.kernel.lock = .free → ∀ p, s.Inside p → (s.kernel.proc p).state = .sleeping →
    (s.kernel.proc p).killed = false

/-- `kill` does not name a process that has tested `killed` and is not asleep yet, and a process
    that has been killed does not go to sleep in `ilock` at the end of `consoleread`. -/
def Timely {ι : Type} (s : Calls ι) : CallEvent ι → Prop
  | .kernel (.kill _ pid) =>
      ∀ p f, (slots.find? fun q => (s.kernel.proc q).pid = pid) = some p → s.place p ≠ .passed f
  | .kernel (.sleep c _) =>
      ∀ p, s.kernel.cpu c = some p → s.place p = .relocking → (s.kernel.proc p).killed = false
  | _ => True

instance {ι : Type} (s : Calls ι) : (e : CallEvent ι) → Decidable (Timely s e)
  | .kernel (.kill _ pid) => inferInstanceAs (Decidable (∀ p f,
      (slots.find? fun q => (s.kernel.proc q).pid = pid) = some p → s.place p ≠ .passed f))
  | .kernel (.sleep c _) => inferInstanceAs (Decidable (∀ p, s.kernel.cpu c = some p →
      s.place p = .relocking → (s.kernel.proc p).killed = false))
  | .kernel (.acquire _) | .kernel (.resume _) | .kernel (.yield _) | .kernel (.exit _)
  | .kernel (.wait _) | .kernel (.allocproc _) | .kernel (.forkParent _) | .kernel (.forkFail _)
  | .kernel (.forkDone _) | .kernel (.wakeup _) | .kernel (.setMode _) | .call _ _ | .test _ _
  | .relock _ => inferInstanceAs (Decidable True)

/-! ## Who sleeps after a step of the process table -/

section Doze

variable {ι : Type} [DecidableEq ι]

/-- What a step can do to a process that sleeps afterwards. -/
inductive Dozed (k : State ι) (e : Event ι) (p : Slot) (b : Proc) (pc : Pc) : Prop
  | awake (h : b.state ≠ .sleeping)
  | still (hstate : (k.proc p).state = .sleeping) (hkilled : b.killed = (k.proc p).killed)
      (hpc : pc = k.pc p)
  | sleeps (c : ι) (a : Nat) (he : e = .sleep c a) (hc : k.caller c = some p)
      (hkilled : b.killed = (k.proc p).killed) (hpc : pc = .asleep)
  | waits (hkilled : b.killed = false)

variable {k k' : State ι} {e : Event ι} {p : Slot} {b : Proc}

theorem Dozed.same (hstate : b.state = (k.proc p).state) (hkilled : b.killed = (k.proc p).killed) :
    Dozed k e p b (k.pc p) := by
  by_cases hs : b.state = .sleeping
  · exact .still (hstate ▸ hs) hkilled rfl
  · exact .awake hs

theorem Dozed.woken (h : Woken (k.proc p) b) : Dozed k e p b (k.pc p) := by
  rcases h.state with hs | ⟨-, hr⟩
  · exact .same hs h.killed
  · exact .awake (by simp [hr])

/-- Only a process that is awake goes somewhere else. -/
theorem Dozed.setPc {q : Slot} {pc : Pc} (hq : p = q → b.state ≠ .sleeping)
    (h : Dozed k e p b (k.pc p)) : Dozed k e p b (Function.update k.pc q pc p) := by
  by_cases hpq : p = q
  · exact .awake (hq hpq)
  · rw [Function.update_of_ne hpq]
    exact h

/-- One entry changes, and does not sleep afterwards. -/
theorem Dozed.modify (e : Event ι) {q : Slot} (f : Proc → Proc)
    (hnow : (f (k.proc q)).state ≠ .sleeping) (p : Slot) :
    Dozed k e p (k.proc.modify q f p) (k.pc p) := by
  by_cases hpq : p = q
  · subst hpq
    rw [Table.modify_self]
    exact .awake hnow
  · rw [Table.modify_of_ne hpq]
    exact .same rfl rfl

/-- The same, and the running process goes somewhere else. -/
theorem Dozed.modify_setPc (e : Event ι) {q cur : Slot} (f : Proc → Proc)
    (hnow : (f (k.proc q)).state ≠ .sleeping) (hcur : (k.proc cur).state = .running) (pc : Pc)
    (p : Slot) : Dozed k e p (k.proc.modify q f p) (Function.update k.pc cur pc p) := by
  refine Dozed.setPc (fun hp => ?_) (.modify e f hnow p)
  rw [modify_apply]
  split_ifs
  · exact hnow
  · rw [hp, hcur]
    exact ProcState.noConfusion

theorem waitScan_not_killed {t : Table} {cur : Slot} (h : waitScan t cur = .sleep) :
    (t cur).killed = false := by
  unfold waitScan at h
  split at h
  · exact nomatch h
  · split_ifs at h with hor
    simpa using (not_or.1 hor).2

theorem waitLoop_dozed (k : State ι) (e : Event ι) {t : Table}
    (ht : ∀ p, (t p).state = (k.proc p).state ∧ (t p).killed = (k.proc p).killed) (c : ι)
    {cur : Slot} (hcur : (k.proc cur).state = .running) (p : Slot) :
    Dozed k e p (({ k with proc := t }.waitLoop c cur).proc p)
      (({ k with proc := t }.waitLoop c cur).pc p) := by
  have hsame : Dozed k e p (t p) (k.pc p) := .same (ht p).1 (ht p).2
  have hrun : p = cur → (t p).state ≠ .sleeping := by
    rintro rfl
    rw [(ht p).1, hcur]
    exact ProcState.noConfusion
  unfold State.waitLoop
  split
  next q _ =>
    show Dozed k e p (t.modify q Proc.reap p) (Function.update k.pc cur .user p)
    by_cases hpq : p = q
    · subst hpq
      rw [Table.modify_self]
      exact .awake ProcState.noConfusion
    · rw [Table.modify_of_ne hpq]
      exact hsame.setPc hrun
  next => exact hsame.setPc hrun
  next hscan =>
    show Dozed k e p
      (t.modify cur (fun q => { q with chan := some (.proc cur), state := .sleeping }) p)
      (Function.update k.pc cur .waiting p)
    by_cases hpc : p = cur
    · subst hpc
      rw [Table.modify_self]
      exact .waits (waitScan_not_killed hscan)
    · rw [Table.modify_of_ne hpc, Function.update_of_ne hpc]
      exact hsame

theorem clearChan_same (t : Table) (cur p : Slot) :
    (t.modify cur (fun q => { q with chan := none }) p).state = (t p).state ∧
      (t.modify cur (fun q => { q with chan := none }) p).killed = (t p).killed := by
  rw [modify_apply]
  split_ifs with hp
  · exact hp ▸ ⟨rfl, rfl⟩
  · exact ⟨rfl, rfl⟩

theorem updateTickets_dozed (k : State ι) (e : Event ι) (p : Slot) :
    Dozed k e p (updateTickets k.proc p) (k.pc p) :=
  .same (updateTickets_state k.proc p) (updateTickets_killed k.proc p)

theorem allocproc_dozed (k : State ι) (e : Event ι) {cur : Slot}
    (hcur : (k.proc cur).state = .running) (p : Slot) :
    Dozed k e p ((k.allocproc cur).proc p) ((k.allocproc cur).pc p) := by
  unfold State.allocproc
  split
  next => exact .same rfl rfl
  next q hfind => exact .modify_setPc _ (·.alloc k.nextpid) ProcState.noConfusion hcur _ p

theorem kill_dozed (k : State ι) (e : Event ι) (pid : Int) (p : Slot) :
    Dozed k e p ((Sched.kill pid k.proc).2 p) (k.pc p) := by
  unfold Sched.kill
  split
  next => exact .same rfl rfl
  next q hfind =>
    refine .modify _ (fun q =>
      { q with killed := true, state := if q.state = .sleeping then .runnable else q.state }) ?_ p
    dsimp only
    split_ifs with hsleep
    · exact ProcState.noConfusion
    · exact hsleep

theorem step_dozed (h : Inv False k) (hs : Step k e k') (p : Slot) :
    Dozed k e p (k'.proc p) (k'.pc p) := by
  cases step_moves hs with
  | idle hfree hcpu => exact updateTickets_dozed k _ p
  | @stride c q hfree hcpu hmin =>
      show Dozed k _ p ((updateTickets k.proc).modify q Proc.dispatch p) (k.pc p)
      by_cases hpq : p = q
      · subst hpq
        rw [Table.modify_self]
        exact .awake ProcState.noConfusion
      · rw [Table.modify_of_ne hpq]
        exact updateTickets_dozed k _ p
  | roundRobin hfree hcpu | scanned hlock hscan | skip hlock hscan hp | unlock hlock hcpu hpc =>
      exact .same rfl rfl
  | pick hlock hscan hp =>
      exact .modify _ (fun q => { q with state := .running }) ProcState.noConfusion p
  | @awake c cur hlock hcpu hpc =>
      have hsame := clearChan_same k.proc cur p
      refine Dozed.setPc (fun hp => ?_) (.same hsame.1 hsame.2)
      show (k.proc.modify cur (fun q => { q with chan := none }) p).state ≠ .sleeping
      rw [hsame.1, hp, h.current hcpu]
      exact ProcState.noConfusion
  | @again c cur hlock hcpu hpc =>
      exact waitLoop_dozed k _ (clearChan_same k.proc cur) c (h.current hcpu) p
  | yield hc => exact .modify _ (fun q => { q with state := .runnable }) ProcState.noConfusion p
  | @sleep c cur a hc =>
      show Dozed k _ p
        (k.proc.modify cur (fun q => { q with chan := some (.addr a), state := .sleeping }) p)
        (Function.update k.pc cur .asleep p)
      by_cases hpc : p = cur
      · subst hpc
        rw [Table.modify_self, Function.update_self]
        exact .sleeps c a rfl hc rfl rfl
      · rw [Table.modify_of_ne hpc, Function.update_of_ne hpc]
        exact .same rfl rfl
  | @exit c cur hc hinit =>
      obtain ⟨b, hw, -, heq⟩ := exitTable_apply cur k.initproc k.proc p
      show Dozed k _ p (exitTable cur k.initproc k.proc p) (k.pc p)
      rw [heq]
      by_cases hpc : p = cur
      · rw [if_pos hpc]
        exact .awake ProcState.noConfusion
      · rw [if_neg hpc]
        exact .woken hw
  | @wait c cur hc =>
      exact waitLoop_dozed k _ (fun _ => ⟨rfl, rfl⟩) c (h.current (caller_eq_some.1 hc).2.1) p
  | @allocproc c cur hc =>
      exact allocproc_dozed k _ (h.current (caller_eq_some.1 hc).2.1) p
  | @forkParent c cur np hc hpc =>
      have hnp := h.forks.embryo cur np (Or.inl hpc)
      exact .modify_setPc _ (fun q => { q with parent := some cur }) (by simp [hnp])
        (h.current (running_eq_some.1 hc).2) _ p
  | @forkFail c cur np hc hpc =>
      exact .modify_setPc _ (fun q => { q with state := .unused }) ProcState.noConfusion
        (h.current (running_eq_some.1 hc).2) _ p
  | @forkDone c cur np hc hpc =>
      have hdone := Dozed.modify_setPc (.forkDone c) (q := np)
        (fun q => { q with state := .runnable }) ProcState.noConfusion
        (h.current (current_eq_some.1 hc).2) .user p
      show Dozed k _ p (k.proc.modify np (fun q => { q with state := .runnable }) p)
        (Function.update (Function.update k.pc np .user) cur .user p)
      by_cases hpn : p = np
      · subst hpn
        rw [Table.modify_self]
        exact .awake ProcState.noConfusion
      · rw [Function.update_apply, Function.update_of_ne hpn, ← Function.update_apply]
        exact hdone
  | wakeup hfree => exact .woken (woken_wakeup1 _ _ p)
  | @kill c cur pid hc => exact kill_dozed k _ pid p
  | setMode => exact .same rfl rfl

end Doze

/-! ## Calls -/

section Calls

variable {ι : Type} [DecidableEq ι] {s s' : Calls ι}

/-- What holds as long as every `kill` is in time. -/
structure Watched (s : Calls ι) : Prop where
  kernel : Inv False s.kernel
  asleep : ∀ p, s.Inside p → (s.kernel.proc p).state = .sleeping →
    (s.kernel.proc p).killed = false
  passed : ∀ p f, s.place p = .passed f → (s.kernel.proc p).killed = false

omit [DecidableEq ι] in
theorem Watched.notLost (h : Watched s) : NotLost s := fun _ p => h.asleep p

omit [DecidableEq ι] in
/-- The running process goes somewhere else, and behind the test only if it has not been killed. -/
theorem Watched.setPlace (h : Watched s) {cur : Slot} (hcur : (s.kernel.proc cur).state = .running)
    {a : Place} (ha : ∀ f, a = .passed f → (s.kernel.proc cur).killed = false) :
    Watched (s.setPlace cur a) := by
  refine ⟨h.kernel, fun p hin hs => ?_, fun p f hp => ?_⟩
  · have hne : p ≠ cur := by
      rintro rfl
      exact nomatch hcur.symm.trans hs
    refine h.asleep p ?_ hs
    simpa [Calls.Inside, Calls.setPlace, hne] using hin
  · by_cases hpc : p = cur
    · subst hpc
      exact ha f (by simpa [Calls.setPlace] using hp)
    · exact h.passed p f (by simpa [Calls.setPlace, hpc] using hp)

omit [DecidableEq ι] in
theorem place_move {c : ι} {f : Place → Place} {p : Slot} (hp : s.kernel.cpu c ≠ some p) :
    s.move c f p = s.place p := by
  cases hc : s.kernel.cpu c with
  | none => simp only [Calls.move, hc]
  | some cur =>
      simp only [Calls.move, hc]
      refine Function.update_of_ne ?_ _ _
      rintro rfl
      exact hp hc

omit [DecidableEq ι] in
theorem move_eq_passed {c : ι} {f : Place → Place} {p : Slot} {fn : Fn}
    (hf : ∀ a, f a = .passed fn → a = .passed fn) (hp : s.move c f p = .passed fn) :
    s.place p = .passed fn := by
  cases hc : s.kernel.cpu c with
  | none => simpa only [Calls.move, hc] using hp
  | some cur =>
      simp only [Calls.move, hc] at hp
      by_cases hpc : p = cur
      · subst hpc
        rw [Function.update_self] at hp
        exact hf _ hp
      · rwa [Function.update_of_ne hpc] at hp

theorem after_eq_passed {e : Event ι} {p : Slot} {f : Fn} (hp : s.after e p = .passed f) :
    s.place p = .passed f := by
  unfold Calls.after at hp
  split at hp
  · exact move_eq_passed (fun a ha => by cases a <;> simp_all [Place.doze]) hp
  · split_ifs at hp
    · exact move_eq_passed (fun a ha => by cases a <;> simp_all [Place.wake]) hp
    · exact hp
  · exact hp

/-- A process that does not run stays where it is. -/
theorem after_of_not_running {e : Event ι} {p : Slot} (hp : ∀ c, s.kernel.cpu c ≠ some p) :
    s.after e p = s.place p := by
  unfold Calls.after
  split
  · exact place_move (hp _)
  · split_ifs
    · exact place_move (hp _)
    · rfl
  · rfl

theorem Watched.kernel_step (h : Watched s) {e : Event ι} {k : State ι} (hmay : s.MayDo e)
    (htimely : Timely s (.kernel e)) (hs : Step s.kernel e k) :
    Watched { kernel := k, place := s.after e } := by
  refine ⟨h.kernel.step hs (fun hf => hf.elim), fun p hin hstate => ?_, fun p f hp => ?_⟩
  · cases step_dozed h.kernel hs p with
    | awake hne => exact absurd hstate hne
    | still hwas hkilled hpc =>
        have hrun : ∀ c, s.kernel.cpu c ≠ some p := fun c hc => by
          rw [h.kernel.current hc] at hwas
          cases hwas
        refine hkilled.trans (h.asleep p ?_ hwas)
        rcases hin with hplace | hwait
        · exact Or.inl (after_of_not_running (e := e) hrun ▸ hplace)
        · exact Or.inr (hpc ▸ hwait)
    | sleeps c a he hc hkilled hpc =>
        subst he
        obtain ⟨-, hcpu, -⟩ := caller_eq_some.1 hc
        refine hkilled.trans ?_
        have hmay' : (s.place p).maySleep = true := by simpa [Calls.MayDo, Calls.here, hcpu] using hmay
        cases hplace : s.place p with
        | outside =>
            rcases hin with hne | hwait
            · exact absurd (by simp [Calls.after, Calls.move, hcpu, hplace, Place.doze]) hne
            · exact nomatch hpc.symm.trans hwait
        | passed f => exact h.passed p f hplace
        | relocking => exact htimely p hcpu hplace
        | testing f | sleeping f | locking =>
            rw [hplace] at hmay'
            exact nomatch hmay'
    | waits hkilled => exact hkilled
  · have hplace := after_eq_passed hp
    have hwas := h.passed p f hplace
    cases step_touched h.kernel hs p with
    | same hkilled _ => exact hkilled.trans hwas
    | taken _ hkilled => exact hkilled.trans hwas
    | reaped hkilled => exact hkilled
    | dropped _ _ _ _ _ hkilled => exact hkilled.trans hwas
    | named c pid he hfind _ =>
        subst he
        exact absurd hplace (htimely p f hfind)

theorem Watched.step (h : Watched s) {e : CallEvent ι} (htimely : Timely s e)
    (hs : CallStep s e s') : Watched s' := by
  unfold CallStep at hs
  cases e with
  | call c f =>
      obtain ⟨cur, hc, hs⟩ := Option.bind_eq_some_iff.1 hs
      obtain ⟨-, heq⟩ := Option.ite_none_right_eq_some.1 hs
      rw [← Option.some.inj heq]
      exact h.setPlace (h.kernel.current (running_eq_some.1 hc).2) (by simp)
  | test c ready =>
      obtain ⟨cur, hc, hs⟩ := Option.bind_eq_some_iff.1 hs
      split at hs
      next f hplace =>
        rw [← Option.some.inj hs]
        refine h.setPlace (h.kernel.current (running_eq_some.1 hc).2) fun g hg => ?_
        unfold Fn.loop at hg
        split_ifs at hg with hor
        · cases f <;> exact nomatch hg
        · exact (by simpa using hor : ready = false ∧ _).2
      next => exact nomatch hs
  | relock c =>
      obtain ⟨cur, hc, hs⟩ := Option.bind_eq_some_iff.1 hs
      obtain ⟨-, heq⟩ := Option.ite_none_right_eq_some.1 hs
      rw [← Option.some.inj heq]
      exact h.setPlace (h.kernel.current (running_eq_some.1 hc).2) (by simp)
  | kernel e =>
      obtain ⟨hmay, hs⟩ := Option.ite_none_right_eq_some.1 hs
      obtain ⟨k, hk, rfl⟩ := Option.map_eq_some_iff.1 hs
      exact h.kernel_step hmay htimely hk

omit [DecidableEq ι] in
theorem watched_boot : Watched (callBoot ι) where
  kernel := boot_inv
  asleep p hin _ := by
    rcases hin with h | h
    · exact absurd rfl h
    · exact nomatch h
  passed p f hp := nomatch hp

/-- **A kill in time is not lost.** Along every run, on any number of CPUs, in which no `kill` comes
    between the test of `killed` and the sleep, and in which no killed process has to sleep for the
    lock of the inode at the end of `consoleread`, nobody who sleeps in one of these functions has
    been killed. -/
theorem kill_in_time {tr : List (Calls ι × CallEvent ι)} (hrun : Run CallStep (callBoot ι) tr s)
    (htimely : ∀ x ∈ tr, Timely x.1 x.2) : Along NotLost tr s := by
  have hwatched : Along Watched tr s :=
    hrun.invariant_of_steps watched_boot (fun _ _ _ h ht hs => h.step ht hs) htimely
  exact ⟨fun x hx => (hwatched.1 x hx).notLost, hwatched.2.notLost⟩

end Calls

/-- The first process forks; its child runs on the other CPU and calls `sys_sleep`. -/
def twoCpus : List (CallEvent (Fin 2)) :=
  [.kernel (.setMode true), .kernel (.acquire 0), .kernel (.resume 0), .kernel (.allocproc 0),
    .kernel (.forkParent 0), .kernel (.forkDone 0), .kernel (.acquire 1), .kernel (.resume 1),
    .call 1 .sysSleep, .test 1 false]

/-- The child is killed when it sleeps, and woken. -/
theorem kill_in_time_asleep :
    ∃ tr s, Run CallStep (callBoot (Fin 2)) tr s ∧ (s.kernel.proc 1).killed = true ∧
      (s.kernel.proc 1).state = .runnable ∧ Along NotLost tr s := by
  have hplay : ((play Calls.next (callBoot (Fin 2)) (twoCpus ++ [.kernel (.sleep 1 100),
      .kernel (.resume 1), .kernel (.kill 0 2)])).map fun r =>
        (decide (∀ x ∈ r.1, Timely x.1 x.2), (r.2.kernel.proc 1).killed,
          (r.2.kernel.proc 1).state)) = some (true, true, .runnable) := by
    decide +kernel
  obtain ⟨⟨tr, s⟩, hplay, heq⟩ := Option.map_eq_some_iff.1 hplay
  obtain ⟨htimely, heq⟩ := Prod.mk.inj heq
  obtain ⟨hkilled, hstate⟩ := Prod.mk.inj heq
  obtain ⟨hrun, -⟩ := play_run hplay
  exact ⟨tr, s, hrun, hkilled, hstate, kill_in_time hrun (of_decide_eq_true htimely)⟩

/-- The child has tested `killed` when the first process kills it; it goes to sleep all the same. -/
theorem kill_between_test_and_sleep :
    ∃ tr s, Run CallStep (callBoot (Fin 2)) tr s ∧
      tr.map Prod.snd = twoCpus ++ [.kernel (.kill 0 2), .kernel (.sleep 1 100),
        .kernel (.resume 1)] ∧ ¬ NotLost s := by
  have hplay : ((play Calls.next (callBoot (Fin 2)) (twoCpus ++ [.kernel (.kill 0 2),
      .kernel (.sleep 1 100), .kernel (.resume 1)])).map fun r =>
        ((r.2.kernel.lock, r.2.place 1), (r.2.kernel.proc 1).killed,
          (r.2.kernel.proc 1).state))
      = some ((.free, .sleeping .sysSleep), true, .sleeping) := by
    decide +kernel
  obtain ⟨⟨tr, s⟩, hplay, heq⟩ := Option.map_eq_some_iff.1 hplay
  simp only [Prod.mk.injEq] at heq
  obtain ⟨⟨hlock, hplace⟩, hkilled, hstate⟩ := heq
  obtain ⟨hrun, hevents⟩ := play_run hplay
  refine ⟨tr, s, hrun, hevents, fun hnot => ?_⟩
  have hno := hnot hlock 1 (Or.inl (by simp [hplace])) hstate
  rw [hkilled] at hno
  cases hno

end Cs350.Kernel
