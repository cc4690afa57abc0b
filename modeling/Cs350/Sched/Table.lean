import Mathlib.Algebra.Group.Int.Defs
import Mathlib.Algebra.GroupWithZero.Nat
import Mathlib.Data.Fintype.Basic
import Mathlib.Data.List.FinRange
import Mathlib.Logic.Function.Basic
import Mathlib.Tactic.Common

set_option autoImplicit false

/-! # The process table and the stride scheduler

The part of `proc.c` and `sysproc.c` that runs under `ptable.lock`: the table of `NPROC` processes,
the stride branch of `scheduler` with `updateTickets` and `getminproc`, and the operations that move
processes between states. Each event of `Event` is one critical section of `ptable.lock`, on one of
the CPUs of an arbitrary index type; `Sys.step` returns `none` where the event cannot happen (the
CPU runs no process, or the code would panic). Kernel memory, page tables and open files are not
part of this model. -/

namespace Cs350.Sched

/-- `NPROC`. -/
def nproc : Nat := 64

instance : NeZero nproc := ⟨by decide⟩

/-- An index into `ptable.proc`. -/
abbrev Slot := Fin nproc

/-- The indices of the process table in the order of the loops over it. -/
def slots : List Slot := List.finRange nproc

/-- `enum procstate`. -/
inductive ProcState
  | unused | embryo | sleeping | runnable | running | zombie
  deriving DecidableEq, Repr

/-- A sleep channel is an address: that of a process (`wait`) or any other. -/
inductive Chan
  | proc (p : Slot)
  | addr (a : Nat)
  deriving DecidableEq, Repr

/-- The fields of `struct proc` that scheduling reads or writes. -/
structure Proc where
  state : ProcState
  pid : Int
  parent : Option Slot
  chan : Option Chan
  killed : Bool
  tickets : Int
  pass : Int
  deriving DecidableEq, Repr

/-- `ptable.proc`. -/
abbrev Table := Slot → Proc

/-- Two's complement wrap-around of `int`. -/
def int32 (x : Int) : Int := x.bmod (2 ^ 32)

/-- Change one entry of the table. -/
def Table.modify (t : Table) (p : Slot) (f : Proc → Proc) : Table := Function.update t p (f (t p))

@[simp] theorem Table.modify_self (t : Table) (p : Slot) (f : Proc → Proc) :
    t.modify p f p = f (t p) := by simp [Table.modify]

theorem Table.modify_of_ne {t : Table} {p q : Slot} (h : q ≠ p) (f : Proc → Proc) :
    t.modify p f q = t q := by simp [Table.modify, h]

/-- RUNNABLE or RUNNING: what `updateTickets` counts. -/
def Proc.Active (p : Proc) : Prop := p.state = .runnable ∨ p.state = .running

instance (p : Proc) : Decidable p.Active := inferInstanceAs (Decidable (_ ∨ _))

/-! ## The stride scheduler -/

/-- The first loop of `updateTickets`. -/
def activeCount (t : Table) : Nat := slots.countP fun p => (t p).Active

/-- `updateTickets`. -/
def updateTickets (t : Table) : Table := fun p =>
  if (t p).Active then { t p with tickets := Int.tdiv 100 (activeCount t) } else t p

/-- One round of the loop of `getminproc`; the accumulator is `retProc` with `curMin`, and is empty
    as long as `firstProc` is set. -/
def getminprocStep (t : Table) (acc : Option (Slot × Int)) (p : Slot) : Option (Slot × Int) :=
  if (t p).state ≠ .runnable then acc
  else
    match acc with
    | none => some (p, (t p).pass)
    | some (retProc, curMin) =>
      if (t p).pass < curMin then some (p, (t p).pass) else some (retProc, curMin)

/-- `getminproc`. -/
def getminproc (t : Table) : Option Slot :=
  (slots.foldl (getminprocStep t) none).map Prod.fst

/-- `getProc`: only RUNNABLE processes are found. -/
def getProc (t : Table) (pid : Int) : Option Slot :=
  slots.find? fun p => (t p).state = .runnable ∧ (t p).pid = pid

/-- `p->pass += (1000)/(p->tickets)`, then `p->state = RUNNING`. -/
def Proc.dispatch (p : Proc) : Proc :=
  { p with pass := int32 (p.pass + Int.tdiv 1000 p.tickets), state := .running }

/-- `sys_transfer_tickets` called by the process `cur` with its two arguments: the return value and
    the table. -/
def sysTransferTickets (t : Table) (cur : Slot) (pid n : Int) : Int × Table :=
  match getProc t pid with
  | none => (-3, t)
  | some p =>
    if n < 0 then (-1, t)
    else if n > int32 ((t cur).tickets - 1) then (-2, t)
    else
      let t := t.modify cur fun q => { q with tickets := int32 (q.tickets - n) }
      let t := t.modify p fun q => { q with tickets := int32 (q.tickets + n) }
      ((t cur).tickets, t)

/-! ## The other critical sections -/

/-- `wakeup1`. -/
def wakeup1 (chan : Chan) (t : Table) : Table := fun p =>
  if (t p).state = .sleeping ∧ (t p).chan = some chan then { t p with state := .runnable } else t p

/-- `kill`: the first entry with that pid is marked, and made RUNNABLE if it sleeps. -/
def kill (pid : Int) (t : Table) : Int × Table :=
  match slots.find? fun p => (t p).pid = pid with
  | none => (-1, t)
  | some p =>
    (0, t.modify p fun q =>
      { q with killed := true, state := if q.state = .sleeping then .runnable else q.state })

/-- One round of the loop of `exit` that passes abandoned children to init. -/
def exitStep (cur initproc : Slot) (t : Table) (p : Slot) : Table :=
  if (t p).parent = some cur then
    let t := t.modify p fun q => { q with parent := some initproc }
    if (t p).state = .zombie then wakeup1 (.proc initproc) t else t
  else t

/-- `exit` from `wakeup1(curproc->parent)` to `curproc->state = ZOMBIE`. -/
def exitTable (cur initproc : Slot) (t : Table) : Table :=
  let t := match (t cur).parent with
    | none => t
    | some parent => wakeup1 (.proc parent) t
  (slots.foldl (exitStep cur initproc) t).modify cur fun q => { q with state := .zombie }

/-- What `wait` does to an exited child. -/
def Proc.reap (p : Proc) : Proc :=
  { p with pid := 0, parent := none, killed := false, state := .unused }

/-- What `allocproc` does to the entry it takes. -/
def Proc.alloc (p : Proc) (pid : Int) : Proc :=
  { p with state := .embryo, pid := pid, pass := 0, tickets := 25 }

/-- The process table, `c->proc` of each CPU, and the globals. -/
structure Sys (ι : Type) where
  proc : Table
  cpu : ι → Option Slot
  nextpid : Int
  initproc : Slot

/-- The critical sections of `ptable.lock`. A `fork` is `allocproc` followed, possibly after other
    events, by `forkDone` (or by `forkFail` when memory runs out). -/
inductive Event (ι : Type)
  | schedule (c : ι)
  | yield (c : ι)
  | sleep (c : ι) (chan : Chan)
  | exit (c : ι)
  | wait (c : ι)
  | allocproc (c : ι)
  | forkFail (c : ι) (np : Slot)
  | forkDone (c : ι) (np : Slot)
  | wakeup (chan : Chan)
  | kill (pid : Int)
  /-- `sys_transfer_tickets`, which takes no lock; here it is one step all the same -/
  | transferTickets (c : ι) (pid n : Int)

section Step

variable {ι : Type} [DecidableEq ι]

/-- The running process of CPU `c` leaves it, with its entry changed by `f`. -/
def Sys.leave (s : Sys ι) (c : ι) (cur : Slot) (f : Proc → Proc) : Sys ι :=
  { s with proc := s.proc.modify cur f, cpu := Function.update s.cpu c none }

/-- The stride branch of one iteration of `scheduler` on CPU `c`, up to `swtch`. -/
def Sys.schedule (s : Sys ι) (c : ι) : Sys ι :=
  let t := updateTickets s.proc
  match getminproc t with
  | none => { s with proc := t }
  | some p => { s with proc := t.modify p Proc.dispatch, cpu := Function.update s.cpu c (some p) }

/-- One pass of the loop of `wait`. -/
def Sys.wait (s : Sys ι) (c : ι) (cur : Slot) : Sys ι :=
  match slots.find? fun p => (s.proc p).parent = some cur ∧ (s.proc p).state = .zombie with
  | some p => { s with proc := s.proc.modify p Proc.reap }
  | none =>
    if (slots.any fun p => (s.proc p).parent = some cur) ∧ (s.proc cur).killed = false then
      s.leave c cur fun q => { q with chan := some (.proc cur), state := .sleeping }
    else s

/-- `allocproc`. -/
def Sys.allocproc (s : Sys ι) : Sys ι :=
  match slots.find? fun p => (s.proc p).state = .unused with
  | none => s
  | some p =>
    { s with proc := s.proc.modify p (·.alloc s.nextpid), nextpid := int32 (s.nextpid + 1) }

/-- One critical section. -/
def Sys.step (s : Sys ι) : Event ι → Option (Sys ι)
  | .schedule c => if s.cpu c = none then some (s.schedule c) else none
  | .yield c => (s.cpu c).map fun cur => s.leave c cur fun q => { q with state := .runnable }
  | .sleep c chan =>
    (s.cpu c).map fun cur => s.leave c cur fun q => { q with chan := some chan, state := .sleeping }
  | .exit c =>
    (s.cpu c).bind fun cur =>
      if cur = s.initproc then none
      else some { s with
        proc := exitTable cur s.initproc s.proc, cpu := Function.update s.cpu c none }
  | .wait c => (s.cpu c).map fun cur => s.wait c cur
  | .allocproc c => (s.cpu c).map fun _ => s.allocproc
  | .forkFail c np =>
    (s.cpu c).bind fun _ =>
      if (s.proc np).state = .embryo then
        some { s with proc := s.proc.modify np fun q => { q with state := .unused } }
      else none
  | .forkDone c np =>
    (s.cpu c).bind fun cur =>
      if (s.proc np).state = .embryo then
        some { s with
          proc := s.proc.modify np fun q => { q with parent := some cur, state := .runnable } }
      else none
  | .wakeup chan => some { s with proc := wakeup1 chan s.proc }
  | .kill pid => some { s with proc := (kill pid s.proc).2 }
  | .transferTickets c pid n =>
    (s.cpu c).map fun cur => { s with proc := (sysTransferTickets s.proc cur pid n).2 }

/-- The step relation of the scheduler. -/
def Step (s : Sys ι) (e : Event ι) (s' : Sys ι) : Prop := s.step e = some s'

end Step

/-! ## What `updateTickets` and `getminproc` compute -/

theorem mem_slots (p : Slot) : p ∈ slots := List.mem_finRange p

theorem activeCount_pos {t : Table} {p : Slot} (h : (t p).Active) : 0 < activeCount t :=
  List.countP_pos_iff.2 ⟨p, mem_slots p, by simpa using h⟩

theorem activeCount_le (t : Table) : activeCount t ≤ nproc := by
  have := List.countP_le_length (l := slots) (p := fun p => decide (t p).Active)
  rwa [slots, List.length_finRange] at this

theorem activeCount_congr {t t' : Table} (h : ∀ p, (t' p).Active ↔ (t p).Active) :
    activeCount t' = activeCount t :=
  List.countP_congr fun p _ => by simp [h p]

@[simp] theorem updateTickets_state (t : Table) (p : Slot) :
    (updateTickets t p).state = (t p).state := by
  unfold updateTickets
  split <;> rfl

@[simp] theorem updateTickets_pass (t : Table) (p : Slot) :
    (updateTickets t p).pass = (t p).pass := by
  unfold updateTickets
  split <;> rfl

theorem updateTickets_tickets_of_active {t : Table} {p : Slot} (h : (t p).Active) :
    (updateTickets t p).tickets = ((100 / activeCount t : Nat) : Int) := by
  rw [updateTickets, if_pos h]
  exact (Int.ofNat_tdiv 100 _).symm

theorem updateTickets_tickets_of_not_active {t : Table} {p : Slot} (h : ¬ (t p).Active) :
    (updateTickets t p).tickets = (t p).tickets := by
  rw [updateTickets, if_neg h]

/-- What the accumulator of `getminproc` holds after the slots `l`: nothing as long as none of them
    is RUNNABLE, then the first of those with the least pass. -/
def MinOf (t : Table) (l : List Slot) : Option (Slot × Int) → Prop
  | none => ∀ q ∈ l, (t q).state ≠ .runnable
  | some (p, m) => (t p).state = .runnable ∧ m = (t p).pass ∧ p ∈ l ∧
      ∀ q ∈ l, (t q).state = .runnable → m < (t q).pass ∨ (m = (t q).pass ∧ p ≤ q)

theorem getminprocStep_minOf {t : Table} {l : List Slot} {acc : Option (Slot × Int)} {p : Slot}
    (h : MinOf t l acc) (hp : ∀ q ∈ l, q < p) : MinOf t (l ++ [p]) (getminprocStep t acc p) := by
  unfold getminprocStep
  split_ifs with hrun
  · -- not RUNNABLE: skipped
    cases acc with
    | none =>
        intro q hq
        rcases List.mem_append.1 hq with hq | hq
        · exact h q hq
        · rw [List.mem_singleton.1 hq]; exact hrun
    | some rm =>
        obtain ⟨r, m⟩ := rm
        obtain ⟨h1, h2, h3, h4⟩ := h
        refine ⟨h1, h2, List.mem_append_left _ h3, fun q hq hqr => ?_⟩
        rcases List.mem_append.1 hq with hq | hq
        · exact h4 q hq hqr
        · rw [List.mem_singleton.1 hq] at hqr; exact absurd hqr hrun
  · rw [ne_eq, Decidable.not_not] at hrun
    cases acc with
    | none =>
        refine ⟨hrun, rfl, by simp, fun q hq hqr => ?_⟩
        rcases List.mem_append.1 hq with hq | hq
        · exact absurd hqr (h q hq)
        · rw [List.mem_singleton.1 hq]; exact Or.inr ⟨rfl, le_refl _⟩
    | some rm =>
        obtain ⟨r, m⟩ := rm
        obtain ⟨h1, h2, h3, h4⟩ := h
        simp only
        split_ifs with hlt
        · refine ⟨hrun, rfl, by simp, fun q hq hqr => ?_⟩
          rcases List.mem_append.1 hq with hq | hq
          · have := h4 q hq hqr
            exact Or.inl (by omega)
          · rw [List.mem_singleton.1 hq]; exact Or.inr ⟨rfl, le_refl _⟩
        · refine ⟨h1, h2, List.mem_append_left _ h3, fun q hq hqr => ?_⟩
          rcases List.mem_append.1 hq with hq | hq
          · exact h4 q hq hqr
          · rw [List.mem_singleton.1 hq]
            have hle := (hp r h3).le
            rcases Int.lt_or_eq_of_le (Int.not_lt.1 hlt) with hlt' | heq
            · exact Or.inl hlt'
            · exact Or.inr ⟨heq, hle⟩

theorem getminproc_foldl {t : Table} {l : List Slot} (hl : l.Pairwise (· < ·)) :
    MinOf t l (l.foldl (getminprocStep t) none) := by
  induction l using List.reverseRecOn with
  | nil => intro q hq; simp at hq
  | append_singleton l p ih =>
      obtain ⟨hl', -, hlp⟩ := List.pairwise_append.1 hl
      rw [List.foldl_append]
      exact getminprocStep_minOf (ih hl') (fun q hq => hlp q hq p (by simp))

/-- `getminproc` finds nothing exactly when nothing is RUNNABLE. -/
theorem getminproc_eq_none {t : Table} (h : getminproc t = none) (p : Slot) :
    (t p).state ≠ .runnable := by
  have hmin := getminproc_foldl (t := t) (List.pairwise_lt_finRange nproc)
  rw [getminproc, Option.map_eq_none_iff] at h
  rw [slots] at h
  rw [h] at hmin
  exact hmin p (mem_slots p)

/-- `getminproc` returns the first RUNNABLE process with the least pass. -/
theorem getminproc_eq_some {t : Table} {p : Slot} (h : getminproc t = some p) :
    (t p).state = .runnable ∧ ∀ q, (t q).state = .runnable →
      (t p).pass < (t q).pass ∨ ((t p).pass = (t q).pass ∧ p ≤ q) := by
  have hmin := getminproc_foldl (t := t) (List.pairwise_lt_finRange nproc)
  obtain ⟨⟨r, m⟩, hr, rfl⟩ := Option.map_eq_some_iff.1 h
  rw [slots] at hr
  rw [hr] at hmin
  obtain ⟨hrun, rfl, -, hall⟩ := hmin
  exact ⟨hrun, fun q hq => hall q (mem_slots q) hq⟩

end Cs350.Sched
