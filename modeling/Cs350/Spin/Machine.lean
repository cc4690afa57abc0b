import Cs350.Sched.Table
import Mathlib.Data.Finset.Card

set_option autoImplicit false

/-! # Spin locks, one access at a time (`spinlock.c`, `sched` and `scheduler` of `proc.c`)

The machine that `acquire`, `release`, `holding`, `pushcli`, `popcli` and `sched` run on: CPUs with
an interrupt flag and the fields `ncli` and `intena`, locks in shared memory, and kernel threads with
their interrupted frames. A step is one access to shared memory or to the flags of the CPU, so that
another CPU, or an interrupt where they are enabled, can come between any two of them. Memory is
sequentially consistent, as `__sync_synchronize` makes it at the ends of a critical section; `name`
and `pcs`, which no test reads, are left out. What the kernel does between these calls is not fixed:
any call, interrupt or write of a process state may come next. -/

namespace Cs350.Spin

open Sched (ProcState)

/-- Where a thread stands. Outside the functions of this file it is at `code`. -/
inductive Pc (κ : Type)
  | code
  /-- in `pushcli`, called by `acquire` if there is a lock, with `eflags` read -/
  | pushcli (lk : Option κ) (eflags : Bool)
  /-- in `pushcli` after `cli()` -/
  | count (lk : Option κ) (eflags : Bool)
  /-- in `acquire`, at `lock->locked` of `holding` -/
  | acquireLocked (lk : κ)
  /-- in `acquire`, at `lock->cpu == mycpu()` of `holding` -/
  | acquireCpu (lk : κ)
  | xchg (lk : κ)
  /-- in `acquire`, at `lk->cpu = mycpu()` -/
  | setCpu (lk : κ)
  /-- in `release`, at `lock->locked` of `holding` -/
  | releaseLocked (lk : κ)
  /-- in `release`, at `lock->cpu == mycpu()` of `holding` -/
  | releaseCpu (lk : κ)
  /-- in `release`, at `lk->cpu = 0` -/
  | clearCpu (lk : κ)
  /-- in `release`, at `lk->locked = 0` -/
  | clearLocked (lk : κ)
  | popcli
  /-- in `sched`, at `lock->locked` of `holding` -/
  | schedLocked
  /-- in `sched`, at `lock->cpu == mycpu()` of `holding` -/
  | schedCpu
  /-- in `sched`, at the other tests before `swtch` -/
  | swtch
  /-- in `sched` after `swtch`, with `intena` saved -/
  | switched (intena : Bool)
  /-- in the loop of `panic` -/
  | panic (message : String)
deriving DecidableEq

/-- The frames of a thread: where it is, and where it was at each interrupt that it has not returned
    from, the last one first. -/
structure Context (κ : Type) where
  pc : Pc κ
  below : List (Pc κ)

/-- A thread that has not run yet; also the scheduler while it waits in `swtch`. -/
def Context.start {κ : Type} : Context κ := ⟨.code, []⟩

structure Spinlock (ι : Type) where
  locked : Bool
  cpu : Option ι

/-- `held` and `bare` are history: no step reads them. -/
structure Cpu (π κ : Type) where
  /-- `c->proc`; without one the scheduler runs -/
  proc : Option π
  /-- `FL_IF` of the flags register -/
  interrupts : Bool
  /-- the nesting of `pushcli`, which stays far below the largest `int` -/
  ncli : Int
  intena : Bool
  running : Context κ
  /-- `c->scheduler` -/
  scheduler : Context κ
  /-- the locks that the CPU has taken and not given back -/
  held : Finset κ
  /-- the calls of `pushcli` by the kernel itself that are still without their `popcli` -/
  bare : Nat

structure State (ι π κ : Type) where
  cpu : ι → Cpu π κ
  lock : κ → Spinlock ι
  state : π → ProcState
  /-- `p->context`, and none while the process runs or has no kernel stack -/
  context : π → Option (Context κ)
  /-- history: the interrupt flag at the outermost `pushcli` of a process -/
  entry : π → Option Bool

inductive Event (π κ : Type)
  | pushcli
  | popcli
  | acquire (lk : κ)
  | release (lk : κ)
  | sched
  /-- the next access of the function that runs -/
  | go
  /-- `sti` at the top of the loop of `scheduler` -/
  | sti
  | interrupt
  /-- the return from an interrupt, or to user space -/
  | iret
  /-- `swtch` of `scheduler`, with the writes to `c->proc` and `p->state` before it -/
  | dispatch (p : π)
  /-- `p->state = ...` -/
  | write (p : π) (st : ProcState)
  /-- `p->context` of `allocproc` -/
  | newStack (p : π)
  /-- `kfree(p->kstack)` -/
  | freeStack (p : π)

namespace Cpu

variable {π κ : Type}

def pc (k : Cpu π κ) : Pc κ := k.running.pc

def goto (k : Cpu π κ) (pc : Pc κ) : Cpu π κ := { k with running := ⟨pc, k.running.below⟩ }

/-- `panic` turns interrupts off and does not return. -/
def panic (k : Cpu π κ) (message : String) : Cpu π κ :=
  { k with interrupts := false }.goto (.panic message)

/-- `mycpu()`, before the rest of an expression that calls it. -/
def withMycpu (k : Cpu π κ) (rest : Cpu π κ) : Cpu π κ :=
  if k.interrupts then k.panic "mycpu called with interrupts enabled\n" else rest

/-- The rest of `pushcli` after `cli()`. -/
def count (k : Cpu π κ) (lk : Option κ) (eflags : Bool) : Cpu π κ :=
  let k := if k.ncli = 0 then { k with intena := eflags } else k
  let k := { k with ncli := k.ncli + 1 }
  match lk with
  | none => { k with bare := k.bare + 1 }.goto .code
  | some lk => k.goto (.acquireLocked lk)

def popcli (k : Cpu π κ) : Cpu π κ :=
  if k.interrupts then k.panic "popcli - interruptible"
  else
    let k := { k with ncli := k.ncli - 1 }
    if k.ncli < 0 then k.panic "popcli"
    else if k.ncli = 0 ∧ k.intena = true then { k with interrupts := true }.goto .code
    else k.goto .code

/-- Enter an interrupt handler. -/
def interrupt (k : Cpu π κ) : Cpu π κ :=
  { k with interrupts := false, running := ⟨.code, k.pc :: k.running.below⟩ }

end Cpu

namespace State

variable {ι π κ : Type} [DecidableEq ι] [DecidableEq π] [DecidableEq κ]

def setCpu (s : State ι π κ) (c : ι) (k : Cpu π κ) : State ι π κ :=
  { s with cpu := Function.update s.cpu c k }

def setLock (s : State ι π κ) (lk : κ) (l : Spinlock ι) : State ι π κ :=
  { s with lock := Function.update s.lock lk l }

/-- The flag before `cli()` is recorded for the outermost call of a process. -/
def setEntry (s : State ι π κ) (k : Cpu π κ) : State ι π κ :=
  match k.proc with
  | some p =>
      if k.ncli = 0 then { s with entry := Function.update s.entry p (some k.interrupts) } else s
  | none => s

/-- The tests of `sched` after `holding`, and `swtch` to the scheduler of the CPU. -/
def swtch (s : State ι π κ) (c : ι) (p : π) : State ι π κ :=
  let k := s.cpu c
  if k.interrupts then s.setCpu c (k.panic "mycpu called with interrupts enabled\n")
  else if k.ncli ≠ 1 then s.setCpu c (k.panic "sched locks")
  else if s.state p = .running then s.setCpu c (k.panic "sched running")
  else
    { s.setCpu c { k with proc := none, running := k.scheduler } with
      context := Function.update s.context p (some ⟨.switched k.intena, k.running.below⟩) }

/-- One access of the function that runs on `c`; `ptable` is `ptable.lock`. -/
def go (ptable : κ) (s : State ι π κ) (c : ι) : Option (State ι π κ) :=
  let k := s.cpu c
  match k.pc with
  | .code => none
  | .pushcli lk eflags =>
      some ((s.setEntry k).setCpu c ({ k with interrupts := false }.goto (.count lk eflags)))
  | .count lk eflags => some (s.setCpu c (k.count lk eflags))
  | .acquireLocked lk =>
      some (s.setCpu c (k.goto (if (s.lock lk).locked then .acquireCpu lk else .xchg lk)))
  | .acquireCpu lk =>
      some (s.setCpu c (k.withMycpu
        (if (s.lock lk).cpu = some c then k.panic "acquire" else k.goto (.xchg lk))))
  | .xchg lk =>
      if (s.lock lk).locked then some s
      else
        some ((s.setLock lk ⟨true, (s.lock lk).cpu⟩).setCpu c
          ({ k with held := insert lk k.held }.goto (.setCpu lk)))
  | .setCpu lk =>
      if k.interrupts then some (s.setCpu c (k.panic "mycpu called with interrupts enabled\n"))
      else some ((s.setLock lk ⟨(s.lock lk).locked, some c⟩).setCpu c (k.goto .code))
  | .releaseLocked lk =>
      some (s.setCpu c (if (s.lock lk).locked then k.goto (.releaseCpu lk) else k.panic "release"))
  | .releaseCpu lk =>
      some (s.setCpu c (k.withMycpu
        (if (s.lock lk).cpu = some c then k.goto (.clearCpu lk) else k.panic "release")))
  | .clearCpu lk =>
      some ((s.setLock lk ⟨(s.lock lk).locked, none⟩).setCpu c (k.goto (.clearLocked lk)))
  | .clearLocked lk =>
      some ((s.setLock lk ⟨false, (s.lock lk).cpu⟩).setCpu c
        ({ k with held := k.held.erase lk }.goto .popcli))
  | .popcli => some (s.setCpu c k.popcli)
  | .schedLocked =>
      some (s.setCpu c
        (if (s.lock ptable).locked then k.goto .schedCpu else k.panic "sched ptable.lock"))
  | .schedCpu =>
      some (s.setCpu c (k.withMycpu
        (if (s.lock ptable).cpu = some c then k.goto .swtch else k.panic "sched ptable.lock")))
  | .swtch => k.proc.map (s.swtch c)
  | .switched intena => some (s.setCpu c ({ k with intena := intena }.goto .code))
  | .panic _ => none

/-- The scheduler of `c` switches to a process whose context is saved. A process that runs for the
    first time starts in `forkret`. -/
def dispatch (s : State ι π κ) (c : ι) (p : π) (x : Context κ) : State ι π κ :=
  let k := s.cpu c
  { s.setCpu c { k with proc := some p, running := x, scheduler := k.running } with
    state := Function.update s.state p .running
    context := Function.update s.context p none
    entry := if x.pc = .code then Function.update s.entry p none else s.entry }

/-- What kernel code outside these functions does next on `c`. -/
def call (s : State ι π κ) (c : ι) : Event π κ → Option (State ι π κ)
  | .go | .interrupt => none
  | .pushcli => some (s.setCpu c ((s.cpu c).goto (.pushcli none (s.cpu c).interrupts)))
  | .popcli => some (s.setCpu c ({ s.cpu c with bare := (s.cpu c).bare - 1 }.goto .popcli))
  | .acquire lk => some (s.setCpu c ((s.cpu c).goto (.pushcli (some lk) (s.cpu c).interrupts)))
  | .release lk => some (s.setCpu c ((s.cpu c).goto (.releaseLocked lk)))
  | .sched =>
      if (s.cpu c).proc = none then none else some (s.setCpu c ((s.cpu c).goto .schedLocked))
  | .sti => some (s.setCpu c { s.cpu c with interrupts := true })
  | .iret =>
      match (s.cpu c).running.below with
      | pc :: below =>
          some (s.setCpu c { s.cpu c with interrupts := true, running := ⟨pc, below⟩ })
      | [] =>
          if (s.cpu c).proc = none then none
          else some (s.setCpu c { s.cpu c with interrupts := true })
  | .dispatch p => if (s.cpu c).proc = none then (s.context p).map (s.dispatch c p) else none
  | .write p st => some { s with state := Function.update s.state p st }
  | .newStack p => some { s with context := Function.update s.context p (some Context.start) }
  | .freeStack p => some { s with context := Function.update s.context p none }

/-- One step of the CPU `c`, or none where the event cannot happen. -/
def step (ptable : κ) (s : State ι π κ) (c : ι) (e : Event π κ) : Option (State ι π κ) :=
  match e with
  | .go => s.go ptable c
  | .interrupt => if (s.cpu c).interrupts then some (s.setCpu c (s.cpu c).interrupt) else none
  | e => if (s.cpu c).pc = .code then s.call c e else none

/-- Steps of all CPUs, in any order. -/
def Move (ptable : κ) (s : State ι π κ) (a : ι × Event π κ) (s' : State ι π κ) : Prop :=
  s.step ptable a.1 a.2 = some s'

/-- The machine before its first process: `initlock` has run, and every CPU is in `main` or before
    the loop of `scheduler`, with interrupts off. -/
def start : State ι π κ where
  cpu _ := ⟨none, false, 0, false, Context.start, Context.start, ∅, 0⟩
  lock _ := ⟨false, none⟩
  state _ := .unused
  context _ := none
  entry _ := none

end State

end Cs350.Spin
