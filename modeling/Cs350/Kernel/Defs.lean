import Cs350.Sched.Table
import Cs350.Lib.Transition

set_option autoImplicit false

/-! # Processes under `ptable.lock` (`proc.c`)

The process table with all CPUs, both modes of `scheduler`, and the lock made explicit. A step is a
stretch of code that no other CPU can see the inside of: what a process does while it holds
`ptable.lock`, one choice of a scheduler that holds it, or one of the writes that `fork` makes to
its new entry without the lock. Kernel memory, page tables and files are not part of this model;
`fork` may fail at any of its allocations. -/

namespace Cs350.Kernel

open Sched

/-- Where a process will go on when it next runs. -/
inductive Pc
  /-- outside the functions below; also in `yield`, and in `forkret` -/
  | user
  /-- in `sleep`, called with another lock -/
  | asleep
  /-- in `sleep(curproc, &ptable.lock)`, called by `wait` -/
  | waiting
  /-- in `fork`, after `allocproc` returned `np` -/
  | forking (np : Slot)
  /-- in `fork`, after `np->parent = curproc` -/
  | copied (np : Slot)
deriving DecidableEq

/-- Who holds `ptable.lock`: nobody, the scheduler of a CPU, or the process on a CPU. -/
inductive Lock (ι : Type)
  | free
  | scheduler (c : ι)
  | process (c : ι)
deriving DecidableEq

structure State (ι : Type) where
  proc : Table
  pc : Slot → Pc
  /-- `c->proc` -/
  cpu : ι → Option Slot
  /-- the entries that the loop of `scheduler` over the table has still to look at -/
  scan : ι → List Slot
  lock : Lock ι
  nextpid : Int
  initproc : Slot
  /-- the mode of the scheduler: stride if set -/
  str : Bool

/-- The CPUs of a machine that has two are `0` and `1`. -/
scoped instance neZero_two : NeZero 2 := ⟨by decide⟩

inductive Event (ι : Type)
  /-- the scheduler of an idle CPU takes the lock -/
  | acquire (c : ι)
  /-- whoever holds the lock on this CPU goes on -/
  | resume (c : ι)
  | yield (c : ι)
  | sleep (c : ι) (a : Nat)
  | exit (c : ι)
  | wait (c : ι)
  /-- `fork` up to the return of `allocproc` -/
  | allocproc (c : ι)
  /-- `np->parent = curproc`, after the address space has been copied -/
  | forkParent (c : ι)
  /-- `np->state = UNUSED` when an allocation failed -/
  | forkFail (c : ι)
  /-- `np->state = RUNNABLE` -/
  | forkDone (c : ι)
  | wakeup (a : Nat)
  | kill (c : ι) (pid : Int)
  /-- the system call that sets the mode of the scheduler -/
  | setMode (str : Bool)
deriving DecidableEq

/-- What the loop of `wait` comes to. -/
inductive Outcome
  | child (p : Slot)
  | error
  | sleep
deriving DecidableEq

/-- One pass of the loop of `wait`: the first exited child; without one, the caller sleeps unless it
    has no children or has been killed. -/
def waitScan (t : Table) (cur : Slot) : Outcome :=
  match slots.find? fun p => (t p).parent = some cur ∧ (t p).state = .zombie with
  | some p => .child p
  | none =>
      if (slots.any fun p => (t p).parent = some cur) = false ∨ (t cur).killed = true then
        .error
      else
        .sleep

namespace State

section Step

variable {ι : Type} [DecidableEq ι]

def setPc (k : State ι) (p : Slot) (pc : Pc) : State ι :=
  { k with pc := Function.update k.pc p pc }

/-- The scheduler of `c` switches to `p`, which then holds the lock. -/
def dispatch (k : State ι) (c : ι) (p : Slot) (f : Proc → Proc) : State ι :=
  { k with
    proc := k.proc.modify p f
    cpu := Function.update k.cpu c (some p)
    lock := .process c }

/-- The process on `c` switches to the scheduler, which clears `c->proc` and holds the lock. -/
def leave (k : State ι) (c : ι) (cur : Slot) (f : Proc → Proc) : State ι :=
  { k with
    proc := k.proc.modify cur f
    cpu := Function.update k.cpu c none
    lock := .scheduler c }

/-- The top of the loop of `scheduler`. -/
def acquire (k : State ι) (c : ι) : State ι :=
  if k.str then
    let t := updateTickets k.proc
    match getminproc t with
    | none => { k with proc := t, scan := Function.update k.scan c [] }
    | some p =>
        dispatch { k with proc := t, scan := Function.update k.scan c [] } c p Proc.dispatch
  else
    { k with scan := Function.update k.scan c slots, lock := .scheduler c }

/-- The scheduler goes on with its loop over the table. In stride mode there is nothing left. -/
def schedule (k : State ι) (c : ι) : State ι :=
  match k.scan c with
  | [] => { k with lock := .free }
  | p :: rest =>
      if (k.proc p).state = .runnable then
        dispatch { k with scan := Function.update k.scan c rest } c p
          fun q => { q with state := .running }
      else
        { k with scan := Function.update k.scan c rest }

/-- The loop of `wait`, from a scan of the table to the return or to the sleep. -/
def waitLoop (k : State ι) (c : ι) (cur : Slot) : State ι :=
  match waitScan k.proc cur with
  | .child p =>
      setPc { k with proc := k.proc.modify p Proc.reap, lock := .free } cur .user
  | .error => setPc { k with lock := .free } cur .user
  | .sleep =>
      setPc (k.leave c cur fun q => { q with chan := some (.proc cur), state := .sleeping })
        cur .waiting

/-- A process goes on after `swtch`, holding the lock. -/
def goOn (k : State ι) (c : ι) (cur : Slot) : State ι :=
  match k.pc cur with
  | .user | .forking _ | .copied _ => { k with lock := .free }
  | .asleep =>
      setPc { k with proc := k.proc.modify cur fun q => { q with chan := none }, lock := .free }
        cur .user
  | .waiting =>
      waitLoop { k with proc := k.proc.modify cur fun q => { q with chan := none } } c cur

/-- The process running on a CPU, unless it holds the lock. -/
def running (k : State ι) (c : ι) : Option Slot :=
  if k.lock = .process c then none else k.cpu c

/-- The process running on a CPU, if it can take the lock. -/
def current (k : State ι) (c : ι) : Option Slot :=
  if k.lock = .free then k.cpu c else none

/-- The same, for a process that is outside the kernel functions below. -/
def caller (k : State ι) (c : ι) : Option Slot :=
  (k.current c).filter fun cur => k.pc cur = .user

/-- `allocproc`, called by `fork`. -/
def allocproc (k : State ι) (cur : Slot) : State ι :=
  match slots.find? fun p => (k.proc p).state = .unused with
  | none => k
  | some p =>
      setPc { k with
        proc := k.proc.modify p (·.alloc k.nextpid)
        nextpid := int32 (k.nextpid + 1) } cur (.forking p)

def next (k : State ι) : Event ι → Option (State ι)
  | .acquire c => if k.lock = .free ∧ k.cpu c = none then some (k.acquire c) else none
  | .resume c =>
      if k.lock = .scheduler c then some (k.schedule c)
      else if k.lock = .process c then (k.cpu c).map (k.goOn c)
      else none
  | .yield c =>
      (k.current c).map fun cur => k.leave c cur fun q => { q with state := .runnable }
  | .sleep c a =>
      (k.caller c).map fun cur =>
        setPc (k.leave c cur fun q => { q with chan := some (.addr a), state := .sleeping })
          cur .asleep
  | .exit c =>
      (k.caller c).bind fun cur =>
        if cur = k.initproc then none
        else some { k with
          proc := exitTable cur k.initproc k.proc
          cpu := Function.update k.cpu c none
          lock := .scheduler c }
  | .wait c => (k.caller c).map fun cur => waitLoop k c cur
  | .allocproc c => (k.caller c).map fun cur => k.allocproc cur
  | .forkParent c =>
      (k.running c).bind fun cur =>
        match k.pc cur with
        | .forking np =>
            some (setPc { k with
              proc := k.proc.modify np fun q => { q with parent := some cur } } cur (.copied np))
        | _ => none
  | .forkFail c =>
      (k.running c).bind fun cur =>
        match k.pc cur with
        | .forking np =>
            some (setPc { k with
              proc := k.proc.modify np fun q => { q with state := .unused } } cur .user)
        | _ => none
  | .forkDone c =>
      (k.current c).bind fun cur =>
        match k.pc cur with
        | .copied np =>
            some (setPc (setPc { k with
              proc := k.proc.modify np fun q => { q with state := .runnable } } np .user) cur .user)
        | _ => none
  | .wakeup a => if k.lock = .free then some { k with proc := wakeup1 (.addr a) k.proc } else none
  | .kill c pid => (k.caller c).map fun _ => { k with proc := (Sched.kill pid k.proc).2 }
  | .setMode str => some { k with str := str }

end Step

end State

/-- The step relation. -/
def Step {ι : Type} [DecidableEq ι] (k : State ι) (e : Event ι) (k' : State ι) : Prop :=
  k.next e = some k'

/-- After `userinit`: one process, ready to run. -/
def boot (ι : Type) : State ι where
  proc := fun p =>
    { state := if p = 0 then .runnable else .unused
      pid := if p = 0 then 1 else 0
      parent := none
      chan := none
      killed := false
      tickets := if p = 0 then 25 else 0
      pass := 0 }
  pc := fun _ => .user
  cpu := fun _ => none
  scan := fun _ => []
  lock := .free
  nextpid := 2
  initproc := 0
  str := false

end Cs350.Kernel
