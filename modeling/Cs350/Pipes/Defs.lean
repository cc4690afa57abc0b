import Cs350.Lib.RingBuffer
import Cs350.Lib.Transition
import Cs350.Sched.Table
import Mathlib

set_option autoImplicit false

/-! # Pipes (`pipe.c`)

One pipe and the processes that use it. A step is what a process does between taking the lock of the
pipe and giving it up, by a return or in `sleep`; the closing of an end; or a call of `kill`. Between
its calls a process may do anything else. Each step says which bytes it has put into the pipe, and
which bytes `piperead` returns. -/

namespace Cs350.Pipes

open Sched (Slot Table Chan wakeup1)
open RingBuffer (slot dist contents)

/-- `PIPESIZE` -/
def pipeSize : UInt32 := 512

/-- `struct pipe`, without its lock. -/
structure Pipe where
  data : Nat → UInt8
  nread : UInt32
  nwrite : UInt32
  readopen : Bool
  writeopen : Bool

namespace Pipe

/-- `p->nwrite == p->nread + PIPESIZE` -/
def Full (p : Pipe) : Prop := p.nwrite = p.nread + pipeSize

/-- `p->nread == p->nwrite` -/
def Empty (p : Pipe) : Prop := p.nread = p.nwrite

instance (p : Pipe) : Decidable p.Full := inferInstanceAs (Decidable (_ = _))

instance (p : Pipe) : Decidable p.Empty := inferInstanceAs (Decidable (_ = _))

/-- `p->data[p->nwrite++ % PIPESIZE] = b` -/
def put (p : Pipe) (b : UInt8) : Pipe :=
  { p with data := Function.update p.data (slot pipeSize p.nwrite) b, nwrite := p.nwrite + 1 }

/-- The loop of `pipewrite` up to where the pipe is full, and the bytes that are left. -/
def store : Pipe → List UInt8 → Pipe × List UInt8
  | p, [] => (p, [])
  | p, b :: bs => if p.Full then (p, b :: bs) else store (p.put b) bs

/-- The second loop of `piperead`. -/
def copy : Pipe → Nat → Pipe × List UInt8
  | p, 0 => (p, [])
  | p, n + 1 =>
      if p.Empty then (p, [])
      else
        let r := copy { p with nread := p.nread + 1 } n
        (r.1, p.data (slot pipeSize p.nread) :: r.2)

end Pipe

/-- `&p->nread` -/
def nreadChan : Chan := .addr 564

/-- `&p->nwrite` -/
def nwriteChan : Chan := .addr 568

/-- Where a process will go on. -/
inductive Pc
  /-- in neither of the two functions -/
  | outside
  /-- in `piperead`, called with `n` -/
  | reading (n : Int)
  /-- in `pipewrite`, called with `n` bytes, of which these are left -/
  | writing (n : Nat) (rest : List UInt8)
deriving DecidableEq

structure State where
  proc : Table
  pc : Slot → Pc
  /-- `none` after `kfree` -/
  pipe : Option Pipe

/-- What a step shows to the outside. -/
structure Io where
  /-- the bytes that go into the pipe -/
  stored : List UInt8
  /-- the bytes that `piperead` returns -/
  returned : List UInt8
  /-- the value that a call returns -/
  result : Option Int
deriving DecidableEq

inductive Event
  | piperead (cur : Slot) (n : Int)
  | pipewrite (cur : Slot) (bytes : List UInt8)
  /-- a process that has been woken goes on -/
  | resume (cur : Slot)
  | pipeclose (writable : Bool)
  | kill (pid : Int)
  /-- outside the two functions, the entry of a process becomes `q` -/
  | other (cur : Slot) (q : Sched.Proc)

/-- The process sleeps on this channel. -/
def Asleep (t : Table) (p : Slot) (c : Chan) : Prop :=
  (t p).state = .sleeping ∧ (t p).chan = some c

instance (t : Table) (p : Slot) (c : Chan) : Decidable (Asleep t p c) :=
  inferInstanceAs (Decidable (_ ∧ _))

/-- `sleep`, up to `sched`. -/
def sleep (t : Table) (cur : Slot) (c : Chan) : Table :=
  t.modify cur fun q => { q with chan := some c, state := .sleeping }

/-- A CPU runs the process; after a `sleep`, `p->chan` is cleared. -/
def dispatch (t : Table) (cur : Slot) : Table :=
  t.modify cur fun q => { q with chan := none, state := .running }

namespace State

def setPc (k : State) (p : Slot) (pc : Pc) : State :=
  { k with pc := Function.update k.pc p pc }

/-- `pipewrite` with the lock, from the test of the loop on. -/
def write (k : State) (p : Pipe) (cur : Slot) (n : Nat) (bytes : List UInt8) : State × Io :=
  let r := p.store bytes
  let stored := bytes.take (bytes.length - r.2.length)
  let k := { k with pipe := some r.1 }
  if r.2 = [] then
    (setPc { k with proc := wakeup1 nreadChan k.proc } cur .outside, ⟨stored, [], some n⟩)
  else if r.1.readopen = false ∨ (k.proc cur).killed = true then
    (k.setPc cur .outside, ⟨stored, [], some (-1)⟩)
  else
    (setPc { k with proc := sleep (wakeup1 nreadChan k.proc) cur nwriteChan } cur
      (.writing n r.2), ⟨stored, [], none⟩)

/-- `piperead` with the lock, from the test of the first loop on. -/
def read (k : State) (p : Pipe) (cur : Slot) (n : Int) : State × Io :=
  if p.Empty ∧ p.writeopen = true then
    if (k.proc cur).killed = true then (k.setPc cur .outside, ⟨[], [], some (-1)⟩)
    else
      (setPc { k with proc := sleep k.proc cur nreadChan } cur (.reading n), ⟨[], [], none⟩)
  else
    let r := p.copy n.toNat
    (setPc { k with proc := wakeup1 nwriteChan k.proc, pipe := some r.1 } cur .outside,
      ⟨[], r.2, some r.2.length⟩)

/-- `pipeclose` -/
def close (k : State) (p : Pipe) (writable : Bool) : State :=
  let p := if writable then { p with writeopen := false } else { p with readopen := false }
  let t := wakeup1 (if writable then nreadChan else nwriteChan) k.proc
  { k with proc := t, pipe := if p.readopen = false ∧ p.writeopen = false then none else some p }

/-- Nothing goes in or out. -/
def silent (k : State) : State × Io := (k, ⟨[], [], none⟩)

/-- A process can run. -/
def runs (k : State) (cur : Slot) : Prop := (k.proc cur).Active

instance (k : State) (cur : Slot) : Decidable (k.runs cur) :=
  inferInstanceAs (Decidable (Sched.Proc.Active _))

/-- The same state while `cur` runs. -/
def run (k : State) (cur : Slot) : State := { k with proc := dispatch k.proc cur }

def next (k : State) : Event → Option (State × Io)
  | .piperead cur n =>
      if k.pc cur = .outside ∧ k.runs cur then
        k.pipe.map fun p => (k.run cur).read p cur n
      else none
  | .pipewrite cur bytes =>
      if k.pc cur = .outside ∧ k.runs cur then
        k.pipe.map fun p => (k.run cur).write p cur bytes.length bytes
      else none
  | .resume cur =>
      if k.runs cur then
        k.pipe.bind fun p =>
          match k.pc cur with
          | .outside => none
          | .reading n => some ((k.run cur).read p cur n)
          | .writing n rest => some ((k.run cur).write p cur n rest)
      else none
  | .pipeclose writable => k.pipe.map fun p => silent (k.close p writable)
  | .kill pid => some (silent { k with proc := (Sched.kill pid k.proc).2 })
  | .other cur q =>
      let t := Function.update k.proc cur q
      if k.pc cur = .outside ∧ ¬ Asleep t cur nreadChan ∧ ¬ Asleep t cur nwriteChan then
        some (silent { k with proc := t })
      else none

end State

/-- A step, with what it shows. -/
def Step (k : State) (e : Event × Io) (k' : State) : Prop := k.next e.1 = some (k', e.2)

/-- The state after a step. -/
def follow (k : State) (e : Event × Io) : Option State :=
  (k.next e.1).bind fun r => if r.2 = e.2 then some r.1 else none

theorem follow_eq_some {k k' : State} {e : Event × Io} : follow k e = some k' ↔ Step k e k' := by
  unfold follow Step
  rw [Option.bind_eq_some_iff]
  constructor
  · rintro ⟨⟨k'', io⟩, hnext, heq⟩
    obtain ⟨rfl, heq⟩ := Option.ite_none_right_eq_some.1 heq
    obtain rfl := Option.some.inj heq
    exact hnext
  · exact fun hnext => ⟨_, hnext, if_pos rfl⟩

/-- What a step can do. -/
inductive Move (k : State) : Event → Io → State → Prop
  | write {e : Event} {cur : Slot} {n : Nat} {bytes : List UInt8} {p : Pipe}
      (he : e = .pipewrite cur bytes ∨ e = .resume cur ∧ k.pc cur = .writing n bytes)
      (hruns : k.runs cur) (hp : k.pipe = some p) :
      Move k e ((k.run cur).write p cur n bytes).2 ((k.run cur).write p cur n bytes).1
  | read {e : Event} {cur : Slot} {n : Int} {p : Pipe}
      (he : e = .piperead cur n ∨ e = .resume cur ∧ k.pc cur = .reading n)
      (hruns : k.runs cur) (hp : k.pipe = some p) :
      Move k e ((k.run cur).read p cur n).2 ((k.run cur).read p cur n).1
  | close {p : Pipe} (writable : Bool) (hp : k.pipe = some p) :
      Move k (.pipeclose writable) ⟨[], [], none⟩ (k.close p writable)
  | kill (pid : Int) :
      Move k (.kill pid) ⟨[], [], none⟩ { k with proc := (Sched.kill pid k.proc).2 }
  | other {cur : Slot} {q : Sched.Proc} (hread : ¬ Asleep (Function.update k.proc cur q) cur nreadChan)
      (hwrite : ¬ Asleep (Function.update k.proc cur q) cur nwriteChan) :
      Move k (.other cur q) ⟨[], [], none⟩ { k with proc := Function.update k.proc cur q }

theorem step_move {k k' : State} {e : Event × Io} (hstep : Step k e k') : Move k e.1 e.2 k' := by
  obtain ⟨e, io⟩ := e
  unfold Step at hstep
  cases e with
  | piperead cur n =>
      obtain ⟨⟨-, hruns⟩, hnext⟩ := Option.ite_none_right_eq_some.1 hstep
      obtain ⟨p, hp, heq⟩ := Option.map_eq_some_iff.1 hnext
      obtain ⟨rfl, rfl⟩ := Prod.mk.inj heq
      exact .read (Or.inl rfl) hruns hp
  | pipewrite cur bytes =>
      obtain ⟨⟨-, hruns⟩, hnext⟩ := Option.ite_none_right_eq_some.1 hstep
      obtain ⟨p, hp, heq⟩ := Option.map_eq_some_iff.1 hnext
      obtain ⟨rfl, rfl⟩ := Prod.mk.inj heq
      exact .write (Or.inl rfl) hruns hp
  | resume cur =>
      obtain ⟨hruns, hnext⟩ := Option.ite_none_right_eq_some.1 hstep
      obtain ⟨p, hp, heq⟩ := Option.bind_eq_some_iff.1 hnext
      split at heq
      · exact nomatch heq
      next n hpc =>
        obtain ⟨rfl, rfl⟩ := Prod.mk.inj (Option.some.inj heq)
        exact .read (Or.inr ⟨rfl, hpc⟩) hruns hp
      next n rest hpc =>
        obtain ⟨rfl, rfl⟩ := Prod.mk.inj (Option.some.inj heq)
        exact .write (Or.inr ⟨rfl, hpc⟩) hruns hp
  | pipeclose writable =>
      obtain ⟨p, hp, heq⟩ := Option.map_eq_some_iff.1 hstep
      obtain ⟨rfl, rfl⟩ := Prod.mk.inj heq
      exact .close writable hp
  | kill pid =>
      obtain ⟨rfl, rfl⟩ := Prod.mk.inj (Option.some.inj hstep)
      exact .kill pid
  | other cur q =>
      obtain ⟨⟨-, hread, hwrite⟩, hnext⟩ := Option.ite_none_right_eq_some.1 hstep
      obtain ⟨rfl, rfl⟩ := Prod.mk.inj (Option.some.inj hnext)
      exact .other hread hwrite

/-- After `pipealloc`: the pipe is empty, both ends are open, and nobody uses it yet. -/
structure Start (k : State) : Prop where
  pc : ∀ p, k.pc p = .outside
  awake : ∀ p, ¬ Asleep k.proc p nreadChan ∧ ¬ Asleep k.proc p nwriteChan
  pipe : ∃ data, k.pipe = some ⟨data, 0, 0, true, true⟩

end Cs350.Pipes
