import Cs350.Lib.RingBuffer
import Cs350.Lib.Transition

set_option autoImplicit false

/-! # The console (`consoleintr`, `consoleread`)

The input buffer with its three indices, the editing of the line that is being typed, and the calls
of `consoleread`, one at a time. A step is what runs while `cons.lock` is held: an interrupt with the
characters that it finds, or a call of `consoleread` until it returns or sleeps. The echo on the
screen and the process listing are left out. -/

namespace Cs350.Console

open RingBuffer (slot dist contents)

/-- `INPUT_BUF` -/
def inputBuf : UInt32 := 128

/-- `'\n'` -/
def newline : UInt8 := 10

/-- `'\r'` -/
def carriageReturn : UInt8 := 13

/-- `C('P')` -/
def ctrlP : UInt8 := 16

/-- `C('U')` -/
def ctrlU : UInt8 := 21

/-- `C('H')` -/
def ctrlH : UInt8 := 8

/-- `'\x7f'` -/
def delete : UInt8 := 127

/-- `C('D')` -/
def ctrlD : UInt8 := 4

/-- `input` -/
structure Input where
  buf : Nat → UInt8
  r : UInt32
  w : UInt32
  e : UInt32

namespace Input

/-- The characters that are committed and not read yet. -/
def pending (i : Input) : List UInt8 := contents i.buf inputBuf i.r i.w

/-- The loop for `C('U')`. There are no more rounds than characters that are not committed. -/
def killLine : Nat → Input → Input
  | 0, i => i
  | n + 1, i =>
      if i.e ≠ i.w ∧ i.buf (slot inputBuf (i.e - 1)) ≠ newline then
        killLine n { i with e := i.e - 1 }
      else i

/-- The default case for a character that fits: the input, and the characters that it commits. -/
def store (i : Input) (c : UInt8) : Input × List UInt8 :=
  let c := if c = carriageReturn then newline else c
  let i := { i with buf := Function.update i.buf (slot inputBuf i.e) c, e := i.e + 1 }
  if c = newline ∨ c = ctrlD ∨ i.e = i.r + inputBuf then
    ({ i with w := i.e }, contents i.buf inputBuf i.w i.e)
  else (i, [])

/-- One round of the loop of `consoleintr`. -/
def intrChar (i : Input) (c : UInt8) : Input × List UInt8 :=
  if c = ctrlP then (i, [])
  else if c = ctrlU then (killLine (dist i.w i.e) i, [])
  else if c = ctrlH ∨ c = delete then
    (if i.e ≠ i.w then { i with e := i.e - 1 } else i, [])
  else if c ≠ 0 ∧ i.e - i.r < inputBuf then i.store c
  else (i, [])

/-- The loop of `consoleintr`. -/
def intrLoop : Input → List UInt8 → Input × List UInt8
  | i, [] => (i, [])
  | i, c :: cs =>
      let s := i.intrChar c
      let t := intrLoop s.1 cs
      (t.1, s.2 ++ t.2)

end Input

/-- How a call of `consoleread` goes on. -/
inductive Outcome
  /-- it returns, with these bytes in `dst` -/
  | bytes (bs : List UInt8)
  /-- it returns -1 -/
  | error
  /-- it sleeps, with `n` bytes still to read -/
  | sleep (n : Nat) (got : List UInt8)
deriving DecidableEq

/-- The loop of `consoleread`. -/
def readLoop (target : Nat) (killed : Bool) : Nat → Input → List UInt8 → Input × Outcome
  | 0, i, got => (i, .bytes got)
  | n + 1, i, got =>
      if i.r = i.w then (i, if killed then .error else .sleep (n + 1) got)
      else
        let c := i.buf (slot inputBuf i.r)
        let i := { i with r := i.r + 1 }
        if c = ctrlD then (if n + 1 < target then { i with r := i.r - 1 } else i, .bytes got)
        else if c = newline then (i, .bytes (got ++ [c]))
        else readLoop target killed n i (got ++ [c])

/-- A call of `consoleread` that sleeps or has been woken. -/
structure Call where
  target : Nat
  n : Nat
  /-- what is in `dst` -/
  got : List UInt8
  asleep : Bool
  killed : Bool
deriving DecidableEq

structure State where
  input : Input
  call : Option Call

inductive Event
  /-- `consoleintr`, when `getc` gives these characters -/
  | intr (cs : List UInt8)
  /-- `consoleread`, called with `n` -/
  | read (n : Int) (killed : Bool)
  /-- the reader goes on after it has been woken -/
  | resume
  /-- `kill` for the reader -/
  | kill
deriving DecidableEq

/-- What a step shows to the outside. -/
structure Io where
  /-- the characters that are committed -/
  committed : List UInt8
  /-- what `consoleread` returns, if it does -/
  result : Option Outcome
deriving DecidableEq

namespace State

/-- `consoleread` with the lock, from the test of the loop on. -/
def read (i : Input) (target : Nat) (killed : Bool) (n : Nat) (got : List UInt8) : State × Io :=
  match readLoop target killed n i got with
  | (i, .sleep n got) => (⟨i, some ⟨target, n, got, true, killed⟩⟩, ⟨[], none⟩)
  | (i, out) => (⟨i, none⟩, ⟨[], some out⟩)

def next (s : State) : Event → Option (State × Io)
  | .intr cs =>
      let r := s.input.intrLoop cs
      -- `wakeup(&input.r)` comes with every commit
      let woken := r.2 ≠ []
      some (⟨r.1, s.call.map fun c => { c with asleep := c.asleep && decide ¬ woken }⟩, ⟨r.2, none⟩)
  | .read n killed => if s.call = none then some (read s.input n.toNat killed n.toNat []) else none
  | .resume =>
      s.call.bind fun c =>
        if c.asleep then none else some (read s.input c.target c.killed c.n c.got)
  | .kill =>
      s.call.map fun c => ({ s with call := some { c with asleep := false, killed := true } },
        ⟨[], none⟩)

end State

/-- A step, with what it shows. -/
def Step (s : State) (e : Event × Io) (s' : State) : Prop := s.next e.1 = some (s', e.2)

/-- After boot: nothing has been typed. -/
structure Start (s : State) : Prop where
  r : s.input.r = 0
  w : s.input.w = 0
  e : s.input.e = 0
  call : s.call = none

end Cs350.Console
