import Cs350.Lib.Transition
import Cs350.Log.Defs
import Mathlib.Data.Fintype.Card

set_option autoImplicit false

/-! # The group commit protocol (`log.c`)

`begin_op`, `log_write`, `end_op` and `commit` run by any number of processes. A step is a critical
section under `log.lock`, one of the tests that `log_write` makes before it takes the lock, or one
block write of `commit`, which runs without it. Processes call `log_write` and `end_op` only
between their `begin_op` and `end_op`, as every caller in the kernel does.

What the operations asked for is kept apart from the state of the log: `History` is computed from
the labels of a run alone. The invariant `Inv` ties the two together. -/

namespace Cs350.Log

open Cs350.Transition

variable {π : Type}

/-! ## State -/

/-- How far a `commit` has come: the loops of `write_log` and `install_trans` with their `tail`,
    and the two header writes. -/
inductive Phase
  | check
  | writeLog (tail : Nat)
  | writeHead
  | install (tail : Nat)
  | clear
  | clearHead
  | finish
deriving DecidableEq

/-- Where a process stands. -/
inductive Pc
  /-- not in an operation -/
  | outside
  /-- in `begin_op`, asleep on `&log` -/
  | sleeping
  /-- in `begin_op`, woken and about to test again -/
  | woken
  /-- between `begin_op` and `end_op` -/
  | inOp
  /-- in `log_write` of a block, past the test of the size -/
  | tested (b : Nat)
  /-- in `log_write` of a block, past both tests, about to take the lock -/
  | logging (b : Nat)
  /-- in the `commit` of its `end_op` -/
  | commits (phase : Phase)
deriving DecidableEq

/-- Inside an operation. -/
def Pc.Inside : Pc → Prop
  | .inOp | .tested _ | .logging _ => True
  | _ => False

instance : DecidablePred Pc.Inside
  | .inOp | .tested _ | .logging _ => isTrue trivial
  | .outside | .sleeping | .woken | .commits _ => isFalse id

/-- Ways for the kernel to stop: the three panics of `log.c`, and a store past `lh.block`. -/
inductive Fault
  /-- `panic("too big a transaction")` -/
  | tooBig
  /-- `panic("log_write outside of trans")` -/
  | outsideTrans
  /-- `panic("log.committing")` -/
  | committing
  /-- `lh.block[i]` with `i ≥ LOGSIZE` -/
  | overflow
deriving DecidableEq

/-- `struct log`, the processes, and the numbers of the blocks that the commit in progress, or else
    the last one, has written to the disk. -/
structure St (π : Type) where
  lh : LogHeader
  outstanding : Int
  committing : Bool
  pc : π → Pc
  writes : List Nat
  fault : Option Fault

/-- After `initlog`. -/
def St.init : St π :=
  { lh := .empty, outstanding := 0, committing := false, pc := fun _ => .outside, writes := [],
    fault := none }

/-- `wakeup(&log)`. -/
def wakeup (pc : π → Pc) : π → Pc :=
  fun p => if pc p = .sleeping then .woken else pc p

/-! ## Steps -/

inductive Act (π : Type)
  /-- the body of the loop of `begin_op` -/
  | beginOp (p : π)
  /-- `log_write` of block `b` is called: the test of the size -/
  | logWrite (p : π) (b : Nat)
  /-- its test of `log.outstanding` -/
  | logCheck (p : π) (b : Nat)
  /-- its critical section -/
  | logAppend (p : π) (b : Nat)
  /-- the first critical section of `end_op` -/
  | endOp (p : π)
  /-- a step of `commit` -/
  | commit (p : π)
  /-- the second critical section of `end_op` -/
  | endCommit (p : π)
deriving DecidableEq

section Steps

variable [DecidableEq π]

def beginOp (s : St π) (p : π) : St π :=
  if s.committing then
    { s with pc := Function.update s.pc p .sleeping }
  else if s.lh.n + (s.outstanding + 1) * maxOpBlocks > logSize then
    { s with pc := Function.update s.pc p .sleeping }
  else
    { s with outstanding := s.outstanding + 1, pc := Function.update s.pc p .inOp }

/-- `size` is `log.size`, the `nlog` of the superblock. -/
def logWrite (size : Nat) (s : St π) (p : π) (b : Nat) : St π :=
  if s.lh.n ≥ logSize ∨ (s.lh.n : Int) ≥ (size : Int) - 1 then
    { s with fault := some .tooBig }
  else
    { s with pc := Function.update s.pc p (.tested b) }

def logCheck (s : St π) (p : π) (b : Nat) : St π :=
  if s.outstanding < 1 then
    { s with fault := some .outsideTrans }
  else
    { s with pc := Function.update s.pc p (.logging b) }

/-- The entries after logging block `b`: a block that has an entry keeps it, any other one is
    stored after the last. -/
def LogHeader.absorb (lh : LogHeader) (b : Nat) : Option LogHeader :=
  if b ∈ lh.block then
    some lh
  else if h : lh.n < logSize then
    some ⟨lh.block ++ [b], by rw [List.length_append]; exact h⟩
  else
    none

def logAppend (s : St π) (p : π) (b : Nat) : St π :=
  match s.lh.absorb b with
  | some lh => { s with lh := lh, pc := Function.update s.pc p .inOp }
  | none => { s with fault := some .overflow }

def endOp (s : St π) (p : π) : St π :=
  if s.committing then
    { s with outstanding := s.outstanding - 1, fault := some .committing }
  else if s.outstanding - 1 = 0 then
    { s with outstanding := s.outstanding - 1, committing := true, writes := [],
             pc := Function.update s.pc p (.commits .check) }
  else
    { s with outstanding := s.outstanding - 1,
             pc := wakeup (Function.update s.pc p .outside) }

/-- A block write of the commit of `p`, which goes on to `phase`. -/
def St.write (s : St π) (p : π) (b : Nat) (phase : Phase) : St π :=
  { s with writes := s.writes ++ [b], pc := Function.update s.pc p (.commits phase) }

def St.goto (s : St π) (p : π) (phase : Phase) : St π :=
  { s with pc := Function.update s.pc p (.commits phase) }

/-- One step of `commit`. Entry `tail` of the log is block `start + tail + 1`. -/
def commitStep (start : Nat) (s : St π) (p : π) : Phase → Option (St π)
  | .check => some (s.goto p (if 0 < s.lh.n then .writeLog 0 else .finish))
  | .writeLog tail =>
      if tail < s.lh.n then
        some (s.write p (start + tail + 1) (.writeLog (tail + 1)))
      else
        some (s.goto p .writeHead)
  | .writeHead => some (s.write p start (.install 0))
  | .install tail =>
      match s.lh.block[tail]? with
      | some b => some (s.write p b (.install (tail + 1)))
      | none => some (s.goto p .clear)
  | .clear => some ({ s with lh := .empty }.goto p .clearHead)
  | .clearHead => some (s.write p start .finish)
  | .finish => none

def endCommit (s : St π) (p : π) : St π :=
  { s with committing := false, pc := wakeup (Function.update s.pc p .outside) }

/-- The step a label stands for, if the process is at that point of the code. Nothing moves after
    a fault. -/
def next (start size : Nat) (s : St π) (a : Act π) : Option (St π) :=
  if s.fault.isSome then
    none
  else
    match a with
    | .beginOp p =>
        if s.pc p = .outside ∨ s.pc p = .woken then some (beginOp s p) else none
    | .logWrite p b => if s.pc p = .inOp then some (logWrite size s p b) else none
    | .logCheck p b => if s.pc p = .tested b then some (logCheck s p b) else none
    | .logAppend p b => if s.pc p = .logging b then some (logAppend s p b) else none
    | .endOp p => if s.pc p = .inOp then some (endOp s p) else none
    | .commit p =>
        match s.pc p with
        | .commits phase => commitStep start s p phase
        | _ => none
    | .endCommit p => if s.pc p = .commits .finish then some (endCommit s p) else none

/-- The step relation of the protocol. -/
def Step (start size : Nat) (s : St π) (a : Act π) (s' : St π) : Prop :=
  next start size s a = some s'

/-- What a step does, label by label. -/
theorem Step.cases {start size : Nat} {s s' : St π} {a : Act π} (hs : Step start size s a s') :
    s.fault = none ∧
      match a with
      | .beginOp p => (s.pc p = .outside ∨ s.pc p = .woken) ∧ s' = beginOp s p
      | .logWrite p b => s.pc p = .inOp ∧ s' = logWrite size s p b
      | .logCheck p b => s.pc p = .tested b ∧ s' = logCheck s p b
      | .logAppend p b => s.pc p = .logging b ∧ s' = logAppend s p b
      | .endOp p => s.pc p = .inOp ∧ s' = endOp s p
      | .commit p => ∃ phase, s.pc p = .commits phase ∧ commitStep start s p phase = some s'
      | .endCommit p => s.pc p = .commits .finish ∧ s' = endCommit s p := by
  unfold Step next at hs
  split_ifs at hs with hfault
  refine ⟨by simpa using hfault, ?_⟩
  cases a with
  | commit p =>
      simp only at hs ⊢
      split at hs
      next phase hp => exact ⟨phase, hp, hs⟩
      next => cases hs
  | _ =>
      simp only [Option.ite_none_right_eq_some, Option.some.injEq] at hs
      exact ⟨hs.1, hs.2.symm⟩

/-! ## What the operations asked for -/

/-- What the labels of a run say about the operations. -/
structure History (π : Type) where
  /-- the blocks that the operation in progress has called `log_write` for -/
  asked : π → List Nat
  /-- those of them for which `log_write` has returned -/
  logged : π → List Nat
  /-- the blocks logged by each of the operations that ended since the last commit -/
  ended : List (List Nat)
  /-- all blocks logged since the last commit -/
  transaction : List Nat

def History.init : History π :=
  { asked := fun _ => [], logged := fun _ => [], ended := [], transaction := [] }

def History.next (h : History π) : Act π → History π
  | .logWrite p b => { h with asked := Function.update h.asked p (h.asked p ++ [b]) }
  | .logAppend p b =>
      { h with logged := Function.update h.logged p (h.logged p ++ [b]),
               transaction := h.transaction ++ [b] }
  | .endOp p =>
      { h with asked := Function.update h.asked p [], logged := Function.update h.logged p [],
               ended := h.ended ++ [h.logged p] }
  | .endCommit _ => { h with ended := [], transaction := [] }
  | .beginOp _ | .logCheck _ _ | .commit _ => h

def history (as : List (Act π)) : History π :=
  as.foldl History.next .init

theorem history_snoc (as : List (Act π)) (a : Act π) :
    history (as ++ [a]) = (history as).next a := by
  rw [history, List.foldl_append]
  rfl

/-- Block `b` was logged by an operation that ended since the last commit, or by one still in
    progress. -/
def History.Logs (h : History π) (b : Nat) : Prop :=
  (∃ op ∈ h.ended, b ∈ op) ∨ ∃ p, b ∈ h.logged p

theorem History.logs_logAppend (h : History π) (p : π) (b c : Nat) :
    (h.next (.logAppend p b)).Logs c ↔ h.Logs c ∨ c = b := by
  have hlogged : (∃ q, c ∈ (h.next (.logAppend p b)).logged q) ↔ (∃ q, c ∈ h.logged q) ∨ c = b := by
    constructor
    · rintro ⟨q, hq⟩
      by_cases hqp : q = p
      · subst hqp
        simp only [History.next, Function.update_self, List.mem_append, List.mem_singleton] at hq
        exact hq.imp_left (fun h => ⟨q, h⟩)
      · simp only [History.next, Function.update_of_ne hqp] at hq
        exact Or.inl ⟨q, hq⟩
    · rintro (⟨q, hq⟩ | rfl)
      · refine ⟨q, ?_⟩
        by_cases hqp : q = p
        · subst hqp
          simp [History.next, hq]
        · simpa [History.next, Function.update_of_ne hqp] using hq
      · exact ⟨p, by simp [History.next]⟩
  unfold History.Logs
  rw [hlogged]
  exact or_assoc.symm

/-- Ending an operation only moves its blocks. -/
theorem History.logs_endOp (h : History π) (p : π) (c : Nat) :
    (h.next (.endOp p)).Logs c ↔ h.Logs c := by
  unfold History.Logs
  simp only [History.next, List.mem_append, List.mem_singleton]
  constructor
  · rintro (⟨op, hop | rfl, hc⟩ | ⟨q, hq⟩)
    · exact Or.inl ⟨op, hop, hc⟩
    · exact Or.inr ⟨p, hc⟩
    · by_cases hqp : q = p
      · subst hqp
        simp at hq
      · rw [Function.update_of_ne hqp] at hq
        exact Or.inr ⟨q, hq⟩
  · rintro (⟨op, hop, hc⟩ | ⟨q, hq⟩)
    · exact Or.inl ⟨op, Or.inl hop, hc⟩
    · by_cases hqp : q = p
      · subst hqp
        exact Or.inl ⟨h.logged q, Or.inr rfl, hq⟩
      · exact Or.inr ⟨q, by rwa [Function.update_of_ne hqp]⟩

end Steps

end Cs350.Log
