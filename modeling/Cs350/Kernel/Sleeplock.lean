import Cs350.Lib.Transition
import Mathlib.Logic.Function.Basic
import Mathlib.Tactic.Common

set_option autoImplicit false

/-! # Sleep locks (`sleeplock.c`)

One sleep lock and the processes that use it, with the spin lock `lk->lk` inside it made explicit: a
process takes the spin lock in one step and goes through the code that the spin lock protects in
another one. The functions that ask `holdingsleep` before they go on (`bwrite`, `brelse`, `iunlock`)
are modelled up to their answer to it.

`holdingsleep` returns `lk->locked` and does not look at `lk->pid`. So the lock is exclusive, but a
process that asks while another one holds the lock is told that it holds it, and the guards let it
through. -/

namespace Cs350.Sleeplock

open Transition

/-- Who asks `holdingsleep`. -/
inductive Caller
  /-- a caller that only wants to know -/
  | plain
  | bwrite
  | brelse
  /-- `iunlock(ip)`, with the value of `ip->ref` -/
  | iunlock (ref : Nat)
deriving DecidableEq

/-- Where a process is. -/
inductive Pc
  | outside
  /-- in `acquiresleep`, waiting for `lk->lk` (after a `sleep`, too) -/
  | acquiresleep
  /-- in `acquiresleep` with `lk->lk`, at `while (lk->locked)` -/
  | testing
  /-- in the `sleep` of `acquiresleep` -/
  | asleep
  /-- in `releasesleep`, waiting for `lk->lk` -/
  | releasesleep
  | releasing
  /-- in `holdingsleep`, waiting for `lk->lk` -/
  | holdingsleep (c : Caller)
  | reading (c : Caller)
  | panicked (msg : String)
deriving DecidableEq

/-- `struct sleeplock` and the processes. -/
structure State where
  /-- the process that has the spin lock `lk->lk` -/
  lk : Option Nat
  locked : Bool
  pid : Nat
  pc : Nat → Pc
  /-- the process is between `acquiresleep` and the matching `releasesleep` -/
  holds : Nat → Bool

inductive Event
  | acquiresleep (p : Nat)
  | releasesleep (p : Nat)
  | holdingsleep (p : Nat) (c : Caller)
  /-- the process takes `lk->lk` -/
  | acquire (p : Nat)
  /-- the process goes on with `lk->lk`, up to where it gives it up -/
  | resume (p : Nat)
  /-- the process is woken from its sleep by `kill` -/
  | kill (p : Nat)
deriving DecidableEq

/-- How the caller of `holdingsleep` goes on with the answer `r`. -/
def Caller.goOn (r : Bool) : Caller → Pc
  | .plain => .outside
  | .bwrite => if !r then .panicked "bwrite" else .outside
  | .brelse => if !r then .panicked "brelse" else .releasesleep
  | .iunlock ref => if !r ∨ ref < 1 then .panicked "iunlock" else .releasesleep

/-- `wakeup(lk)` -/
def wakeup (pc : Nat → Pc) : Nat → Pc := fun p =>
  if pc p = .asleep then .acquiresleep else pc p

namespace State

/-- `initsleeplock` -/
def initsleeplock : State where
  lk := none
  locked := false
  pid := 0
  pc := fun _ => .outside
  holds := fun _ => false

def setPc (s : State) (p : Nat) (pc : Pc) : State := { s with pc := Function.update s.pc p pc }

/-- A call. -/
def call (s : State) (p : Nat) (pc : Pc) : Option State :=
  if s.pc p = .outside then some (s.setPc p pc) else none

/-- `acquire(&lk->lk)` -/
def acquire (s : State) (p : Nat) : Option State :=
  if s.lk ≠ none then none
  else
    match s.pc p with
    | .acquiresleep => some (setPc { s with lk := some p } p .testing)
    | .releasesleep => some (setPc { s with lk := some p } p .releasing)
    | .holdingsleep c => some (setPc { s with lk := some p } p (.reading c))
    | _ => none

/-- From `acquire(&lk->lk)` to `release(&lk->lk)`, or to the `sleep` that releases it. -/
def resume (s : State) (p : Nat) : Option State :=
  if s.lk ≠ some p then none
  else
    match s.pc p with
    | .testing =>
        if s.locked then some (setPc { s with lk := none } p .asleep)
        else
          some (setPc { s with
            locked := true
            pid := p
            lk := none
            holds := Function.update s.holds p true } p .outside)
    | .releasing =>
        some (setPc { s with
          locked := false
          pid := 0
          pc := wakeup s.pc
          lk := none
          holds := Function.update s.holds p false } p .outside)
    | .reading c => some (setPc { s with lk := none } p (c.goOn s.locked))
    | _ => none

/-- A process goes on with `releasesleep` only if it holds the lock. -/
def Releases (s : State) : Event → Prop
  | .acquire p => s.pc p = .releasesleep → s.holds p = true
  | _ => True

instance (s : State) : (e : Event) → Decidable (s.Releases e)
  | .acquire p => inferInstanceAs (Decidable (s.pc p = .releasesleep → s.holds p = true))
  | .acquiresleep _ | .releasesleep _ | .holdingsleep _ _ | .resume _ | .kill _ =>
      inferInstanceAs (Decidable True)

def next (s : State) (e : Event) : Option State :=
  if s.Releases e then
    match e with
    | .acquiresleep p => s.call p .acquiresleep
    | .releasesleep p => s.call p .releasesleep
    | .holdingsleep p c => s.call p (.holdingsleep c)
    | .acquire p => s.acquire p
    | .resume p => s.resume p
    | .kill p => if s.pc p = .asleep then some (s.setPc p .acquiresleep) else none
  else none

end State

/-- The step relation. -/
def Step (s : State) (e : Event) (s' : State) : Prop := s.next e = some s'

/-- In this step `holdingsleep` reads the lock for `p`. -/
def Asks (s : State) (e : Event) (p : Nat) (c : Caller) : Prop :=
  e = .resume p ∧ s.lk = some p ∧ s.pc p = .reading c

/-- At most one process is between `acquiresleep` and `releasesleep`. -/
def Exclusive (s : State) : Prop := ∀ p q, s.holds p = true → s.holds q = true → p = q

/-- `holdingsleep`, if it is called, tells the process whether that very process is the holder, and
    a guard panics if it is not. -/
def Right (s : State) (e : Event) : Prop :=
  ∀ p c, Asks s e p c → (s.locked = true ↔ s.holds p = true) ∧
    (c ≠ .plain → s.holds p = false → ∃ s' msg, Step s e s' ∧ s'.pc p = .panicked msg)

/-- Nobody asks while another process holds the lock. -/
def Alone (s : State) (e : Event) : Prop :=
  ∀ p c, Asks s e p c → ∀ q, s.holds q = true → q = p

/-! ## The invariant -/

structure Inv (s : State) : Prop where
  exclusive : Exclusive s
  locked : s.locked = true ↔ ∃ p, s.holds p = true
  /-- the pid is that of the holder -/
  pid : ∀ p, s.holds p = true → s.pid = p
  releasing : ∀ p, s.pc p = .releasing → s.holds p = true

theorem inv_init : Inv State.initsleeplock where
  exclusive p q hp := nomatch hp
  locked := by simp [State.initsleeplock]
  pid p hp := nomatch hp
  releasing p hp := nomatch hp

/-- What a step can do. -/
inductive Move (s : State) : State → Prop
  /-- the process goes somewhere else, but not to the code of `releasesleep` without the lock -/
  | go (p : Nat) (lk : Option Nat) (pc : Pc) (hpc : pc = .releasing → s.holds p = true) :
      Move s (State.setPc { s with lk := lk } p pc)
  | take (p : Nat) (hfree : s.locked = false) :
      Move s (State.setPc { s with
        locked := true, pid := p, lk := none, holds := Function.update s.holds p true } p .outside)
  | release (p : Nat) (hpc : s.pc p = .releasing) :
      Move s (State.setPc { s with
        locked := false, pid := 0, pc := wakeup s.pc, lk := none,
        holds := Function.update s.holds p false } p .outside)

theorem goOn_ne_releasing (c : Caller) (r : Bool) : c.goOn r ≠ .releasing := by
  cases c with
  | plain => simp [Caller.goOn]
  | bwrite | brelse | iunlock ref =>
      simp only [Caller.goOn]
      split_ifs <;> simp

/-- A guard panics when the answer is no. -/
theorem goOn_false {c : Caller} (hc : c ≠ .plain) : ∃ msg, c.goOn false = .panicked msg := by
  cases c with
  | plain => exact absurd rfl hc
  | bwrite => exact ⟨"bwrite", rfl⟩
  | brelse => exact ⟨"brelse", rfl⟩
  | iunlock ref => exact ⟨"iunlock", by simp [Caller.goOn]⟩

section Step

variable {s s' : State} {e : Event} {p : Nat}

theorem call_move {pc : Pc} (hpc : pc ≠ .releasing) (hs : s.call p pc = some s') : Move s s' := by
  obtain ⟨-, heq⟩ := Option.ite_none_right_eq_some.1 hs
  rw [← Option.some.inj heq]
  exact .go p s.lk pc fun h => absurd h hpc

theorem acquire_move (hrel : s.Releases (.acquire p)) (hs : s.acquire p = some s') :
    Move s s' := by
  obtain ⟨-, hs⟩ := Option.ite_none_left_eq_some.1 hs
  split at hs
  next hpc => exact Option.some.inj hs ▸ .go p (some p) .testing (by simp)
  next hpc => exact Option.some.inj hs ▸ .go p (some p) .releasing fun _ => hrel hpc
  next c hpc => exact Option.some.inj hs ▸ .go p (some p) (.reading c) (by simp)
  next => exact nomatch hs

theorem resume_move (hs : s.resume p = some s') : Move s s' := by
  obtain ⟨-, hs⟩ := Option.ite_none_left_eq_some.1 hs
  split at hs
  next hpc =>
    split_ifs at hs with hlocked
    · exact Option.some.inj hs ▸ .go p none .asleep (by simp)
    · exact Option.some.inj hs ▸ .take p (by simpa using hlocked)
  next hpc => exact Option.some.inj hs ▸ .release p hpc
  next c hpc =>
    exact Option.some.inj hs ▸ .go p none _ fun h => absurd h (goOn_ne_releasing c s.locked)
  next => exact nomatch hs

theorem step_move (hs : Step s e s') : Move s s' := by
  unfold Step State.next at hs
  split_ifs at hs with hrel
  cases e with
  | acquiresleep p => exact call_move (by simp) hs
  | releasesleep p => exact call_move (by simp) hs
  | holdingsleep p c => exact call_move (by simp) hs
  | acquire p => exact acquire_move hrel hs
  | resume p => exact resume_move hs
  | kill p =>
      obtain ⟨-, heq⟩ := Option.ite_none_right_eq_some.1 hs
      rw [← Option.some.inj heq]
      exact .go p s.lk .acquiresleep (by simp)

theorem wakeup_releasing {pc : Nat → Pc} (h : wakeup pc p = .releasing) : pc p = .releasing := by
  unfold wakeup at h
  split_ifs at h
  exact h

theorem Inv.step (h : Inv s) (hm : Move s s') : Inv s' := by
  cases hm with
  | go p lk pc hpc =>
      refine ⟨h.exclusive, h.locked, h.pid, fun q hq => ?_⟩
      by_cases hqp : q = p
      · subst hqp
        exact hpc (by simpa [State.setPc] using hq)
      · exact h.releasing q (by simpa [State.setPc, hqp] using hq)
  | take p hfree =>
      have hnone : ∀ q, s.holds q ≠ true := fun q hq => by
        have hlocked := h.locked.2 ⟨q, hq⟩
        rw [hfree] at hlocked
        cases hlocked
      have hholds : ∀ q, Function.update s.holds p true q = true → q = p := fun q hq => by
        by_contra hqp
        exact hnone q (by simpa [hqp] using hq)
      refine ⟨fun q r hq hr => (hholds q hq).trans (hholds r hr).symm, ?_, fun q hq => ?_,
        fun q hq => ?_⟩
      · exact ⟨fun _ => ⟨p, Function.update_self ..⟩, fun _ => rfl⟩
      · exact (hholds q hq).symm
      · by_cases hqp : q = p
        · subst hqp
          exact absurd hq (by simp [State.setPc])
        · exact absurd (h.releasing q (by simpa [State.setPc, hqp] using hq)) (hnone q)
  | release p hpc =>
      have hp := h.releasing p hpc
      have hnone : ∀ q, Function.update s.holds p false q ≠ true := fun q hq => by
        by_cases hqp : q = p
        · subst hqp
          simp at hq
        · exact hqp (h.exclusive q p (by simpa [hqp] using hq) hp)
      refine ⟨fun q r hq _ => absurd hq (hnone q), ?_, fun q hq => absurd hq (hnone q),
        fun q hq => ?_⟩
      · exact ⟨fun hlocked => (nomatch hlocked), fun ⟨q, hq⟩ => absurd hq (hnone q)⟩
      · by_cases hqp : q = p
        · subst hqp
          exact absurd hq (by simp [State.setPc])
        · have hq' := wakeup_releasing (by simpa [State.setPc, hqp] using hq)
          exact absurd (h.exclusive q p (h.releasing q hq') hp) hqp

/-- The answer is right exactly if nobody else holds the lock. -/
theorem Inv.right_iff (h : Inv s) (e : Event) : Right s e ↔ Alone s e := by
  refine forall_congr' fun p => forall_congr' fun c => imp_congr_right fun hask => ?_
  obtain ⟨rfl, hlk, hpc⟩ := hask
  constructor
  · rintro ⟨hiff, -⟩ q hq
    exact h.exclusive q p hq (hiff.1 (h.locked.2 ⟨q, hq⟩))
  · intro halone
    have hiff : s.locked = true ↔ s.holds p = true := by
      rw [h.locked]
      exact ⟨fun ⟨q, hq⟩ => halone q hq ▸ hq, fun hp => ⟨p, hp⟩⟩
    refine ⟨hiff, fun hguard hp => ?_⟩
    have hfree : s.locked = false := by simpa [hp] using hiff
    have hstep : Step s (.resume p) (State.setPc { s with lk := none } p (c.goOn false)) := by
      simp [Step, State.next, State.Releases, State.resume, hlk, hpc, hfree]
    obtain ⟨msg, hmsg⟩ := goOn_false hguard
    exact ⟨_, msg, hstep, by simp [State.setPc, hmsg]⟩

end Step

/-! ## Runs -/

/-- **Ownership of a sleep lock.** In every run the lock is exclusive; and `holdingsleep` and the
    guards are right throughout the run if and only if nobody asks while another process holds the
    lock. -/
theorem holdingsleep_right_iff {tr : List (State × Event)} {s : State}
    (hrun : Run Step State.initsleeplock tr s) :
    Along Exclusive tr s ∧
      ((∀ x ∈ tr, Right x.1 x.2) ↔ ∀ x ∈ tr, Alone x.1 x.2) := by
  have hinv : Along Inv tr s := hrun.invariant inv_init fun _ _ _ h hs => h.step (step_move hs)
  refine ⟨⟨fun x hx => (hinv.1 x hx).exclusive, hinv.2.exclusive⟩, ?_⟩
  exact forall_congr' fun x => forall_congr' fun hx => (hinv.1 x hx).right_iff x.2

/-- Two processes: the second one sleeps until the first one has released the lock. -/
theorem holdingsleep_right_sample :
    ∃ tr s, Run Step State.initsleeplock tr s ∧ s.holds 2 = true ∧ Along Exclusive tr s ∧
      ((∀ x ∈ tr, Right x.1 x.2) ↔ ∀ x ∈ tr, Alone x.1 x.2) := by
  have hplay : (play State.next State.initsleeplock [.acquiresleep 1, .acquire 1, .resume 1,
      .acquiresleep 2, .acquire 2, .resume 2, .holdingsleep 1 .brelse, .acquire 1, .resume 1,
      .acquire 1, .resume 1, .acquire 2, .resume 2]).map (fun r => r.2.holds 2) = some true := by
    decide +kernel
  obtain ⟨⟨tr, s⟩, hrun, hholds⟩ := Option.map_eq_some_iff.1 hplay
  obtain ⟨hrun, -⟩ := play_run hrun
  exact ⟨tr, s, hrun, hholds, holdingsleep_right_iff hrun⟩

/-- While process 1 holds the lock, `brelse` of process 2 is let through and goes on to release
    it. -/
theorem brelse_not_holder :
    ∃ tr s s', Run Step State.initsleeplock tr s ∧ Asks s (.resume 2) 2 .brelse ∧
      s.holds 1 = true ∧ s.holds 2 = false ∧ Step s (.resume 2) s' ∧ s'.pc 2 = .releasesleep ∧
      ¬ Right s (.resume 2) := by
  have hplay : (play State.next State.initsleeplock [.acquiresleep 1, .acquire 1, .resume 1,
      .holdingsleep 2 .brelse, .acquire 2]).map (fun r =>
        ((r.2.lk, r.2.pc 2), (r.2.holds 1, r.2.holds 2, r.2.locked)))
      = some ((some 2, .reading .brelse), (true, false, true)) := by
    decide +kernel
  obtain ⟨⟨tr, s⟩, hrun, heq⟩ := Option.map_eq_some_iff.1 hplay
  simp only [Prod.mk.injEq] at heq
  obtain ⟨⟨hlk, hpc⟩, h1, h2, hlocked⟩ := heq
  have hstep : Step s (.resume 2) (State.setPc { s with lk := none } 2 .releasesleep) := by
    simp [Step, State.next, State.Releases, State.resume, hlk, hpc, hlocked, Caller.goOn]
  obtain ⟨hrun, -⟩ := play_run hrun
  have hask : Asks s (.resume 2) 2 .brelse := ⟨rfl, hlk, hpc⟩
  refine ⟨tr, s, _, hrun, hask, h1, h2, hstep, by simp [State.setPc], fun hright => ?_⟩
  have hholds := (hright 2 .brelse hask).1.1 hlocked
  rw [h2] at hholds
  cases hholds

end Cs350.Sleeplock
