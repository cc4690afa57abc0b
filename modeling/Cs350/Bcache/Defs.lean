import Cs350.Lib.LinkedRing
import Cs350.Lib.Transition
import Cs350.Log.Group
import Mathlib.Data.List.FinRange

set_option autoImplicit false

/-! # The buffer cache (`bio.c`, `iderw`, `log_write`)

The buffers with their list, and any number of processes that call `bread`, change what they have
read with `bwrite` or `log_write`, and call `brelse`. A step is one critical section: of `bget` or
`brelse` under `bcache.lock`, or what a process does to a buffer while it holds the buffer's lock. The
contents of a block are of any type.

`write_log`, `install_trans` and `write_head` are made of these calls, so a commit is a sequence of
these steps that ends with `log.lh.n = 0`. -/

namespace Cs350.Bcache

open LinkedRing (Links scan)
open Log (LogHeader)

/-- `NBUF` -/
def nbuf : Nat := Log.maxOpBlocks * 3

/-- An index into `bcache.buf`. -/
abbrev Buf := Fin nbuf

theorem zero_lt_nbuf : 0 < nbuf := by decide

/-- How far a process has come that got a buffer from `bget`. -/
inductive Phase
  /-- in `acquiresleep`, called by `bget` -/
  | waiting
  /-- `bread` has returned -/
  | holding
  /-- in `brelse`, after `releasesleep` -/
  | releasing
deriving DecidableEq

/-- A process that has called `bread(dev, blockno)` and got this buffer. -/
structure Use (π : Type) where
  proc : π
  dev : Nat
  blockno : Nat
  buf : Buf
  phase : Phase
deriving DecidableEq

structure State (π β : Type) where
  /-- `bcache.head`, and `next` and `prev` of all buffers -/
  links : Links Buf
  dev : Buf → Nat
  blockno : Buf → Nat
  /-- `B_VALID` -/
  valid : Buf → Bool
  /-- `B_DIRTY` -/
  dirty : Buf → Bool
  refcnt : Buf → Nat
  data : Buf → β
  /-- who holds `b->lock` -/
  lock : Buf → Option π
  uses : List (Use π)
  /-- `memdisk` -/
  disk : Nat → β
  /-- `log.lh` -/
  lh : LogHeader

inductive Event (π β : Type)
  /-- `bget`, up to the release of `bcache.lock` -/
  | bget (p : π) (dev blockno : Nat)
  /-- the rest of `bget` and of `bread` -/
  | bread (u : Use π)
  /-- the holder changes the data, and calls `log_write` or `bwrite` -/
  | write (u : Use π) (d : β) (logged : Bool)
  /-- `releasesleep`, called by `brelse` -/
  | releasesleep (u : Use π)
  /-- the rest of `brelse` -/
  | brelse (u : Use π)
  /-- `log.lh.n = 0` at the end of a commit -/
  | clear

/-- `binit`: the list after its loop. -/
def binit : Links Buf :=
  (List.finRange nbuf).foldl Links.pushFront ⟨fun _ => none, fun _ => none⟩

namespace State

variable {π β : Type} [DecidableEq π]

/-- The first loop of `bget`. -/
def cached (s : State π β) (dev blockno : Nat) : Option Buf :=
  scan s.links.next (fun b => s.dev b = dev ∧ s.blockno b = blockno) nbuf (s.links.next none)

/-- The second loop of `bget`. -/
def unused (s : State π β) : Option Buf :=
  scan s.links.prev (fun b => s.refcnt b = 0 ∧ s.dirty b = false) nbuf (s.links.prev none)

/-- `bget`, up to the release of `bcache.lock`; `none` is a panic. -/
def bget (s : State π β) (p : π) (dev blockno : Nat) : Option (State π β) :=
  match s.cached dev blockno with
  | some b =>
      some { s with
        refcnt := Function.update s.refcnt b (s.refcnt b + 1)
        uses := ⟨p, dev, blockno, b, .waiting⟩ :: s.uses }
  | none =>
      s.unused.map fun b =>
        { s with
          dev := Function.update s.dev b dev
          blockno := Function.update s.blockno b blockno
          valid := Function.update s.valid b false
          dirty := Function.update s.dirty b false
          refcnt := Function.update s.refcnt b 1
          uses := ⟨p, dev, blockno, b, .waiting⟩ :: s.uses }

/-- `iderw`; `none` is a panic. -/
def iderw (disksize : Nat) (s : State π β) (b : Buf) : Option (State π β) :=
  if s.lock b = none then none
  else if s.valid b = true ∧ s.dirty b = false then none
  else if s.dev b ≠ 1 then none
  else if s.blockno b ≥ disksize then none
  else if s.dirty b then
    some { s with
      dirty := Function.update s.dirty b false
      disk := Function.update s.disk (s.blockno b) (s.data b)
      valid := Function.update s.valid b true }
  else
    some { s with
      data := Function.update s.data b (s.disk (s.blockno b))
      valid := Function.update s.valid b true }

/-- A use goes on. -/
def setPhase (s : State π β) (u : Use π) (phase : Phase) : State π β :=
  { s with uses := { u with phase := phase } :: s.uses.erase u }

/-- `acquiresleep`, called by `bget`, gets the lock. -/
def acquiresleep (s : State π β) (u : Use π) : State π β :=
  { s with lock := Function.update s.lock u.buf (some u.proc) }.setPhase u .holding

/-- `bread`, once it has the lock. -/
def bread (disksize : Nat) (s : State π β) (u : Use π) : Option (State π β) :=
  let s := s.acquiresleep u
  if s.valid u.buf then some s else s.iderw disksize u.buf

/-- `bwrite` -/
def bwrite (disksize : Nat) (s : State π β) (b : Buf) : Option (State π β) :=
  if s.lock b = none then none
  else { s with dirty := Function.update s.dirty b true }.iderw disksize b

/-- `log_write`, where `size` is `log.size`. -/
def logWrite (size : Nat) (s : State π β) (b : Buf) : Option (State π β) :=
  if s.lh.n ≥ Log.logSize ∨ (s.lh.n : Int) ≥ (size : Int) - 1 then none
  else
    (s.lh.absorb (s.blockno b)).map fun lh =>
      { s with lh := lh, dirty := Function.update s.dirty b true }

/-- `releasesleep`, called by `brelse`. -/
def releasesleep (s : State π β) (u : Use π) : State π β :=
  { s with lock := Function.update s.lock u.buf none }.setPhase u .releasing

/-- `brelse`, after `releasesleep`. -/
def brelse (s : State π β) (u : Use π) : State π β :=
  let refcnt := Function.update s.refcnt u.buf (s.refcnt u.buf - 1)
  { s with
    refcnt := refcnt
    uses := s.uses.erase u
    links := if refcnt u.buf = 0 then (s.links.unlink u.buf).pushFront u.buf else s.links }

def next (disksize size : Nat) (s : State π β) : Event π β → Option (State π β)
  | .bget p dev blockno => s.bget p dev blockno
  | .bread u =>
      if u ∈ s.uses ∧ u.phase = .waiting ∧ s.lock u.buf = none then s.bread disksize u else none
  | .write u d logged =>
      if u ∈ s.uses ∧ u.phase = .holding then
        let s := { s with data := Function.update s.data u.buf d }
        if logged then s.logWrite size u.buf else s.bwrite disksize u.buf
      else none
  | .releasesleep u =>
      if u ∈ s.uses ∧ u.phase = .holding ∧ s.lock u.buf ≠ none then
        some (s.releasesleep u)
      else none
  | .brelse u => if u ∈ s.uses ∧ u.phase = .releasing then some (s.brelse u) else none
  | .clear => some { s with lh := .empty }

/-- After `binit`: nothing is cached. -/
def boot (disk : Nat → β) (data : Buf → β) : State π β where
  links := binit
  dev _ := 0
  blockno _ := 0
  valid _ := false
  dirty _ := false
  refcnt _ := 0
  data := data
  lock _ := none
  uses := []
  disk := disk
  lh := .empty

end State

/-- The step relation; a step that panics is none. -/
def Step {π β : Type} [DecidableEq π] (disksize size : Nat) (s : State π β) (e : Event π β)
    (s' : State π β) : Prop :=
  s.next disksize size e = some s'

/-! ## What a step can do -/

section Move

variable {π β : Type} {disksize size : Nat} {s s' : State π β}

/-- What `iderw` can do. -/
theorem State.iderw_cases {b : Buf} (h : s.iderw disksize b = some s') :
    (s.dev b = 1 ∧ s.blockno b < disksize) ∧
      ((s.dirty b = true ∧ s' = { s with
        dirty := Function.update s.dirty b false
        disk := Function.update s.disk (s.blockno b) (s.data b)
        valid := Function.update s.valid b true }) ∨
      (s.dirty b = false ∧ s.valid b = false ∧ s' = { s with
        data := Function.update s.data b (s.disk (s.blockno b))
        valid := Function.update s.valid b true })) := by
  obtain ⟨-, h⟩ := Option.ite_none_left_eq_some.1 h
  obtain ⟨hneeded, h⟩ := Option.ite_none_left_eq_some.1 h
  obtain ⟨hdev, h⟩ := Option.ite_none_left_eq_some.1 h
  obtain ⟨hblockno, h⟩ := Option.ite_none_left_eq_some.1 h
  refine ⟨⟨not_not.1 hdev, Nat.lt_of_not_le hblockno⟩, ?_⟩
  cases hdirty : s.dirty b with
  | true =>
      rw [if_pos hdirty] at h
      exact Or.inl ⟨rfl, (Option.some.inj h).symm⟩
  | false =>
      rw [if_neg (ne_true_of_eq_false hdirty)] at h
      refine Or.inr ⟨rfl, ?_, (Option.some.inj h).symm⟩
      exact Bool.eq_false_iff.2 fun hvalid => hneeded ⟨hvalid, hdirty⟩

variable [DecidableEq π]

/-- The step of an event that does not panic. -/
inductive Move (disksize size : Nat) (s : State π β) : Event π β → State π β → Prop
  | hit {p : π} {dev blockno : Nat} {b : Buf} (hb : s.cached dev blockno = some b) :
      Move disksize size s (.bget p dev blockno) { s with
        refcnt := Function.update s.refcnt b (s.refcnt b + 1)
        uses := ⟨p, dev, blockno, b, .waiting⟩ :: s.uses }
  | recycle {p : π} {dev blockno : Nat} {b : Buf} (hmiss : s.cached dev blockno = none)
      (hb : s.unused = some b) :
      Move disksize size s (.bget p dev blockno) { s with
        dev := Function.update s.dev b dev
        blockno := Function.update s.blockno b blockno
        valid := Function.update s.valid b false
        dirty := Function.update s.dirty b false
        refcnt := Function.update s.refcnt b 1
        uses := ⟨p, dev, blockno, b, .waiting⟩ :: s.uses }
  | found {u : Use π} (hu : u ∈ s.uses) (hphase : u.phase = .waiting) (hlock : s.lock u.buf = none)
      (hvalid : s.valid u.buf = true) : Move disksize size s (.bread u) (s.acquiresleep u)
  | fetched {u : Use π} {s' : State π β} (hu : u ∈ s.uses) (hphase : u.phase = .waiting)
      (hlock : s.lock u.buf = none) (hvalid : s.valid u.buf = false)
      (hs' : (s.acquiresleep u).iderw disksize u.buf = some s') :
      Move disksize size s (.bread u) s'
  | logged {u : Use π} {d : β} {lh : LogHeader} (hu : u ∈ s.uses) (hphase : u.phase = .holding) :
      Move disksize size s (.write u d true) { s with
        data := Function.update s.data u.buf d
        lh := lh
        dirty := Function.update s.dirty u.buf true }
  | written {u : Use π} {d : β} {s' : State π β} (hu : u ∈ s.uses) (hphase : u.phase = .holding)
      (hs' : { s with
        data := Function.update s.data u.buf d
        dirty := Function.update s.dirty u.buf true }.iderw disksize u.buf = some s') :
      Move disksize size s (.write u d false) s'
  | releasesleep {u : Use π} (hu : u ∈ s.uses) (hphase : u.phase = .holding) :
      Move disksize size s (.releasesleep u) (s.releasesleep u)
  | brelse {u : Use π} (hu : u ∈ s.uses) (hphase : u.phase = .releasing) :
      Move disksize size s (.brelse u) (s.brelse u)
  | clear : Move disksize size s .clear { s with lh := .empty }

theorem step_move {e : Event π β} (hstep : Step disksize size s e s') :
    Move disksize size s e s' := by
  unfold Step at hstep
  cases e with
  | bget p dev blockno =>
      change s.bget p dev blockno = some s' at hstep
      unfold State.bget at hstep
      cases hb : s.cached dev blockno with
      | some b =>
          rw [hb] at hstep
          obtain rfl := Option.some.inj hstep
          exact .hit hb
      | none =>
          rw [hb] at hstep
          obtain ⟨b, hunused, rfl⟩ := Option.map_eq_some_iff.1 hstep
          exact .recycle hb hunused
  | bread u =>
      obtain ⟨⟨hu, hphase, hlock⟩, hnext⟩ := Option.ite_none_right_eq_some.1 hstep
      cases hvalid : s.valid u.buf with
      | true =>
          obtain rfl := Option.some.inj ((if_pos hvalid).symm.trans hnext)
          exact .found hu hphase hlock hvalid
      | false =>
          refine .fetched hu hphase hlock hvalid ((if_neg ?_).symm.trans hnext)
          exact ne_true_of_eq_false hvalid
  | write u d logged =>
      obtain ⟨⟨hu, hphase⟩, hnext⟩ := Option.ite_none_right_eq_some.1 hstep
      cases logged with
      | true =>
          obtain ⟨-, hnext⟩ := Option.ite_none_left_eq_some.1 hnext
          obtain ⟨lh, -, rfl⟩ := Option.map_eq_some_iff.1 hnext
          exact .logged hu hphase
      | false =>
          obtain ⟨-, hnext⟩ := Option.ite_none_left_eq_some.1 hnext
          exact .written hu hphase hnext
  | releasesleep u =>
      obtain ⟨⟨hu, hphase, -⟩, hnext⟩ := Option.ite_none_right_eq_some.1 hstep
      obtain rfl := Option.some.inj hnext
      exact .releasesleep hu hphase
  | brelse u =>
      obtain ⟨⟨hu, hphase⟩, hnext⟩ := Option.ite_none_right_eq_some.1 hstep
      obtain rfl := Option.some.inj hnext
      exact .brelse hu hphase
  | clear =>
      obtain rfl := Option.some.inj hstep
      exact .clear

end Move

end Cs350.Bcache
