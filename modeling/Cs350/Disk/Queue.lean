import Cs350.Lib.LinkedQueue
import Cs350.Lib.Transition

set_option autoImplicit false

/-! # The queue of the disk driver (`ide.c`)

`iderw` puts its buffer at the end of `idequeue` and sleeps; the interrupt handler takes the buffer
at the front off, and starts the drive on the next one. Whether the drive is idle is not recorded:
it is if the queue was empty. A step is what happens under `idelock`, or what the owner of a buffer
does to it outside `iderw`. The drive interrupts once for each command, and tells whether it has
carried it out.

The handler reads the data of a buffer only if the drive reports no error, but it marks the buffer
as valid in any case. -/

namespace Cs350.Disk

open Transition LinkedQueue

/-- `FSSIZE` -/
def fsSize : Nat := 1000

/-- The fields of `struct buf` that the driver goes by, but for `qnext`. -/
structure Buf (β : Type) where
  valid : Bool
  dirty : Bool
  dev : Nat
  blockno : Nat
  data : β

/-- What the drive has been told to do, on one of the two disks. -/
inductive Command (β : Type)
  | read (disk blockno : Nat)
  | write (disk blockno : Nat) (data : β)
deriving DecidableEq

/-- Where the owner of a buffer is. -/
inductive Call
  | outside
  /-- in the `sleep` of `iderw` -/
  | asleep
  /-- woken, and on the way back to the loop of `iderw` -/
  | woken
deriving DecidableEq

structure State (β : Type) where
  buf : Nat → Buf β
  call : Nat → Call
  /-- `idequeue`, with the `qnext` of all buffers -/
  idequeue : LinkedQueue Nat
  havedisk1 : Bool
  /-- what the drive is working on -/
  command : Option (Command β)
  disk : Nat → Nat → β
  /-- the buffers for which `iderw` has been called, in order -/
  called : List Nat
  /-- those for which the drive has been started -/
  started : List Nat
  /-- those for which it is done -/
  completed : List Nat
  /-- the data of the last request for this buffer have gone to or from the disk -/
  moved : Nat → Bool

inductive Event (β : Type)
  | iderw (b : Nat)
  /-- the drive is done with its command; `ok` if there was no error -/
  | ideintr (ok : Bool)
  /-- a process that has been woken goes on in `iderw` -/
  | resume (b : Nat)
  /-- a process is woken by `kill` -/
  | kill (b : Nat)
  /-- outside `iderw`, the owner of the buffer changes it -/
  | own (b : Nat) (v : Buf β)

section Ops

variable {β : Type}

/-- `(b->flags & (B_VALID|B_DIRTY)) == B_VALID` -/
def Buf.Clean (b : Buf β) : Prop := b.valid = true ∧ b.dirty = false

instance (b : Buf β) : Decidable b.Clean := inferInstanceAs (Decidable (_ ∧ _))

/-- The command for a buffer. -/
def Buf.command (b : Buf β) : Command β :=
  if b.dirty then .write (b.dev % 2) b.blockno b.data else .read (b.dev % 2) b.blockno

/-- The data that `insl` reads from the drive. -/
def Command.data (disk : Nat → Nat → β) : Command β → β
  | .read d n => disk d n
  | .write _ _ data => data

namespace State

def setBuf (s : State β) (b : Nat) (v : Buf β) : State β :=
  { s with buf := Function.update s.buf b v }

def setCall (s : State β) (b : Nat) (c : Call) : State β :=
  { s with call := Function.update s.call b c }

/-- `idestart` -/
def idestart (s : State β) (b : Nat) : Option (State β) :=
  if (s.buf b).blockno ≥ fsSize then none
  else some { s with command := some (s.buf b).command, started := s.started ++ [b] }

/-- The loop at the end of `iderw`: to the return, or to the sleep. -/
def wait (s : State β) (b : Nat) : State β :=
  if (s.buf b).Clean then s.setCall b .outside else s.setCall b .asleep

/-- `iderw` up to the return or the sleep. -/
def iderw (fuel : Nat) (s : State β) (b : Nat) : Option (State β) :=
  if (s.buf b).Clean then none
  else if (s.buf b).dev ≠ 0 ∧ s.havedisk1 = false then none
  else
    (enqueue fuel s.idequeue b).bind fun q =>
      let s := { s with
        idequeue := q
        called := s.called ++ [b]
        moved := Function.update s.moved b false }
      (if q.first = some b then s.idestart b else some s).map fun s => s.wait b

/-- The drive ends its command. -/
def finish (s : State β) (cmd : Command β) (ok : Bool) : State β :=
  { s with
    command := none
    disk :=
      match cmd, ok with
      | .write d n data, true =>
          Function.update s.disk d (Function.update (s.disk d) n data)
      | _, _ => s.disk }

/-- What `ideintr` does for the buffer that it takes off the queue. -/
def serve (s : State β) (b : Nat) (cmd : Command β) (ok : Bool) : State β :=
  let v := s.buf b
  let v := if v.dirty = false ∧ ok = true then { v with data := cmd.data s.disk } else v
  let s := s.setBuf b { v with valid := true, dirty := false }
  let s := if s.call b = .asleep then s.setCall b .woken else s
  { s with completed := s.completed ++ [b], moved := Function.update s.moved b ok }

/-- `ideintr`, when the drive has ended its command. -/
def ideintr (s : State β) (ok : Bool) : Option (State β) :=
  s.command.bind fun cmd =>
    let s := s.finish cmd ok
    match s.idequeue.first with
    | none => some s
    | some b =>
        let s := serve { s with idequeue := s.idequeue.dequeue b } b cmd ok
        match s.idequeue.first with
        | none => some s
        | some c => s.idestart c

def next (fuel : Nat) (s : State β) : Event β → Option (State β)
  | .iderw b => if s.call b = .outside then s.iderw fuel b else none
  | .ideintr ok => s.ideintr ok
  | .resume b => if s.call b = .woken then some (s.wait b) else none
  | .kill b => if s.call b = .asleep then some (s.setCall b .woken) else none
  | .own b v => if s.call b = .outside then some (s.setBuf b v) else none

end State

end Ops

section Queue

variable {β : Type}

/-- The step relation; a step that panics does not return. -/
def Step (s : State β) (e : Event β) (s' : State β) : Prop := ∃ fuel, s.next fuel e = some s'

/-- After `ideinit`. -/
structure Start (s : State β) : Prop where
  call : ∀ b, s.call b = .outside
  queue : s.idequeue.first = none
  command : s.command = none
  called : s.called = []
  started : s.started = []
  completed : s.completed = []

/-- The queue is a list of different buffers; the drive works for the first of them, if there is
    one; the requests are completed in the order of the calls, and have been started once each if
    they are completed or first in the queue. -/
def QueueOk (s : State β) : Prop :=
  ∃ q, Holds s.idequeue q ∧ (s.command = q.head?.map fun b => (s.buf b).command) ∧
    s.called = s.completed ++ q ∧ s.started = s.completed ++ q.take 1

/-- The data of the buffer are those on the disk. -/
def Transferred (s : State β) (b : Nat) : Prop :=
  s.disk ((s.buf b).dev % 2) (s.buf b).blockno = (s.buf b).data

/-- In this step a call of `iderw` returns. -/
def Returns (e : Event β) (b : Nat) (s' : State β) : Prop :=
  (e = .iderw b ∨ e = .resume b) ∧ s'.call b = .outside

/-! ## The invariant -/

/-- What holds between the steps; `q` are the buffers in the queue. -/
structure Inv (s : State β) (q : List Nat) : Prop where
  queue : Holds s.idequeue q
  command : s.command = q.head?.map fun b => (s.buf b).command
  called : s.called = s.completed ++ q
  started : s.started = s.completed ++ q.take 1
  waiting : ∀ b ∈ q, s.call b ≠ .outside ∧ ¬ (s.buf b).Clean
  served : ∀ b, b ∉ q → s.call b ≠ .outside → (s.buf b).Clean

/-- What holds when the drive has yet to be started for the queue `q`. -/
structure Ready (s : State β) (q : List Nat) : Prop where
  queue : Holds s.idequeue q
  command : s.command = none
  called : s.called = s.completed ++ q
  started : s.started = s.completed
  waiting : ∀ b ∈ q, s.call b ≠ .outside ∧ ¬ (s.buf b).Clean
  served : ∀ b, b ∉ q → s.call b ≠ .outside → (s.buf b).Clean

/-- The data of the buffers that have been served have been transferred. -/
def Moved (s : State β) (q : List Nat) : Prop :=
  ∀ b, b ∉ q → s.call b ≠ .outside → s.moved b = true

section Step

variable {s s' : State β} {q : List Nat} {b : Nat}

theorem Inv.queueOk (h : Inv s q) : QueueOk s := ⟨q, h.queue, h.command, h.called, h.started⟩

theorem Ready.inv (h : Ready s []) : Inv s [] :=
  ⟨h.queue, h.command, h.called, by simpa using h.started, h.waiting, h.served⟩

/-- `idestart` changes nothing but what the drive works for. -/
theorem idestart_eq (hs : s.idestart b = some s') :
    s' = { s with command := some (s.buf b).command, started := s.started ++ [b] } := by
  obtain ⟨-, heq⟩ := Option.ite_none_left_eq_some.1 hs
  exact (Option.some.inj heq).symm

theorem Ready.start (h : Ready s (b :: q)) (hs : s.idestart b = some s') : Inv s' (b :: q) := by
  rw [idestart_eq hs]
  refine ⟨h.queue, rfl, h.called, ?_, h.waiting, h.served⟩
  show s.started ++ [b] = s.completed ++ [b]
  rw [h.started]

/-- The caller sleeps: its buffer is in the queue. -/
theorem wait_of_not_clean (hb : ¬ (s.buf b).Clean) : s.wait b = s.setCall b .asleep := if_neg hb

theorem wait_of_clean (hb : (s.buf b).Clean) : s.wait b = s.setCall b .outside := if_pos hb

theorem wait_moved : (s.wait b).moved = s.moved := by
  by_cases hb : (s.buf b).Clean
  · rw [wait_of_clean hb]
    rfl
  · rw [wait_of_not_clean hb]
    rfl

/-- A call is or is not in progress as before. -/
theorem Inv.setCall (h : Inv s q) {c : Call} (hc : c ≠ .outside) (hb : s.call b ≠ .outside) :
    Inv (s.setCall b c) q := by
  refine ⟨h.queue, h.command, h.called, h.started, fun d hd => ?_, fun d hd hcall => ?_⟩
  · refine ⟨?_, (h.waiting d hd).2⟩
    by_cases hdb : d = b
    · subst hdb
      simpa [State.setCall] using hc
    · simpa [State.setCall, hdb] using (h.waiting d hd).1
  · refine h.served d hd ?_
    by_cases hdb : d = b
    · exact hdb ▸ hb
    · simpa [State.setCall, hdb] using hcall

theorem Moved.setCall (h : Moved s q) {c : Call} (hb : s.call b ≠ .outside) :
    Moved (s.setCall b c) q := by
  intro d hd hcall
  refine h d hd ?_
  by_cases hdb : d = b
  · exact hdb ▸ hb
  · simpa [State.setCall, hdb] using hcall

/-- A call that returns. -/
theorem Inv.leave (h : Inv s q) (hb : b ∉ q) : Inv (s.setCall b .outside) q := by
  refine ⟨h.queue, h.command, h.called, h.started, fun d hd => ?_, fun d hd hcall => ?_⟩
  · have hdb : d ≠ b := ne_of_mem_of_not_mem hd hb
    exact ⟨by simpa [State.setCall, hdb] using (h.waiting d hd).1, (h.waiting d hd).2⟩
  · by_cases hdb : d = b
    · subst hdb
      exact absurd (Function.update_self ..) hcall
    · exact h.served d hd (by simpa [State.setCall, hdb] using hcall)

theorem Moved.leave (h : Moved s q) : Moved (s.setCall b .outside) q := by
  intro d hd hcall
  by_cases hdb : d = b
  · subst hdb
    exact absurd (Function.update_self ..) hcall
  · exact h d hd (by simpa [State.setCall, hdb] using hcall)

theorem Inv.own (h : Inv s q) (hb : s.call b = .outside) (v : Buf β) : Inv (s.setBuf b v) q := by
  have hne : ∀ d ∈ q, d ≠ b := by
    rintro d hd rfl
    exact (h.waiting d hd).1 hb
  have hbuf : ∀ d ∈ q, (s.setBuf b v).buf d = s.buf d := fun d hd =>
    Function.update_of_ne (hne d hd) _ _
  refine ⟨h.queue, ?_, h.called, h.started, fun d hd => ?_, fun d hd hcall => ?_⟩
  · rw [show (s.setBuf b v).command = s.command from rfl, h.command]
    cases q with
    | nil => rfl
    | cons a q =>
        simp only [List.head?_cons, Option.map_some]
        rw [hbuf a (by simp)]
  · rw [hbuf d hd]
    exact h.waiting d hd
  · have hdb : d ≠ b := by
      rintro rfl
      exact hcall hb
    rw [show (s.setBuf b v).buf d = s.buf d from Function.update_of_ne hdb _ _]
    exact h.served d hd hcall

/-- The buffer of the call is not in the queue yet. -/
theorem Inv.not_mem (h : Inv s q) (hb : s.call b = .outside) : b ∉ q := fun hmem =>
  (h.waiting b hmem).1 hb

/-- `iderw` puts its buffer into the queue, and sleeps. -/
theorem Inv.iderw (h : Inv s q) {fuel : Nat} (hout : s.call b = .outside)
    (hs : s.iderw fuel b = some s') :
    Inv s' (q ++ [b]) ∧ s'.call b = .asleep ∧
      ∀ c, c ≠ b → s'.call c = s.call c ∧ s'.moved c = s.moved c := by
  obtain ⟨hclean, hs⟩ := Option.ite_none_left_eq_some.1 hs
  obtain ⟨-, hs⟩ := Option.ite_none_left_eq_some.1 hs
  obtain ⟨q', hq', hs⟩ := Option.bind_eq_some_iff.1 hs
  obtain ⟨s₁, hs₁, rfl⟩ := Option.map_eq_some_iff.1 hs
  have hb : b ∉ q := h.not_mem hout
  have hqueue : Holds q' (q ++ [b]) := h.queue.of_enqueue hb hq'
  -- but for the call of `b`, the invariant holds before the caller sleeps
  have hstart : Inv (s₁.setCall b .asleep) (q ++ [b]) ∧ s₁.buf = s.buf ∧ s₁.call = s.call ∧
      s₁.moved = Function.update s.moved b false := by
    have hwaiting : ∀ c ∈ q ++ [b], Function.update s.call b .asleep c ≠ .outside ∧
        ¬ (s.buf c).Clean := by
      intro c hc
      by_cases hcb : c = b
      · subst hcb
        exact ⟨by simp, hclean⟩
      · have hcq : c ∈ q := by simpa [hcb] using hc
        simpa [hcb] using h.waiting c hcq
    have hserved : ∀ c, c ∉ q ++ [b] → Function.update s.call b .asleep c ≠ .outside →
        (s.buf c).Clean := by
      intro c hc hcall
      have hcb : c ≠ b := by
        rintro rfl
        simp at hc
      exact h.served c (by simp_all) (by simpa [hcb] using hcall)
    have hcalled : s.called ++ [b] = s.completed ++ (q ++ [b]) := by
      rw [h.called, List.append_assoc]
    cases q with
    | nil =>
        have hfirst : q'.first = some b := hqueue.first_eq
        rw [if_pos hfirst] at hs₁
        rw [idestart_eq hs₁]
        refine ⟨⟨hqueue, rfl, hcalled, ?_, hwaiting, hserved⟩, rfl, rfl, rfl⟩
        simpa [State.setCall] using h.started
    | cons a q =>
        have hfirst : q'.first = some a := hqueue.first_eq
        have hab : q'.first ≠ some b := by
          rw [hfirst]
          rintro ⟨⟩
          simp at hb
        rw [if_neg hab] at hs₁
        obtain rfl := Option.some.inj hs₁
        exact ⟨⟨hqueue, h.command, hcalled, h.started, hwaiting, hserved⟩, rfl, rfl, rfl⟩
  obtain ⟨hinv, hbuf, hcall, hmoved⟩ := hstart
  rw [wait_of_not_clean (by rwa [hbuf])]
  refine ⟨hinv, by simp [State.setCall], fun c hc => ?_⟩
  simp [State.setCall, hcall, hmoved, hc]

/-- The state after the drive has ended its command and the handler has served its buffer. -/
def State.handled (s : State β) (b : Nat) (cmd : Command β) (ok : Bool) : State β :=
  State.serve { s.finish cmd ok with idequeue := s.idequeue.dequeue b } b cmd ok

theorem handled_buf (s : State β) (b : Nat) (cmd : Command β) (ok : Bool) :
    ((s.handled b cmd ok).buf b).Clean ∧
      ∀ c, c ≠ b → (s.handled b cmd ok).buf c = s.buf c := by
  unfold State.handled State.serve
  constructor
  · by_cases hcall : s.call b = .asleep <;>
      simp [State.finish, State.setBuf, State.setCall, Buf.Clean, hcall]
  · intro c hc
    by_cases hcall : s.call b = .asleep <;>
      simp [State.finish, State.setBuf, State.setCall, hc, hcall]

theorem handled_call (s : State β) (b : Nat) (cmd : Command β) (ok : Bool) :
    (s.handled b cmd ok).call b = (if s.call b = .asleep then .woken else s.call b) ∧
      ∀ c, c ≠ b → (s.handled b cmd ok).call c = s.call c := by
  unfold State.handled State.serve
  constructor
  · by_cases hcall : s.call b = .asleep <;>
      simp [State.finish, State.setBuf, State.setCall, hcall]
  · intro c hc
    by_cases hcall : s.call b = .asleep <;>
      simp [State.finish, State.setBuf, State.setCall, hc, hcall]

theorem handled_eq (s : State β) (b : Nat) (cmd : Command β) (ok : Bool) :
    (s.handled b cmd ok).idequeue = s.idequeue.dequeue b ∧
    (s.handled b cmd ok).command = none ∧ (s.handled b cmd ok).called = s.called ∧
    (s.handled b cmd ok).started = s.started ∧
    (s.handled b cmd ok).completed = s.completed ++ [b] ∧
    (s.handled b cmd ok).moved = Function.update s.moved b ok := by
  unfold State.handled State.serve
  by_cases hcall : s.call b = .asleep <;>
    simp [State.finish, State.setBuf, State.setCall, hcall]

/-- The buffer that has been served is not in the queue any more, and its caller is awake. -/
theorem Inv.handled (h : Inv s (b :: q)) (cmd : Command β) (ok : Bool) :
    Ready (s.handled b cmd ok) q ∧ (s.handled b cmd ok).call b = .woken := by
  obtain ⟨hclean, hbuf⟩ := handled_buf s b cmd ok
  obtain ⟨hcall, hcalls⟩ := handled_call s b cmd ok
  obtain ⟨hqueue, hcommand, hcalled, hstarted, hcompleted, -⟩ := handled_eq s b cmd ok
  have hnodup := List.nodup_cons.1 h.queue.nodup
  refine ⟨⟨?_, hcommand, ?_, ?_, fun c hc => ?_, fun c hc hout => ?_⟩, ?_⟩
  · exact hqueue ▸ h.queue.dequeue
  · rw [hcalled, hcompleted, List.append_assoc]
    exact h.called
  · rw [hstarted, hcompleted]
    exact h.started
  · have hcb : c ≠ b := ne_of_mem_of_not_mem hc hnodup.1
    rw [hcalls c hcb, hbuf c hcb]
    exact h.waiting c (by simp [hc])
  · by_cases hcb : c = b
    · rw [hcb]
      exact hclean
    · have hcq : c ∉ b :: q := by simp [hcb, hc]
      rw [hbuf c hcb]
      exact h.served c hcq (hcalls c hcb ▸ hout)
  · have hout := (h.waiting b (by simp)).1
    rw [hcall]
    cases hc : s.call b with
    | outside => exact absurd hc hout
    | asleep => rfl
    | woken => rfl

/-- If the drive has carried out its command, the data have been transferred. -/
theorem handled_transferred : Transferred (s.handled b (s.buf b).command true) b := by
  unfold State.handled State.serve Transferred
  by_cases hcall : s.call b = .asleep <;> by_cases hdirty : (s.buf b).dirty = true <;>
    simp [State.finish, State.setBuf, State.setCall, Buf.command, Command.data, hcall, hdirty]

/-- The handler serves the first buffer, and starts the drive on the next one. -/
theorem Inv.ideintr (h : Inv s q) {ok : Bool} (hs : s.ideintr ok = some s') :
    ∃ a q', q = a :: q' ∧ Inv s' q' ∧ s'.call a = .woken ∧ s'.moved a = ok ∧
      s'.completed = s.completed ++ [a] ∧ (ok = true → Transferred s' a) ∧
      ∀ c, c ≠ a → s'.call c = s.call c ∧ s'.moved c = s.moved c := by
  obtain ⟨cmd, hcmd, hs⟩ := Option.bind_eq_some_iff.1 hs
  cases q with
  | nil => exact nomatch hcmd.symm.trans h.command
  | cons a q =>
      obtain rfl : cmd = (s.buf a).command := Option.some.inj (hcmd.symm.trans h.command)
      have hfirst : (s.finish (s.buf a).command ok).idequeue.first = some a := h.queue.first_eq
      simp only [hfirst] at hs
      change (match (s.handled a (s.buf a).command ok).idequeue.first with
        | none => some (s.handled a (s.buf a).command ok)
        | some c => (s.handled a (s.buf a).command ok).idestart c) = some s' at hs
      obtain ⟨hready, hcall⟩ := h.handled (s.buf a).command ok
      obtain ⟨-, -, -, -, hcompleted, hmoved⟩ := handled_eq s a (s.buf a).command ok
      have hok : (s.handled a (s.buf a).command ok).moved a = ok := by
        rw [hmoved, Function.update_self]
      have hdata : ok = true → Transferred (s.handled a (s.buf a).command ok) a := by
        rintro rfl
        exact handled_transferred
      have hothers : ∀ c, c ≠ a → (s.handled a (s.buf a).command ok).call c = s.call c ∧
          (s.handled a (s.buf a).command ok).moved c = s.moved c := fun c hc =>
        ⟨(handled_call s a _ ok).2 c hc, by rw [hmoved, Function.update_of_ne hc]⟩
      have hnext : (s.handled a (s.buf a).command ok).idequeue.first = q.head? :=
        hready.queue.first_eq
      refine ⟨a, q, rfl, ?_⟩
      cases q with
      | nil =>
          have heq : s.handled a (s.buf a).command ok = s' := by
            simpa only [hnext, List.head?_nil, Option.some.injEq] using hs
          subst heq
          exact ⟨hready.inv, hcall, hok, hcompleted, hdata, hothers⟩
      | cons d q =>
          have hd : (s.handled a (s.buf a).command ok).idestart d = some s' := by
            simpa only [hnext, List.head?_cons] using hs
          have hinv := hready.start hd
          obtain rfl := idestart_eq hd
          exact ⟨hinv, hcall, hok, hcompleted, hdata, hothers⟩

/-! ## A step and a run -/

theorem Inv.of_start (h : Start s) : Inv s [] ∧ Moved s [] := by
  refine ⟨⟨⟨h.queue, List.nodup_nil⟩, h.command, ?_, ?_, by simp, fun b _ hb => ?_⟩,
    fun b _ hb => ?_⟩
  · rw [h.called, h.completed, List.nil_append]
  · rw [h.started, h.completed]
    rfl
  · exact absurd (h.call b) hb
  · exact absurd (h.call b) hb

/-- The loop of `iderw` goes on as long as the buffer is in the queue. -/
theorem Inv.resume (h : Inv s q) (hb : s.call b = .woken) : Inv (s.wait b) q ∧
    (Moved s q → Moved (s.wait b) q) ∧
    ((s.wait b).call b = .outside → b ∉ q ∧ ((s.wait b).buf b).Clean) := by
  have hout : s.call b ≠ .outside := by simp [hb]
  by_cases hclean : (s.buf b).Clean
  · have hbq : b ∉ q := fun hbq => (h.waiting b hbq).2 hclean
    rw [wait_of_clean hclean]
    exact ⟨h.leave hbq, Moved.leave, fun _ => ⟨hbq, hclean⟩⟩
  · rw [wait_of_not_clean hclean]
    refine ⟨h.setCall (by simp) hout, fun hmoved => hmoved.setCall hout, fun hcall => ?_⟩
    simp [State.setCall] at hcall

/-- One step keeps the invariant, and a call returns with its buffer served. -/
theorem Inv.step (h : Inv s q) {e : Event β} (hs : Step s e s') : ∃ q', Inv s' q' ∧
    (e ≠ .ideintr false → Moved s q → Moved s' q') ∧
    ∀ b, Returns e b s' → (s'.buf b).Clean ∧ (Moved s q → s'.moved b = true) := by
  obtain ⟨fuel, hs⟩ := hs
  cases e with
  | iderw b =>
      obtain ⟨hout, hs⟩ := Option.ite_none_right_eq_some.1 hs
      obtain ⟨hinv, hcall, hothers⟩ := h.iderw hout hs
      refine ⟨q ++ [b], hinv, fun _ hmoved c hc hcallc => ?_, fun c hret => ?_⟩
      · obtain ⟨hcq, hcb⟩ : c ∉ q ∧ c ≠ b := by simpa using hc
        obtain ⟨hsame, hmovedc⟩ := hothers c hcb
        rw [hmovedc]
        exact hmoved c hcq (hsame ▸ hcallc)
      · obtain ⟨he, hret⟩ := hret
        obtain rfl : b = c := by simpa using he
        simp [hcall] at hret
  | ideintr ok =>
      obtain ⟨a, q', rfl, hinv, hcall, hok, -, -, hothers⟩ := h.ideintr hs
      refine ⟨q', hinv, fun hne hmoved c hc hcallc => ?_, fun c hret => by simp [Returns] at hret⟩
      by_cases hca : c = a
      · subst hca
        cases ok with
        | false => exact absurd rfl hne
        | true => exact hok
      · obtain ⟨hsame, hmovedc⟩ := hothers c hca
        rw [hmovedc]
        exact hmoved c (by simp [hca, hc]) (hsame ▸ hcallc)
  | resume b =>
      obtain ⟨hwoken, hs⟩ := Option.ite_none_right_eq_some.1 hs
      obtain rfl := Option.some.inj hs
      obtain ⟨hinv, hmoved, hleave⟩ := h.resume hwoken
      refine ⟨q, hinv, fun _ => hmoved, fun c hret => ?_⟩
      obtain ⟨he, hret⟩ := hret
      obtain rfl : b = c := by simpa using he
      obtain ⟨hbq, hclean⟩ := hleave hret
      refine ⟨hclean, fun hmoved => ?_⟩
      rw [wait_moved]
      exact hmoved b hbq (by simp [hwoken])
  | kill b =>
      obtain ⟨hasleep, hs⟩ := Option.ite_none_right_eq_some.1 hs
      obtain rfl := Option.some.inj hs
      have hout : s.call b ≠ .outside := by simp [hasleep]
      exact ⟨q, h.setCall (by simp) hout, fun _ hmoved => hmoved.setCall hout,
        fun c hret => by simp [Returns] at hret⟩
  | own b v =>
      obtain ⟨hout, hs⟩ := Option.ite_none_right_eq_some.1 hs
      obtain rfl := Option.some.inj hs
      exact ⟨q, h.own hout v, fun _ hmoved => hmoved, fun c hret => by simp [Returns] at hret⟩

/-- The walk over the queue ends: a call with a proper block is not stuck there. -/
theorem Inv.iderw_total (h : Inv s q) (hout : s.call b = .outside) (hclean : ¬ (s.buf b).Clean)
    (hdev : (s.buf b).dev = 0 ∨ s.havedisk1 = true) (hblockno : (s.buf b).blockno < fsSize) :
    ∃ s', Step s (.iderw b) s' ∧ s'.call b = .asleep := by
  obtain ⟨queue, hq, -⟩ := h.queue.enqueue (h.not_mem hout) (Nat.le_refl q.length)
  have hpresent : ¬ ((s.buf b).dev ≠ 0 ∧ s.havedisk1 = false) := by
    rintro ⟨hne, hno⟩
    simp [hne, hno] at hdev
  have hstart : ∃ s', s.iderw q.length b = some s' := by
    rw [State.iderw, if_neg hclean, if_neg hpresent, hq]
    by_cases hfirst : queue.first = some b
    · simp [State.idestart, hfirst, hblockno]
    · simp [hfirst]
  obtain ⟨s', hs'⟩ := hstart
  exact ⟨s', ⟨q.length, by simpa [State.next, hout] using hs'⟩, (h.iderw hout hs').2.1⟩

/-- **The order of the requests.** In every run, the buffers in the queue are different, the drive
    works for the first of them, and the requests are started once each and completed in the order
    of the calls; a call returns when its buffer is valid and clean. The data of its buffer have
    been transferred if the drive reports no error; after an error, a call can return without. -/
theorem iderw_order {s₀ s : State β} {tr : List (State β × Event β)} (h₀ : Start s₀)
    (hrun : Run Step s₀ tr s) :
    Along QueueOk tr s ∧
    (∀ x ∈ tr, ∀ b s', Step x.1 x.2 s' → Returns x.2 b s' → (s'.buf b).Clean) ∧
    (∀ x ∈ tr, ∀ s', x.2 = .ideintr true → Step x.1 x.2 s' →
      ∃ b, s'.completed = x.1.completed ++ [b] ∧ s'.moved b = true ∧ Transferred s' b) ∧
    ((∀ x ∈ tr, x.2 ≠ .ideintr false) →
      ∀ x ∈ tr, ∀ b s', Step x.1 x.2 s' → Returns x.2 b s' → s'.moved b = true) ∧
    (∀ s', Step s (.ideintr false) s' →
      ∃ b s'', Step s' (.resume b) s'' ∧ Returns (.resume b) b s'' ∧ s''.moved b = false) := by
  have hinv : Along (fun s : State β => ∃ q, Inv s q) tr s :=
    hrun.invariant ⟨[], (Inv.of_start h₀).1⟩ fun s e s' ⟨q, hq⟩ hs =>
      let ⟨q', hq', _⟩ := hq.step hs
      ⟨q', hq'⟩
  refine ⟨⟨fun x hx => ?_, ?_⟩, fun x hx b s' hs hret => ?_, fun x hx s' he hs => ?_, fun hok => ?_,
    fun s' hs => ?_⟩
  · obtain ⟨q, hq⟩ := hinv.1 x hx
    exact hq.queueOk
  · obtain ⟨q, hq⟩ := hinv.2
    exact hq.queueOk
  · obtain ⟨q, hq⟩ := hinv.1 x hx
    obtain ⟨q', -, -, hreturn⟩ := hq.step hs
    exact (hreturn b hret).1
  · obtain ⟨q, hq⟩ := hinv.1 x hx
    obtain ⟨fuel, hs⟩ := hs
    rw [he] at hs
    obtain ⟨a, q', -, -, -, hmoved, hcompleted, hdata, -⟩ := hq.ideintr hs
    exact ⟨a, hcompleted, hmoved, hdata rfl⟩
  · have hmoved : Along (fun s : State β => ∃ q, Inv s q ∧ Moved s q) tr s :=
      hrun.invariant_of_steps (C := fun _ e => e ≠ .ideintr false) ⟨[], Inv.of_start h₀⟩
        (fun s e s' ⟨q, hq, hm⟩ he hs =>
          let ⟨q', hq', hm', _⟩ := hq.step hs
          ⟨q', hq', hm' he hm⟩) hok
    intro x hx b s' hs hret
    obtain ⟨q, hq, hm⟩ := hmoved.1 x hx
    obtain ⟨q', -, -, hreturn⟩ := hq.step hs
    exact (hreturn b hret).2 hm
  · obtain ⟨q, hq⟩ := hinv.2
    obtain ⟨fuel, hs⟩ := hs
    obtain ⟨a, q', rfl, hq', hcall, hmoved, -, -, -⟩ := hq.ideintr hs
    have ha : a ∉ q' := (List.nodup_cons.1 hq.queue.nodup).1
    have hclean : (s'.buf a).Clean := hq'.served a ha (by simp [hcall])
    have hleave : (s'.wait a).call a = .outside := by
      rw [wait_of_clean hclean]
      simp [State.setCall]
    exact ⟨a, s'.wait a, ⟨0, if_pos hcall⟩, ⟨.inr rfl, hleave⟩, by rw [wait_moved, hmoved]⟩

end Step

end Queue

/-- A disk after `ideinit`; buffer 2 is to be written, the others are to be read. -/
def idle : State Nat where
  buf b := { valid := false, dirty := decide (b = 2), dev := 0, blockno := b, data := 0 }
  call _ := .outside
  idequeue := { first := none, next := fun _ => none }
  havedisk1 := false
  command := none
  disk _ n := 100 + n
  called := []
  started := []
  completed := []
  moved _ := false

theorem idle_start : Start idle := ⟨fun _ => rfl, rfl, rfl, rfl, rfl, rfl⟩

/-- A read and a write, queued one behind the other. -/
theorem iderw_order_two :
    ∃ tr s, Run Step idle tr s ∧ s.call 1 = .outside ∧ (s.buf 1).data = 101 ∧
      s.completed = [1, 2] ∧ Along QueueOk tr s ∧
      ∀ x ∈ tr, ∀ b s', Step x.1 x.2 s' → Returns x.2 b s' → s'.moved b = true := by
  have hplay : (play (State.next 4) idle [.iderw 1, .iderw 2, .ideintr true, .resume 1,
      .ideintr true, .resume 2]).map (fun r => (r.2.call 1, (r.2.buf 1).data, r.2.completed))
      = some (.outside, 101, [1, 2]) := by
    decide +kernel
  obtain ⟨⟨tr, s⟩, hplay, heq⟩ := Option.map_eq_some_iff.1 hplay
  simp only [Prod.mk.injEq] at heq
  obtain ⟨hcall, hdata, hcompleted⟩ := heq
  obtain ⟨hrun, hevents⟩ := play_run hplay
  have hrun : Run Step idle tr s := hrun.mono fun s e s' hs => ⟨4, hs⟩
  have hok : ∀ x ∈ tr, x.2 ≠ .ideintr false := by
    intro x hx he
    have hmem : x.2 ∈ tr.map Prod.snd := List.mem_map_of_mem hx
    rw [hevents, he] at hmem
    simp at hmem
  obtain ⟨hqueue, -, -, hmoved, -⟩ := iderw_order idle_start hrun
  exact ⟨tr, s, hrun, hcall, hdata, hcompleted, hqueue, hmoved hok⟩

/-- The drive reports an error for a read: `iderw` returns with a valid buffer whose data have not
    been read. -/
theorem iderw_after_error :
    ∃ tr s s', Run Step idle tr s ∧ Step s (.resume 1) s' ∧ Returns (.resume 1) 1 s' ∧
      (s'.buf 1).Clean ∧ s'.moved 1 = false ∧ ¬ Transferred s' 1 := by
  have hplay : (play (State.next 4) idle [.iderw 1, .ideintr false]).map (fun r =>
        ((r.2.call 1, r.2.moved 1), ((r.2.buf 1).valid, (r.2.buf 1).dirty),
          ((r.2.buf 1).dev, (r.2.buf 1).blockno), (r.2.buf 1).data, r.2.disk 0 1))
      = some ((.woken, false), (true, false), (0, 1), 0, 101) := by
    decide +kernel
  obtain ⟨⟨tr, s⟩, hplay, heq⟩ := Option.map_eq_some_iff.1 hplay
  simp only [Prod.mk.injEq] at heq
  obtain ⟨⟨hcall, hmoved⟩, ⟨hvalid, hdirty⟩, ⟨hdev, hblockno⟩, hdata, hdisk⟩ := heq
  obtain ⟨hrun, -⟩ := play_run hplay
  have hclean : (s.buf 1).Clean := ⟨hvalid, hdirty⟩
  have hstep : Step s (.resume 1) (s.setCall 1 .outside) :=
    ⟨0, by simp [State.next, hcall, wait_of_clean hclean]⟩
  refine ⟨tr, s, _, hrun.mono fun s e s' hs => ⟨4, hs⟩, hstep, ⟨.inr rfl, by simp [State.setCall]⟩,
    hclean, hmoved, ?_⟩
  simp [Transferred, State.setCall, hdev, hblockno, hdata, hdisk]

end Cs350.Disk
