import Cs350.Pipes.Defs

set_option autoImplicit false

/-! # A pipe is a queue

What is in a pipe is the list of its bytes between the two counters. `put` adds a byte at the end,
the loop of `piperead` takes bytes from the front, and so the bytes that go in come out again in
order, however often the counters wrap. -/

namespace Cs350.Pipes

open Sched (Slot Table wakeup1)
open RingBuffer (slot dist contents)
open Transition

/-! ## One pipe -/

namespace Pipe

variable {p : Pipe}

/-- The bytes in the pipe. -/
def bytes (p : Pipe) : List UInt8 := contents p.data pipeSize p.nread p.nwrite

/-- There are no more bytes than places. -/
def Ok (p : Pipe) : Prop := dist p.nread p.nwrite ≤ pipeSize.toNat

theorem pipeSize_dvd : pipeSize.toNat ∣ 2 ^ 32 := by decide

theorem full_iff : p.Full ↔ dist p.nread p.nwrite = pipeSize.toNat := RingBuffer.eq_add_iff

theorem empty_iff : p.Empty ↔ dist p.nread p.nwrite = 0 := RingBuffer.dist_eq_zero.symm

theorem ok_of_empty (h : p.Empty) : p.Ok := by
  rw [Ok, empty_iff.1 h]
  exact Nat.zero_le _

theorem Ok.lt_of_not_full (h : p.Ok) (hfull : ¬ p.Full) :
    dist p.nread p.nwrite < pipeSize.toNat :=
  Nat.lt_of_le_of_ne h fun heq => hfull (full_iff.2 heq)

theorem put_dist (h : p.Ok) (hfull : ¬ p.Full) (b : UInt8) :
    dist (p.put b).nread (p.put b).nwrite = dist p.nread p.nwrite + 1 := by
  have hlt := h.lt_of_not_full hfull
  have hsize : pipeSize.toNat = 512 := rfl
  exact RingBuffer.dist_succ_right (i := p.nread) (j := p.nwrite) (by omega)

theorem Ok.put (h : p.Ok) (hfull : ¬ p.Full) (b : UInt8) : (p.put b).Ok := by
  unfold Ok
  rw [put_dist h hfull]
  exact h.lt_of_not_full hfull

theorem bytes_put (h : p.Ok) (hfull : ¬ p.Full) (b : UInt8) : (p.put b).bytes = p.bytes ++ [b] :=
  RingBuffer.contents_push pipeSize_dvd (h.lt_of_not_full hfull) b

/-- What the loop of `pipewrite` does to the pipe. -/
structure Stored (p : Pipe) (bs done rest : List UInt8) (p' : Pipe) : Prop where
  split : bs = done ++ rest
  ok : p'.Ok
  bytes : p'.bytes = p.bytes ++ done
  full : rest ≠ [] → p'.Full
  readopen : p'.readopen = p.readopen
  writeopen : p'.writeopen = p.writeopen

theorem store_spec (h : p.Ok) (bs : List UInt8) :
    ∃ done, Stored p bs done (p.store bs).2 (p.store bs).1 := by
  induction bs generalizing p with
  | nil => exact ⟨[], rfl, h, (List.append_nil _).symm, fun hne => absurd rfl hne, rfl, rfl⟩
  | cons b bs ih =>
      by_cases hfull : p.Full
      · rw [store, if_pos hfull]
        exact ⟨[], rfl, h, (List.append_nil _).symm, fun _ => hfull, rfl, rfl⟩
      · obtain ⟨done, hdone⟩ := ih (h.put hfull b)
        rw [store, if_neg hfull]
        refine ⟨b :: done, ?_, hdone.ok, ?_, hdone.full, hdone.readopen, hdone.writeopen⟩
        · rw [List.cons_append, ← hdone.split]
        · rw [hdone.bytes, bytes_put h hfull, List.append_assoc, List.singleton_append]

/-- What the second loop of `piperead` does to the pipe. -/
structure Copied (p : Pipe) (bs : List UInt8) (p' : Pipe) : Prop where
  ok : p'.Ok
  bytes : p.bytes = bs ++ p'.bytes
  readopen : p'.readopen = p.readopen
  writeopen : p'.writeopen = p.writeopen

theorem copy_spec (h : p.Ok) (n : Nat) : Copied p (p.copy n).2 (p.copy n).1 := by
  induction n generalizing p with
  | zero => exact ⟨h, rfl, rfl, rfl⟩
  | succ n ih =>
      by_cases hempty : p.Empty
      · rw [copy, if_pos hempty]
        exact ⟨h, rfl, rfl, rfl⟩
      · have hnext := RingBuffer.dist_succ_left hempty
        have h' : Ok { p with nread := p.nread + 1 } := by
          unfold Ok at *
          dsimp only
          omega
        have hcopy := ih h'
        rw [copy, if_neg hempty]
        refine ⟨hcopy.ok, ?_, hcopy.readopen, hcopy.writeopen⟩
        rw [List.cons_append, ← hcopy.bytes]
        exact RingBuffer.contents_cons hempty

end Pipe

/-! ## Runs -/

/-- The bytes that went into the pipe during a run. -/
def stored (tr : List (State × (Event × Io))) : List UInt8 := tr.flatMap fun x => x.2.2.stored

/-- The bytes that the calls of `piperead` returned during a run, in their order. -/
def returned (tr : List (State × (Event × Io))) : List UInt8 := tr.flatMap fun x => x.2.2.returned

/-- The bytes in the pipe before a step and those that go in are the bytes that come out and those
    that are in the pipe after it. When the pipe is gone nothing goes in or out. -/
def Flow (k : State) (io : Io) (k' : State) : Prop :=
  (∃ p p', k.pipe = some p ∧ k'.pipe = some p' ∧
    (p.Ok → p'.Ok ∧ p.bytes ++ io.stored = io.returned ++ p'.bytes)) ∨
  k'.pipe = none ∧ io.stored = [] ∧ io.returned = []

section Step

variable {k k' : State} {p : Pipe} {cur : Slot}

theorem flow_silent (hpipe : k'.pipe = k.pipe) : Flow k ⟨[], [], none⟩ k' := by
  cases hk : k.pipe with
  | none => exact Or.inr ⟨hpipe.trans hk, rfl, rfl⟩
  | some p => exact Or.inl ⟨p, p, hk, hpipe.trans hk, fun h => ⟨h, List.append_nil _⟩⟩

theorem flow_write (hpipe : k.pipe = some p) (n : Nat) (bs : List UInt8) :
    Flow k (k'.write p cur n bs).2 (k'.write p cur n bs).1 := by
  have hflow : p.Ok → (p.store bs).1.Ok ∧
      p.bytes ++ bs.take (bs.length - (p.store bs).2.length) = [] ++ (p.store bs).1.bytes := by
    intro h
    obtain ⟨done, hdone⟩ := Pipe.store_spec h bs
    have htake : bs.take (bs.length - (p.store bs).2.length) = done := by
      have hlen := congrArg List.length hdone.split
      rw [List.length_append] at hlen
      rw [hdone.split, List.take_left']
      rw [← hdone.split]
      omega
    rw [htake]
    exact ⟨hdone.ok, hdone.bytes.symm⟩
  unfold State.write
  dsimp only
  split_ifs <;> exact Or.inl ⟨p, _, hpipe, rfl, hflow⟩

theorem flow_read (hpipe : k.pipe = some p) (hpipe' : k'.pipe = some p) (n : Int) :
    Flow k (k'.read p cur n).2 (k'.read p cur n).1 := by
  unfold State.read
  split_ifs
  · exact Or.inl ⟨p, p, hpipe, hpipe', fun h => ⟨h, List.append_nil _⟩⟩
  · exact Or.inl ⟨p, p, hpipe, hpipe', fun h => ⟨h, List.append_nil _⟩⟩
  · refine Or.inl ⟨p, _, hpipe, rfl, fun h => ?_⟩
    have hcopy := Pipe.copy_spec h n.toNat
    exact ⟨hcopy.ok, (List.append_nil _).trans hcopy.bytes⟩

theorem flow_close (hpipe : k.pipe = some p) (writable : Bool) :
    Flow k ⟨[], [], none⟩ (k.close p writable) := by
  unfold State.close
  dsimp only
  split_ifs
  all_goals
    first
    | exact Or.inr ⟨rfl, rfl, rfl⟩
    | exact Or.inl ⟨p, _, hpipe, rfl, fun h => ⟨h, List.append_nil _⟩⟩

theorem step_flow {e : Event × Io} (hstep : Step k e k') : Flow k e.2 k' := by
  have hmove := step_move hstep
  generalize e.1 = ev, e.2 = io at hmove ⊢
  cases hmove with
  | write _ _ hp => exact flow_write hp _ _
  | @read _ cur _ _ _ _ hp => exact flow_read hp (show (k.run cur).pipe = some _ from hp) _
  | close writable hp => exact flow_close hp writable
  | kill pid => exact flow_silent rfl
  | other => exact flow_silent rfl

end Step

/-- What has gone in and not come out is what is in the pipe. -/
theorem run_flow {k₀ k : State} {tr : List (State × (Event × Io))} (hstart : Start k₀)
    (hrun : Run Step k₀ tr k) : ∃ rest, stored tr = returned tr ++ rest ∧
      ∀ p, k.pipe = some p → p.Ok ∧ p.bytes = rest := by
  induction hrun with
  | nil =>
      refine ⟨[], rfl, fun p hp => ?_⟩
      obtain ⟨data, hpipe⟩ := hstart.pipe
      rw [hpipe] at hp
      obtain rfl := Option.some.inj hp
      exact ⟨Pipe.ok_of_empty rfl, RingBuffer.contents_self⟩
  | @snoc tr k k' e _ hstep ih =>
      obtain ⟨rest, hrest, hpipe⟩ := ih
      have hstored : stored (tr ++ [(k, e)]) = stored tr ++ e.2.stored := by
        rw [stored, List.flatMap_append, List.flatMap_singleton]
        rfl
      have hreturned : returned (tr ++ [(k, e)]) = returned tr ++ e.2.returned := by
        rw [returned, List.flatMap_append, List.flatMap_singleton]
        rfl
      rw [hstored, hreturned, hrest]
      rcases step_flow hstep with ⟨p, p', hp, hp', hflow⟩ | ⟨hnone, hin, hout⟩
      · obtain ⟨hok, rfl⟩ := hpipe p hp
        obtain ⟨hok', hbytes⟩ := hflow hok
        refine ⟨p'.bytes, ?_, fun q hq => ?_⟩
        · rw [List.append_assoc, hbytes, List.append_assoc]
        · rw [hp'] at hq
          obtain rfl := Option.some.inj hq
          exact ⟨hok', rfl⟩
      · rw [hin, hout, List.append_nil, List.append_nil]
        exact ⟨rest, rfl, fun q hq => by rw [hnone] at hq; exact nomatch hq⟩

/-- **A pipe is a queue**: at any time there are at most `PIPESIZE` bytes in it, and the bytes that
    `piperead` has returned are the first of those that `pipewrite` has stored; the others are in
    the pipe as long as it exists. -/
theorem pipe_fifo {k₀ k : State} {tr : List (State × (Event × Io))} (hstart : Start k₀)
    (hrun : Run Step k₀ tr k) : returned tr <+: stored tr ∧
      ∀ p, k.pipe = some p → p.nwrite - p.nread ≤ pipeSize ∧ stored tr = returned tr ++ p.bytes := by
  obtain ⟨rest, hrest, hpipe⟩ := run_flow hstart hrun
  refine ⟨⟨rest, hrest.symm⟩, fun p hp => ?_⟩
  obtain ⟨hok, rfl⟩ := hpipe p hp
  exact ⟨UInt32.le_iff_toNat_le.2 hok, hrest⟩

/-- A new pipe, and processes that can all run, with the pids 1 to 64. -/
def fresh : State where
  proc p := ⟨.running, p.val + 1, none, none, false, 25, 0⟩
  pc _ := .outside
  pipe := some ⟨fun _ => 0, 0, 0, true, true⟩

theorem start_fresh : Start fresh where
  pc _ := rfl
  awake _ := ⟨fun h => (nomatch h.1), fun h => (nomatch h.1)⟩
  pipe := ⟨_, rfl⟩

theorem pipe_fifo_fresh : ∃ tr k, Run Step fresh tr k ∧ stored tr = [1, 2, 3] ∧
    returned tr = [1, 2] ∧ returned tr <+: stored tr := by
  have hwrite : Step fresh (.pipewrite 0 [1, 2, 3], ⟨[1, 2, 3], [], some 3⟩) _ := rfl
  have hrun := (Run.nil.snoc hwrite).snoc
    (show Step _ (.piperead 1 2, ⟨[], [1, 2], some 2⟩) _ from rfl)
  exact ⟨_, _, hrun, rfl, rfl, (pipe_fifo start_fresh hrun).1⟩

end Cs350.Pipes
