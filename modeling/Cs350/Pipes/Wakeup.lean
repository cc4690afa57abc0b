import Cs350.Pipes.Fifo

set_option autoImplicit false

/-! # Wakeups of a pipe

A process that sleeps in `piperead` waits for bytes, one that sleeps in `pipewrite` for places. Every
change that ends such a wait comes with a wakeup, but for one: when `pipewrite` has filled the pipe
and then finds that its process has been killed, it returns without a wakeup for the readers. The
runs without lost wakeups are the runs in which this does not happen to a process while a reader
sleeps. -/

namespace Cs350.Pipes

open Sched (Slot Table Chan wakeup1)
open RingBuffer (dist)
open Transition

/-- Who sleeps has a reason to. -/
structure Awake (k : State) : Prop where
  read : ∀ p, k.pipe = some p → ∀ q, Asleep k.proc q nreadChan →
    p.nread = p.nwrite ∧ p.writeopen = true
  write : ∀ p, k.pipe = some p → ∀ q, Asleep k.proc q nwriteChan →
    p.nwrite = p.nread + pipeSize ∧ p.readopen = true

/-- The free places of a pipe. -/
def Pipe.room (p : Pipe) : Nat := pipeSize.toNat - dist p.nread p.nwrite

/-- In this step `pipewrite` puts bytes into the pipe, fills it without being done, and finds that
    the process has been killed or that the read end is closed, while a reader sleeps. -/
def Strands (k : State) (e : Event) : Prop :=
  ∃ cur n bytes p q, (e = .pipewrite cur bytes ∨ e = .resume cur ∧ k.pc cur = .writing n bytes) ∧
    k.pipe = some p ∧ 0 < p.room ∧ p.room < bytes.length ∧
    ((k.proc cur).killed = true ∨ p.readopen = false) ∧ Asleep k.proc q nreadChan

/-! ## Who sleeps after an operation -/

section Table

variable {t : Table} {q : Slot} {c : Chan}

theorem asleep_wakeup1 (c' : Chan) : Asleep (wakeup1 c' t) q c ↔ Asleep t q c ∧ c ≠ c' := by
  unfold Asleep wakeup1
  split_ifs with h
  · constructor
    · exact fun hs => nomatch hs.1
    · rintro ⟨hs, hne⟩
      rw [h.2] at hs
      exact absurd (Option.some.inj hs.2).symm hne
  · constructor
    · refine fun hs => ⟨hs, ?_⟩
      rintro rfl
      exact h hs
    · exact And.left

theorem asleep_modify {cur : Slot} (hq : q ≠ cur) (f : Sched.Proc → Sched.Proc) :
    Asleep (t.modify cur f) q c ↔ Asleep t q c := by
  unfold Asleep
  rw [Table.modify_of_ne hq]

theorem asleep_sleep {cur : Slot} {c' : Chan} (h : Asleep (sleep t cur c') q c) :
    Asleep t q c ∨ q = cur ∧ c = c' := by
  by_cases hq : q = cur
  · subst hq
    have hchan := h.2
    rw [sleep, Table.modify_self] at hchan
    exact Or.inr ⟨rfl, (Option.some.inj hchan).symm⟩
  · exact Or.inl ((asleep_modify hq _).1 h)

theorem not_asleep_dispatch (cur : Slot) : ¬ Asleep (dispatch t cur) cur c := by
  rintro ⟨hstate, -⟩
  rw [dispatch, Table.modify_self] at hstate
  exact nomatch hstate

theorem asleep_dispatch {cur : Slot} : Asleep (dispatch t cur) q c ↔ q ≠ cur ∧ Asleep t q c := by
  by_cases hq : q = cur
  · subst hq
    exact ⟨fun h => absurd h (not_asleep_dispatch q), fun h => absurd rfl h.1⟩
  · rw [dispatch, asleep_modify hq]
    exact ⟨fun h => ⟨hq, h⟩, And.right⟩

theorem asleep_kill {pid : Int} (h : Asleep (Sched.kill pid t).2 q c) : Asleep t q c := by
  unfold Sched.kill at h
  split at h
  · exact h
  next p _ =>
    dsimp only at h
    by_cases hq : q = p
    · subst hq
      have hstate := h.1
      rw [Table.modify_self] at hstate
      dsimp only at hstate
      split_ifs at hstate with hs
      exact absurd hstate hs
    · exact (asleep_modify hq _).1 h

end Table

/-! ## Steps -/

section Step

variable {k : State} {p : Pipe} {cur : Slot}

/-- Fewer sleepers, and the same pipe. -/
theorem Awake.of_asleep {k' : State} (h : Awake k) (hpipe : k'.pipe = k.pipe)
    (hasleep : ∀ q c, Asleep k'.proc q c → c = nreadChan ∨ c = nwriteChan → Asleep k.proc q c) :
    Awake k' where
  read p hp q hq := h.read p (hpipe ▸ hp) q (hasleep q _ hq (Or.inl rfl))
  write p hp q hq := h.write p (hpipe ▸ hp) q (hasleep q _ hq (Or.inr rfl))

theorem awake_run (h : Awake k) (cur : Slot) : Awake (k.run cur) :=
  h.of_asleep rfl fun _ _ hq _ => (asleep_dispatch.1 hq).2

theorem Pipe.Stored.dist {bs done rest : List UInt8} {p' : Pipe} (h : Pipe.Stored p bs done rest p') :
    dist p'.nread p'.nwrite = dist p.nread p.nwrite + done.length := by
  have hlen := congrArg List.length h.bytes
  rw [Pipe.bytes, Pipe.bytes, List.length_append, RingBuffer.length_contents,
    RingBuffer.length_contents] at hlen
  exact hlen

/-- The pipe is too small for the bytes if and only if some are left. -/
theorem Pipe.Stored.rest_iff {bs done rest : List UInt8} {p' : Pipe} (hok : p.Ok)
    (h : Pipe.Stored p bs done rest p') : rest ≠ [] ↔ p.room < bs.length := by
  have hdist := h.dist
  have hok' := h.ok
  have hlen := congrArg List.length h.split
  rw [List.length_append] at hlen
  unfold Pipe.Ok Pipe.room at *
  constructor
  · intro hrest
    have hfull := Pipe.full_iff.1 (h.full hrest)
    have hpos := List.length_pos_iff.2 hrest
    omega
  · rintro hlt rfl
    rw [List.length_nil] at hlen
    omega

/-- A full pipe stays full. -/
theorem Pipe.Stored.full_of_full {bs done rest : List UInt8} {p' : Pipe}
    (h : Pipe.Stored p bs done rest p') (hfull : p.Full) : p'.Full := by
  have hdist := h.dist
  have hok := h.ok
  rw [Pipe.full_iff] at hfull ⊢
  unfold Pipe.Ok at hok
  omega

theorem awake_write (h : Awake k) (hok : p.Ok) (hp : k.pipe = some p) (n : Nat) (bs : List UInt8)
    (hsafe : ∀ q, Asleep k.proc q nreadChan → p.room < bs.length →
      ¬ ((k.proc cur).killed = true ∨ p.readopen = false)) :
    Awake (k.write p cur n bs).1 := by
  obtain ⟨done, hdone⟩ := Pipe.store_spec hok bs
  have hwrite : ∀ q, Asleep k.proc q nwriteChan → (p.store bs).1.Full ∧
      (p.store bs).1.readopen = true := fun q hq => by
    obtain ⟨hfull, hopen⟩ := h.write p hp q hq
    exact ⟨hdone.full_of_full hfull, hdone.readopen.trans hopen⟩
  unfold State.write
  dsimp only
  split_ifs with hrest hgive
  · refine ⟨fun p' hp' q hq => ?_, fun p' hp' q hq => ?_⟩
    · exact absurd rfl ((asleep_wakeup1 _).1 hq).2
    · obtain rfl := Option.some.inj hp'
      exact hwrite q ((asleep_wakeup1 _).1 hq).1
  · -- the process gives up; no reader sleeps
    have hlt := (hdone.rest_iff hok).1 hrest
    refine ⟨fun p' hp' q hq => ?_, fun p' hp' q hq => ?_⟩
    · exact absurd (hgive.symm.imp_right hdone.readopen.symm.trans) (hsafe q hq hlt)
    · obtain rfl := Option.some.inj hp'
      exact hwrite q hq
  · refine ⟨fun p' hp' q hq => ?_, fun p' hp' q hq => ?_⟩
    · rcases asleep_sleep hq with hq | ⟨-, hc⟩
      · exact absurd rfl ((asleep_wakeup1 _).1 hq).2
      · exact absurd hc (by decide)
    · obtain rfl := Option.some.inj hp'
      rcases asleep_sleep hq with hq | -
      · exact hwrite q ((asleep_wakeup1 _).1 hq).1
      · exact ⟨hdone.full hrest, Bool.eq_true_of_not_eq_false (not_or.1 hgive).1⟩

theorem awake_read (h : Awake k) (hp : k.pipe = some p) (n : Int) :
    Awake (k.read p cur n).1 := by
  unfold State.read
  split_ifs with hwait
  · exact h.of_asleep rfl fun _ _ hq _ => hq
  · refine ⟨fun p' hp' q hq => ?_, fun p' hp' q hq => ?_⟩
    · rcases asleep_sleep hq with hq | -
      · exact h.read p' hp' q hq
      · obtain rfl := Option.some.inj (hp.symm.trans hp')
        exact hwait
    · rcases asleep_sleep hq with hq | ⟨-, hc⟩
      · exact h.write p' hp' q hq
      · exact absurd hc (by decide)
  · refine ⟨fun p' hp' q hq => ?_, fun p' hp' q hq => ?_⟩
    · exact absurd (h.read p hp q ((asleep_wakeup1 _).1 hq).1) hwait
    · exact absurd rfl ((asleep_wakeup1 _).1 hq).2

theorem awake_close (h : Awake k) (hp : k.pipe = some p) (writable : Bool) :
    Awake (k.close p writable) := by
  unfold State.close
  cases writable with
  | true =>
      refine ⟨fun p' hp' q hq => ?_, fun p' hp' q hq => ?_⟩
      · exact absurd rfl ((asleep_wakeup1 _).1 hq).2
      · obtain ⟨-, heq⟩ := Option.ite_none_left_eq_some.1 hp'
        obtain rfl := Option.some.inj heq
        exact h.write p hp q ((asleep_wakeup1 _).1 hq).1
  | false =>
      refine ⟨fun p' hp' q hq => ?_, fun p' hp' q hq => ?_⟩
      · obtain ⟨-, heq⟩ := Option.ite_none_left_eq_some.1 hp'
        obtain rfl := Option.some.inj heq
        exact h.read p hp q ((asleep_wakeup1 _).1 hq).1
      · exact absurd rfl ((asleep_wakeup1 _).1 hq).2

theorem killed_run : ((k.run cur).proc cur).killed = (k.proc cur).killed := by
  unfold State.run dispatch
  dsimp only
  rw [Table.modify_self]

/-- The pipe is empty while a reader sleeps. -/
theorem Awake.room (h : Awake k) (hp : k.pipe = some p) {q : Slot}
    (hq : Asleep k.proc q nreadChan) : p.room = 512 := by
  unfold Pipe.room
  rw [Pipe.empty_iff.1 (h.read p hp q hq).1]
  rfl

/-- A step after which nobody sleeps in vain. -/
theorem step_awake {e : Event × Io} {k' : State} (h : Awake k) (hok : ∀ p, k.pipe = some p → p.Ok)
    (hsafe : ¬ Strands k e.1) (hstep : Step k e k') : Awake k' := by
  have hmove := step_move hstep
  generalize e.1 = ev, e.2 = io at hmove hsafe
  cases hmove with
  | @write _ cur n bs p he _ hp =>
      refine awake_write (awake_run h cur) (hok p hp) hp n bs fun q hq hlt hgive => hsafe ?_
      have hq' := (asleep_dispatch.1 hq).2
      have hroom := h.room hp hq'
      rw [killed_run] at hgive
      exact ⟨cur, n, bs, p, q, he, hp, by omega, hlt, hgive, hq'⟩
  | @read _ cur n p _ _ hp => exact awake_read (awake_run h cur) hp n
  | @close p writable hp => exact awake_close h hp writable
  | kill pid => exact h.of_asleep rfl fun _ _ hq _ => asleep_kill hq
  | @other cur q hread hwrite =>
      refine h.of_asleep rfl fun p c hp hc => ?_
      by_cases hpc : p = cur
      · subst hpc
        rcases hc with rfl | rfl
        · exact absurd hp hread
        · exact absurd hp hwrite
      · exact (asleep_modify hpc fun _ => q).1 hp

/-- A step that leaves a reader asleep beside a full pipe. -/
theorem step_strands {e : Event × Io} {k' : State} (hok : ∀ p, k.pipe = some p → p.Ok)
    (hbad : Strands k e.1) (hstep : Step k e k') : ¬ Awake k' := by
  obtain ⟨cur, n, bs, p, q, he, hp, hroom, hlt, hgive, hq⟩ := hbad
  obtain ⟨done, hdone⟩ := Pipe.store_spec (hok p hp) bs
  have hrest := (hdone.rest_iff (hok p hp)).2 hlt
  have hmove := step_move hstep
  generalize e.1 = ev, e.2 = io at hmove he
  -- the same process and the same bytes
  have hwrite : ∃ n, k.runs cur ∧ k' = ((k.run cur).write p cur n bs).1 := by
    cases hmove with
    | @write _ cur' n' bs' p' he' hruns hp' =>
        obtain rfl := Option.some.inj (hp.symm.trans hp')
        rcases he with rfl | ⟨rfl, hpc⟩ <;> rcases he' with heq | ⟨heq, hpc'⟩
        · obtain ⟨rfl, rfl⟩ := Event.pipewrite.inj heq
          exact ⟨_, hruns, rfl⟩
        · exact nomatch heq
        · exact nomatch heq
        · obtain rfl := Event.resume.inj heq
          obtain ⟨rfl, rfl⟩ := Pc.writing.inj (hpc.symm.trans hpc')
          exact ⟨_, hruns, rfl⟩
    | read he' =>
        rcases he with rfl | ⟨rfl, hpc⟩ <;> rcases he' with heq | ⟨heq, hpc'⟩
        · exact nomatch heq
        · exact nomatch heq
        · exact nomatch heq
        · obtain rfl := Event.resume.inj heq
          exact nomatch hpc.symm.trans hpc'
    | close => rcases he with heq | ⟨heq, -⟩ <;> exact nomatch heq
    | kill => rcases he with heq | ⟨heq, -⟩ <;> exact nomatch heq
    | other => rcases he with heq | ⟨heq, -⟩ <;> exact nomatch heq
  obtain ⟨n', hruns, rfl⟩ := hwrite
  have hqc : q ≠ cur := by
    rintro rfl
    have hstate := hq.1
    rcases hruns with hr | hr <;> rw [hr] at hstate <;> exact nomatch hstate
  have hcond : (p.store bs).1.readopen = false ∨ ((k.run cur).proc cur).killed = true := by
    rw [killed_run, hdone.readopen]
    exact hgive.symm
  intro hawake
  unfold State.write at hawake
  dsimp only at hawake
  rw [if_neg hrest, if_pos hcond] at hawake
  obtain ⟨hempty, -⟩ := hawake.read _ rfl q (asleep_dispatch.2 ⟨hqc, hq⟩)
  have hfull := Pipe.full_iff.1 (hdone.full hrest)
  rw [Pipe.empty_iff.1 hempty] at hfull
  exact absurd hfull (by decide)

end Step

theorem Start.awake_all {k : State} (h : Start k) : Awake k where
  read _ _ q hq := absurd hq (h.awake q).1
  write _ _ q hq := absurd hq (h.awake q).2

/-- **No wakeup is lost** in a run if and only if no call of `pipewrite` in it fills the pipe and then
    gives up while a reader sleeps. -/
theorem awake_along_iff {k₀ k : State} {tr : List (State × (Event × Io))} (hstart : Start k₀)
    (hrun : Run Step k₀ tr k) : Along Awake tr k ↔ ∀ x ∈ tr, ¬ Strands x.1 x.2.1 := by
  have hok : ∀ {k k' : State} {e : Event × Io}, (∀ p, k.pipe = some p → p.Ok) → Step k e k' →
      ∀ p, k'.pipe = some p → p.Ok := by
    intro k k' e hok hstep p hp
    rcases step_flow hstep with ⟨q, q', hq, hq', hflow⟩ | ⟨hnone, -⟩
    · obtain rfl := Option.some.inj (hq'.symm.trans hp)
      exact (hflow (hok q hq)).1
    · exact nomatch hnone.symm.trans hp
  refine hrun.along_iff (I := fun k => Awake k ∧ ∀ p, k.pipe = some p → p.Ok)
    (C := fun k e => ¬ Strands k e.1) ⟨hstart.awake_all, fun p hp => ?_⟩ (fun _ h => h.1)
    (fun _ _ _ h hsafe hstep => ⟨step_awake h.1 h.2 hsafe hstep, hok h.2 hstep⟩)
    fun _ _ _ h hbad hstep => step_strands h.2 (not_not.1 hbad) hstep
  obtain ⟨data, hpipe⟩ := hstart.pipe
  obtain rfl := Option.some.inj (hpipe.symm.trans hp)
  exact Pipe.ok_of_empty rfl

/-- Process 0 waits for a byte, process 1 writes 513 bytes and waits for room. Each wakes the
    other. -/
def inTurn : List (Event × Io) :=
  [(.piperead 0 1, ⟨[], [], none⟩),
    (.pipewrite 1 (List.replicate 513 7), ⟨List.replicate 512 7, [], none⟩),
    (.resume 0, ⟨[], [7], some 1⟩), (.resume 1, ⟨[7], [], some 513⟩)]

theorem awake_in_turn : ∃ tr k, Run Step fresh tr k ∧ tr.map Prod.snd = inTurn ∧
    Along Awake tr k := by
  have hplay : ((play follow fresh inTurn).map fun r => r.1.all fun x =>
      decide (∀ q, (x.1.proc q).killed = false) && x.1.pipe.all (·.readopen)) = some true := by
    decide +kernel
  obtain ⟨⟨tr, k⟩, hr, hall⟩ := Option.map_eq_some_iff.1 hplay
  obtain ⟨hrun, hlabels⟩ := play_run hr
  simp only [follow_eq_some] at hrun
  refine ⟨tr, k, hrun, hlabels, (awake_along_iff start_fresh hrun).2 fun x hx => ?_⟩
  -- nobody is killed, and the read end stays open
  rintro ⟨cur, n, bytes, p, q, -, hp, -, -, hgives, -⟩
  obtain ⟨halive, hopen⟩ := Bool.and_eq_true_iff.1 (List.all_eq_true.1 hall x hx)
  rcases hgives with hkilled | hclosed
  · rw [of_decide_eq_true halive cur] at hkilled
    exact nomatch hkilled
  · rw [hp, Option.all_some, hclosed] at hopen
    exact nomatch hopen

/-- Process 0 waits in `piperead`, process 1 is killed in its call of `write`, and goes on to write
    513 bytes. -/
def strand : List (Event × Io) :=
  [(.piperead 0 1, ⟨[], [], none⟩), (.kill 2, ⟨[], [], none⟩),
    (.pipewrite 1 (List.replicate 513 0), ⟨List.replicate 512 0, [], some (-1)⟩)]

theorem reader_stranded : Start fresh ∧ ∃ tr k, Run Step fresh tr k ∧ tr.map Prod.snd = strand ∧
    ¬ Awake k := by
  refine ⟨start_fresh, ?_⟩
  have hplay : ((play follow fresh strand).map fun r =>
      decide (Asleep r.2.proc 0 nreadChan) && r.2.pipe.any fun p => p.nread != p.nwrite) =
      some true := by
    decide +kernel
  obtain ⟨⟨tr, k⟩, hr, hk⟩ := Option.map_eq_some_iff.1 hplay
  obtain ⟨hrun, hlabels⟩ := play_run hr
  simp only [follow_eq_some] at hrun
  refine ⟨tr, k, hrun, hlabels, fun hawake => ?_⟩
  obtain ⟨hasleep, hany⟩ := Bool.and_eq_true_iff.1 hk
  obtain ⟨p, hp, hne⟩ := (Option.any_eq_true ..).1 hany
  obtain ⟨hempty, -⟩ := hawake.read p hp 0 (of_decide_eq_true hasleep)
  rw [hempty, bne_self_eq_false] at hne
  exact nomatch hne

end Cs350.Pipes
