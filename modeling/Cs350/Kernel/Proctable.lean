import Cs350.Kernel.Steps

set_option autoImplicit false

/-! # The process table over whole runs -/

namespace Cs350.Kernel

open Sched Transition

section Run

variable {ι : Type} [DecidableEq ι] {k k' : State ι} {tr : List (State ι × Event ι)}

/-- The number of processes created in a run, not counting the first. -/
def created (tr : List (State ι × Event ι)) : Nat := tr.countP fun x => creates x.1 x.2

/-! ## The counter of pids -/

theorem waitLoop_globals (k : State ι) (c : ι) (cur : Slot) :
    (k.waitLoop c cur).initproc = k.initproc ∧ (k.waitLoop c cur).nextpid = k.nextpid := by
  unfold State.waitLoop
  split <;> exact ⟨rfl, rfl⟩

omit [DecidableEq ι] in
theorem allocproc_initproc (k : State ι) (cur : Slot) :
    (k.allocproc cur).initproc = k.initproc := by
  unfold State.allocproc
  split <;> rfl

/-- `initproc` is set once, and only `allocproc` hands out pids. -/
theorem step_globals {e : Event ι} (hs : Step k e k') :
    k'.initproc = k.initproc ∧ ((∀ c, e ≠ .allocproc c) → k'.nextpid = k.nextpid) := by
  cases step_moves hs with
  | @allocproc c cur hc =>
      exact ⟨allocproc_initproc k cur, fun hne => absurd rfl (hne c)⟩
  | @again c cur hlock hcpu hpc =>
      obtain ⟨hinit, hnext⟩ := waitLoop_globals
        { k with proc := k.proc.modify cur fun q => { q with chan := none } } c cur
      exact ⟨hinit, fun _ => hnext⟩
  | @wait c cur hc => exact ⟨(waitLoop_globals k c cur).1, fun _ => (waitLoop_globals k c cur).2⟩
  | _ => exact ⟨rfl, fun _ => rfl⟩

omit [DecidableEq ι] in
theorem nextpid_allocproc (h : Pids k) (cur : Slot)
    (hbound : ∀ p, (k.proc p).state = .unused → k.nextpid + 1 < 2 ^ 31) :
    (k.allocproc cur).nextpid =
      k.nextpid + if ∃ p, (k.proc p).state = .unused then 1 else 0 := by
  unfold State.allocproc
  split
  next hnone =>
    rw [if_neg, Int.add_zero]
    rintro ⟨p, hp⟩
    have hno := List.find?_eq_none.1 hnone p (mem_slots p)
    simp [hp] at hno
  next p hfind =>
    have hp : (k.proc p).state = .unused := by simpa using List.find?_some hfind
    have hpos := h.next
    have hlt := hbound p hp
    rw [if_pos ⟨p, hp⟩]
    exact Int.bmod_eq_of_le (by omega) (by omega)

/-- A new process takes the next pid; nothing else does. -/
theorem nextpid_step {e : Event ι} (h : Pids k) (hs : Step k e k')
    (hbound : creates k e → k.nextpid + 1 < 2 ^ 31) :
    k'.nextpid = k.nextpid + if creates k e then 1 else 0 := by
  by_cases halloc : ∃ c, e = .allocproc c
  · obtain ⟨c, rfl⟩ := halloc
    obtain ⟨cur, hc, rfl⟩ := Option.map_eq_some_iff.1 hs
    have hiff : creates k (.allocproc c) ↔ ∃ p, (k.proc p).state = .unused := by
      simp [creates, hc]
    rw [nextpid_allocproc h cur fun p hp => hbound (hiff.2 ⟨p, hp⟩)]
    simp only [hiff]
  · have hno : creates k e = false := by
      unfold creates
      split
      next c => exact absurd ⟨c, rfl⟩ halloc
      next => rfl
    rw [(step_globals hs).2 fun c hc => halloc ⟨c, hc⟩, hno]
    simp

/-! ## Runs -/

omit [DecidableEq ι] in
theorem boot_inv {b : Prop} : Inv b (boot ι) := by
  have hfree : ∀ p, ((boot ι).proc p).state ≠ .unused → p = 0 := by
    intro p hp
    by_contra hne
    simp [boot, hne] at hp
  refine ⟨⟨fun p => ?_, fun c c' p hc => (nomatch hc), fun c hc => (nomatch hc)⟩,
    fun _ => ⟨fun p hp => ?_, fun p q hp hq _ => ?_, Int.ofNat_lt.2 (Nat.zero_lt_two)⟩,
    ⟨?_, fun p hp hs => ?_⟩,
    ⟨fun p np hn => ?_, fun p np hn => ?_, fun p q np hn => ?_, fun p np hc => nomatch hc⟩⟩
  · by_cases hp : p = 0 <;> simp [boot, hp]
  · rw [hfree p hp]
    simp [boot]
  · rw [hfree p hp, hfree q hq]
  · simp [boot, Live]
  · exact absurd (hfree p hs.1) hp
  · exact absurd hn (not_names_user np)
  · exact absurd hn (not_names_user np)
  · exact absurd hn (not_names_user np)

theorem run_inv (hrun : Run Step (boot ι) tr k) (hbound : created tr + 2 < 2 ^ 31) :
    Along (Inv True) tr k ∧ k.nextpid = 2 + (created tr : Int) := by
  induction hrun with
  | nil => exact ⟨⟨by simp, boot_inv⟩, rfl⟩
  | @snoc tr k k' e hrun hs ih =>
      have hcount : created (tr ++ [(k, e)]) = created tr + if creates k e then 1 else 0 := by
        simp [created, List.countP_append, List.countP_singleton]
      have hle : created tr ≤ created (tr ++ [(k, e)]) := by omega
      obtain ⟨⟨hall, hinv⟩, hnext⟩ := ih (by omega)
      have hstep : creates k e → k.nextpid + 1 < 2 ^ 31 := by
        intro hc
        rw [if_pos hc] at hcount
        rw [hnext]
        omega
      refine ⟨⟨fun x hx => ?_, hinv.step hs fun _ => hstep⟩, ?_⟩
      · rcases List.mem_append.1 hx with hx | hx
        · exact hall x hx
        · rw [List.mem_singleton.1 hx]
          exact hinv
      · rw [nextpid_step (hinv.pids trivial) hs hstep, hnext, hcount]
        split_ifs <;> simp [Int.add_assoc]

/-- What the table and the CPUs satisfy while nobody holds the lock. -/
structure TableOk (k : State ι) : Prop where
  onCpu : ∀ p, (k.proc p).state = .running → ∃! c, k.cpu c = some p
  running : ∀ c p, k.cpu c = some p → (k.proc p).state = .running
  pids : ∀ p, (k.proc p).state ≠ .unused → 0 < (k.proc p).pid ∧ (k.proc p).pid < k.nextpid
  distinct : ∀ p q, (k.proc p).state ≠ .unused → (k.proc q).state ≠ .unused →
    (k.proc p).pid = (k.proc q).pid → p = q
  parents : ∀ p, p ≠ k.initproc →
    (k.proc p).state ∈ [.sleeping, .runnable, .running, .zombie] →
    ∃ q, (k.proc p).parent = some q ∧ (k.proc q).state ≠ .unused ∧ (k.proc q).state ≠ .zombie

omit [DecidableEq ι] in
theorem Inv.tableOk (h : Inv True k) : TableOk k where
  onCpu p hp := by
    obtain ⟨c, hc⟩ := (h.cpus.run p).1 hp
    exact ⟨c, hc, fun d hd => h.cpus.inj d c p hd hc⟩
  running c p hc := (h.cpus.run p).2 ⟨c, hc⟩
  pids := (h.pids trivial).range
  distinct := (h.pids trivial).inj
  parents p hp hs := by
    have hsettled : Settled (k.proc p) := by
      unfold Settled
      simp only [List.mem_cons, List.not_mem_nil, or_false] at hs
      grind
    obtain ⟨q, hq, hl⟩ := h.family.parent p hp hsettled
    refine ⟨q, hq, ?_⟩
    unfold Live at hl
    grind

/-- **The process table.** Whatever the CPUs do and in whatever order, as long as fewer than
    `2^31 - 1` processes have been created, the first included, the table is in order whenever
    `ptable.lock` is free. -/
theorem table_in_order (hrun : Run Step (boot ι) tr k) (hbound : created tr + 1 < 2 ^ 31 - 1) :
    Along (fun k => k.lock = .free → TableOk k) tr k := by
  obtain ⟨hall, hlast⟩ := (run_inv hrun (by omega)).1
  exact ⟨fun x hx _ => (hall x hx).tableOk, fun _ => hlast.tableOk⟩

end Run

/-- On two CPUs, the first process forks a second, which runs and exits, and is
    found by the first. -/
def forkExitWait : List (Event (Fin 2)) :=
  [.acquire 0, .resume 0, .resume 0, .setMode true, .allocproc 0, .forkParent 0, .forkDone 0,
    .acquire 1, .resume 1, .exit 1, .resume 1, .wait 0]

theorem table_in_order_fork_exit_wait :
    ∃ tr k, Run Step (boot (Fin 2)) tr k ∧ tr.map Prod.snd = forkExitWait ∧
      Along (fun k => k.lock = .free → TableOk k) tr k := by
  have hplay : (play State.next (boot (Fin 2)) forkExitWait).isSome := by decide +kernel
  obtain ⟨⟨tr, k⟩, hrun⟩ := Option.isSome_iff_exists.1 hplay
  obtain ⟨hrun, hevents⟩ := play_run hrun
  refine ⟨tr, k, hrun, hevents, table_in_order hrun ?_⟩
  have hlen : tr.length = forkExitWait.length := by rw [← hevents, List.length_map]
  have hle : created tr ≤ tr.length := List.countP_le_length
  have hsmall : forkExitWait.length = 12 := rfl
  omega

end Cs350.Kernel
