import Cs350.Spin.Owner
import Mathlib.Tactic.Ring

set_option autoImplicit false

/-! # Kernel code that keeps the rules of spin locks

The callers of `acquire`, `release`, `popcli`, `sched` and of the scheduler's `swtch` have to keep
rules that the panics of these functions only spot-check: `Allowed` states them. If every step keeps
them, no CPU panics, interrupts are off whenever a CPU is inside a critical section or waits for one,
and `ncli` counts exactly the calls that are open. `ptable.lock`, which is handed over in `swtch`, then
protects the states of processes: no process is ever on two CPUs, and none is switched to, or loses
its kernel stack, while a CPU still runs on it. -/

namespace Cs350.Spin

open Transition
open Sched (ProcState)

variable {ι π κ : Type}

/-! ## The rules -/

/-- `p->state = st` on the CPU with record `k`. The entries of `allocproc` and `fork` are written
    without the lock while they are in `EMBRYO`. -/
def WriteAllowed (ptable : κ) (k : Cpu π κ) (p : π) (old : ProcState) (stack : Bool) :
    ProcState → Prop
  | .unused => old = .embryo ∨ ptable ∈ k.held ∧ old = .zombie ∧ k.proc ≠ some p
  | .embryo => ptable ∈ k.held ∧ old = .unused
  | .sleeping | .zombie => ptable ∈ k.held ∧ k.proc = some p ∧ old = .running
  | .runnable =>
      ptable ∈ k.held ∧
        (k.proc = some p ∧ old = .running ∨
          k.proc ≠ some p ∧ (old = .sleeping ∨ old = .embryo ∧ stack = true))
  | .running => False

/-- What the kernel may do next on `c`. -/
def Allowed (ptable : κ) (s : State ι π κ) (c : ι) : Event π κ → Prop
  | .go | .interrupt | .pushcli => True
  | .popcli => 0 < (s.cpu c).bare
  | .acquire lk => lk ∉ (s.cpu c).held
  | .release lk =>
      lk ∈ (s.cpu c).held ∧
        (lk = ptable → ∀ p, (s.cpu c).proc = some p → s.state p = .running)
  | .sched =>
      (s.cpu c).held = {ptable} ∧ (s.cpu c).bare = 0 ∧
        ∀ p, (s.cpu c).proc = some p → s.state p ≠ .running
  | .sti => (s.cpu c).proc = none ∧ (s.cpu c).held = ∅ ∧ (s.cpu c).bare = 0
  | .iret => (s.cpu c).held = ∅ ∧ (s.cpu c).bare = 0
  | .dispatch p =>
      (s.cpu c).held = {ptable} ∧ (s.cpu c).bare = 0 ∧ (s.cpu c).running.below = [] ∧
        s.state p = .runnable
  | .write p st => WriteAllowed ptable (s.cpu c) p (s.state p) (s.context p).isSome st
  | .newStack p => s.state p = .embryo
  | .freeStack p =>
      s.state p = .embryo ∨
        ptable ∈ (s.cpu c).held ∧ s.state p = .zombie ∧ (s.cpu c).proc ≠ some p

section Decidable

variable [DecidableEq ι] [DecidableEq π] [DecidableEq κ] [Fintype π]

instance writeAllowedDecidable (ptable : κ) (k : Cpu π κ) (p : π) (old : ProcState) (stack : Bool) :
    (st : ProcState) → Decidable (WriteAllowed ptable k p old stack st)
  | .unused => inferInstanceAs (Decidable (_ ∨ _ ∧ _ ∧ _))
  | .embryo => inferInstanceAs (Decidable (_ ∧ _))
  | .sleeping | .zombie => inferInstanceAs (Decidable (_ ∧ _ ∧ _))
  | .runnable => inferInstanceAs (Decidable (_ ∧ (_ ∧ _ ∨ _ ∧ (_ ∨ _ ∧ _))))
  | .running => inferInstanceAs (Decidable False)

instance allowedDecidable (ptable : κ) (s : State ι π κ) (c : ι) :
    (e : Event π κ) → Decidable (Allowed ptable s c e)
  | .go | .interrupt | .pushcli => inferInstanceAs (Decidable True)
  | .popcli => inferInstanceAs (Decidable (_ < _))
  | .acquire _ => inferInstanceAs (Decidable (_ ∉ _))
  | .release _ => inferInstanceAs (Decidable (_ ∧ (_ → ∀ _, _ → _)))
  | .sched => inferInstanceAs (Decidable (_ ∧ _ ∧ ∀ _, _ → _))
  | .sti => inferInstanceAs (Decidable (_ ∧ _ ∧ _))
  | .iret => inferInstanceAs (Decidable (_ ∧ _))
  | .dispatch _ => inferInstanceAs (Decidable (_ ∧ _ ∧ _ ∧ _))
  | .write p st => writeAllowedDecidable ptable (s.cpu c) p (s.state p) (s.context p).isSome st
  | .newStack _ => inferInstanceAs (Decidable (_ = _))
  | .freeStack _ => inferInstanceAs (Decidable (_ ∨ _ ∧ _ ∧ _))

end Decidable

/-! ## The invariant of a CPU -/

/-- Counted in `ncli` for a lock that is not yet, or no longer, held. -/
def Pc.counted : Pc κ → Int
  | .acquireLocked _ | .acquireCpu _ | .xchg _ | .popcli => 1
  | _ => 0

/-- What holds of a CPU by the place its thread is at. -/
def Cpu.Place (ptable : κ) (state : π → ProcState) (k : Cpu π κ) : Pc κ → Prop
  | .code | .popcli | .setCpu _ => True
  | .pushcli lk eflags => eflags = k.interrupts ∧ ∀ l, lk = some l → l ∉ k.held
  | .count lk _ => ∀ l, lk = some l → l ∉ k.held
  | .acquireLocked lk | .acquireCpu lk | .xchg lk => lk ∉ k.held
  | .releaseLocked lk | .releaseCpu lk | .clearCpu lk | .clearLocked lk =>
      lk ∈ k.held ∧ (lk = ptable → ∀ p, k.proc = some p → state p = .running)
  | .schedLocked | .schedCpu | .swtch =>
      k.held = {ptable} ∧ k.bare = 0 ∧ ∃ p, k.proc = some p ∧ state p ≠ .running
  | .switched _ => k.held = {ptable} ∧ k.bare = 0 ∧ k.proc ≠ none
  | .panic _ => False

/-- An interrupt that was taken with interrupts on, so outside critical sections. -/
def Pc.Interrupted (pc : Pc κ) : Prop :=
  pc = .code ∨ ∃ lk, pc = .pushcli lk true

/-- A process that has left its CPU for the scheduler and will go on with the lock. -/
def Left (ptable : κ) (k : Cpu π κ) (st : ProcState) : Prop :=
  ptable ∈ k.held ∧ (st = .runnable ∨ st = .sleeping ∨ st = .zombie)

structure Cpu.Ok (ptable : κ) (state : π → ProcState) (k : Cpu π κ) : Prop where
  count : k.ncli = k.held.card + k.bare + k.pc.counted
  off : 0 < k.ncli → k.interrupts = false
  place : k.Place ptable state k.pc
  below : ∀ pc ∈ k.running.below, pc.Interrupted
  scheduler : k.proc ≠ none → k.scheduler = Context.start
  proc : ∀ p, k.proc = some p → state p = .running ∨ Left ptable k (state p)

/-- A saved context: a process that has not run yet, or one in `sched`. -/
def Context.Saved (x : Context κ) : Prop :=
  (x.pc = .code ∨ ∃ intena, x.pc = .switched intena) ∧ ∀ pc ∈ x.below, pc.Interrupted

structure Inv (ptable : κ) (s : State ι π κ) : Prop where
  cpu : ∀ c, (s.cpu c).Ok ptable s.state
  single : ∀ p c d, (s.cpu c).proc = some p → (s.cpu d).proc = some p → c = d
  away : ∀ p c, (s.cpu c).proc = some p → s.context p = none
  saved : ∀ p, s.state p = .runnable ∨ s.state p = .sleeping → s.context p = none →
    ∃ c, (s.cpu c).proc = some p
  context : ∀ p x, s.context p = some x → x.Saved

/-! ## Steps of one CPU -/

namespace Cpu

variable {ptable lk : κ} {state state' : π → ProcState} {k : Cpu π κ} {pc : Pc κ}

theorem Place.congr (hstate : ∀ p, k.proc = some p → state' p = state p)
    (h : k.Place ptable state pc) : k.Place ptable state' pc := by
  cases pc with
  | releaseLocked | releaseCpu | clearCpu | clearLocked =>
      exact ⟨h.1, fun hl p hp => (hstate p hp).trans (h.2 hl p hp)⟩
  | schedLocked | schedCpu | swtch =>
      obtain ⟨hheld, hbare, p, hp, hne⟩ := h
      exact ⟨hheld, hbare, p, hp, (hstate p hp).symm ▸ hne⟩
  | _ => exact h

/-- Only the state of the process on the CPU matters. -/
theorem Ok.congr (h : k.Ok ptable state) (hstate : ∀ p, k.proc = some p → state' p = state p) :
    k.Ok ptable state' :=
  ⟨h.count, h.off, h.place.congr hstate, h.below, h.scheduler,
    fun p hp => (hstate p hp).symm ▸ h.proc p hp⟩

theorem Ok.at (h : k.Ok ptable state) (hpc : k.pc = pc) : k.Place ptable state pc :=
  hpc ▸ h.place

theorem Ok.ncli_eq (h : k.Ok ptable state) (hpc : k.pc = pc) :
    k.ncli = k.held.card + k.bare + pc.counted :=
  hpc ▸ h.count

/-- Interrupts are on only outside critical sections. -/
theorem Ok.of_on (h : k.Ok ptable state) (hon : k.interrupts = true) :
    k.ncli = 0 ∧ k.held = ∅ ∧ k.bare = 0 ∧ k.pc.counted = 0 := by
  have hncli : ¬ 0 < k.ncli := fun hpos => by
    rw [h.off hpos] at hon
    cases hon
  have hcount := h.count
  have hcounted : 0 ≤ k.pc.counted := by
    cases k.pc <;> simp [Pc.counted]
  have hheld : k.held.card = 0 := by omega
  exact ⟨by omega, Finset.card_eq_zero.1 hheld, by omega, by omega⟩

theorem Ok.off_of_mem (h : k.Ok ptable state) (hmem : lk ∈ k.held) : k.interrupts = false := by
  by_contra hon
  have hheld := (h.of_on (by simpa using hon)).2.1
  rw [hheld] at hmem
  cases hmem

/-- To another place of the same function, with nothing else changed. -/
theorem Ok.goto (h : k.Ok ptable state) (hcount : pc.counted = k.pc.counted)
    (hplace : k.Place ptable state pc) : (k.goto pc).Ok ptable state where
  count := by
    rw [pc_goto, hcount]
    exact h.count
  off := h.off
  place := by
    cases pc <;> exact hplace
  below := h.below
  scheduler := h.scheduler
  proc := h.proc

theorem Ok.withMycpu {rest : Cpu π κ} (hoff : k.interrupts = false) (h : rest.Ok ptable state) :
    (k.withMycpu rest).Ok ptable state := by
  rwa [Cpu.withMycpu, if_neg (by simp [hoff])]

theorem Ok.interrupt (h : k.Ok ptable state) (hq : k.Quiet) (hon : k.interrupts = true) :
    k.interrupt.Ok ptable state := by
  obtain ⟨hncli, hheld, hbare, hcounted⟩ := h.of_on hon
  refine ⟨by simp [Cpu.interrupt, hncli, hheld, hbare, Cpu.pc, Pc.counted], fun _ => rfl, trivial, ?_,
    h.scheduler, h.proc⟩
  intro pc hpc
  rcases List.mem_cons.1 hpc with rfl | hpc
  · have hplace := h.place
    have hopen : k.pc.closed = false := by
      by_contra hc
      rw [hq.off (by simpa using hc)] at hon
      cases hon
    cases hat : k.pc with
    | code => exact .inl rfl
    | pushcli lk eflags =>
        rw [hat] at hplace
        exact .inr ⟨lk, by rw [hplace.1, hon]⟩
    | count | acquireLocked | acquireCpu | xchg | setCpu | clearCpu | clearLocked =>
        rw [hat] at hopen
        cases hopen
    | popcli =>
        rw [hat] at hcounted
        cases hcounted
    | releaseLocked | releaseCpu | schedLocked | schedCpu | swtch | switched =>
        rw [hat] at hplace
        have hheld' := hplace.1
        simp [hheld] at hheld'
    | panic =>
        rw [hat] at hplace
        exact hplace.elim
  · exact h.below pc hpc

theorem Ok.iret (h : k.Ok ptable state) (hpc : k.pc = .code) (hheld : k.held = ∅)
    (hbare : k.bare = 0) {x : Context κ} (hx : x.pc.Interrupted) (hbelow : ∀ pc ∈ x.below, pc.Interrupted) :
    ({ k with interrupts := true, running := x } : Cpu π κ).Ok ptable state := by
  have hncli := h.ncli_eq hpc
  simp only [hheld, hbare, Pc.counted, Finset.card_empty] at hncli
  refine ⟨?_, fun hpos => ?_, ?_, hbelow, h.scheduler, fun p hp => ?_⟩
  · rcases hx with hx | ⟨lk, hx⟩ <;> simp [Cpu.pc, hx, Pc.counted, hncli, hheld, hbare]
  · exact absurd hpos (by simp [hncli])
  · rw [show Cpu.pc _ = x.pc from rfl]
    rcases hx with hx | ⟨lk, hx⟩
    · rw [hx]
      trivial
    · rw [hx]
      exact ⟨rfl, fun l _ => by simp [hheld]⟩
  · exact h.proc p hp

theorem Ok.count_none (h : k.Ok ptable state) {eflags : Bool} (hpc : k.pc = .count none eflags)
    (hoff : k.interrupts = false) : (k.count none eflags).Ok ptable state := by
  have hncli := h.ncli_eq hpc
  simp only [Cpu.count]
  split_ifs <;>
    exact ⟨by simp [Cpu.goto, Cpu.pc, Pc.counted, hncli]; ring, fun _ => hoff, trivial, h.below,
      h.scheduler, h.proc⟩

theorem Ok.count_some (h : k.Ok ptable state) {eflags : Bool} (hpc : k.pc = .count (some lk) eflags)
    (hoff : k.interrupts = false) : (k.count (some lk) eflags).Ok ptable state := by
  have hncli := h.ncli_eq hpc
  have hplace : lk ∉ k.held := h.at hpc lk rfl
  simp only [Cpu.count]
  split_ifs <;>
    exact ⟨by simp [Cpu.goto, Cpu.pc, Pc.counted, hncli], fun _ => hoff, hplace, h.below,
      h.scheduler, h.proc⟩

theorem Ok.popcli (h : k.Ok ptable state) (hpc : k.pc = .popcli) : k.popcli.Ok ptable state := by
  have hncli := h.ncli_eq hpc
  simp only [Pc.counted] at hncli
  have hoff := h.off (by omega)
  have hcount : k.ncli - 1 = k.held.card + k.bare + (Pc.code : Pc κ).counted := by
    simp [hncli, Pc.counted]
  simp only [Cpu.popcli, hoff]
  rw [if_neg (by simp), if_neg (by omega)]
  split_ifs with hlast
  · exact ⟨hcount, fun hpos => absurd hpos (by simp [Cpu.goto, hlast.1]), trivial, h.below, h.scheduler,
      h.proc⟩
  · exact ⟨hcount, fun _ => rfl, trivial, h.below, h.scheduler, h.proc⟩

theorem Ok.take [DecidableEq κ] (h : k.Ok ptable state) (hpc : k.pc = .xchg lk)
    (hoff : k.interrupts = false) :
    ({ k with held := insert lk k.held }.goto (.setCpu lk)).Ok ptable state where
  count := by
    have hncli := h.ncli_eq hpc
    have hnew : lk ∉ k.held := h.at hpc
    simp only [Cpu.goto, Cpu.pc, Pc.counted, Finset.card_insert_of_notMem hnew] at hncli ⊢
    push_cast
    omega
  off _ := hoff
  place := trivial
  below := h.below
  scheduler := h.scheduler
  proc p hp := (h.proc p hp).imp_right fun hl => ⟨Finset.mem_insert_of_mem hl.1, hl.2⟩

theorem Ok.drop [DecidableEq κ] (h : k.Ok ptable state) (hpc : k.pc = .clearLocked lk) :
    ({ k with held := k.held.erase lk }.goto .popcli).Ok ptable state where
  count := by
    have hncli := h.ncli_eq hpc
    have hmem : lk ∈ k.held := (h.at hpc).1
    have hcard := Finset.card_erase_add_one hmem
    simp only [Cpu.goto, Cpu.pc, Pc.counted] at hncli ⊢
    omega
  off _ := h.off_of_mem (h.at hpc).1
  place := trivial
  below := h.below
  scheduler := h.scheduler
  proc p hp := by
    rcases h.proc p hp with hrun | hleft
    · exact .inl hrun
    · -- a process gives `ptable.lock` back only while it is `RUNNING`
      by_cases hl : lk = ptable
      · exact .inl ((h.at hpc).2 hl p hp)
      · exact .inr ⟨Finset.mem_erase.2 ⟨Ne.symm hl, hleft.1⟩, hleft.2⟩

end Cpu

/-! ## Steps of the machine -/

section Step

variable [DecidableEq ι] [DecidableEq π] [DecidableEq κ] {ptable : κ} {s s' : State ι π κ} {c : ι}
  {e : Event π κ} {owner : κ → Option ι}

omit [DecidableEq π] [DecidableEq κ] in
@[simp] theorem setCpu_state (k : Cpu π κ) : (s.setCpu c k).state = s.state := rfl

omit [DecidableEq π] [DecidableEq κ] in
theorem Inv.setCpu (h : Inv ptable s) {k : Cpu π κ} (hk : k.Ok ptable s.state)
    (hproc : k.proc = (s.cpu c).proc) : Inv ptable (s.setCpu c k) := by
  have hsame : ∀ d, ((s.setCpu c k).cpu d).proc = (s.cpu d).proc := by
    intro d
    rcases eq_or_ne d c with rfl | hd
    · simpa using hproc
    · simp [hd]
  refine ⟨fun d => ?_, fun p d d' hd hd' => ?_, fun p d hd => ?_, fun p hp hx => ?_, h.context⟩
  · rcases eq_or_ne d c with rfl | hd
    · simpa using hk
    · simpa [hd] using h.cpu d
  · exact h.single p d d' (hsame d ▸ hd) (hsame d' ▸ hd')
  · exact h.away p d (hsame d ▸ hd)
  · obtain ⟨d, hd⟩ := h.saved p hp hx
    exact ⟨d, hsame d ▸ hd⟩

omit [DecidableEq ι] [DecidableEq π] in
theorem Inv.setLock (h : Inv ptable s) (lk : κ) (l : Spinlock ι) : Inv ptable (s.setLock lk l) :=
  ⟨h.cpu, h.single, h.away, h.saved, h.context⟩

omit [DecidableEq ι] [DecidableEq κ] in
theorem Inv.setEntry (h : Inv ptable s) (k : Cpu π κ) : Inv ptable (s.setEntry k) := by
  refine ⟨?_, ?_, ?_, ?_, ?_⟩
  all_goals simp only [setEntry_cpu, setEntry_state, setEntry_context]
  exacts [h.cpu, h.single, h.away, h.saved, h.context]

omit [DecidableEq κ] in
/-- `sched` passes all its tests and leaves the CPU to the scheduler. -/
theorem Inv.swtch (h : Inv ptable s) (hpc : (s.cpu c).pc = .swtch) {p : π}
    (hp : (s.cpu c).proc = some p) : Inv ptable (s.swtch c p) := by
  have hk := h.cpu c
  obtain ⟨hheld, hbare, q, hq, hstate⟩ := hk.at hpc
  obtain rfl : q = p := Option.some.inj (hq.symm.trans hp)
  have hncli := hk.ncli_eq hpc
  simp only [hheld, hbare, Pc.counted, Finset.card_singleton] at hncli
  have hoff := hk.off (by omega)
  have hsched := hk.scheduler (by simp [hp])
  simp only [State.swtch]
  rw [if_neg (by simp [hoff]), if_neg (by omega), if_neg hstate]
  have hproc : ∀ d r, ((s.setCpu c { s.cpu c with proc := none, running := (s.cpu c).scheduler }).cpu
      d).proc = some r → d ≠ c ∧ (s.cpu d).proc = some r := by
    intro d r hd
    rcases eq_or_ne d c with rfl | hne
    · simp at hd
    · exact ⟨hne, by simpa [hne] using hd⟩
  refine ⟨fun d => ?_, fun r d d' hd hd' => ?_, fun r d hd => ?_, fun r hr hx => ?_, fun r x hx => ?_⟩
  · rcases eq_or_ne d c with rfl | hd
    · have hok : ({ s.cpu d with proc := none, running := (s.cpu d).scheduler } : Cpu π κ).Ok ptable
          s.state := by
        rw [hsched]
        exact ⟨by simp [Cpu.pc, Context.start, Pc.counted, hncli, hheld, hbare], fun _ => hoff, trivial,
          by simp [Context.start], by simp, by simp⟩
      simpa using hok
    · simpa [hd] using h.cpu d
  · exact h.single r d d' (hproc d r hd).2 (hproc d' r hd').2
  · obtain ⟨hne, hdr⟩ := hproc d r hd
    have hrp : r ≠ q := by
      rintro rfl
      exact hne (h.single _ d c hdr hp)
    simpa [hrp] using h.away r d hdr
  · have hrp : r ≠ q := by
      rintro rfl
      simp at hx
    obtain ⟨d, hd⟩ := h.saved r hr (by simpa [hrp] using hx)
    have hne : d ≠ c := by
      rintro rfl
      exact hrp (Option.some.inj (hd.symm.trans hp))
    exact ⟨d, by simpa [hne] using hd⟩
  · rcases eq_or_ne r q with rfl | hrp
    · obtain rfl : _ = x := by simpa using hx
      exact ⟨.inr ⟨_, rfl⟩, hk.below⟩
    · exact h.context r x (by simpa [hrp] using hx)

theorem Inv.go (h : Inv ptable s) (hquiet : Quiet s) (howned : Owned owner s.cpu s.lock)
    (hs : s.go ptable c = some s') : Inv ptable s' := by
  have hk := h.cpu c
  have hlocked : ∀ lk, lk ∈ (s.cpu c).held → (s.lock lk).locked = true := fun lk hmem => by
    rw [howned.locked, (howned.held lk c).1 hmem]
    simp
  have hclosed : (s.cpu c).pc.closed = true → (s.cpu c).interrupts = false := (hquiet.cpu c).off
  have hcpu : ∀ lk, (s.cpu c).pc.inside = none →
      ((s.lock lk).cpu = some c ↔ lk ∈ (s.cpu c).held) :=
    fun lk hi => (howned.cpu_iff hi).trans (howned.held lk c).symm
  unfold State.go at hs
  cases hpc : (s.cpu c).pc with
  | code | panic => simp [hpc] at hs
  | pushcli lk eflags =>
      simp only [hpc, Option.some.injEq] at hs
      subst hs
      refine (h.setEntry _).setCpu ?_ (by rw [setEntry_cpu]; rfl)
      rw [setEntry_state]
      exact ⟨(hk.ncli_eq hpc).trans (by simp [Cpu.goto, Cpu.pc, Pc.counted]), fun _ => rfl,
        (hk.at hpc).2, hk.below, hk.scheduler, hk.proc⟩
  | count lk eflags =>
      simp only [hpc, Option.some.injEq] at hs
      subst hs
      have hoff := hclosed (by rw [hpc]; rfl)
      cases lk with
      | none => exact h.setCpu (hk.count_none hpc hoff) (by simp only [Cpu.count]; split_ifs <;> rfl)
      | some lk =>
          exact h.setCpu (hk.count_some hpc hoff) (by simp only [Cpu.count]; split_ifs <;> rfl)
  | acquireLocked lk =>
      simp only [hpc, Option.some.injEq] at hs
      subst hs
      have hplace := hk.at hpc
      refine h.setCpu ?_ rfl
      split
      · exact hk.goto (by rw [hpc]; rfl) hplace
      · exact hk.goto (by rw [hpc]; rfl) hplace
  | acquireCpu lk =>
      simp only [hpc, Option.some.injEq] at hs
      subst hs
      have hplace := hk.at hpc
      have hoff := hclosed (by rw [hpc]; rfl)
      have hne : (s.lock lk).cpu ≠ some c := fun hc => hplace ((hcpu lk (by rw [hpc]; rfl)).1 hc)
      rw [Cpu.withMycpu, if_neg (by simp [hoff]), if_neg hne]
      exact h.setCpu (hk.goto (by rw [hpc]; rfl) hplace) rfl
  | xchg lk =>
      simp only [hpc] at hs
      split at hs
      · obtain rfl := Option.some.inj hs
        exact h
      · obtain rfl := Option.some.inj hs
        exact (h.setLock _ _).setCpu (hk.take hpc (hclosed (by rw [hpc]; rfl))) rfl
  | setCpu lk =>
      simp only [hpc] at hs
      rw [if_neg (by simp [hclosed (by rw [hpc]; rfl)])] at hs
      obtain rfl := Option.some.inj hs
      exact (h.setLock _ _).setCpu (hk.goto (by rw [hpc]; rfl) trivial) rfl
  | releaseLocked lk =>
      simp only [hpc, Option.some.injEq] at hs
      subst hs
      have hplace := hk.at hpc
      rw [if_pos (hlocked lk hplace.1)]
      exact h.setCpu (hk.goto (by rw [hpc]; rfl) hplace) rfl
  | releaseCpu lk =>
      simp only [hpc, Option.some.injEq] at hs
      subst hs
      have hplace := hk.at hpc
      have hmem := hplace.1
      rw [Cpu.withMycpu, if_neg (by simp [hk.off_of_mem hmem]),
        if_pos ((hcpu lk (by rw [hpc]; rfl)).2 hmem)]
      exact h.setCpu (hk.goto (by rw [hpc]; rfl) hplace) rfl
  | clearCpu lk =>
      simp only [hpc, Option.some.injEq] at hs
      subst hs
      have hplace := hk.at hpc
      exact (h.setLock _ _).setCpu (hk.goto (by rw [hpc]; rfl) hplace) rfl
  | clearLocked lk =>
      simp only [hpc, Option.some.injEq] at hs
      subst hs
      exact (h.setLock _ _).setCpu (hk.drop hpc) rfl
  | popcli =>
      simp only [hpc, Option.some.injEq] at hs
      subst hs
      exact h.setCpu (hk.popcli hpc) (by simp only [Cpu.popcli]; split_ifs <;> rfl)
  | schedLocked =>
      simp only [hpc, Option.some.injEq] at hs
      subst hs
      have hplace := hk.at hpc
      have hheld := hplace.1
      rw [if_pos (hlocked ptable (by simp [hheld]))]
      exact h.setCpu (hk.goto (by rw [hpc]; rfl) hplace) rfl
  | schedCpu =>
      simp only [hpc, Option.some.injEq] at hs
      subst hs
      have hplace := hk.at hpc
      have hmem : ptable ∈ (s.cpu c).held := by simp [hplace.1]
      rw [Cpu.withMycpu, if_neg (by simp [hk.off_of_mem hmem]),
        if_pos ((hcpu ptable (by rw [hpc]; rfl)).2 hmem)]
      exact h.setCpu (hk.goto (by rw [hpc]; rfl) hplace) rfl
  | swtch =>
      simp only [hpc] at hs
      obtain ⟨p, hp, rfl⟩ := Option.map_eq_some_iff.1 hs
      exact h.swtch hpc hp
  | switched intena =>
      simp only [hpc, Option.some.injEq] at hs
      subst hs
      refine h.setCpu ⟨?_, hk.off, trivial, hk.below, hk.scheduler, hk.proc⟩ rfl
      exact (hk.ncli_eq hpc).trans (by simp [Cpu.goto, Cpu.pc, Pc.counted])

omit [DecidableEq ι] [DecidableEq π] [DecidableEq κ] in
/-- An entry that is being made, or that the CPU with `ptable.lock` sees out of use, is on no CPU. -/
theorem Inv.absent (h : Inv ptable s) (howned : Owned owner s.cpu s.lock) {p : π}
    (hrun : s.state p ≠ .running)
    (hp : s.state p = .unused ∨ s.state p = .embryo ∨
      ptable ∈ (s.cpu c).held ∧ (s.cpu c).proc ≠ some p) (d : ι) : (s.cpu d).proc ≠ some p := by
  intro hd
  obtain ⟨hheld, hleft⟩ := ((h.cpu d).proc p hd).resolve_left hrun
  rcases hp with hp | hp | ⟨hmem, hne⟩
  · simp [hp] at hleft
  · simp [hp] at hleft
  · have hcd : c = d := Option.some.inj
      (((howned.held ptable c).1 hmem).symm.trans ((howned.held ptable d).1 hheld))
    exact hne (hcd ▸ hd)

omit [DecidableEq ι] [DecidableEq κ] in
/-- A write to an entry that is on no CPU. -/
theorem Inv.writeAway (h : Inv ptable s) {p : π} (habsent : ∀ d, (s.cpu d).proc ≠ some p)
    {st : ProcState} (hst : st = .runnable ∨ st = .sleeping → s.context p ≠ none) :
    Inv ptable { s with state := Function.update s.state p st } := by
  refine ⟨fun d => (h.cpu d).congr fun q hq => ?_, h.single, h.away, fun q hq hx => ?_, h.context⟩
  · have hqp : q ≠ p := by
      rintro rfl
      exact habsent d hq
    simp [hqp]
  · rcases eq_or_ne q p with rfl | hqp
    · exact absurd hx (hst (by simpa using hq))
    · exact h.saved q (by simpa [hqp] using hq) hx

omit [DecidableEq ι] [DecidableEq κ] in
/-- A process that holds `ptable.lock` changes its own state. -/
theorem Inv.writeOwn (h : Inv ptable s) (hpc : (s.cpu c).pc = .code) {p : π}
    (hp : (s.cpu c).proc = some p) {st : ProcState} (hleft : Left ptable (s.cpu c) st) :
    Inv ptable { s with state := Function.update s.state p st } := by
  refine ⟨fun d => ?_, h.single, h.away, fun q hq hx => ?_, h.context⟩
  · by_cases hd : (s.cpu d).proc = some p
    · obtain rfl := h.single p c d hp hd
      have hk := h.cpu c
      refine ⟨hk.count, hk.off, by rw [hpc]; trivial, hk.below, hk.scheduler, fun q hq => ?_⟩
      obtain rfl : q = p := Option.some.inj (hq.symm.trans hp)
      exact .inr (by simpa using hleft)
    · refine (h.cpu d).congr fun q hq => ?_
      have hqp : q ≠ p := by
        rintro rfl
        exact hd hq
      simp [hqp]
  · rcases eq_or_ne q p with rfl | hqp
    · exact ⟨c, hp⟩
    · exact h.saved q (by simpa [hqp] using hq) hx

omit [DecidableEq ι] [DecidableEq κ] in
theorem Inv.write (h : Inv ptable s) (howned : Owned owner s.cpu s.lock)
    (hpc : (s.cpu c).pc = .code) {p : π} {st : ProcState}
    (hallow : WriteAllowed ptable (s.cpu c) p (s.state p) (s.context p).isSome st) :
    Inv ptable { s with state := Function.update s.state p st } := by
  cases st with
  | running => exact hallow.elim
  | unused =>
      rcases hallow with hold | ⟨hmem, hold, hne⟩
      · exact h.writeAway (h.absent (c := c) howned (by simp [hold]) (.inr (.inl hold))) (by simp)
      · exact h.writeAway (h.absent howned (by simp [hold]) (.inr (.inr ⟨hmem, hne⟩))) (by simp)
  | embryo =>
      obtain ⟨hmem, hold⟩ := hallow
      exact h.writeAway (h.absent (c := c) howned (by simp [hold]) (.inl hold)) (by simp)
  | sleeping | zombie =>
      obtain ⟨hmem, hp, hold⟩ := hallow
      exact h.writeOwn hpc hp ⟨hmem, by simp⟩
  | runnable =>
      obtain ⟨hmem, ⟨hp, hold⟩ | ⟨hne, hold | ⟨hold, hstack⟩⟩⟩ := hallow
      · exact h.writeOwn hpc hp ⟨hmem, by simp⟩
      · have habsent := h.absent howned (by simp [hold]) (.inr (.inr ⟨hmem, hne⟩))
        refine h.writeAway habsent fun _ hx => ?_
        obtain ⟨d, hd⟩ := h.saved p (.inr hold) hx
        exact habsent d hd
      · exact h.writeAway (h.absent howned (by simp [hold]) (.inr (.inr ⟨hmem, hne⟩))) fun _ hx => by
          simp [hx] at hstack

omit [DecidableEq ι] [DecidableEq κ] in
/-- The context of an entry that no CPU runs, and that no CPU may switch to, can be replaced. -/
theorem Inv.setContext (h : Inv ptable s) {p : π} (habsent : ∀ d, (s.cpu d).proc ≠ some p)
    (hstate : s.state p = .embryo ∨ s.state p = .zombie) {x : Option (Context κ)}
    (hx : ∀ y, x = some y → y = Context.start) :
    Inv ptable { s with context := Function.update s.context p x } := by
  refine ⟨h.cpu, h.single, fun q d hd => ?_, fun q hq hy => ?_, fun q y hy => ?_⟩
  · have hqp : q ≠ p := by
      rintro rfl
      exact habsent d hd
    simpa [hqp] using h.away q d hd
  · have hqp : q ≠ p := by
      rintro rfl
      rcases hstate with hp | hp <;> simp [hp] at hq
    exact h.saved q hq (by simpa [hqp] using hy)
  · rcases eq_or_ne q p with rfl | hqp
    · obtain rfl := hx y (by simpa using hy)
      exact ⟨.inl rfl, by simp [Context.start]⟩
    · exact h.context q y (by simpa [hqp] using hy)

/-- The scheduler that holds `ptable.lock` finds a `RUNNABLE` process off every CPU. -/
theorem Inv.dispatch (h : Inv ptable s) (howned : Owned owner s.cpu s.lock)
    (hpc : (s.cpu c).pc = .code) (hnone : (s.cpu c).proc = none) {p : π}
    (hallow : Allowed ptable s c (.dispatch p)) {x : Context κ} (hx : s.context p = some x) :
    Inv ptable (s.dispatch c p x) := by
  obtain ⟨hheld, hbare, hbelow, hstate⟩ := hallow
  have hk := h.cpu c
  have habsent := h.absent howned (c := c) (p := p) (by simp [hstate])
    (.inr (.inr ⟨by simp [hheld], by simp [hnone]⟩))
  have hncli := hk.ncli_eq hpc
  simp only [hheld, hbare, Pc.counted, Finset.card_singleton] at hncli
  have hsaved := h.context p x hx
  have hother : ∀ d, d ≠ c → ((s.dispatch c p x).cpu d) = s.cpu d := fun d hd => by
    simp [State.dispatch, hd]
  have hself : (s.dispatch c p x).cpu c =
      { s.cpu c with proc := some p, running := x, scheduler := (s.cpu c).running } := by
    simp [State.dispatch]
  have hproc : ∀ d q, ((s.dispatch c p x).cpu d).proc = some q →
      d = c ∧ q = p ∨ d ≠ c ∧ q ≠ p ∧ (s.cpu d).proc = some q := by
    intro d q hd
    rcases eq_or_ne d c with rfl | hne
    · rw [hself] at hd
      exact .inl ⟨rfl, (Option.some.inj hd).symm⟩
    · rw [hother d hne] at hd
      refine .inr ⟨hne, ?_, hd⟩
      rintro rfl
      exact habsent d hd
  refine ⟨fun d => ?_, fun q d d' hd hd' => ?_, fun q d hd => ?_, fun q hq hy => ?_, fun q y hy => ?_⟩
  · rcases eq_or_ne d c with rfl | hne
    · rw [hself]
      refine ⟨?_, fun _ => hk.off (by omega), ?_, hsaved.2, fun _ => ?_, fun q hq => ?_⟩
      · rcases hsaved.1 with hx | ⟨b, hx⟩ <;> simp [Cpu.pc, hx, Pc.counted, hncli, hheld, hbare]
      · rw [show Cpu.pc _ = x.pc from rfl]
        rcases hsaved.1 with hx | ⟨b, hx⟩
        · rw [hx]
          trivial
        · rw [hx]
          exact ⟨hheld, hbare, by simp⟩
      · have hrunning : (s.cpu d).running = ⟨(s.cpu d).pc, (s.cpu d).running.below⟩ := rfl
        rw [hrunning, hpc, hbelow]
        rfl
      · obtain rfl : p = q := Option.some.inj hq
        exact .inl (by simp [State.dispatch])
    · rw [hother d hne]
      refine (h.cpu d).congr fun q hq => ?_
      have hqp : q ≠ p := by
        rintro rfl
        exact habsent d hq
      simp [State.dispatch, hqp]
  · rcases hproc d q hd with ⟨rfl, hq⟩ | ⟨hne, hq, hd⟩ <;>
      rcases hproc d' q hd' with ⟨rfl, hq'⟩ | ⟨hne', hq', hd'⟩
    · rfl
    · exact absurd hq hq'
    · exact absurd hq' hq
    · exact h.single q d d' hd hd'
  · rcases hproc d q hd with ⟨rfl, rfl⟩ | ⟨hne, hq, hd⟩
    · simp [State.dispatch]
    · simpa [State.dispatch, hq] using h.away q d hd
  · have hqp : q ≠ p := by
      rintro rfl
      simp [State.dispatch] at hq
    obtain ⟨d, hd⟩ := h.saved q (by simpa [State.dispatch, hqp] using hq)
      (by simpa [State.dispatch, hqp] using hy)
    have hne : d ≠ c := by
      rintro rfl
      rw [hnone] at hd
      cases hd
    exact ⟨d, (congrArg Cpu.proc (hother d hne)).trans hd⟩
  · rcases eq_or_ne q p with rfl | hqp
    · simp [State.dispatch] at hy
    · exact h.context q y (by simpa [State.dispatch, hqp] using hy)

theorem Inv.call (h : Inv ptable s) (howned : Owned owner s.cpu s.lock)
    (hpc : (s.cpu c).pc = .code) (hallow : Allowed ptable s c e) (hs : s.call c e = some s') :
    Inv ptable s' := by
  have hk := h.cpu c
  have hncli := hk.ncli_eq hpc
  have hzero : (Pc.code : Pc κ).counted = (s.cpu c).pc.counted := by rw [hpc]
  cases e with
  | go | interrupt => simp [State.call] at hs
  | pushcli =>
      obtain rfl := Option.some.inj hs
      exact h.setCpu (hk.goto hzero ⟨rfl, by simp⟩) rfl
  | popcli =>
      obtain rfl := Option.some.inj hs
      have hbare : 0 < (s.cpu c).bare := hallow
      simp only [Pc.counted] at hncli
      exact h.setCpu ⟨by simp only [Cpu.goto, Cpu.pc, Pc.counted]; omega, hk.off, trivial, hk.below,
        hk.scheduler, hk.proc⟩ rfl
  | acquire lk =>
      obtain rfl := Option.some.inj hs
      refine h.setCpu (hk.goto hzero ⟨rfl, fun l hl => ?_⟩) rfl
      obtain rfl := Option.some.inj hl
      exact hallow
  | release lk =>
      obtain rfl := Option.some.inj hs
      exact h.setCpu (hk.goto hzero hallow) rfl
  | sched =>
      simp only [State.call] at hs
      split at hs
      · cases hs
      · next hsome =>
          obtain rfl := Option.some.inj hs
          obtain ⟨p, hp⟩ := Option.ne_none_iff_exists'.1 hsome
          obtain ⟨hheld, hbare, hstate⟩ := hallow
          exact h.setCpu (hk.goto hzero ⟨hheld, hbare, p, hp, hstate p hp⟩) rfl
  | sti =>
      obtain rfl := Option.some.inj hs
      obtain ⟨-, hheld, hbare⟩ := hallow
      refine h.setCpu (hk.iret hpc hheld hbare (.inl ?_) hk.below) rfl
      exact hpc
  | iret =>
      obtain ⟨hheld, hbare⟩ := hallow
      simp only [State.call] at hs
      split at hs
      · next pc below hbelow =>
          obtain rfl := Option.some.inj hs
          have hall := hk.below
          rw [hbelow] at hall
          exact h.setCpu (hk.iret hpc hheld hbare (hall pc List.mem_cons_self)
            fun pc hmem => hall pc (List.mem_cons_of_mem _ hmem)) rfl
      · split at hs
        · cases hs
        · obtain rfl := Option.some.inj hs
          exact h.setCpu (hk.iret hpc hheld hbare (.inl hpc) hk.below) rfl
  | dispatch p =>
      simp only [State.call] at hs
      split at hs
      · next hnone =>
          obtain ⟨x, hx, rfl⟩ := Option.map_eq_some_iff.1 hs
          exact h.dispatch howned hpc hnone hallow hx
      · cases hs
  | write p st =>
      obtain rfl := Option.some.inj hs
      exact h.write howned hpc hallow
  | newStack p =>
      obtain rfl := Option.some.inj hs
      have hstate : s.state p = .embryo := hallow
      refine h.setContext (h.absent (c := c) howned (by simp [hstate]) (.inr (.inl hstate)))
        (.inl hstate) fun y hy => (Option.some.inj hy).symm
  | freeStack p =>
      obtain rfl := Option.some.inj hs
      rcases hallow with hstate | ⟨hmem, hstate, hne⟩
      · exact h.setContext (h.absent (c := c) howned (by simp [hstate]) (.inr (.inl hstate)))
          (.inl hstate) (by simp)
      · exact h.setContext (h.absent howned (by simp [hstate]) (.inr (.inr ⟨hmem, hne⟩)))
          (.inr hstate) (by simp)

theorem Inv.step (h : Inv ptable s) (hquiet : Quiet s) (howned : Owned owner s.cpu s.lock)
    (hallow : Allowed ptable s c e) (hs : s.step ptable c e = some s') : Inv ptable s' := by
  cases e with
  | go => exact h.go hquiet howned hs
  | interrupt =>
      simp only [State.step] at hs
      split at hs
      · next hon =>
          obtain rfl := Option.some.inj hs
          exact h.setCpu ((h.cpu c).interrupt (hquiet.cpu c) hon) rfl
      · cases hs
  | _ =>
      simp only [State.step] at hs
      split at hs
      · next hpc => exact h.call howned hpc hallow hs
      · cases hs

omit [DecidableEq ι] [DecidableEq π] [DecidableEq κ] in
theorem start_inv : Inv ptable (State.start : State ι π κ) where
  cpu _ := ⟨by simp [State.start, Cpu.pc, Context.start, Pc.counted], fun _ => rfl, trivial,
    by simp [State.start, Context.start], by simp [State.start], by simp [State.start]⟩
  single p c d h := by cases h
  away p c h := by cases h
  saved p h := by simp [State.start] at h
  context p x h := by cases h

variable {tr : List (State ι π κ × (ι × Event π κ))}

theorem run_inv (hrun : Run (State.Move ptable) (State.start : State ι π κ) tr s)
    (hallow : ∀ x ∈ tr, Allowed ptable x.1 x.2.1 x.2.2) :
    Quiet s ∧ (∃ owner, Owned owner s.cpu s.lock) ∧ Inv ptable s := by
  refine (hrun.invariant_of_steps (C := fun s a => Allowed ptable s a.1 a.2)
    (I := fun s => Quiet s ∧ (∃ owner, Owned owner s.cpu s.lock) ∧ Inv ptable s)
    ⟨start_quiet, ⟨_, start_owned⟩, start_inv⟩ ?_ hallow).2
  rintro s a s' ⟨hq, ⟨owner, howned⟩, h⟩ hallow hs
  obtain ⟨owner', -, howned'⟩ := howned.step (step_stepped hq hs)
  exact ⟨hq.step hs, ⟨owner', howned'⟩, h.step hq howned hallow hs⟩

/-! ## Critical sections -/

/-- Only `swtch` leaves the thread. -/
theorem go_thread (hpc : (s.cpu c).pc ≠ .swtch) (hs : s.go ptable c = some s') :
    (s'.cpu c).proc = (s.cpu c).proc ∧ (s'.cpu c).running.below = (s.cpu c).running.below := by
  have hwith : ∀ k rest : Cpu π κ, rest.proc = k.proc ∧ rest.running.below = k.running.below →
      (k.withMycpu rest).proc = k.proc ∧ (k.withMycpu rest).running.below = k.running.below := by
    intro k rest h
    unfold Cpu.withMycpu
    split
    · exact ⟨rfl, rfl⟩
    · exact h
  unfold State.go at hs
  cases hat : (s.cpu c).pc with
  | swtch => exact absurd hat hpc
  | code | panic => simp [hat] at hs
  | xchg lk | setCpu lk =>
      simp only [hat] at hs
      split at hs <;> obtain rfl := Option.some.inj hs <;> simp [Cpu.goto, Cpu.panic]
  | acquireCpu | releaseCpu | schedCpu =>
      simp only [hat, Option.some.injEq] at hs
      subst hs
      rw [setCpu_cpu, Function.update_self]
      exact hwith _ _ (by split <;> exact ⟨rfl, rfl⟩)
  | count lk eflags =>
      simp only [hat, Option.some.injEq] at hs
      subst hs
      simp only [setCpu_cpu, Function.update_self, Cpu.count]
      split_ifs <;> cases lk <;> exact ⟨rfl, rfl⟩
  | popcli =>
      simp only [hat, Option.some.injEq] at hs
      subst hs
      simp only [setCpu_cpu, Function.update_self, Cpu.popcli]
      split_ifs <;> exact ⟨rfl, rfl⟩
  | _ =>
      simp only [hat, Option.some.injEq] at hs
      subst hs
      rw [setCpu_cpu, Function.update_self]
      first
        | exact ⟨rfl, rfl⟩
        | split <;> exact ⟨rfl, rfl⟩

/-- A critical section of any lock but `ptable.lock` is neither interrupted nor left. -/
theorem Inv.thread (h : Inv ptable s) {lk : κ} (hmem : lk ∈ (s.cpu c).held) (hlk : lk ≠ ptable)
    (hallow : Allowed ptable s c e) (hs : s.step ptable c e = some s') :
    (s'.cpu c).proc = (s.cpu c).proc ∧ (s'.cpu c).running.below = (s.cpu c).running.below := by
  have hother : (s.cpu c).held ≠ {ptable} := fun hheld => by
    rw [hheld, Finset.mem_singleton] at hmem
    exact hlk hmem
  have hne : (s.cpu c).held ≠ ∅ := fun hheld => by
    rw [hheld] at hmem
    cases hmem
  cases e with
  | go =>
      refine go_thread (fun hpc => ?_) hs
      exact hother ((h.cpu c).at hpc).1
  | interrupt =>
      simp only [State.step] at hs
      rw [if_neg (by simp [(h.cpu c).off_of_mem hmem])] at hs
      cases hs
  | dispatch => exact absurd hallow.1 hother
  | iret => exact absurd hallow.1 hne
  | sti => exact absurd hallow.2.1 hne
  | sched => exact absurd hallow.1 hother
  | _ =>
      simp only [State.step] at hs
      split at hs
      · obtain rfl := Option.some.inj hs
        simp [Cpu.goto]
      · cases hs

/-- What the kernel relies on inside critical sections. -/
structure Critical (ptable : κ) (s : State ι π κ) : Prop where
  no_panic : ∀ c m, (s.cpu c).pc ≠ .panic m
  alone : ∀ lk c d, lk ∈ (s.cpu c).held → lk ∈ (s.cpu d).held → c = d
  off : ∀ c, (s.cpu c).held ≠ ∅ ∨ 0 < (s.cpu c).bare → (s.cpu c).interrupts = false
  /-- `ncli` counts the locks of the CPU, its own calls of `pushcli`, and the call in progress -/
  count : ∀ c, (s.cpu c).ncli = (s.cpu c).held.card + (s.cpu c).bare + (s.cpu c).pc.counted
  /-- a CPU spins with interrupts off, and never for a lock of its own -/
  spin : ∀ c lk, (s.cpu c).pc = .xchg lk → (s.cpu c).interrupts = false ∧ lk ∉ (s.cpu c).held
  /-- with a lock other than `ptable.lock` the CPU goes on with the same thread -/
  thread : ∀ c lk e s', lk ∈ (s.cpu c).held → lk ≠ ptable → Allowed ptable s c e →
    s.step ptable c e = some s' →
    (s'.cpu c).proc = (s.cpu c).proc ∧ (s'.cpu c).running.below = (s.cpu c).running.below

/-- **Callers that keep the rules.** However the CPUs and interrupts interleave, no CPU panics, a lock
    is inside one critical section at a time, and no interrupt handler runs in it. -/
theorem critical_sections (hrun : Run (State.Move ptable) (State.start : State ι π κ) tr s)
    (hallow : ∀ x ∈ tr, Allowed ptable x.1 x.2.1 x.2.2) : Critical ptable s := by
  obtain ⟨hquiet, ⟨owner, howned⟩, h⟩ := run_inv hrun hallow
  refine ⟨fun c m hpc => (h.cpu c).at hpc, fun lk c d hc hd => ?_, fun c hc => ?_,
    fun c => (h.cpu c).count, fun c lk hpc => ⟨?_, (h.cpu c).at hpc⟩,
    fun c lk e s' hmem hlk hallow hs => h.thread hmem hlk hallow hs⟩
  · rw [howned.held] at hc hd
    exact Option.some.inj (hc.symm.trans hd)
  · by_contra hon
    obtain ⟨-, hheld, hbare, -⟩ := (h.cpu c).of_on (by simpa using hon)
    exact hc.elim (· hheld) fun hpos => Nat.ne_of_gt hpos hbare
  · exact (hquiet.cpu c).off (by rw [hpc]; rfl)

/-- A call of `acquire` that does not have to wait. -/
def acquires (c : Bool) : List (Bool × Event Unit Unit) :=
  (c, .acquire ()) :: List.replicate 5 (c, .go)

def releases (c : Bool) : List (Bool × Event Unit Unit) :=
  (c, .release ()) :: List.replicate 5 (c, .go)

/-- One CPU makes the first process, runs it to its first timer interrupt and switches back to the
    scheduler; the other CPU then runs the process. -/
def migration : List (Bool × Event Unit Unit) :=
  acquires false ++ [(false, .write () .embryo)] ++ releases false ++ [(false, .newStack ())] ++
    acquires false ++ [(false, .write () .runnable)] ++ releases false ++
    [(false, .sti)] ++ acquires false ++ [(false, .dispatch ())] ++ releases false ++
    [(false, .iret), (false, .interrupt)] ++ acquires false ++ [(false, .write () .runnable)] ++
    (false, .sched) :: List.replicate 3 (false, .go) ++ releases false ++
    [(true, .sti)] ++ acquires true ++ [(true, .dispatch ()), (true, .go)]

theorem critical_sections_migration : ∃ tr s,
    Run (State.Move ()) (State.start : State Bool Unit Unit) tr s ∧
      tr.map Prod.snd = migration ∧ Critical () s := by
  have hplays : ((play (fun (s : State Bool Unit Unit) a => s.step () a.1 a.2) State.start
      migration).map fun r => decide (∀ x ∈ r.1, Allowed () x.1 x.2.1 x.2.2)) = some true := by
    decide +kernel
  obtain ⟨⟨tr, s⟩, hplay, hallow⟩ := Option.map_eq_some_iff.1 hplays
  obtain ⟨hrun, hlabels⟩ := play_run hplay
  exact ⟨tr, s, hrun, hlabels, critical_sections hrun (of_decide_eq_true hallow)⟩

/-! ## Processes -/

/-- What `ptable.lock` is for. -/
structure OneCpu (ptable : κ) (s : State ι π κ) : Prop where
  single : ∀ p c d, (s.cpu c).proc = some p → (s.cpu d).proc = some p → c = d
  /-- a scheduler that may run a process finds it off every CPU, with its context saved -/
  dispatch : ∀ c p, (s.cpu c).pc = .code → (s.cpu c).proc = none → Allowed ptable s c (.dispatch p) →
    (∀ d, (s.cpu d).proc ≠ some p) ∧ (s.step ptable c (.dispatch p)).isSome = true
  /-- no CPU is on a kernel stack that is freed -/
  freeStack : ∀ c p, Allowed ptable s c (.freeStack p) → ∀ d, (s.cpu d).proc ≠ some p

theorem process_on_one_cpu (hrun : Run (State.Move ptable) (State.start : State ι π κ) tr s)
    (hallow : ∀ x ∈ tr, Allowed ptable x.1 x.2.1 x.2.2) : OneCpu ptable s := by
  obtain ⟨-, ⟨owner, howned⟩, h⟩ := run_inv hrun hallow
  refine ⟨h.single, fun c p hpc hnone ⟨hheld, hbare, hbelow, hstate⟩ => ?_, fun c p hfree => ?_⟩
  · have habsent := h.absent howned (c := c) (p := p) (by simp [hstate])
      (.inr (.inr ⟨by simp [hheld], by simp [hnone]⟩))
    refine ⟨habsent, ?_⟩
    have hsaved : s.context p ≠ none := fun hx => by
      obtain ⟨d, hd⟩ := h.saved p (.inl hstate) hx
      exact habsent d hd
    obtain ⟨x, hx⟩ := Option.ne_none_iff_exists'.1 hsaved
    simp [State.step, State.call, hpc, hnone, hx]
  · rcases hfree with hstate | ⟨hmem, hstate, hne⟩
    · exact h.absent (c := c) howned (by simp [hstate]) (.inr (.inl hstate))
    · exact h.absent howned (by simp [hstate]) (.inr (.inr ⟨hmem, hne⟩))

theorem process_on_one_cpu_migration : ∃ tr s,
    Run (State.Move ()) (State.start : State Bool Unit Unit) tr s ∧
      tr.map Prod.snd = migration ∧ (s.cpu true).proc = some () ∧ OneCpu () s := by
  have hplays : ((play (fun (s : State Bool Unit Unit) a => s.step () a.1 a.2) State.start
      migration).map fun r => decide ((r.2.cpu true).proc = some () ∧
        ∀ x ∈ r.1, Allowed () x.1 x.2.1 x.2.2)) = some true := by
    decide +kernel
  obtain ⟨⟨tr, s⟩, hplay, hchecks⟩ := Option.map_eq_some_iff.1 hplays
  obtain ⟨hproc, hallow⟩ := of_decide_eq_true hchecks
  obtain ⟨hrun, hlabels⟩ := play_run hplay
  exact ⟨tr, s, hrun, hlabels, hproc, process_on_one_cpu hrun hallow⟩

end Step

end Cs350.Spin
