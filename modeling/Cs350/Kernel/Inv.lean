import Cs350.Kernel.Defs

set_option autoImplicit false

/-! # The process table as a whole

What holds between any two steps: the RUNNING processes are those on the CPUs, the pids in use are
distinct, every process has a parent that has not exited, and every EMBRYO is in the hands of one
`fork`. -/

namespace Cs350.Kernel

open Sched Transition

theorem modify_apply (t : Table) (p : Slot) (f : Proc → Proc) (q : Slot) :
    t.modify p f q = if q = p then f (t p) else t q :=
  Function.update_apply ..

/-! ## What `exit` does to the table -/

/-- A process may have been woken, and its parent may be another. -/
structure Woken (a b : Proc) : Prop where
  pid : b.pid = a.pid
  chan : b.chan = a.chan
  killed : b.killed = a.killed
  state : b.state = a.state ∨ a.state = .sleeping ∧ b.state = .runnable

/-- The process sleeps in `wait`. -/
def Asleep (t : Table) (p : Slot) : Prop := (t p).state = .sleeping ∧ (t p).chan = some (.proc p)

section Woken

variable {a b d : Proc} {t t' : Table} {p : Slot}

theorem Woken.refl (a : Proc) : Woken a a :=
  ⟨rfl, rfl, rfl, Or.inl rfl⟩

theorem Woken.trans (h : Woken a b) (h' : Woken b d) : Woken a d := by
  refine ⟨h'.pid.trans h.pid, h'.chan.trans h.chan, h'.killed.trans h.killed, ?_⟩
  rcases h.state with hs | ⟨hs, hr⟩
  · rw [← hs]
    exact h'.state
  · rcases h'.state with hs' | ⟨hs', -⟩
    · exact Or.inr ⟨hs, hs'.trans hr⟩
    · rw [hr] at hs'
      exact nomatch hs'

theorem Woken.asleep (h : Woken (t p) (t' p)) (hp : Asleep t' p) : Asleep t p := by
  refine ⟨?_, h.chan ▸ hp.2⟩
  rcases h.state with hs | ⟨hs, -⟩
  · exact hs ▸ hp.1
  · exact hs

theorem woken_wakeup1 (chan : Chan) (t : Table) (p : Slot) : Woken (t p) (wakeup1 chan t p) := by
  simp only [wakeup1]
  split_ifs with h
  · exact ⟨rfl, rfl, rfl, Or.inr ⟨h.1, rfl⟩⟩
  · exact Woken.refl _

theorem wakeup1_parent (chan : Chan) (t : Table) (p : Slot) :
    (wakeup1 chan t p).parent = (t p).parent := by
  simp only [wakeup1]
  split_ifs <;> rfl

theorem not_asleep_wakeup1 (t : Table) (p : Slot) : ¬ Asleep (wakeup1 (.proc p) t) p := by
  rintro ⟨hs, hc⟩
  have hwas : (t p).state = .sleeping ∧ (t p).chan = some (.proc p) :=
    (woken_wakeup1 (.proc p) t p).asleep ⟨hs, hc⟩
  simp only [wakeup1, if_pos hwas] at hs
  exact nomatch hs

end Woken

section Exit

variable (cur init : Slot)

theorem exitStep_apply (t : Table) (q p : Slot) :
    Woken (t p) (exitStep cur init t q p) ∧
      (exitStep cur init t q p).parent =
        if p = q ∧ (t p).parent = some cur then some init else (t p).parent := by
  have hmod : ∀ p, Woken (t p) (t.modify q (fun a => { a with parent := some init }) p) := by
    intro p
    rw [modify_apply]
    split_ifs with hpq
    · exact ⟨by rw [hpq], by rw [hpq], by rw [hpq], Or.inl (by rw [hpq])⟩
    · exact Woken.refl _
  have hpar : (t q).parent = some cur →
      (t.modify q (fun a => { a with parent := some init }) p).parent =
        if p = q ∧ (t p).parent = some cur then some init else (t p).parent := by
    intro hq
    rw [modify_apply]
    by_cases hpq : p = q
    · simp [hpq, hq]
    · simp [hpq]
  unfold exitStep
  by_cases hq : (t q).parent = some cur
  · rw [if_pos hq]
    split
    · exact ⟨(hmod p).trans (woken_wakeup1 _ _ p), (wakeup1_parent _ _ p).trans (hpar hq)⟩
    · exact ⟨hmod p, hpar hq⟩
  · rw [if_neg hq]
    refine ⟨Woken.refl _, (if_neg ?_).symm⟩
    rintro ⟨rfl, hp⟩
    exact hq hp

theorem exitFold_apply (l : List Slot) (t : Table) (p : Slot) :
    Woken (t p) (l.foldl (exitStep cur init) t p) ∧
      (l.foldl (exitStep cur init) t p).parent =
        if p ∈ l ∧ (t p).parent = some cur then some init else (t p).parent := by
  induction l generalizing t with
  | nil => exact ⟨Woken.refl _, by simp⟩
  | cons q l ih =>
      obtain ⟨hw, hp⟩ := exitStep_apply cur init t q p
      obtain ⟨hw', hp'⟩ := ih (exitStep cur init t q)
      refine ⟨hw.trans hw', ?_⟩
      rw [List.foldl_cons, hp', hp]
      grind

/-- A child that has exited already makes `init` look for it. -/
theorem exitFold_wakes (l : List Slot) (t : Table) {q : Slot} (hq : q ∈ l)
    (hpar : (t q).parent = some cur) (hz : (t q).state = .zombie) :
    ¬ Asleep (l.foldl (exitStep cur init) t) init := by
  induction l generalizing t with
  | nil => exact absurd hq List.not_mem_nil
  | cons r l ih =>
      obtain ⟨hw, hp⟩ := exitStep_apply cur init t r q
      by_cases hqr : q = r
      · subst hqr
        intro hasleep
        refine not_asleep_wakeup1 (t.modify q fun a => { a with parent := some init }) init ?_
        have hstep : exitStep cur init t q =
            wakeup1 (.proc init) (t.modify q fun a => { a with parent := some init }) := by
          simp only [exitStep]
          rw [if_pos hpar, if_pos (by rw [modify_apply, if_pos rfl]; exact hz)]
        rw [List.foldl_cons, hstep] at hasleep
        exact (exitFold_apply cur init l _ init).1.asleep hasleep
      · refine ih (exitStep cur init t r) ?_ ?_ ?_
        · exact (List.mem_cons.1 hq).resolve_left hqr
        · rw [hp, if_neg (fun h => hqr h.1), hpar]
        · rcases hw.state with hs | ⟨hs, -⟩
          · rw [hs, hz]
          · rw [hz] at hs
            exact nomatch hs

/-- The table after `wakeup1(curproc->parent)`. -/
def exitWake (cur : Slot) (t : Table) : Table :=
  match (t cur).parent with
  | none => t
  | some parent => wakeup1 (.proc parent) t

theorem exitTable_eq (t : Table) :
    exitTable cur init t = (slots.foldl (exitStep cur init) (exitWake cur t)).modify cur
      fun q => { q with state := .zombie } := rfl

theorem exitWake_apply (t : Table) (p : Slot) :
    Woken (t p) (exitWake cur t p) ∧ (exitWake cur t p).parent = (t p).parent := by
  unfold exitWake
  cases (t cur).parent with
  | none => exact ⟨Woken.refl _, rfl⟩
  | some parent => exact ⟨woken_wakeup1 _ t p, wakeup1_parent _ t p⟩

/-- Every process keeps its state or is woken, except the one that exits, and the children of that
    one go to `init`. -/
theorem exitTable_apply (t : Table) (p : Slot) :
    ∃ b, Woken (t p) b ∧
      b.parent = (if (t p).parent = some cur then some init else (t p).parent) ∧
      exitTable cur init t p = if p = cur then { b with state := .zombie } else b := by
  obtain ⟨hw, hpar⟩ := exitWake_apply cur t p
  obtain ⟨hw', hpar'⟩ := exitFold_apply cur init slots (exitWake cur t) p
  refine ⟨_, hw.trans hw', ?_, ?_⟩
  · rw [hpar', hpar]
    simp [mem_slots]
  · rw [exitTable_eq, modify_apply]
    by_cases hpc : p = cur
    · rw [if_pos hpc, if_pos hpc, hpc]
    · rw [if_neg hpc, if_neg hpc]

end Exit

/-! ## The invariant -/

/-- SLEEPING, RUNNABLE or RUNNING. -/
def Live (a : Proc) : Prop := a.state = .sleeping ∨ a.state = .runnable ∨ a.state = .running

/-- The process is in `fork` with `np` as its new entry. -/
def Pc.Names (pc : Pc) (np : Slot) : Prop := pc = .forking np ∨ pc = .copied np

/-- SLEEPING, RUNNABLE, RUNNING or ZOMBIE. -/
def Settled (a : Proc) : Prop := a.state ≠ .unused ∧ a.state ≠ .embryo

section Inv

variable {ι : Type}

/-- The RUNNING processes are those on the CPUs, each on one. -/
structure Cpus (k : State ι) : Prop where
  run : ∀ p, (k.proc p).state = .running ↔ ∃ c, k.cpu c = some p
  inj : ∀ c c' p, k.cpu c = some p → k.cpu c' = some p → c = c'
  idle : ∀ c, k.lock = .scheduler c → k.cpu c = none

/-- The pids in use are distinct, and have been handed out. -/
structure Pids (k : State ι) : Prop where
  range : ∀ p, (k.proc p).state ≠ .unused → 0 < (k.proc p).pid ∧ (k.proc p).pid < k.nextpid
  inj : ∀ p q, (k.proc p).state ≠ .unused → (k.proc q).state ≠ .unused →
    (k.proc p).pid = (k.proc q).pid → p = q
  next : 0 < k.nextpid

/-- Every process but `init` has a parent that lives. -/
structure Family (k : State ι) : Prop where
  init : Live (k.proc k.initproc)
  parent : ∀ p, p ≠ k.initproc → Settled (k.proc p) →
    ∃ q, (k.proc p).parent = some q ∧ Live (k.proc q)

/-- The new entry of a `fork` is an EMBRYO, and that of no other. -/
structure Forks (k : State ι) : Prop where
  embryo : ∀ p np, (k.pc p).Names np → (k.proc np).state = .embryo
  active : ∀ p np, (k.pc p).Names np → (k.proc p).Active
  inj : ∀ p q np, (k.pc p).Names np → (k.pc q).Names np → p = q
  copied : ∀ p np, k.pc p = .copied np → (k.proc np).parent = some p

/-- All of this; the part about pids only if `b`, which stands for a bound on their number. -/
structure Inv (b : Prop) (k : State ι) : Prop where
  cpus : Cpus k
  pids : b → Pids k
  family : Family k
  forks : Forks k

variable {k k' : State ι}

theorem Cpus.congr (h : Cpus k)
    (hrun : ∀ p, (k'.proc p).state = .running ↔ (k.proc p).state = .running)
    (hcpu : k'.cpu = k.cpu) (hidle : ∀ c, k'.lock = .scheduler c → k.cpu c = none) : Cpus k' :=
  ⟨fun p => by rw [hrun, h.run, hcpu], by rw [hcpu]; exact h.inj, by rw [hcpu]; exact hidle⟩

theorem Cpus.dispatch [DecidableEq ι] (h : Cpus k) {c : ι} {p : Slot} (hc : k.cpu c = none)
    (hp : (k.proc p).state = .runnable)
    (hrun : ∀ q, (k'.proc q).state = .running ↔ q = p ∨ (k.proc q).state = .running)
    (hcpu : k'.cpu = Function.update k.cpu c (some p)) (hlock : k'.lock = .process c) :
    Cpus k' := by
  have hout : ∀ d, k.cpu d ≠ some p := by
    intro d hd
    have hr := (h.run p).2 ⟨d, hd⟩
    rw [hp] at hr
    exact nomatch hr
  have hsome : ∀ d q, k'.cpu d = some q ↔ (d = c ∧ q = p) ∨ k.cpu d = some q := by
    intro d q
    rw [hcpu]
    by_cases hd : d = c
    · subst hd
      rw [Function.update_self, hc]
      simp [eq_comm]
    · rw [Function.update_of_ne hd]
      simp [hd]
  refine ⟨fun q => ?_, fun d d' q hd hd' => ?_, fun d hd => ?_⟩
  · rw [hrun, h.run]
    simp only [hsome]
    grind
  · rw [hsome] at hd hd'
    rcases hd with ⟨hdc, hq⟩ | hd <;> rcases hd' with ⟨hdc', hq'⟩ | hd'
    · rw [hdc, hdc']
    · exact absurd (hq ▸ hd') (hout d')
    · exact absurd (hq' ▸ hd) (hout d)
    · exact h.inj d d' q hd hd'
  · rw [hlock] at hd
    exact nomatch hd

theorem Cpus.leave [DecidableEq ι] (h : Cpus k) {c : ι} {cur : Slot} (hc : k.cpu c = some cur)
    (hrun : ∀ q, (k'.proc q).state = .running ↔ q ≠ cur ∧ (k.proc q).state = .running)
    (hcpu : k'.cpu = Function.update k.cpu c none) (hlock : k'.lock = .scheduler c) :
    Cpus k' := by
  have hsome : ∀ d q, k'.cpu d = some q ↔ d ≠ c ∧ k.cpu d = some q := by
    intro d q
    rw [hcpu]
    by_cases hd : d = c
    · subst hd
      rw [Function.update_self]
      simp
    · rw [Function.update_of_ne hd]
      simp [hd]
  refine ⟨fun q => ?_, fun d d' q hd hd' => ?_, fun d hd => ?_⟩
  · rw [hrun, h.run]
    simp only [hsome]
    constructor
    · rintro ⟨hq, d, hd⟩
      refine ⟨d, fun hdc => hq ?_, hd⟩
      rw [hdc, hc] at hd
      exact (Option.some.inj hd).symm
    · rintro ⟨d, hdc, hd⟩
      refine ⟨fun hq => hdc (h.inj d c cur (hq ▸ hd) hc), d, hd⟩
  · rw [hsome] at hd hd'
    exact h.inj d d' q hd.2 hd'.2
  · rw [hlock] at hd
    cases hd
    rw [hcpu, Function.update_self]

theorem Pids.congr (h : Pids k) (hsame : ∀ p, (k'.proc p).state ≠ .unused →
      (k.proc p).state ≠ .unused ∧ (k'.proc p).pid = (k.proc p).pid)
    (hnext : k'.nextpid = k.nextpid) : Pids k' := by
  refine ⟨fun p hp => ?_, fun p q hp hq heq => ?_, by rw [hnext]; exact h.next⟩
  · obtain ⟨hu, hpid⟩ := hsame p hp
    rw [hpid, hnext]
    exact h.range p hu
  · obtain ⟨hup, hpp⟩ := hsame p hp
    obtain ⟨huq, hpq⟩ := hsame q hq
    exact h.inj p q hup huq (by rw [← hpp, heq, hpq])

theorem Family.congr (h : Family k) (hlive : ∀ p, Live (k.proc p) → Live (k'.proc p))
    (hsame : ∀ p, Settled (k'.proc p) →
      Settled (k.proc p) ∧ (k'.proc p).parent = (k.proc p).parent)
    (hinit : k'.initproc = k.initproc) : Family k' := by
  refine ⟨by rw [hinit]; exact hlive _ h.init, fun p hp hs => ?_⟩
  obtain ⟨hs, hpar⟩ := hsame p hs
  obtain ⟨q, hq, hl⟩ := h.parent p (by rwa [← hinit]) hs
  exact ⟨q, hpar.trans hq, hlive q hl⟩

theorem Forks.congr (h : Forks k) (hpc : ∀ p np, (k'.pc p).Names np → k'.pc p = k.pc p)
    (hembryo : ∀ p np, (k.pc p).Names np → (k.proc np).state = .embryo →
      (k'.proc np).state = .embryo)
    (hactive : ∀ p np, (k'.pc p).Names np → (k.proc p).Active → (k'.proc p).Active)
    (hparent : ∀ p np, k.pc p = .copied np → (k.proc np).state = .embryo →
      (k'.proc np).parent = (k.proc np).parent) : Forks k' := by
  refine ⟨fun p np hn => ?_, fun p np hn => ?_, fun p q np hp hq => ?_, fun p np hc => ?_⟩
  · have hn' := hpc p np hn ▸ hn
    exact hembryo p np hn' (h.embryo p np hn')
  · have hn' := hpc p np hn ▸ hn
    exact hactive p np hn (h.active p np hn')
  · exact h.inj p q np (hpc p np hp ▸ hp) (hpc q np hq ▸ hq)
  · have hn : (k'.pc p).Names np := Or.inr hc
    have hc' : k.pc p = .copied np := hpc p np hn ▸ hc
    rw [hparent p np hc' (h.embryo p np (Or.inr hc')), h.copied p np hc']

end Inv

end Cs350.Kernel
