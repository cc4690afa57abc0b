import Cs350.Kernel.Inv

set_option autoImplicit false

/-! # Every step keeps the process table in order -/

namespace Cs350.Kernel

open Sched Transition

section Changes

variable {ι : Type} {k k' : State ι} {p np cur : Slot} {b : Prop}

/-- Sleepers may be woken; otherwise nothing that the invariant speaks about changes. -/
theorem Inv.awaken (h : Inv b k)
    (hstate : ∀ p, (k'.proc p).state = (k.proc p).state ∨
      (k.proc p).state = .sleeping ∧ (k'.proc p).state = .runnable)
    (hpid : ∀ p, (k'.proc p).pid = (k.proc p).pid)
    (hparent : ∀ p, (k'.proc p).parent = (k.proc p).parent)
    (hpc : ∀ p np, (k'.pc p).Names np → k'.pc p = k.pc p) (hcpu : k'.cpu = k.cpu)
    (hidle : ∀ c, k'.lock = .scheduler c → k.cpu c = none) (hnext : k'.nextpid = k.nextpid)
    (hinit : k'.initproc = k.initproc) : Inv b k' where
  cpus := h.cpus.congr (fun p => by rcases hstate p with hs | hs <;> grind) hcpu hidle
  pids hb := (h.pids hb).congr (fun p _ => ⟨by rcases hstate p with hs | hs <;> grind, hpid p⟩) hnext
  family := by
    refine h.family.congr (fun p hl => ?_) (fun p hs => ⟨?_, hparent p⟩) hinit
    · unfold Live at *
      rcases hstate p with hs | hs <;> grind
    · unfold Settled at *
      rcases hstate p with hs | hs <;> grind
  forks := by
    refine h.forks.congr hpc (fun p np _ he => ?_) (fun p np _ ha => ?_) fun _ np _ _ => hparent np
    · rcases hstate np with hs | hs <;> grind
    · unfold Proc.Active at *
      rcases hstate p with hs | hs <;> grind

theorem Inv.quiet (h : Inv b k) (hstate : ∀ p, (k'.proc p).state = (k.proc p).state)
    (hpid : ∀ p, (k'.proc p).pid = (k.proc p).pid)
    (hparent : ∀ p, (k'.proc p).parent = (k.proc p).parent) (hpc : k'.pc = k.pc)
    (hcpu : k'.cpu = k.cpu) (hidle : ∀ c, k'.lock = .scheduler c → k.cpu c = none)
    (hnext : k'.nextpid = k.nextpid) (hinit : k'.initproc = k.initproc) : Inv b k' :=
  h.awaken (fun p => Or.inl (hstate p)) hpid hparent (fun p _ _ => by rw [hpc]) hcpu hidle hnext
    hinit

/-- The lock is released. -/
theorem Inv.release (h : Inv b k) : Inv b { k with lock := .free } :=
  h.quiet (fun _ => rfl) (fun _ => rfl) (fun _ => rfl) rfl rfl (fun _ hc => nomatch hc) rfl rfl

theorem Inv.setPc (h : Inv b k) {pc : Pc} (hpc : ∀ np, ¬ pc.Names np) : Inv b (k.setPc p pc) := by
  refine h.awaken (fun _ => Or.inl rfl) (fun _ => rfl) (fun _ => rfl) (fun q np hn => ?_) rfl
    h.cpus.idle rfl rfl
  by_cases hq : q = p
  · subst hq
    simp only [State.setPc, Function.update_self] at hn
    exact absurd hn (hpc np)
  · exact Function.update_of_ne hq ..

variable [DecidableEq ι] {c : ι}

theorem Inv.dispatch (h : Inv b k) (hc : k.cpu c = none) (hp : (k.proc p).state = .runnable)
    {f : Proc → Proc} (hrun : ∀ a, (f a).state = .running) (hpid : ∀ a, (f a).pid = a.pid)
    (hparent : ∀ a, (f a).parent = a.parent) : Inv b (k.dispatch c p f) := by
  have happly : ∀ q, (k.dispatch c p f).proc q = if q = p then f (k.proc p) else k.proc q :=
    modify_apply k.proc p f
  refine ⟨h.cpus.dispatch hc hp (fun q => ?_) rfl rfl, fun hb => (h.pids hb).congr (fun q hq => ?_) rfl,
    h.family.congr (fun q hq => ?_) (fun q hq => ?_) rfl,
    h.forks.congr (fun _ _ _ => rfl) (fun r q _ hq => ?_) (fun q _ _ hq => ?_) fun _ q _ hq => ?_⟩
  all_goals
    simp only [happly, Live, Settled, Proc.Active] at *
    by_cases hqp : q = p <;> grind

theorem Inv.leave (h : Inv b k) (hc : k.cpu c = some cur) {f : Proc → Proc}
    (hstate : ∀ a, (f a).state = .runnable ∨ (f a).state = .sleeping)
    (hpid : ∀ a, (f a).pid = a.pid) (hparent : ∀ a, (f a).parent = a.parent)
    (hpc : ∀ a np, (k.pc cur).Names np → (f a).state = .runnable) : Inv b (k.leave c cur f) := by
  have happly : ∀ q, (k.leave c cur f).proc q = if q = cur then f (k.proc cur) else k.proc q :=
    modify_apply k.proc cur f
  have hrun : (k.proc cur).state = .running := (h.cpus.run cur).2 ⟨c, hc⟩
  refine ⟨h.cpus.leave hc (fun q => ?_) rfl rfl, fun hb => (h.pids hb).congr (fun q hq => ?_) rfl,
    h.family.congr (fun q hq => ?_) (fun q hq => ?_) rfl,
    h.forks.congr (fun _ _ _ => rfl) (fun r q _ hq => ?_) (fun q np hn hq => ?_) fun _ q _ hq => ?_⟩
  all_goals
    simp only [happly, Live, Settled, Proc.Active] at *
    have hs := hstate (k.proc cur)
    by_cases hqp : q = cur <;> grind [State.leave]

omit [DecidableEq ι] in
/-- An exited child is reaped. -/
theorem Inv.reap (h : Inv b k) (hz : (k.proc p).state = .zombie) :
    Inv b { k with proc := k.proc.modify p Proc.reap } := by
  refine ⟨h.cpus.congr (fun q => ?_) rfl h.cpus.idle, fun hb => (h.pids hb).congr (fun q hq => ?_) rfl,
    h.family.congr (fun q hq => ?_) (fun q hq => ?_) rfl,
    h.forks.congr (fun _ _ _ => rfl) (fun r q _ hq => ?_) (fun q _ _ hq => ?_) fun _ q _ hq => ?_⟩
  all_goals
    simp only [modify_apply, Proc.reap, Live, Settled, Proc.Active] at *
    by_cases hqp : q = p <;> grind

/-- `exit`: the children go to `init`, which lives. -/
theorem Inv.exit (h : Inv b k) (hc : k.cpu c = some cur) (hne : cur ≠ k.initproc)
    (hpc : k.pc cur = .user) :
    Inv b { k with
      proc := exitTable cur k.initproc k.proc
      cpu := Function.update k.cpu c none
      lock := .scheduler c } := by
  have hrun : (k.proc cur).state = .running := (h.cpus.run cur).2 ⟨c, hc⟩
  have happly := exitTable_apply cur k.initproc k.proc
  have hstate : ∀ q, q ≠ cur → (exitTable cur k.initproc k.proc q).state = (k.proc q).state ∨
      (k.proc q).state = .sleeping ∧ (exitTable cur k.initproc k.proc q).state = .runnable := by
    intro q hq
    obtain ⟨b, hb, -, heq⟩ := happly q
    rw [heq, if_neg hq]
    exact hb.state
  have hzombie : (exitTable cur k.initproc k.proc cur).state = .zombie := by
    obtain ⟨b, -, -, heq⟩ := happly cur
    rw [heq, if_pos rfl]
  have hpid : ∀ q, (exitTable cur k.initproc k.proc q).pid = (k.proc q).pid := by
    intro q
    obtain ⟨b, hb, -, heq⟩ := happly q
    rw [heq]
    split_ifs <;> exact hb.pid
  have hparent : ∀ q, (exitTable cur k.initproc k.proc q).parent =
      if (k.proc q).parent = some cur then some k.initproc else (k.proc q).parent := by
    intro q
    obtain ⟨b, -, hb, heq⟩ := happly q
    rw [← hb, heq]
    by_cases hq : q = cur
    · rw [if_pos hq]
    · rw [if_neg hq]
  have hlive : ∀ q, q ≠ cur → Live (k.proc q) → Live (exitTable cur k.initproc k.proc q) := by
    intro q hq hl
    unfold Live at *
    rcases hstate q hq with hs | hs <;> grind
  refine ⟨h.cpus.leave hc (fun q => ?_) rfl rfl, fun hb => (h.pids hb).congr (fun q hq => ?_) rfl,
    ⟨?_, ?_⟩,
    h.forks.congr (fun _ _ _ => rfl) (fun r q _ he => ?_) (fun q np hn ha => ?_) fun p q hp _ => ?_⟩
  · by_cases hq : q = cur
    · subst hq
      simp [hzombie]
    · rcases hstate q hq with hs | hs <;> grind
  · refine ⟨?_, hpid q⟩
    by_cases hqc : q = cur
    · rw [hqc, hrun]
      decide
    · rcases hstate q hqc with hs | hs <;> grind
  · exact hlive _ hne.symm h.family.init
  · intro q hq hs
    -- a child of the exiting process gets `init`, the others keep a parent that lives on
    show ∃ r, (exitTable cur k.initproc k.proc q).parent = some r ∧
      Live (exitTable cur k.initproc k.proc r)
    rw [hparent]
    by_cases hchild : (k.proc q).parent = some cur
    · rw [if_pos hchild]
      exact ⟨_, rfl, hlive _ hne.symm h.family.init⟩
    · rw [if_neg hchild]
      have hsettled : Settled (k.proc q) := by
        unfold Settled at *
        by_cases hqc : q = cur
        · rw [hqc, hrun]
          decide
        · rcases hstate q hqc with hs' | hs' <;> grind
      obtain ⟨r, hr, hl⟩ := h.family.parent q hq hsettled
      exact ⟨r, hr, hlive r (fun hrc => hchild (hrc ▸ hr)) hl⟩
  · by_cases hqc : q = cur
    · rw [hqc, hrun] at he
      exact nomatch he
    · rcases hstate q hqc with hs | hs <;> grind
  · have hqc : q ≠ cur := by
      rintro rfl
      rcases hn with hn | hn <;> rw [hpc] at hn <;> exact nomatch hn
    unfold Proc.Active at *
    rcases hstate q hqc with hs | hs <;> grind
  · show (exitTable cur k.initproc k.proc q).parent = (k.proc q).parent
    have hq : (k.proc q).parent = some p := h.forks.copied p q hp
    rw [hparent, if_neg]
    rw [hq]
    rintro heq
    rw [Option.some.inj heq, hpc] at hp
    exact nomatch hp

omit [DecidableEq ι] in
theorem Pids.alloc (h : Pids k) (hnext : int32 (k.nextpid + 1) = k.nextpid + 1) :
    Pids (State.setPc { k with
      proc := k.proc.modify p (·.alloc k.nextpid)
      nextpid := int32 (k.nextpid + 1) } cur (.forking p)) := by
  have hpos := h.next
  refine ⟨fun q hq => ?_, fun q r hq hr heq => ?_, ?_⟩
  · simp only [State.setPc, modify_apply, Proc.alloc, hnext] at *
    have hr := h.range q
    by_cases hqp : q = p <;> grind
  · simp only [State.setPc, modify_apply, Proc.alloc] at *
    have hrq := h.range q
    have hrr := h.range r
    have hinj := h.inj q r
    by_cases hqp : q = p <;> by_cases hrp : r = p <;> grind
  · show 0 < int32 (k.nextpid + 1)
    rw [hnext]
    omega

omit [DecidableEq ι] in
/-- The caller of `allocproc` is in `fork` now, for the new entry. -/
theorem Forks.alloc (h : Forks k) (hcur : (k.proc cur).state = .running)
    (hp : (k.proc p).state = .unused) :
    Forks (State.setPc { k with
      proc := k.proc.modify p (·.alloc k.nextpid)
      nextpid := int32 (k.nextpid + 1) } cur (.forking p)) := by
  have hne : cur ≠ p := by
    rintro rfl
    rw [hcur] at hp
    exact nomatch hp
  -- no other process is in `fork` for this entry
  have hfresh : ∀ q np, (k.pc q).Names np → np ≠ p := by
    rintro q np hn rfl
    have hnp := h.embryo q np hn
    rw [hp] at hnp
    exact nomatch hnp
  have hnames : ∀ q np, ((State.setPc { k with
        proc := k.proc.modify p (·.alloc k.nextpid)
        nextpid := int32 (k.nextpid + 1) } cur (.forking p)).pc q).Names np →
      q = cur ∧ np = p ∨ q ≠ cur ∧ (k.pc q).Names np := by
    intro q np hn
    by_cases hq : q = cur
    · subst hq
      simp only [State.setPc, Function.update_self, Pc.Names] at hn
      grind
    · simp only [State.setPc, Function.update_of_ne hq] at hn
      exact Or.inr ⟨hq, hn⟩
  have hold : ∀ q, q ≠ p → (State.setPc { k with
        proc := k.proc.modify p (·.alloc k.nextpid)
        nextpid := int32 (k.nextpid + 1) } cur (.forking p)).proc q = k.proc q := fun q hq =>
    Table.modify_of_ne (t := k.proc) hq (·.alloc k.nextpid)
  refine ⟨fun q np hn => ?_, fun q np hn => ?_, fun q r np hq hr => ?_, fun q np hc => ?_⟩
  · rcases hnames q np hn with ⟨-, rfl⟩ | ⟨-, hn⟩
    · simp [State.setPc, Proc.alloc]
    · rw [hold np (hfresh q np hn)]
      exact h.embryo q np hn
  · rcases hnames q np hn with ⟨rfl, -⟩ | ⟨-, hn⟩
    · rw [hold q hne]
      exact Or.inr hcur
    · have ha := h.active q np hn
      have hqp : q ≠ p := by
        rintro rfl
        rcases ha with ha | ha <;> rw [hp] at ha <;> exact nomatch ha
      rw [hold q hqp]
      exact ha
  · rcases hnames q np hq with ⟨hqc, hnp⟩ | ⟨-, hq'⟩ <;>
      rcases hnames r np hr with ⟨hrc, hnp'⟩ | ⟨-, hr'⟩
    · rw [hqc, hrc]
    · exact absurd hnp (hfresh r np hr')
    · exact absurd hnp' (hfresh q np hq')
    · exact h.inj q r np hq' hr'
  · have hqc : q ≠ cur := by
      rintro rfl
      simp [State.setPc] at hc
    simp only [State.setPc, Function.update_of_ne hqc] at hc
    rw [hold np (hfresh q np (Or.inr hc))]
    exact h.copied q np hc

omit [DecidableEq ι] in
/-- `allocproc`: a fresh pid for an entry that was not in use. -/
theorem Inv.allocproc (h : Inv b k) (hcur : (k.proc cur).state = .running)
    (hbound : b → ∀ p, (k.proc p).state = .unused → k.nextpid + 1 < 2 ^ 31) :
    Inv b (k.allocproc cur) := by
  unfold State.allocproc
  split
  next => exact h
  next p hfind =>
    have hp : (k.proc p).state = .unused := by simpa using List.find?_some hfind
    refine ⟨h.cpus.congr (fun q => ?_) rfl h.cpus.idle, fun hb => (h.pids hb).alloc ?_,
      h.family.congr (fun q hq => ?_) (fun q hq => ?_) rfl, h.forks.alloc hcur hp⟩
    · simp only [State.setPc, modify_apply, Proc.alloc]
      by_cases hqp : q = p <;> grind
    · have hpos := (h.pids hb).next
      have hlt := hbound hb p hp
      exact Int.bmod_eq_of_le (by omega) (by omega)
    · simp only [State.setPc, modify_apply, Proc.alloc, Live] at *
      by_cases hqp : q = p <;> grind
    · simp only [State.setPc, modify_apply, Proc.alloc, Settled] at *
      by_cases hqp : q = p <;> grind

omit [DecidableEq ι] in
/-- `np->parent = curproc`. -/
theorem Inv.forkParent (h : Inv b k) (hpc : k.pc cur = .forking np) :
    Inv b (State.setPc { k with
      proc := k.proc.modify np fun q => { q with parent := some cur } } cur (.copied np)) := by
  have hnp : (k.proc np).state = .embryo := h.forks.embryo cur np (Or.inl hpc)
  have hstate : ∀ q, (k.proc.modify np (fun q => { q with parent := some cur }) q).state =
      (k.proc q).state := by
    intro q
    rw [modify_apply]
    split_ifs with hq
    · rw [hq]
    · rfl
  have hnames : ∀ q r, ((Function.update k.pc cur (.copied np)) q).Names r → (k.pc q).Names r := by
    intro q r hn
    by_cases hq : q = cur
    · subst hq
      rw [Function.update_self] at hn
      rw [hpc]
      unfold Pc.Names at *
      grind
    · rwa [Function.update_of_ne hq] at hn
  refine ⟨h.cpus.congr (fun q => ?_) rfl h.cpus.idle, fun hb => (h.pids hb).congr (fun q hq => ?_) rfl,
    h.family.congr (fun q hq => ?_) (fun q hq => ?_) rfl, ⟨fun q r hn => ?_, fun q r hn => ?_,
      fun q r s hq hr => ?_, fun q r hc => ?_⟩⟩
  all_goals simp only [State.setPc, Live, Settled, Proc.Active, hstate] at *
  · refine ⟨hq, ?_⟩
    rw [modify_apply]
    split_ifs with hqn
    · rw [hqn]
    · rfl
  · exact hq
  · refine ⟨hq, ?_⟩
    rw [Table.modify_of_ne]
    rintro rfl
    exact hq.2 hnp
  · exact h.forks.embryo q r (hnames q r hn)
  · exact h.forks.active q r (hnames q r hn)
  · exact h.forks.inj q r s (hnames q s hq) (hnames r s hr)
  · by_cases hq : q = cur
    · subst hq
      rw [Function.update_self] at hc
      cases hc
      rw [Table.modify_self]
    · rw [Function.update_of_ne hq] at hc
      have hr : r ≠ np := by
        rintro rfl
        exact hq (h.forks.inj q cur r (Or.inr hc) (Or.inl hpc))
      rw [Table.modify_of_ne hr]
      exact h.forks.copied q r hc

omit [DecidableEq ι] in
/-- The end of `fork`: the new entry is given back, or is ready to run with a parent that lives. -/
theorem Inv.forkEnd (h : Inv b k) (hcur : (k.proc cur).state = .running)
    (hnames : (k.pc cur).Names np) {f : Proc → Proc} (hpid : ∀ a, (f a).pid = a.pid)
    (hparent : ∀ a, (f a).parent = a.parent)
    (hstate : ∀ a, (f a).state = .unused ∨ (f a).state = .runnable ∧ k.pc cur = .copied np)
    {pc : Slot → Pc} (hpc : ∀ q r, (pc q).Names r → q ≠ cur ∧ pc q = k.pc q) :
    Inv b { k with proc := k.proc.modify np f, pc := pc } := by
  have hnp : (k.proc np).state = .embryo := h.forks.embryo cur np hnames
  have hold : ∀ q, q ≠ np → k.proc.modify np f q = k.proc q := fun q hq => Table.modify_of_ne hq f
  have hother : ∀ q r, (pc q).Names r → (k.pc q).Names r ∧ r ≠ np := by
    intro q r hn
    obtain ⟨hq, heq⟩ := hpc q r hn
    rw [heq] at hn
    refine ⟨hn, ?_⟩
    rintro rfl
    exact hq (h.forks.inj q cur r hn hnames)
  have hcn : cur ≠ np := by
    rintro rfl
    rw [hnp] at hcur
    exact nomatch hcur
  have hlive : ∀ q, Live (k.proc q) → Live (k.proc.modify np f q) := by
    intro q hl
    rw [hold q]
    · exact hl
    · rintro rfl
      unfold Live at hl
      grind
  refine ⟨h.cpus.congr (fun q => ?_) rfl h.cpus.idle, fun hb => (h.pids hb).congr (fun q hq => ?_) rfl,
    ⟨hlive _ h.family.init, fun q hq hs => ?_⟩, ⟨fun q r hn => ?_, fun q r hn => ?_,
      fun q r s hq hr => ?_, fun q r hc => ?_⟩⟩
  · have hs := hstate (k.proc np)
    simp only [modify_apply]
    by_cases hqn : q = np <;> grind
  · simp only [modify_apply] at *
    by_cases hqn : q = np <;> grind
  · by_cases hqn : q = np
    · subst hqn
      rcases hstate (k.proc q) with hs' | ⟨-, hc⟩
      · simp only [Table.modify_self, Settled] at hs
        exact absurd hs' hs.1
      · refine ⟨cur, ?_, hlive cur (Or.inr (Or.inr hcur))⟩
        simp only [Table.modify_self, hparent]
        exact h.forks.copied cur q hc
    · simp only [hold q hqn] at hs ⊢
      obtain ⟨r, hr, hl⟩ := h.family.parent q hq hs
      exact ⟨r, hr, hlive r hl⟩
  · obtain ⟨hn', hr⟩ := hother q r hn
    simp only [hold r hr]
    exact h.forks.embryo q r hn'
  · have ha := h.forks.active q r (hother q r hn).1
    have hqn : q ≠ np := by
      rintro rfl
      unfold Proc.Active at ha
      grind
    simp only [hold q hqn]
    exact ha
  · exact h.forks.inj q r s (hother q s hq).1 (hother r s hr).1
  · have hn : (pc q).Names r := Or.inr hc
    have hc' : k.pc q = .copied r := (hpc q r hn).2 ▸ hc
    simp only [hold r (hother q r hn).2]
    exact h.forks.copied q r hc'

end Changes

/-! ## Steps -/

section Step

variable {ι : Type} [DecidableEq ι] {k k' : State ι} {c : ι} {cur : Slot} {b : Prop}

theorem running_eq_some : k.running c = some cur ↔ k.lock ≠ .process c ∧ k.cpu c = some cur := by
  unfold State.running
  split_ifs with h <;> simp [h]

theorem current_eq_some : k.current c = some cur ↔ k.lock = .free ∧ k.cpu c = some cur := by
  unfold State.current
  split_ifs with h <;> simp [h]

theorem caller_eq_some : k.caller c = some cur ↔
    k.lock = .free ∧ k.cpu c = some cur ∧ k.pc cur = .user := by
  unfold State.caller
  rw [Option.filter_eq_some_iff, current_eq_some, and_assoc]
  simp

/-- The steps, case by case. `waitLoop`, `allocproc` and `kill` are taken apart where they are looked
    at. -/
inductive Moves (k : State ι) : Event ι → State ι → Prop
  /-- stride mode, and nobody is RUNNABLE -/
  | idle {c : ι} (hfree : k.lock = .free) (hcpu : k.cpu c = none) : Moves k (.acquire c)
      { k with proc := updateTickets k.proc, scan := Function.update k.scan c [] }
  | stride {c : ι} {p : Slot} (hfree : k.lock = .free) (hcpu : k.cpu c = none)
      (hmin : getminproc (updateTickets k.proc) = some p) : Moves k (.acquire c)
      (State.dispatch { k with
        proc := updateTickets k.proc, scan := Function.update k.scan c [] } c p Proc.dispatch)
  | roundRobin {c : ι} (hfree : k.lock = .free) (hcpu : k.cpu c = none) : Moves k (.acquire c)
      { k with scan := Function.update k.scan c slots, lock := .scheduler c }
  | scanned {c : ι} (hlock : k.lock = .scheduler c) (hscan : k.scan c = []) :
      Moves k (.resume c) { k with lock := .free }
  | skip {c : ι} {p : Slot} {rest : List Slot} (hlock : k.lock = .scheduler c)
      (hscan : k.scan c = p :: rest) (hp : (k.proc p).state ≠ .runnable) : Moves k (.resume c)
      { k with scan := Function.update k.scan c rest }
  | pick {c : ι} {p : Slot} {rest : List Slot} (hlock : k.lock = .scheduler c)
      (hscan : k.scan c = p :: rest) (hp : (k.proc p).state = .runnable) : Moves k (.resume c)
      (State.dispatch { k with scan := Function.update k.scan c rest } c p
        fun q => { q with state := .running })
  | unlock {c : ι} {cur : Slot} (hlock : k.lock = .process c) (hcpu : k.cpu c = some cur)
      (hpc : k.pc cur ≠ .waiting) : Moves k (.resume c) { k with lock := .free }
  | awake {c : ι} {cur : Slot} (hlock : k.lock = .process c) (hcpu : k.cpu c = some cur)
      (hpc : k.pc cur = .asleep) : Moves k (.resume c)
      (State.setPc { k with
        proc := k.proc.modify cur fun q => { q with chan := none }, lock := .free } cur .user)
  | again {c : ι} {cur : Slot} (hlock : k.lock = .process c) (hcpu : k.cpu c = some cur)
      (hpc : k.pc cur = .waiting) : Moves k (.resume c)
      (State.waitLoop { k with proc := k.proc.modify cur fun q => { q with chan := none } } c cur)
  | yield {c : ι} {cur : Slot} (hc : k.current c = some cur) : Moves k (.yield c)
      (k.leave c cur fun q => { q with state := .runnable })
  | sleep {c : ι} {cur : Slot} {a : Nat} (hc : k.caller c = some cur) : Moves k (.sleep c a)
      (State.setPc (k.leave c cur fun q => { q with chan := some (.addr a), state := .sleeping })
        cur .asleep)
  | exit {c : ι} {cur : Slot} (hc : k.caller c = some cur) (hinit : cur ≠ k.initproc) :
      Moves k (.exit c) { k with
        proc := exitTable cur k.initproc k.proc
        cpu := Function.update k.cpu c none
        lock := .scheduler c }
  | wait {c : ι} {cur : Slot} (hc : k.caller c = some cur) : Moves k (.wait c) (k.waitLoop c cur)
  | allocproc {c : ι} {cur : Slot} (hc : k.caller c = some cur) :
      Moves k (.allocproc c) (k.allocproc cur)
  | forkParent {c : ι} {cur np : Slot} (hc : k.running c = some cur) (hpc : k.pc cur = .forking np) :
      Moves k (.forkParent c) (State.setPc { k with
        proc := k.proc.modify np fun q => { q with parent := some cur } } cur (.copied np))
  | forkFail {c : ι} {cur np : Slot} (hc : k.running c = some cur) (hpc : k.pc cur = .forking np) :
      Moves k (.forkFail c) (State.setPc { k with
        proc := k.proc.modify np fun q => { q with state := .unused } } cur .user)
  | forkDone {c : ι} {cur np : Slot} (hc : k.current c = some cur) (hpc : k.pc cur = .copied np) :
      Moves k (.forkDone c) (State.setPc (State.setPc { k with
        proc := k.proc.modify np fun q => { q with state := .runnable } } np .user) cur .user)
  | wakeup {a : Nat} (hfree : k.lock = .free) : Moves k (.wakeup a)
      { k with proc := wakeup1 (.addr a) k.proc }
  | kill {c : ι} {cur : Slot} {pid : Int} (hc : k.caller c = some cur) : Moves k (.kill c pid)
      { k with proc := (Sched.kill pid k.proc).2 }
  | setMode {str : Bool} : Moves k (.setMode str) { k with str := str }

theorem acquire_moves (hfree : k.lock = .free) (hcpu : k.cpu c = none) : Moves k (.acquire c) (k.acquire c) := by
  unfold State.acquire
  split
  · dsimp only
    split
    next => exact .idle hfree hcpu
    next p hmin => exact .stride hfree hcpu hmin
  · exact .roundRobin hfree hcpu

theorem schedule_moves (hlock : k.lock = .scheduler c) : Moves k (.resume c) (k.schedule c) := by
  unfold State.schedule
  split
  next hscan => exact .scanned hlock hscan
  next p rest hscan =>
    split
    next hp => exact .pick hlock hscan hp
    next hp => exact .skip hlock hscan hp

theorem goOn_moves (hlock : k.lock = .process c) (hcpu : k.cpu c = some cur) :
    Moves k (.resume c) (k.goOn c cur) := by
  unfold State.goOn
  split
  next hpc => exact .unlock hlock hcpu (by simp [hpc])
  next hpc => exact .unlock hlock hcpu (by simp [hpc])
  next hpc => exact .unlock hlock hcpu (by simp [hpc])
  next hpc => exact .awake hlock hcpu hpc
  next hpc => exact .again hlock hcpu hpc

theorem step_moves {e : Event ι} (hs : Step k e k') : Moves k e k' := by
  unfold Step at hs
  cases e with
  | acquire c =>
      simp only [State.next] at hs
      split_ifs at hs with hfree
      cases hs
      exact acquire_moves hfree.1 hfree.2
  | resume c =>
      simp only [State.next] at hs
      split_ifs at hs with hsched hproc
      · cases hs
        exact schedule_moves hsched
      · obtain ⟨cur, hc, rfl⟩ := Option.map_eq_some_iff.1 hs
        exact goOn_moves hproc hc
  | yield c =>
      obtain ⟨cur, hc, rfl⟩ := Option.map_eq_some_iff.1 hs
      exact .yield hc
  | sleep c a =>
      obtain ⟨cur, hc, rfl⟩ := Option.map_eq_some_iff.1 hs
      exact .sleep hc
  | exit c =>
      obtain ⟨cur, hc, hs⟩ := Option.bind_eq_some_iff.1 hs
      split_ifs at hs with hinit
      cases hs
      exact .exit hc hinit
  | wait c =>
      obtain ⟨cur, hc, rfl⟩ := Option.map_eq_some_iff.1 hs
      exact .wait hc
  | allocproc c =>
      obtain ⟨cur, hc, rfl⟩ := Option.map_eq_some_iff.1 hs
      exact .allocproc hc
  | forkParent c =>
      obtain ⟨cur, hc, hs⟩ := Option.bind_eq_some_iff.1 hs
      split at hs
      next np hpc =>
        cases hs
        exact .forkParent hc hpc
      next => exact nomatch hs
  | forkFail c =>
      obtain ⟨cur, hc, hs⟩ := Option.bind_eq_some_iff.1 hs
      split at hs
      next np hpc =>
        cases hs
        exact .forkFail hc hpc
      next => exact nomatch hs
  | forkDone c =>
      obtain ⟨cur, hc, hs⟩ := Option.bind_eq_some_iff.1 hs
      split at hs
      next np hpc =>
        cases hs
        exact .forkDone hc hpc
      next => exact nomatch hs
  | wakeup a =>
      simp only [State.next] at hs
      split_ifs at hs with hfree
      cases hs
      exact .wakeup hfree
  | kill c pid =>
      obtain ⟨cur, hc, rfl⟩ := Option.map_eq_some_iff.1 hs
      exact .kill hc
  | setMode str =>
      cases hs
      exact .setMode

omit [DecidableEq ι] in
theorem Inv.current (h : Inv b k) (hc : k.cpu c = some cur) : (k.proc cur).state = .running :=
  (h.cpus.run cur).2 ⟨c, hc⟩

theorem not_names_user (np : Slot) : ¬ Pc.user.Names np := by
  rintro (h | h) <;> exact nomatch h

theorem Inv.updateTickets (h : Inv b k) (c : ι) : Inv b { k with
    proc := updateTickets k.proc, scan := Function.update k.scan c [] } :=
  h.quiet (updateTickets_state k.proc)
    (fun p => by simp only [Sched.updateTickets]; split_ifs <;> rfl)
    (fun p => by simp only [Sched.updateTickets]; split_ifs <;> rfl) rfl rfl h.cpus.idle rfl rfl

theorem Inv.scan (h : Inv b k) (c : ι) (l : List Slot) :
    Inv b { k with scan := Function.update k.scan c l } :=
  h.quiet (fun _ => rfl) (fun _ => rfl) (fun _ => rfl) rfl rfl h.cpus.idle rfl rfl

/-- What the table looks like to the loop of `wait`. -/
theorem waitScan_child {t : Table} {p : Slot} (h : waitScan t cur = .child p) :
    (t p).parent = some cur ∧ (t p).state = .zombie := by
  unfold waitScan at h
  split at h
  next q hfind =>
    cases h
    simpa using List.find?_some hfind
  next => split at h <;> exact nomatch h

theorem Inv.waitLoop (h : Inv b k) (hc : k.cpu c = some cur) (hpc : ∀ np, ¬ (k.pc cur).Names np) :
    Inv b (k.waitLoop c cur) := by
  unfold State.waitLoop
  split
  next p hp => exact ((h.reap (waitScan_child hp).2).release).setPc not_names_user
  next => exact h.release.setPc not_names_user
  next =>
    have hleave := h.leave (f := fun q => { q with chan := some (.proc cur), state := .sleeping }) hc
      (fun _ => Or.inr rfl) (fun _ => rfl) (fun _ => rfl) fun _ np hn => absurd hn (hpc np)
    refine hleave.setPc ?_
    rintro np (hn | hn) <;> exact nomatch hn

omit [DecidableEq ι] in
/-- `p->chan = 0` -/
theorem Inv.clearChan (h : Inv b k) (cur : Slot) :
    Inv b { k with proc := k.proc.modify cur fun q => { q with chan := none } } := by
  refine h.quiet (fun p => ?_) (fun p => ?_) (fun p => ?_) rfl rfl h.cpus.idle rfl rfl
  all_goals
    simp only [modify_apply]
    by_cases hp : p = cur
    · rw [if_pos hp, hp]
    · rw [if_neg hp]

omit [DecidableEq ι] in
theorem Inv.kill (h : Inv b k) (pid : Int) :
    Inv b { k with proc := (Sched.kill pid k.proc).2 } := by
  unfold Sched.kill
  split
  next => exact h
  next p _ =>
    refine h.awaken (fun q => ?_) (fun q => ?_) (fun q => ?_) (fun _ _ _ => rfl) rfl h.cpus.idle
      rfl rfl
    all_goals
      simp only [modify_apply]
      by_cases hq : q = p <;> grind

/-- The step makes a process. -/
def creates (k : State ι) : Event ι → Bool
  | .allocproc c => (k.caller c).isSome ∧ ∃ p, (k.proc p).state = .unused
  | _ => false

theorem Inv.step {e : Event ι} (h : Inv b k) (hs : Step k e k')
    (hbound : b → creates k e → k.nextpid + 1 < 2 ^ 31) : Inv b k' := by
  cases step_moves hs with
  | @idle c hfree hcpu => exact h.updateTickets c
  | @stride c p hfree hcpu hmin =>
      exact (h.updateTickets c).dispatch hcpu (getminproc_eq_some hmin).1 (fun _ => rfl)
        (fun _ => rfl) fun _ => rfl
  | roundRobin hfree hcpu =>
      refine h.quiet (fun _ => rfl) (fun _ => rfl) (fun _ => rfl) rfl rfl (fun d hd => ?_) rfl rfl
      cases hd
      exact hcpu
  | scanned hlock hscan => exact h.release
  | @skip c p rest hlock hscan hp => exact h.scan c rest
  | @pick c p rest hlock hscan hp =>
      exact (h.scan c rest).dispatch (h.cpus.idle c hlock) hp (fun _ => rfl) (fun _ => rfl)
        fun _ => rfl
  | unlock hlock hcpu hpc => exact h.release
  | awake hlock hcpu hpc => exact (h.clearChan _).release.setPc not_names_user
  | @again c cur hlock hcpu hpc =>
      refine (h.clearChan cur).waitLoop hcpu ?_
      show ∀ np, ¬ (k.pc cur).Names np
      rw [hpc]
      rintro np (hn | hn) <;> exact nomatch hn
  | yield hc =>
      exact h.leave (current_eq_some.1 hc).2 (fun _ => Or.inl rfl) (fun _ => rfl) (fun _ => rfl)
        fun _ _ _ => rfl
  | @sleep c cur a hc =>
      obtain ⟨-, hcpu, hpc⟩ := caller_eq_some.1 hc
      have hleave := h.leave (f := fun q => { q with chan := some (.addr a), state := .sleeping })
        hcpu (fun _ => Or.inr rfl) (fun _ => rfl) (fun _ => rfl)
        fun _ np hn => absurd (hpc ▸ hn) (not_names_user np)
      refine hleave.setPc ?_
      rintro np (hn | hn) <;> exact nomatch hn
  | exit hc hinit =>
      obtain ⟨-, hcpu, hpc⟩ := caller_eq_some.1 hc
      exact h.exit hcpu hinit hpc
  | wait hc =>
      obtain ⟨-, hcpu, hpc⟩ := caller_eq_some.1 hc
      exact h.waitLoop hcpu (by rw [hpc]; exact not_names_user)
  | allocproc hc =>
      obtain ⟨-, hcpu, hpc⟩ := caller_eq_some.1 hc
      refine h.allocproc (h.current hcpu) fun hb p hp => hbound hb ?_
      simpa [creates, hc] using ⟨p, hp⟩
  | forkParent hc hpc => exact h.forkParent hpc
  | @forkFail c cur np hc hpc =>
      refine h.forkEnd (f := fun q => { q with state := .unused })
        (h.current (running_eq_some.1 hc).2) (Or.inl hpc) (fun _ => rfl) (fun _ => rfl)
        (fun _ => Or.inl rfl) ?_
      intro q r hn
      by_cases hq : q = cur
      · subst hq
        rw [Function.update_self] at hn
        exact absurd hn (not_names_user r)
      · exact ⟨hq, Function.update_of_ne hq ..⟩
  | @forkDone c cur np hc hpc =>
      refine h.forkEnd (f := fun q => { q with state := .runnable })
        (h.current (current_eq_some.1 hc).2) (Or.inr hpc) (fun _ => rfl) (fun _ => rfl)
        (fun _ => Or.inr ⟨rfl, hpc⟩) ?_
      intro q r hn
      by_cases hq : q = cur
      · subst hq
        rw [Function.update_self] at hn
        exact absurd hn (not_names_user r)
      · rw [Function.update_of_ne hq] at hn ⊢
        by_cases hqn : q = np
        · subst hqn
          simp only [State.setPc, Function.update_self] at hn
          exact absurd hn (not_names_user r)
        · exact ⟨hq, Function.update_of_ne hqn ..⟩
  | wakeup hfree =>
      exact h.awaken (fun p => (woken_wakeup1 _ _ p).state) (fun p => (woken_wakeup1 _ _ p).pid)
        (wakeup1_parent _ _) (fun _ _ _ => rfl) rfl h.cpus.idle rfl rfl
  | kill hc => exact h.kill _
  | setMode =>
      exact h.quiet (fun _ => rfl) (fun _ => rfl) (fun _ => rfl) rfl rfl h.cpus.idle rfl rfl

end Step

end Cs350.Kernel
