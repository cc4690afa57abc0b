import Cs350.Spin.Machine
import Cs350.Lib.Transition

set_option autoImplicit false

/-! # Who owns a spin lock

What `acquire` and `release` guarantee to any kernel code around them. `holding` reads two fields of
a lock that other CPUs write meanwhile, and a lock is taken and named, or unnamed and given back, by
separate writes. All of this runs with interrupts off (`Quiet`), so the CPU stays in the function,
and the word and the name of a lock always describe one owner (`Owned`). Every change of the owner is
then one of the two writes to the word, and the tests of `holding` have the answer that an atomic
lock would give. -/

namespace Cs350.Spin

open Transition

variable {ι π κ : Type}

/-! ## Code that runs with interrupts off -/

/-- After `cli()` in `acquire`, and between the writes of `release`. -/
def Pc.closed : Pc κ → Bool
  | .count .. | .acquireLocked _ | .acquireCpu _ | .xchg _ | .setCpu _ | .clearCpu _ | .clearLocked _ =>
      true
  | _ => false

/-- The lock between whose writes the owner is. -/
def Pc.inside : Pc κ → Option κ
  | .setCpu lk | .clearCpu lk | .clearLocked lk => some lk
  | _ => none

/-- The lock that is taken while its `cpu` is 0. -/
def Pc.unnamed : Pc κ → Option κ
  | .setCpu lk | .clearLocked lk => some lk
  | _ => none

theorem Pc.inside_of_open {pc : Pc κ} (h : pc.closed = false) : pc.inside = none := by
  cases pc <;> simp_all [Pc.inside, Pc.closed]

theorem Pc.unnamed_eq_none {pc : Pc κ} (h : pc.inside = none) : pc.unnamed = none := by
  cases pc <;> simp_all [Pc.inside, Pc.unnamed]

def Context.Open (x : Context κ) : Prop :=
  x.pc.closed = false ∧ ∀ pc ∈ x.below, pc.closed = false

structure Cpu.Quiet (k : Cpu π κ) : Prop where
  off : k.pc.closed = true → k.interrupts = false
  below : ∀ pc ∈ k.running.below, pc.closed = false
  scheduler : k.scheduler.Open

structure Quiet (s : State ι π κ) : Prop where
  cpu : ∀ c, (s.cpu c).Quiet
  context : ∀ p x, s.context p = some x → x.Open

namespace Cpu

variable {k : Cpu π κ}

@[simp] theorem pc_goto (pc : Pc κ) : (k.goto pc).pc = pc := rfl
@[simp] theorem held_goto (pc : Pc κ) : (k.goto pc).held = k.held := rfl
@[simp] theorem interrupts_goto (pc : Pc κ) : (k.goto pc).interrupts = k.interrupts := rfl
@[simp] theorem pc_panic (m : String) : (k.panic m).pc = .panic m := rfl
@[simp] theorem held_panic (m : String) : (k.panic m).held = k.held := rfl

theorem Quiet.of_open (hpc : k.pc.closed = false) (hbelow : ∀ pc ∈ k.running.below, pc.closed = false)
    (hs : k.scheduler.Open) : k.Quiet :=
  ⟨fun hc => by simp [hpc] at hc, hbelow, hs⟩

theorem Quiet.goto (h : k.Quiet) {pc : Pc κ} (hpc : pc.closed = true → k.interrupts = false) :
    (k.goto pc).Quiet :=
  ⟨hpc, h.below, h.scheduler⟩

theorem Quiet.panic (h : k.Quiet) (m : String) : (k.panic m).Quiet :=
  ⟨fun _ => rfl, h.below, h.scheduler⟩

theorem Quiet.withMycpu (h : k.Quiet) {rest : Cpu π κ}
    (hrest : k.interrupts = false → rest.Quiet) : (k.withMycpu rest).Quiet := by
  unfold Cpu.withMycpu
  split
  · exact h.panic _
  · next hoff => exact hrest (by simpa using hoff)

theorem Quiet.count (h : k.Quiet) (lk : Option κ) (eflags : Bool) (hoff : k.interrupts = false) :
    (k.count lk eflags).Quiet := by
  unfold Cpu.count
  split_ifs <;> cases lk <;> exact ⟨fun _ => hoff, h.below, h.scheduler⟩

theorem popcli_held : k.popcli.held = k.held := by
  simp only [Cpu.popcli]
  split_ifs <;> rfl

theorem popcli_inside : k.popcli.pc.inside = none := by
  simp only [Cpu.popcli]
  split_ifs <;> rfl

theorem Quiet.popcli (h : k.Quiet) : k.popcli.Quiet := by
  simp only [Cpu.popcli]
  split_ifs <;> exact ⟨by simp [Pc.closed], h.below, h.scheduler⟩

end Cpu

section Step

variable {s s' : State ι π κ} {c : ι}

theorem Quiet.setLock [DecidableEq κ] (h : Quiet s) (lk : κ) (l : Spinlock ι) :
    Quiet (s.setLock lk l) :=
  ⟨h.cpu, h.context⟩

theorem Quiet.setContext [DecidableEq π] (h : Quiet s) {p : π} {o : Option (Context κ)}
    (ho : ∀ x, o = some x → x.Open) :
    ∀ q x, Function.update s.context p o q = some x → x.Open := by
  intro q x hx
  rcases eq_or_ne q p with rfl | hq
  · exact ho x (by simpa using hx)
  · exact h.context q x (by simpa [hq] using hx)

section Entry

variable [DecidableEq π] (k : Cpu π κ)

theorem setEntry_cpu : (s.setEntry k).cpu = s.cpu := by
  unfold State.setEntry
  repeat' split
  all_goals rfl

theorem setEntry_lock : (s.setEntry k).lock = s.lock := by
  unfold State.setEntry
  repeat' split
  all_goals rfl

theorem setEntry_state : (s.setEntry k).state = s.state := by
  unfold State.setEntry
  repeat' split
  all_goals rfl

theorem setEntry_context : (s.setEntry k).context = s.context := by
  unfold State.setEntry
  repeat' split
  all_goals rfl

end Entry

variable [DecidableEq ι]

@[simp] theorem setCpu_lock (k : Cpu π κ) : (s.setCpu c k).lock = s.lock := rfl

@[simp] theorem setCpu_cpu (k : Cpu π κ) :
    (s.setCpu c k).cpu = Function.update s.cpu c k := rfl

theorem Quiet.setCpu (h : Quiet s) {k : Cpu π κ} (hk : k.Quiet) : Quiet (s.setCpu c k) where
  cpu d := by
    rcases eq_or_ne d c with rfl | hd
    · simpa using hk
    · simpa [hd] using h.cpu d
  context := h.context

variable [DecidableEq π] [DecidableEq κ] {ptable : κ} {e : Event π κ}

theorem Quiet.go (h : Quiet s) (hs : s.go ptable c = some s') : Quiet s' := by
  have hk := h.cpu c
  unfold State.go at hs
  cases hpc : (s.cpu c).pc with
  | code | panic => simp [hpc] at hs
  | pushcli lk eflags =>
      simp only [hpc, Option.some.injEq] at hs
      subst hs
      have hentry : Quiet (s.setEntry (s.cpu c)) :=
        ⟨by rw [setEntry_cpu]; exact h.cpu, by rw [setEntry_context]; exact h.context⟩
      exact hentry.setCpu ⟨fun _ => rfl, hk.below, hk.scheduler⟩
  | count lk eflags =>
      simp only [hpc, Option.some.injEq] at hs
      subst hs
      exact h.setCpu (hk.count lk eflags (hk.off (by simp [hpc, Pc.closed])))
  | acquireLocked lk =>
      simp only [hpc, Option.some.injEq] at hs
      subst hs
      exact h.setCpu (hk.goto fun _ => hk.off (by simp [hpc, Pc.closed]))
  | acquireCpu lk =>
      simp only [hpc, Option.some.injEq] at hs
      subst hs
      refine h.setCpu (hk.withMycpu fun hoff => ?_)
      split
      · exact hk.panic _
      · exact hk.goto fun _ => hoff
  | xchg lk =>
      have hoff := hk.off (by simp [hpc, Pc.closed])
      simp only [hpc] at hs
      split at hs
      · obtain rfl := Option.some.inj hs
        exact h
      · obtain rfl := Option.some.inj hs
        exact (h.setLock _ _).setCpu ⟨fun _ => hoff, hk.below, hk.scheduler⟩
  | setCpu lk =>
      simp only [hpc] at hs
      split at hs
      · obtain rfl := Option.some.inj hs
        exact h.setCpu (hk.panic _)
      · obtain rfl := Option.some.inj hs
        exact (h.setLock _ _).setCpu (hk.goto nofun)
  | releaseLocked lk =>
      simp only [hpc, Option.some.injEq] at hs
      subst hs
      refine h.setCpu ?_
      split
      · exact hk.goto nofun
      · exact hk.panic _
  | releaseCpu lk =>
      simp only [hpc, Option.some.injEq] at hs
      subst hs
      refine h.setCpu (hk.withMycpu fun hoff => ?_)
      split
      · exact hk.goto fun _ => hoff
      · exact hk.panic _
  | clearCpu lk =>
      simp only [hpc, Option.some.injEq] at hs
      subst hs
      exact (h.setLock _ _).setCpu (hk.goto fun _ => hk.off (by simp [hpc, Pc.closed]))
  | clearLocked lk =>
      simp only [hpc, Option.some.injEq] at hs
      subst hs
      exact (h.setLock _ _).setCpu
        ⟨by simp [Pc.closed], hk.below, hk.scheduler⟩
  | popcli =>
      simp only [hpc, Option.some.injEq] at hs
      subst hs
      exact h.setCpu hk.popcli
  | schedLocked =>
      simp only [hpc, Option.some.injEq] at hs
      subst hs
      refine h.setCpu ?_
      split
      · exact hk.goto nofun
      · exact hk.panic _
  | schedCpu =>
      simp only [hpc, Option.some.injEq] at hs
      subst hs
      refine h.setCpu (hk.withMycpu fun _ => ?_)
      split
      · exact hk.goto nofun
      · exact hk.panic _
  | swtch =>
      simp only [hpc] at hs
      obtain ⟨p, -, rfl⟩ := Option.map_eq_some_iff.1 hs
      simp only [State.swtch]
      split_ifs
      · exact h.setCpu (hk.panic _)
      · exact h.setCpu (hk.panic _)
      · exact h.setCpu (hk.panic _)
      · have hq : Quiet (s.setCpu c
            { s.cpu c with proc := none, running := (s.cpu c).scheduler }) :=
          h.setCpu (.of_open hk.scheduler.1 hk.scheduler.2 hk.scheduler)
        refine ⟨hq.cpu, h.setContext fun x hx => ?_⟩
        obtain rfl := Option.some.inj hx
        exact ⟨rfl, hk.below⟩
  | switched intena =>
      simp only [hpc, Option.some.injEq] at hs
      subst hs
      exact h.setCpu ⟨by simp [Pc.closed], hk.below, hk.scheduler⟩

theorem Quiet.call (h : Quiet s) (hpc : (s.cpu c).pc = .code) (hs : s.call c e = some s') :
    Quiet s' := by
  have hk := h.cpu c
  have hopen : (s.cpu c).pc.closed = false := by simp [hpc, Pc.closed]
  cases e with
  | go | interrupt => simp [State.call] at hs
  | pushcli | popcli | acquire | release =>
      obtain rfl := Option.some.inj hs
      exact h.setCpu ⟨by simp [Pc.closed], hk.below, hk.scheduler⟩
  | sched =>
      simp only [State.call] at hs
      split at hs
      · cases hs
      · obtain rfl := Option.some.inj hs
        exact h.setCpu (hk.goto nofun)
  | sti =>
      obtain rfl := Option.some.inj hs
      exact h.setCpu (.of_open hopen hk.below hk.scheduler)
  | iret =>
      simp only [State.call] at hs
      split at hs
      · next pc below hbelow =>
          obtain rfl := Option.some.inj hs
          have hall := hk.below
          rw [hbelow] at hall
          exact h.setCpu (.of_open (hall pc List.mem_cons_self)
            (fun f hf => hall f (List.mem_cons_of_mem _ hf)) hk.scheduler)
      · split at hs
        · cases hs
        · obtain rfl := Option.some.inj hs
          exact h.setCpu (.of_open hopen hk.below hk.scheduler)
  | dispatch p =>
      simp only [State.call] at hs
      split at hs
      · obtain ⟨x, hx, rfl⟩ := Option.map_eq_some_iff.1 hs
        have hx := h.context p x hx
        have hq : Quiet (s.setCpu c
            { s.cpu c with proc := some p, running := x, scheduler := (s.cpu c).running }) :=
          h.setCpu (.of_open hx.1 hx.2 ⟨hopen, hk.below⟩)
        exact ⟨hq.cpu, h.setContext (by simp)⟩
      · cases hs
  | write p st =>
      obtain rfl := Option.some.inj hs
      exact ⟨h.cpu, h.context⟩
  | newStack p =>
      obtain rfl := Option.some.inj hs
      refine ⟨h.cpu, h.setContext fun x hx => ?_⟩
      obtain rfl := Option.some.inj hx
      exact ⟨rfl, by simp [Context.start]⟩
  | freeStack p =>
      obtain rfl := Option.some.inj hs
      exact ⟨h.cpu, h.setContext (by simp)⟩

theorem Quiet.step (h : Quiet s) (hs : s.step ptable c e = some s') : Quiet s' := by
  have hk := h.cpu c
  cases e with
  | go => exact h.go hs
  | interrupt =>
      simp only [State.step] at hs
      split at hs
      · next hon =>
          obtain rfl := Option.some.inj hs
          refine h.setCpu (.of_open rfl ?_ hk.scheduler)
          intro pc hpc
          rcases List.mem_cons.1 hpc with rfl | hpc
          · -- code that runs with interrupts off cannot be interrupted
            by_contra hc
            rw [hk.off (by simpa using hc)] at hon
            cases hon
          · exact hk.below pc hpc
      · cases hs
  | _ =>
      simp only [State.step] at hs
      split at hs
      · next hpc => exact h.call hpc hs
      · cases hs

/-! ## What a step does to the locks -/

/-- The lock table after a step of `c`, with `k` for the CPU after it. -/
inductive Effect (s : State ι π κ) (c : ι) (k : Cpu π κ) : (κ → Spinlock ι) → Prop
  | same (held : k.held = (s.cpu c).held) (before : (s.cpu c).pc.inside = none)
      (after : k.pc.inside = none) : Effect s c k s.lock
  | take (lk : κ) (before : (s.cpu c).pc = .xchg lk) (free : (s.lock lk).locked = false)
      (held : k.held = insert lk (s.cpu c).held) (after : k.pc = .setCpu lk) :
      Effect s c k (Function.update s.lock lk ⟨true, (s.lock lk).cpu⟩)
  | name (lk : κ) (before : (s.cpu c).pc = .setCpu lk) (held : k.held = (s.cpu c).held)
      (after : k.pc.inside = none) :
      Effect s c k (Function.update s.lock lk ⟨(s.lock lk).locked, some c⟩)
  | enter (lk : κ) (before : (s.cpu c).pc = .releaseCpu lk) (cpu : (s.lock lk).cpu = some c)
      (held : k.held = (s.cpu c).held) (after : k.pc = .clearCpu lk) : Effect s c k s.lock
  | unname (lk : κ) (before : (s.cpu c).pc = .clearCpu lk) (held : k.held = (s.cpu c).held)
      (after : k.pc = .clearLocked lk) :
      Effect s c k (Function.update s.lock lk ⟨(s.lock lk).locked, none⟩)
  | drop (lk : κ) (before : (s.cpu c).pc = .clearLocked lk)
      (held : k.held = (s.cpu c).held.erase lk) (after : k.pc = .popcli) :
      Effect s c k (Function.update s.lock lk ⟨false, (s.lock lk).cpu⟩)

/-- A step of `c` changes no other CPU. -/
def Stepped (s : State ι π κ) (c : ι) (s' : State ι π κ) : Prop :=
  ∃ k, s'.cpu = Function.update s.cpu c k ∧ Effect s c k s'.lock

omit [DecidableEq π] in
theorem stepped_same {k : Cpu π κ} (hcpu : s'.cpu = Function.update s.cpu c k)
    (hlock : s'.lock = s.lock) (hheld : k.held = (s.cpu c).held)
    (hbefore : (s.cpu c).pc.inside = none) (hafter : k.pc.inside = none) : Stepped s c s' :=
  ⟨k, hcpu, hlock ▸ .same hheld hbefore hafter⟩

theorem go_stepped (hq : Quiet s) (hs : s.go ptable c = some s') : Stepped s c s' := by
  unfold State.go at hs
  cases hpc : (s.cpu c).pc with
  | code | panic => simp [hpc] at hs
  | pushcli lk eflags =>
      simp only [hpc, Option.some.injEq] at hs
      subst hs
      exact stepped_same (congrArg (Function.update · c _) (setEntry_cpu _)) (setEntry_lock _) rfl
        (by rw [hpc]; rfl) rfl
  | count lk eflags =>
      simp only [hpc, Option.some.injEq] at hs
      subst hs
      refine stepped_same rfl rfl ?_ (by rw [hpc]; rfl) ?_ <;>
        (simp only [Cpu.count]; split_ifs <;> cases lk <;> rfl)
  | acquireLocked lk =>
      simp only [hpc, Option.some.injEq] at hs
      subst hs
      refine stepped_same rfl rfl rfl (by rw [hpc]; rfl) ?_
      split_ifs <;> rfl
  | acquireCpu lk =>
      simp only [hpc, Option.some.injEq] at hs
      subst hs
      refine stepped_same rfl rfl ?_ (by rw [hpc]; rfl) ?_ <;>
        (simp only [Cpu.withMycpu]; split_ifs <;> rfl)
  | xchg lk =>
      simp only [hpc] at hs
      split at hs
      · obtain rfl := Option.some.inj hs
        exact stepped_same (Function.update_eq_self c s.cpu).symm rfl rfl (by rw [hpc]; rfl) (by rw [hpc]; rfl)
      · next hfree =>
          obtain rfl := Option.some.inj hs
          exact ⟨_, rfl, .take lk hpc (by simpa using hfree) rfl rfl⟩
  | setCpu lk =>
      simp only [hpc] at hs
      rw [if_neg (by simp [(hq.cpu c).off (by simp [hpc, Pc.closed])])] at hs
      obtain rfl := Option.some.inj hs
      exact ⟨_, rfl, .name lk hpc rfl rfl⟩
  | releaseLocked lk =>
      simp only [hpc, Option.some.injEq] at hs
      subst hs
      refine stepped_same rfl rfl ?_ (by rw [hpc]; rfl) ?_ <;> (split_ifs <;> rfl)
  | releaseCpu lk =>
      simp only [hpc, Option.some.injEq] at hs
      subst hs
      by_cases hon : (s.cpu c).interrupts = true
      · refine stepped_same rfl rfl ?_ (by rw [hpc]; rfl) ?_ <;>
          (simp only [Cpu.withMycpu, hon, if_true]; rfl)
      · by_cases hcpu : (s.lock lk).cpu = some c
        · refine ⟨_, rfl, .enter lk hpc hcpu ?_ ?_⟩ <;> simp [Cpu.withMycpu, hon, hcpu]
        · refine stepped_same rfl rfl ?_ (by rw [hpc]; rfl) ?_ <;>
            simp [Cpu.withMycpu, hon, hcpu, Pc.inside]
  | clearCpu lk =>
      simp only [hpc, Option.some.injEq] at hs
      subst hs
      exact ⟨_, rfl, .unname lk hpc rfl rfl⟩
  | clearLocked lk =>
      simp only [hpc, Option.some.injEq] at hs
      subst hs
      exact ⟨_, rfl, .drop lk hpc rfl rfl⟩
  | popcli =>
      simp only [hpc, Option.some.injEq] at hs
      subst hs
      exact stepped_same rfl rfl Cpu.popcli_held (by rw [hpc]; rfl) Cpu.popcli_inside
  | schedLocked =>
      simp only [hpc, Option.some.injEq] at hs
      subst hs
      refine stepped_same rfl rfl ?_ (by rw [hpc]; rfl) ?_ <;> (split_ifs <;> rfl)
  | schedCpu =>
      simp only [hpc, Option.some.injEq] at hs
      subst hs
      refine stepped_same rfl rfl ?_ (by rw [hpc]; rfl) ?_ <;>
        (simp only [Cpu.withMycpu]; split_ifs <;> rfl)
  | swtch =>
      simp only [hpc] at hs
      obtain ⟨p, -, rfl⟩ := Option.map_eq_some_iff.1 hs
      have hbefore : (s.cpu c).pc.inside = none := by rw [hpc]; rfl
      simp only [State.swtch]
      split_ifs
      · exact stepped_same rfl rfl rfl hbefore rfl
      · exact stepped_same rfl rfl rfl hbefore rfl
      · exact stepped_same rfl rfl rfl hbefore rfl
      · exact stepped_same rfl rfl rfl hbefore (Pc.inside_of_open (hq.cpu c).scheduler.1)
  | switched intena =>
      simp only [hpc, Option.some.injEq] at hs
      subst hs
      exact stepped_same rfl rfl rfl (by rw [hpc]; rfl) rfl

theorem call_stepped (hq : Quiet s) (hpc : (s.cpu c).pc = .code) (hs : s.call c e = some s') :
    Stepped s c s' := by
  have hbefore : (s.cpu c).pc.inside = none := by rw [hpc]; rfl
  cases e with
  | go | interrupt => simp [State.call] at hs
  | pushcli | popcli | acquire | release =>
      obtain rfl := Option.some.inj hs
      exact stepped_same rfl rfl rfl hbefore rfl
  | sched =>
      simp only [State.call] at hs
      split at hs
      · cases hs
      · obtain rfl := Option.some.inj hs
        exact stepped_same rfl rfl rfl hbefore rfl
  | sti =>
      obtain rfl := Option.some.inj hs
      exact stepped_same rfl rfl rfl hbefore hbefore
  | iret =>
      simp only [State.call] at hs
      split at hs
      · next pc below hbelow =>
          obtain rfl := Option.some.inj hs
          have hpc : pc.closed = false := (hq.cpu c).below pc (by simp [hbelow])
          exact stepped_same rfl rfl rfl hbefore (Pc.inside_of_open hpc)
      · split at hs
        · cases hs
        · obtain rfl := Option.some.inj hs
          exact stepped_same rfl rfl rfl hbefore hbefore
  | dispatch p =>
      simp only [State.call] at hs
      split at hs
      · obtain ⟨x, hx, rfl⟩ := Option.map_eq_some_iff.1 hs
        exact stepped_same rfl rfl rfl hbefore (Pc.inside_of_open (hq.context p x hx).1)
      · cases hs
  | write | newStack | freeStack =>
      obtain rfl := Option.some.inj hs
      exact stepped_same (Function.update_eq_self c s.cpu).symm rfl rfl hbefore hbefore

theorem step_stepped (hq : Quiet s) (hs : s.step ptable c e = some s') : Stepped s c s' := by
  cases e with
  | go => exact go_stepped hq hs
  | interrupt =>
      simp only [State.step] at hs
      split at hs
      · next hon =>
          obtain rfl := Option.some.inj hs
          refine stepped_same rfl rfl rfl (Pc.inside_of_open ?_) rfl
          by_contra hc
          rw [(hq.cpu c).off (by simpa using hc)] at hon
          cases hon
      · cases hs
  | _ =>
      simp only [State.step] at hs
      split at hs
      · next hpc => exact call_stepped hq hpc hs
      · cases hs

end Step

/-! ## Atomic locks -/

/-- A step of `c` on locks that are taken and given back at once, each by its owner. -/
inductive Atomic [DecidableEq κ] (c : ι) (owner : κ → Option ι) : (κ → Option ι) → Prop
  | stay : Atomic c owner owner
  | take (lk : κ) (free : owner lk = none) : Atomic c owner (Function.update owner lk (some c))
  | drop (lk : κ) (own : owner lk = some c) : Atomic c owner (Function.update owner lk none)

/-- What the lock table says about the owners: the word of a lock is 1 while it has an owner, and
    `cpu` names the owner except between the writes of `acquire` and `release`. -/
structure Owned (owner : κ → Option ι) (cpu : ι → Cpu π κ) (lock : κ → Spinlock ι) : Prop where
  held : ∀ lk c, lk ∈ (cpu c).held ↔ owner lk = some c
  locked : ∀ lk, (lock lk).locked = true ↔ owner lk ≠ none
  named : ∀ lk c, (lock lk).cpu = some c ↔ owner lk = some c ∧ (cpu c).pc.unnamed ≠ some lk
  inside : ∀ lk c, (cpu c).pc.inside = some lk → owner lk = some c

section Owner

variable {owner owner' : κ → Option ι} {cpu : ι → Cpu π κ} {lock : κ → Spinlock ι} {c : ι} {lk : κ}

/-- Outside its own writes a CPU finds its name in exactly the locks it owns. -/
theorem Owned.cpu_iff (h : Owned owner cpu lock) (hpc : (cpu c).pc.inside = none) :
    (lock lk).cpu = some c ↔ owner lk = some c := by
  rw [h.named, Pc.unnamed_eq_none hpc]
  simp

theorem Owned.eq_none (h : Owned owner cpu lock) (hfree : (lock lk).locked = false) :
    owner lk = none := by
  by_contra hne
  rw [(h.locked lk).2 hne] at hfree
  cases hfree

variable [DecidableEq ι] [DecidableEq π] [DecidableEq κ] {s s' : State ι π κ} {k : Cpu π κ}
  {lock' : κ → Spinlock ι}

omit [DecidableEq π] in
theorem Owned.effect (h : Owned owner s.cpu s.lock) (he : Effect s c k lock') :
    ∃ owner', Atomic c owner owner' ∧ Owned owner' (Function.update s.cpu c k) lock' := by
  obtain ⟨hheld, hlocked, hnamed, hinside⟩ := h
  cases he with
  | same held before after =>
      have hu := Pc.unnamed_eq_none before
      have hu' := Pc.unnamed_eq_none after
      refine ⟨owner, .stay, ?_, hlocked, ?_, ?_⟩ <;> grind [Function.update_apply]
  | take lk before free held after =>
      have hfree := Owned.eq_none ⟨hheld, hlocked, hnamed, hinside⟩ free
      have hu : (s.cpu c).pc.unnamed = none := by rw [before]; rfl
      have hi : (s.cpu c).pc.inside = none := by rw [before]; rfl
      have hu' : k.pc.unnamed = some lk := by rw [after]; rfl
      have hi' : k.pc.inside = some lk := by rw [after]; rfl
      refine ⟨_, .take lk hfree, ?_, ?_, ?_, ?_⟩ <;> grind [Function.update_apply]
  | name lk before held after =>
      have hu : (s.cpu c).pc.unnamed = some lk := by rw [before]; rfl
      have hi : (s.cpu c).pc.inside = some lk := by rw [before]; rfl
      have hu' := Pc.unnamed_eq_none after
      refine ⟨owner, .stay, ?_, ?_, ?_, ?_⟩ <;> grind [Function.update_apply]
  | enter lk before cpu held after =>
      have hu : (s.cpu c).pc.unnamed = none := by rw [before]; rfl
      have hu' : k.pc.unnamed = none := by rw [after]; rfl
      have hi' : k.pc.inside = some lk := by rw [after]; rfl
      refine ⟨owner, .stay, ?_, hlocked, ?_, ?_⟩ <;> grind [Function.update_apply]
  | unname lk before held after =>
      have hu : (s.cpu c).pc.unnamed = none := by rw [before]; rfl
      have hi : (s.cpu c).pc.inside = some lk := by rw [before]; rfl
      have hu' : k.pc.unnamed = some lk := by rw [after]; rfl
      have hi' : k.pc.inside = some lk := by rw [after]; rfl
      refine ⟨owner, .stay, ?_, ?_, ?_, ?_⟩ <;> grind [Function.update_apply]
  | drop lk before held after =>
      have hu : (s.cpu c).pc.unnamed = some lk := by rw [before]; rfl
      have hi : (s.cpu c).pc.inside = some lk := by rw [before]; rfl
      have hu' : k.pc.unnamed = none := by rw [after]; rfl
      have hi' : k.pc.inside = none := by rw [after]; rfl
      refine ⟨_, .drop lk (hinside lk c hi), ?_, ?_, ?_, ?_⟩ <;> grind [Function.update_apply]

variable {ptable : κ} {tr : List (State ι π κ × (ι × Event π κ))}

omit [DecidableEq ι] [DecidableEq π] [DecidableEq κ] in
theorem start_quiet : Quiet (State.start : State ι π κ) where
  cpu _ := ⟨fun _ => rfl, by simp [State.start, Context.start], rfl, by simp [State.start, Context.start]⟩
  context _ _ h := by cases h

omit [DecidableEq ι] [DecidableEq π] [DecidableEq κ] in
theorem start_owned :
    Owned (fun _ => none) (State.start : State ι π κ).cpu (State.start : State ι π κ).lock := by
  constructor <;> simp [State.start, Cpu.pc, Context.start, Pc.inside]

theorem run_quiet (hrun : Run (State.Move ptable) (State.start : State ι π κ) tr s) : Quiet s :=
  (hrun.invariant start_quiet fun _ _ _ hq hs => hq.step hs).2

omit [DecidableEq π] in
theorem Owned.step (h : Owned owner s.cpu s.lock) (hs : Stepped s c s') :
    ∃ owner', Atomic c owner owner' ∧ Owned owner' s'.cpu s'.lock := by
  obtain ⟨k, hcpu, he⟩ := hs
  rw [hcpu]
  exact h.effect he

theorem run_owned (hrun : Run (State.Move ptable) (State.start : State ι π κ) tr s) :
    ∃ owner, Owned owner s.cpu s.lock := by
  refine (hrun.invariant (I := fun s => Quiet s ∧ ∃ owner, Owned owner s.cpu s.lock)
    ⟨start_quiet, _, start_owned⟩ ?_).2.2
  rintro s a s' ⟨hq, owner, howned⟩ hs
  obtain ⟨owner', -, howned'⟩ := howned.step (step_stepped hq hs)
  exact ⟨hq.step hs, owner', howned'⟩

/-- Every run of the machine, whatever the kernel does between the calls, is a run of atomic locks in
    which the same CPUs take the steps, and whose owners are those of the machine in each state. -/
theorem refines_atomic (hrun : Run (State.Move ptable) (State.start : State ι π κ) tr s) :
    ∃ atomic owner, Run (fun o c o' => Atomic c o o') (fun _ => none) atomic owner ∧
      atomic.map Prod.snd = tr.map (fun x => x.2.1) ∧
      List.Forall₂ (fun o x => Owned o x.cpu x.lock) (atomic.map Prod.fst) (tr.map Prod.fst) ∧
      Owned owner s.cpu s.lock := by
  induction hrun with
  | nil => exact ⟨[], _, Run.nil, rfl, List.Forall₂.nil, start_owned⟩
  | @snoc tr s s' a hrun hs ih =>
      obtain ⟨atomic, owner, harun, hlabels, hall, howned⟩ := ih
      obtain ⟨owner', hstep, howned'⟩ := howned.step (step_stepped (run_quiet hrun) hs)
      refine ⟨atomic ++ [(owner, a.1)], owner', harun.snoc hstep, ?_, ?_, howned'⟩
      · rw [List.map_append, List.map_append, hlabels]
        rfl
      · rw [List.map_append, List.map_append]
        exact List.rel_append hall (List.Forall₂.cons howned List.Forall₂.nil)

/-- One CPU takes a lock, and another calls `acquire` for it. -/
def contended : List (Bool × Event Unit Unit) :=
  [(false, .acquire ()), (false, .go), (false, .go), (false, .go), (false, .go), (false, .go),
    (true, .acquire ()), (true, .go), (true, .go)]

/-- The lock is given back between the two reads of the other CPU's `holding`. -/
def givenBack : List (Bool × Event Unit Unit) :=
  [(true, .go), (false, .release ()), (false, .go), (false, .go), (false, .go), (false, .go),
    (true, .go)]

theorem refines_atomic_contended : ∃ tr s,
    Run (State.Move ()) (State.start : State Bool Unit Unit) tr s ∧
      tr.map Prod.snd = contended ++ givenBack ∧
      ∃ atomic owner, Run (fun o c o' => Atomic c o o') (fun _ => none) atomic owner ∧
        atomic.map Prod.snd = tr.map (fun x => x.2.1) ∧
        List.Forall₂ (fun o x => Owned o x.cpu x.lock) (atomic.map Prod.fst) (tr.map Prod.fst) ∧
        Owned owner s.cpu s.lock := by
  have hplays : (play (fun (s : State Bool Unit Unit) a => s.step () a.1 a.2) State.start
      (contended ++ givenBack)).isSome = true := by decide
  obtain ⟨⟨tr, s⟩, hplay⟩ := Option.isSome_iff_exists.1 hplays
  obtain ⟨hrun, hlabels⟩ := play_run hplay
  exact ⟨tr, s, hrun, hlabels, refines_atomic hrun⟩

/-! ## `holding` -/

/-- The lock that a call of `holding` in progress asks about. -/
def Pc.holding (ptable : κ) : Pc κ → Option κ
  | .acquireLocked lk | .acquireCpu lk | .releaseLocked lk | .releaseCpu lk => some lk
  | .schedLocked | .schedCpu => some ptable
  | _ => none

/-- What `holding` has returned, by what its caller does next. -/
def Pc.answer : Pc κ → Option Bool
  | .xchg _ => some false
  | .clearCpu _ | .swtch => some true
  | .panic m =>
      if m = "acquire" then some true
      else if m = "release" ∨ m = "sched ptable.lock" then some false
      else none
  | _ => none

/-- One access of `holding`: it goes on, or it has the answer. -/
theorem go_holding (howned : Owned owner s.cpu s.lock) (hoff : (s.cpu c).interrupts = false)
    (hpc : (s.cpu c).pc.holding ptable = some lk) (hs : s.go ptable c = some s') :
    (s'.cpu c).held = (s.cpu c).held ∧ (s'.cpu c).interrupts = false ∧
      ((s'.cpu c).pc.holding ptable = some lk ∨
        (s'.cpu c).pc.answer = some (decide (lk ∈ (s.cpu c).held))) := by
  have hfree : (s.lock lk).locked = false → lk ∉ (s.cpu c).held := fun hl hmem => by
    rw [howned.held, howned.eq_none hl] at hmem
    cases hmem
  have hcpu : (s.cpu c).pc.inside = none → ((s.lock lk).cpu = some c ↔ lk ∈ (s.cpu c).held) :=
    fun hi => (howned.cpu_iff hi).trans (howned.held lk c).symm
  unfold State.go at hs
  cases hat : (s.cpu c).pc <;> rw [hat] at hpc <;> cases hpc
  all_goals
    simp only [hat, Option.some.injEq] at hs
    subst hs
  case acquireLocked | releaseLocked | schedLocked =>
    by_cases hl : (s.lock lk).locked = true
    · simp [hl, hoff, Pc.holding]
    · simp [hl, hoff, hfree (by simpa using hl), Pc.holding, Pc.answer, Cpu.panic]
  case acquireCpu | releaseCpu | schedCpu =>
    have hiff := hcpu (by rw [hat]; rfl)
    by_cases hc : (s.lock lk).cpu = some c
    · simp [hc, hoff, Cpu.withMycpu, hiff.1 hc, Pc.holding, Pc.answer, Cpu.panic]
    · have hmem : lk ∉ (s.cpu c).held := fun h => hc (hiff.2 h)
      simp [hc, hmem, hoff, Cpu.withMycpu, Pc.holding, Pc.answer, Cpu.panic]

/-- While `c` is in `holding` with interrupts off, its locks stay as they are; when it leaves, it has
    the answer for them. -/
theorem step_holding (howned : Owned owner s.cpu s.lock) (hq : Quiet s) {a : ι × Event π κ}
    (hoff : (s.cpu c).interrupts = false) (hpc : (s.cpu c).pc.holding ptable = some lk)
    (hs : State.Move ptable s a s') :
    (s'.cpu c).held = (s.cpu c).held ∧ (s'.cpu c).interrupts = false ∧
      ((s'.cpu c).pc.holding ptable = some lk ∨
        (s'.cpu c).pc.answer = some (decide (lk ∈ (s.cpu c).held))) := by
  rcases eq_or_ne a.1 c with rfl | ha
  · have hcode : (s.cpu a.1).pc ≠ .code := by
      intro hcode
      rw [hcode] at hpc
      cases hpc
    unfold State.Move State.step at hs
    split at hs
    · exact go_holding howned hoff hpc hs
    · rw [hoff] at hs
      cases hs
    · rw [if_neg hcode] at hs
      cases hs
  · obtain ⟨k, hcpu, -⟩ := step_stepped hq hs
    rw [hcpu, Function.update_of_ne (Ne.symm ha)]
    exact ⟨rfl, hoff, .inl hpc⟩

/-- **`holding` is exact.** Between its two reads other CPUs may take, name and give back the lock as
    they like; with interrupts off it returns whether the CPU held the lock when it was called, and
    that is still so when it returns. -/
theorem holding_exact {s₁ s₂ : State ι π κ} {tr₀ : List (State ι π κ × (ι × Event π κ))}
    (hrun₀ : Run (State.Move ptable) State.start tr₀ s₁)
    (hoff : (s₁.cpu c).interrupts = false)
    (hrun : Run (State.Move ptable) s₁ tr s₂)
    (hin : ∀ x ∈ tr, (x.1.cpu c).pc.holding ptable = some lk)
    (hin₁ : (s₁.cpu c).pc.holding ptable = some lk)
    (hout : (s₂.cpu c).pc.holding ptable ≠ some lk) :
    (s₂.cpu c).pc.answer = some (decide (lk ∈ (s₁.cpu c).held)) ∧
      (s₂.cpu c).held = (s₁.cpu c).held := by
  have hall : (s₂.cpu c).held = (s₁.cpu c).held ∧ (s₂.cpu c).interrupts = false ∧
      ((s₂.cpu c).pc.holding ptable = some lk ∨
        (s₂.cpu c).pc.answer = some (decide (lk ∈ (s₁.cpu c).held))) := by
    clear hout
    induction hrun with
    | nil => exact ⟨rfl, hoff, .inl hin₁⟩
    | @snoc tr s s' a hrun hs ih =>
        obtain ⟨hheld, hoff, -⟩ := ih fun x hx => hin x (List.mem_append_left _ hx)
        have hpc : (s.cpu c).pc.holding ptable = some lk := hin (s, a) (by simp)
        have hreach := hrun₀.append hrun
        obtain ⟨owner, howned⟩ := run_owned hreach
        have := step_holding howned (run_quiet hreach) hoff hpc hs
        rwa [hheld] at this
  exact ⟨hall.2.2.resolve_left hout, hall.1⟩

theorem holding_exact_contended : ∃ tr s,
    Run (State.Move ()) (State.start : State Bool Unit Unit) tr s ∧
      tr.map Prod.snd = contended ++ givenBack ∧ (s.cpu true).pc.answer = some false := by
  let next (s : State Bool Unit Unit) (a : Bool × Event Unit Unit) := s.step () a.1 a.2
  have hplays : ((play next State.start contended).bind fun r =>
      (play next r.2 givenBack).map fun r' =>
        decide ((r.2.cpu true).interrupts = false ∧ (r.2.cpu true).pc.holding () = some () ∧
          () ∉ (r.2.cpu true).held ∧ (r'.2.cpu true).pc.holding () ≠ some () ∧
          ∀ x ∈ r'.1, (x.1.cpu true).pc.holding () = some ())) = some true := by decide
  obtain ⟨⟨tr₀, s₁⟩, hplay₀, hrest⟩ := Option.bind_eq_some_iff.1 hplays
  obtain ⟨⟨tr, s₂⟩, hplay, hchecks⟩ := Option.map_eq_some_iff.1 hrest
  obtain ⟨hoff, hin₁, hfree, hout, hin⟩ := of_decide_eq_true hchecks
  obtain ⟨hrun₀, hlabels₀⟩ := play_run hplay₀
  obtain ⟨hrun, hlabels⟩ := play_run hplay
  obtain ⟨hanswer, -⟩ := holding_exact hrun₀ hoff hrun hin hin₁ hout
  refine ⟨tr₀ ++ tr, s₂, hrun₀.append hrun, by rw [List.map_append, hlabels₀, hlabels], ?_⟩
  rw [hanswer, decide_eq_false hfree]

end Owner

end Cs350.Spin
