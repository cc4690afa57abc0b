import Cs350.Spin.Rules

set_option autoImplicit false

/-! # The interrupt flag across `sched`

`intena` is a field of the CPU, and `popcli` may run on another CPU than its `pushcli`, after other
threads have used both fields. `sched` carries the value along. The history `entry` has the flag that
the outermost `pushcli` of a process found; `Flags` says where that value is kept until the matching
`popcli`. -/

namespace Cs350.Spin

open Transition
open Sched (ProcState)

variable {ι π κ : Type}

/-- Where the flag is that the outermost `popcli` of a process has to restore. -/
def Cpu.Keeps (k : Cpu π κ) (b : Bool) : Prop :=
  match k.pc with
  | .switched intena => intena = b
  | .count _ eflags => if k.ncli = 0 then eflags = b else k.intena = b
  | _ => 0 < k.ncli → k.intena = b

structure Flags (s : State ι π κ) : Prop where
  running : ∀ c p b, (s.cpu c).proc = some p → s.entry p = some b → (s.cpu c).Keeps b
  saved : ∀ p x b intena, s.context p = some x → s.entry p = some b → x.pc = .switched intena →
    intena = b

/-- A place where `intena` of the CPU counts. -/
def Pc.Plain (pc : Pc κ) : Prop :=
  (∀ intena, pc ≠ .switched intena) ∧ ∀ lk eflags, pc ≠ .count lk eflags

theorem Pc.Interrupted.plain {pc : Pc κ} (h : pc.Interrupted) : pc.Plain := by
  rcases h with rfl | ⟨lk, rfl⟩ <;> simp [Pc.Plain]

namespace Cpu

variable {k k' : Cpu π κ} {b : Bool}

theorem keeps_iff (hpc : k.pc.Plain) : k.Keeps b ↔ (0 < k.ncli → k.intena = b) := by
  unfold Cpu.Keeps
  split
  · next hat => exact absurd hat (hpc.1 _)
  · next hat => exact absurd hat (hpc.2 _ _)
  · exact Iff.rfl

theorem Keeps.mono (h : k.Keeps b) (hpc : k.pc.Plain) (hpc' : k'.pc.Plain)
    (hintena : k'.intena = k.intena) (hncli : k'.ncli ≤ k.ncli) : k'.Keeps b := by
  rw [keeps_iff hpc] at h
  rw [keeps_iff hpc', hintena]
  exact fun hpos => h (lt_of_lt_of_le hpos hncli)

theorem Keeps.count (h : k.Keeps b) {lk : Option κ} {eflags : Bool} (hpc : k.pc = .count lk eflags) :
    (k.count lk eflags).Keeps b := by
  unfold Cpu.Keeps at h
  rw [hpc] at h
  rw [keeps_iff (by cases lk <;> simp [Cpu.count, Pc.Plain])]
  intro _
  simp only at h
  split_ifs at h with hzero
  · subst h
    cases lk <;> simp [Cpu.count, hzero, Cpu.goto]
  · cases lk <;> simp [Cpu.count, hzero, Cpu.goto, h]

end Cpu

section Step

variable [DecidableEq ι] [DecidableEq π] [DecidableEq κ] {ptable : κ} {s s' : State ι π κ} {c : ι}
  {e : Event π κ}

omit [DecidableEq π] [DecidableEq κ] in
theorem Flags.update (h : Flags s) {k : Cpu π κ} (hcpu : s'.cpu = Function.update s.cpu c k)
    (hcontext : s'.context = s.context) (hentry : s'.entry = s.entry)
    (hproc : k.proc = (s.cpu c).proc) (hkeep : ∀ b, (s.cpu c).Keeps b → k.Keeps b) : Flags s' := by
  refine ⟨fun d p b hd hb => ?_, by rw [hcontext, hentry]; exact h.saved⟩
  rw [hentry] at hb
  rcases eq_or_ne d c with rfl | hne
  · rw [hcpu, Function.update_self] at hd ⊢
    exact hkeep b (h.running d p b (hproc ▸ hd) hb)
  · rw [hcpu, Function.update_of_ne hne] at hd ⊢
    exact h.running d p b hd hb

/-- Accesses that have nothing to do with the flag. -/
theorem go_plain (hpc : (s.cpu c).pc.Plain) (hpush : ∀ lk eflags, (s.cpu c).pc ≠ .pushcli lk eflags)
    (hswtch : (s.cpu c).pc ≠ .swtch) (hs : s.go ptable c = some s') :
    s'.entry = s.entry ∧ s'.context = s.context ∧ (s'.cpu c).pc.Plain ∧
      (s'.cpu c).intena = (s.cpu c).intena ∧ (s'.cpu c).ncli ≤ (s.cpu c).ncli := by
  have hwith : ∀ k rest : Cpu π κ,
      rest.pc.Plain ∧ rest.intena = k.intena ∧ rest.ncli ≤ k.ncli →
      (k.withMycpu rest).pc.Plain ∧ (k.withMycpu rest).intena = k.intena ∧
        (k.withMycpu rest).ncli ≤ k.ncli := by
    intro k rest h
    unfold Cpu.withMycpu
    split
    · exact ⟨by simp [Pc.Plain], rfl, le_refl _⟩
    · exact h
  unfold State.go at hs
  cases hat : (s.cpu c).pc with
  | swtch => exact absurd hat hswtch
  | pushcli => exact absurd hat (hpush _ _)
  | switched => exact absurd hat (hpc.1 _)
  | count => exact absurd hat (hpc.2 _ _)
  | code | panic => simp [hat] at hs
  | xchg lk | setCpu lk =>
      simp only [hat] at hs
      split at hs <;> obtain rfl := Option.some.inj hs
      all_goals exact ⟨rfl, rfl, by simp [Pc.Plain, hat], by simp [Cpu.goto, Cpu.panic],
        by simp [Cpu.goto, Cpu.panic]⟩
  | acquireCpu | releaseCpu | schedCpu =>
      simp only [hat, Option.some.injEq] at hs
      subst hs
      rw [setCpu_cpu, Function.update_self]
      refine ⟨rfl, rfl, hwith _ _ ?_⟩
      split <;> exact ⟨by simp [Pc.Plain], rfl, le_refl _⟩
  | popcli =>
      simp only [hat, Option.some.injEq] at hs
      subst hs
      simp only [setCpu_cpu, Function.update_self, Cpu.popcli]
      split_ifs <;> exact ⟨rfl, rfl, by simp [Pc.Plain], rfl, by simp [Cpu.goto, Cpu.panic]⟩
  | clearCpu | clearLocked =>
      simp only [hat, Option.some.injEq] at hs
      subst hs
      rw [setCpu_cpu, Function.update_self]
      exact ⟨rfl, rfl, by simp [Pc.Plain], rfl, le_refl _⟩
  | _ =>
      simp only [hat, Option.some.injEq] at hs
      subst hs
      rw [setCpu_cpu, Function.update_self]
      split <;> exact ⟨rfl, rfl, by simp [Pc.Plain], rfl, le_refl _⟩

omit [DecidableEq κ] in
/-- The first steps of `pushcli`: the flag read before is still the one that `cli` clears. -/
theorem Flags.pushcli (h : Flags s) (hinv : Inv ptable s) {lk : Option κ} {eflags : Bool}
    (hpc : (s.cpu c).pc = .pushcli lk eflags) :
    Flags ((s.setEntry (s.cpu c)).setCpu c
      ({ s.cpu c with interrupts := false }.goto (.count lk eflags))) := by
  have hk := hinv.cpu c
  have hflag : eflags = (s.cpu c).interrupts := (hk.at hpc).1
  have hncli := hk.ncli_eq hpc
  simp only [Pc.counted] at hncli
  have hplain : (s.cpu c).pc.Plain := by simp [hpc, Pc.Plain]
  -- with `ncli` above 0 nothing is recorded, and `intena` already has the flag
  have hkeep : (s.cpu c).ncli ≠ 0 → ∀ b, (s.cpu c).Keeps b →
      ({ s.cpu c with interrupts := false }.goto (.count lk eflags)).Keeps b := by
    intro hne b hb
    rw [Cpu.keeps_iff hplain] at hb
    show (if (s.cpu c).ncli = 0 then eflags = b else (s.cpu c).intena = b)
    rw [if_neg hne]
    exact hb (by omega)
  unfold State.setEntry
  split
  · next p hp =>
      split
      · next hzero =>
          refine ⟨fun d q b hd hb => ?_, fun q x b intena hx hb => ?_⟩
          · rcases eq_or_ne d c with rfl | hne
            · rw [setCpu_cpu, Function.update_self] at hd ⊢
              obtain rfl : p = q := Option.some.inj (hp.symm.trans hd)
              have hb : some (s.cpu d).interrupts = some b := by simpa [State.setCpu] using hb
              show (if (s.cpu d).ncli = 0 then eflags = b else (s.cpu d).intena = b)
              rw [if_pos hzero, hflag]
              exact Option.some.inj hb
            · rw [setCpu_cpu, Function.update_of_ne hne] at hd ⊢
              have hqp : q ≠ p := by
                rintro rfl
                exact hne (hinv.single q d c hd hp)
              exact h.running d q b hd (by simpa [State.setCpu, hqp] using hb)
          · have hqp : q ≠ p := by
              rintro rfl
              exact absurd ((hinv.away q c hp).symm.trans hx) (by simp)
            exact h.saved q x b intena hx (by simpa [State.setCpu, hqp] using hb)
      · next hne => exact h.update rfl rfl rfl rfl (hkeep hne)
  · next hp =>
      refine ⟨fun d q b hd hb => ?_, h.saved⟩
      rcases eq_or_ne d c with rfl | hne
      · rw [setCpu_cpu, Function.update_self] at hd
        exact absurd (hp.symm.trans hd) (by simp)
      · rw [setCpu_cpu, Function.update_of_ne hne] at hd ⊢
        exact h.running d q b hd hb

omit [DecidableEq κ] in
theorem Flags.swtch (h : Flags s) (hinv : Inv ptable s) (hpc : (s.cpu c).pc = .swtch) {p : π}
    (hp : (s.cpu c).proc = some p) : Flags (s.swtch c p) := by
  have hk := hinv.cpu c
  obtain ⟨hheld, hbare, -⟩ := hk.at hpc
  have hncli := hk.ncli_eq hpc
  simp only [hheld, hbare, Pc.counted, Finset.card_singleton] at hncli
  have hplain : (s.cpu c).pc.Plain := by simp [hpc, Pc.Plain]
  have hpanic : ∀ m, Flags (s.setCpu c ((s.cpu c).panic m)) := fun m =>
    h.update rfl rfl rfl rfl fun b hb => hb.mono hplain (by simp [Pc.Plain]) rfl (le_refl _)
  simp only [State.swtch]
  split_ifs
  · exact hpanic _
  · exact hpanic _
  · exact hpanic _
  · refine ⟨fun d q b hd hb => ?_, fun q x b intena hx hb hat => ?_⟩
    · rcases eq_or_ne d c with rfl | hne
      · simp at hd
      · simp only [setCpu_cpu, Function.update_of_ne hne] at hd ⊢
        exact h.running d q b hd hb
    · rcases eq_or_ne q p with rfl | hqp
      · obtain rfl : _ = x := by simpa using hx
        obtain rfl := Pc.switched.inj hat
        have hb := h.running c q b hp hb
        rw [Cpu.keeps_iff hplain] at hb
        exact hb (by omega)
      · exact h.saved q x b intena (by simpa [hqp] using hx) hb hat

theorem Flags.go (h : Flags s) (hinv : Inv ptable s) (hquiet : Quiet s)
    (hs : s.go ptable c = some s') : Flags s' := by
  obtain ⟨k, hcpu, -⟩ := go_stepped hquiet hs
  have hall := hs
  unfold State.go at hs
  cases hpc : (s.cpu c).pc with
  | pushcli lk eflags =>
      simp only [hpc, Option.some.injEq] at hs
      subst hs
      exact h.pushcli hinv hpc
  | count lk eflags =>
      simp only [hpc, Option.some.injEq] at hs
      subst hs
      refine h.update rfl rfl rfl ?_ fun b hb => hb.count hpc
      simp only [Cpu.count]
      split_ifs <;> cases lk <;> rfl
  | swtch =>
      simp only [hpc] at hs
      obtain ⟨p, hp, rfl⟩ := Option.map_eq_some_iff.1 hs
      exact h.swtch hinv hpc hp
  | switched intena =>
      simp only [hpc, Option.some.injEq] at hs
      subst hs
      refine h.update rfl rfl rfl rfl fun b hb => ?_
      rw [Cpu.keeps_iff (by simp [Pc.Plain])]
      unfold Cpu.Keeps at hb
      rw [hpc] at hb
      exact fun _ => hb
  | _ =>
      have hplain : (s.cpu c).pc.Plain := by simp [hpc, Pc.Plain]
      obtain ⟨hentry, hcontext, hplain', hintena, hncli⟩ :=
        go_plain hplain (by simp [hpc]) (by simp [hpc]) hall
      have hproc := (go_thread (by simp [hpc]) hall).1
      rw [hcpu, Function.update_self] at hplain' hintena hncli hproc
      exact h.update hcpu hcontext hentry hproc fun b hb => hb.mono hplain hplain' hintena hncli

theorem Flags.dispatch (h : Flags s) (hnone : (s.cpu c).proc = none) {p : π} {x : Context κ}
    (habsent : ∀ d, (s.cpu d).proc ≠ some p) (hx : s.context p = some x)
    (hsaved : x.Saved) : Flags (s.dispatch c p x) := by
  have hentry : ∀ q b, (s.dispatch c p x).entry q = some b →
      s.entry q = some b ∧ (q = p → x.pc ≠ .code) := by
    intro q b hb
    simp only [State.dispatch] at hb
    split_ifs at hb with hcode
    · rcases eq_or_ne q p with rfl | hqp
      · simp at hb
      · exact ⟨by simpa [hqp] using hb, fun heq => absurd heq hqp⟩
    · exact ⟨hb, fun _ => hcode⟩
  refine ⟨fun d q b hd hb => ?_, fun q y b intena hy hb hat => ?_⟩
  · obtain ⟨hold, hcode⟩ := hentry q b hb
    rcases eq_or_ne d c with rfl | hne
    · simp only [State.dispatch, setCpu_cpu, Function.update_self] at hd ⊢
      obtain rfl : p = q := Option.some.inj hd
      obtain ⟨intena, hat⟩ := hsaved.1.resolve_left (hcode rfl)
      show Cpu.Keeps _ b
      unfold Cpu.Keeps
      rw [show Cpu.pc _ = x.pc from rfl, hat]
      exact h.saved p x b intena hx hold hat
    · simp only [State.dispatch, setCpu_cpu, Function.update_of_ne hne] at hd ⊢
      exact h.running d q b hd hold
  · obtain ⟨hb, -⟩ := hentry q b hb
    have hqp : q ≠ p := by
      rintro rfl
      simp [State.dispatch] at hy
    exact h.saved q y b intena (by simpa [State.dispatch, hqp] using hy) hb hat

theorem Flags.call (h : Flags s) (hinv : Inv ptable s) {owner : κ → Option ι}
    (howned : Owned owner s.cpu s.lock) (hpc : (s.cpu c).pc = .code)
    (hallow : Allowed ptable s c e) (hs : s.call c e = some s') : Flags s' := by
  have hplain : (s.cpu c).pc.Plain := by simp [hpc, Pc.Plain]
  cases e with
  | go | interrupt => simp [State.call] at hs
  | pushcli | popcli | acquire | release =>
      obtain rfl := Option.some.inj hs
      exact h.update rfl rfl rfl rfl fun b hb => hb.mono hplain (by simp [Pc.Plain]) rfl (le_refl _)
  | sched =>
      simp only [State.call] at hs
      split at hs
      · cases hs
      · obtain rfl := Option.some.inj hs
        exact h.update rfl rfl rfl rfl fun b hb => hb.mono hplain (by simp [Pc.Plain]) rfl (le_refl _)
  | sti =>
      obtain rfl := Option.some.inj hs
      exact h.update rfl rfl rfl rfl fun b hb => hb
  | iret =>
      simp only [State.call] at hs
      split at hs
      · next pc below hbelow =>
          obtain rfl := Option.some.inj hs
          have hpc' : pc.Plain := ((hinv.cpu c).below pc (by simp [hbelow])).plain
          exact h.update rfl rfl rfl rfl fun b hb => hb.mono hplain hpc' rfl (le_refl _)
      · split at hs
        · cases hs
        · obtain rfl := Option.some.inj hs
          exact h.update rfl rfl rfl rfl fun b hb => hb
  | dispatch p =>
      simp only [State.call] at hs
      split at hs
      · next hnone =>
          obtain ⟨x, hx, rfl⟩ := Option.map_eq_some_iff.1 hs
          obtain ⟨hheld, -, -, hstate⟩ := hallow
          refine h.dispatch hnone (hinv.absent howned (c := c) (by simp [hstate])
            (.inr (.inr ⟨by simp [hheld], by simp [hnone]⟩))) hx (hinv.context p x hx)
      · cases hs
  | write =>
      obtain rfl := Option.some.inj hs
      exact ⟨h.running, h.saved⟩
  | newStack p =>
      obtain rfl := Option.some.inj hs
      refine ⟨h.running, fun q x b intena hx hb hat => ?_⟩
      rcases eq_or_ne q p with rfl | hqp
      · obtain rfl : Context.start = x := by simpa using hx
        cases hat
      · exact h.saved q x b intena (by simpa [hqp] using hx) hb hat
  | freeStack p =>
      obtain rfl := Option.some.inj hs
      refine ⟨h.running, fun q x b intena hx hb hat => ?_⟩
      rcases eq_or_ne q p with rfl | hqp
      · simp at hx
      · exact h.saved q x b intena (by simpa [hqp] using hx) hb hat

theorem Flags.step (h : Flags s) (hinv : Inv ptable s) (hquiet : Quiet s) {owner : κ → Option ι}
    (howned : Owned owner s.cpu s.lock) (hallow : Allowed ptable s c e)
    (hs : s.step ptable c e = some s') : Flags s' := by
  cases e with
  | go => exact h.go hinv hquiet hs
  | interrupt =>
      simp only [State.step] at hs
      split at hs
      · next hon =>
          obtain rfl := Option.some.inj hs
          have hncli := ((hinv.cpu c).of_on hon).1
          refine h.update rfl rfl rfl rfl fun b _ => ?_
          rw [Cpu.keeps_iff (by simp [Cpu.interrupt, Cpu.pc, Pc.Plain])]
          exact fun hpos => absurd hpos (by simp [Cpu.interrupt, hncli])
      · cases hs
  | _ =>
      simp only [State.step] at hs
      split at hs
      · next hpc => exact h.call hinv howned hpc hallow hs
      · cases hs

variable {tr : List (State ι π κ × (ι × Event π κ))}

theorem run_flags (hrun : Run (State.Move ptable) (State.start : State ι π κ) tr s)
    (hallow : ∀ x ∈ tr, Allowed ptable x.1 x.2.1 x.2.2) : Flags s := by
  induction hrun with
  | nil => exact ⟨fun c p b h => by simp [State.start] at h, fun p x b intena h => by simp [State.start] at h⟩
  | @snoc tr s s' a hrun hs ih =>
      have hpre : ∀ x ∈ tr, Allowed ptable x.1 x.2.1 x.2.2 :=
        fun x hx => hallow x (List.mem_append_left _ hx)
      obtain ⟨hquiet, ⟨owner, howned⟩, hinv⟩ := run_inv hrun hpre
      exact (ih hpre).step hinv hquiet howned (hallow (s, a) (by simp)) hs

/-- **The flag comes back.** When a process leaves its outermost critical section, on whatever CPU,
    interrupts are as they were where it entered the section, also if it gave up the CPU inside it in
    `sched`, and other threads used `ncli` and `intena` meanwhile. -/
theorem interrupts_restored (hrun : Run (State.Move ptable) (State.start : State ι π κ) tr s)
    (hallow : ∀ x ∈ tr, Allowed ptable x.1 x.2.1 x.2.2) {p : π} {b : Bool}
    (hproc : (s.cpu c).proc = some p) (hentry : s.entry p = some b)
    (hpc : (s.cpu c).pc = .popcli) (hlast : (s.cpu c).ncli = 1)
    (hs : State.Move ptable s (c, .go) s') :
    (s'.cpu c).interrupts = b ∧ (s'.cpu c).ncli = 0 ∧ (s'.cpu c).pc = .code := by
  obtain ⟨-, -, hinv⟩ := run_inv hrun hallow
  have hb := (run_flags hrun hallow).running c p b hproc hentry
  rw [Cpu.keeps_iff (by simp [hpc, Pc.Plain])] at hb
  have hintena := hb (by omega)
  have hoff := (hinv.cpu c).off (by omega)
  unfold State.Move State.step State.go at hs
  simp only [hpc, Option.some.injEq] at hs
  subst hs
  rw [setCpu_cpu, Function.update_self]
  cases b <;> simp [Cpu.popcli, hoff, hlast, hintena, Cpu.goto, Cpu.pc]

/-- After its migration the process goes on in `yield`, up to the last `popcli` of `release`. The
    timer interrupt turned interrupts off before `yield`, but the scheduler of its new CPU had them
    on. -/
theorem interrupts_restored_migration : ∃ tr s s',
    Run (State.Move ()) (State.start : State Bool Unit Unit) tr s ∧
      tr.map Prod.snd = migration ++ (releases true).take 5 ∧ (s.cpu true).pc = .popcli ∧
      State.Move () s (true, .go) s' ∧ (s'.cpu true).interrupts = false := by
  have hplays : ((play (fun (s : State Bool Unit Unit) a => s.step () a.1 a.2) State.start
      (migration ++ (releases true).take 5)).map fun r => decide (
        (∀ x ∈ r.1, Allowed () x.1 x.2.1 x.2.2) ∧ (r.2.cpu true).proc = some () ∧
        r.2.entry () = some false ∧ (r.2.cpu true).pc = .popcli ∧ (r.2.cpu true).ncli = 1 ∧
        (r.2.step () true .go).isSome = true)) = some true := by
    decide +kernel
  obtain ⟨⟨tr, s⟩, hplay, hchecks⟩ := Option.map_eq_some_iff.1 hplays
  obtain ⟨hallow, hproc, hentry, hpc, hlast, hgo⟩ := of_decide_eq_true hchecks
  obtain ⟨hrun, hlabels⟩ := play_run hplay
  obtain ⟨s', hs⟩ := Option.isSome_iff_exists.1 hgo
  exact ⟨tr, s, s', hrun, hlabels, hpc, hs,
    (interrupts_restored hrun hallow hproc hentry hpc hlast hs).1⟩

end Step

end Cs350.Spin
