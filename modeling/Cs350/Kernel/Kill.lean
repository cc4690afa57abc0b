import Cs350.Kernel.Proctable

set_option autoImplicit false

/-! # `kill`

`kill` looks for its pid in all entries of the table, those that are UNUSED among them: they carry
the pid 0, or the pid of a `fork` that failed. `killed` is cleared in `wait` and nowhere else. What
`kill` promises then rests on who is named: it holds along the runs in which no call of `kill` finds
an UNUSED entry first, and in which no `fork` fails whose new process has been killed by then. -/

namespace Cs350.Kernel

open Sched Transition

section Touch

variable {ι : Type} [DecidableEq ι]

/-- What a step can do to the parts of an entry that `kill` and `allocproc` go by. -/
inductive Touched (k : State ι) (e : Event ι) (p : Slot) (b : Proc) : Prop
  | same (hkilled : b.killed = (k.proc p).killed)
      (hunused : b.state = .unused ↔ (k.proc p).state = .unused)
  | taken (hwas : (k.proc p).state = .unused) (hkilled : b.killed = (k.proc p).killed)
  | reaped (hkilled : b.killed = false)
  | dropped (c : ι) (cur : Slot) (he : e = .forkFail c) (hcur : k.running c = some cur)
      (hpc : k.pc cur = .forking p) (hkilled : b.killed = (k.proc p).killed)
  | named (c : ι) (pid : Int) (he : e = .kill c pid)
      (hfind : slots.find? (fun q => (k.proc q).pid = pid) = some p)
      (hunused : b.state = .unused ↔ (k.proc p).state = .unused)

variable {k k' : State ι} {e : Event ι}

theorem Touched.refl (k : State ι) (e : Event ι) (p : Slot) : Touched k e p (k.proc p) :=
  .same rfl Iff.rfl

/-- One entry changes, and is in use before and after. -/
theorem Touched.modify (e : Event ι) {q : Slot} (f : Proc → Proc) (hwas : (k.proc q).state ≠ .unused)
    (hkilled : (f (k.proc q)).killed = (k.proc q).killed)
    (hnow : (f (k.proc q)).state ≠ .unused) (p : Slot) :
    Touched k e p (k.proc.modify q f p) := by
  by_cases hpq : p = q
  · subst hpq
    rw [Table.modify_self]
    exact .same hkilled (by simp [hwas, hnow])
  · rw [Table.modify_of_ne hpq]
    exact .refl k e p

theorem Touched.woken {p : Slot} {b : Proc} (h : Woken (k.proc p) b) : Touched k e p b := by
  refine .same h.killed ?_
  rcases h.state with hs | ⟨hs, hr⟩
  · rw [hs]
  · simp [hs, hr]

theorem waitLoop_touched (k : State ι) (e : Event ι) {t : Table} (ht : ∀ p, Touched k e p (t p))
    (c : ι) {cur : Slot} (hwas : (k.proc cur).state = .running)
    (hkilled : (t cur).killed = (k.proc cur).killed) (p : Slot) :
    Touched k e p (({ k with proc := t }.waitLoop c cur).proc p) := by
  unfold State.waitLoop
  split
  next q _ =>
    show Touched k e p (t.modify q Proc.reap p)
    by_cases hpq : p = q
    · subst hpq
      rw [Table.modify_self]
      exact .reaped rfl
    · rw [Table.modify_of_ne hpq]
      exact ht p
  next => exact ht p
  next =>
    show Touched k e p
      (t.modify cur (fun q => { q with chan := some (.proc cur), state := .sleeping }) p)
    by_cases hpc : p = cur
    · subst hpc
      rw [Table.modify_self]
      exact .same hkilled (by simp [hwas])
    · rw [Table.modify_of_ne hpc]
      exact ht p

theorem updateTickets_killed (t : Table) (p : Slot) : (updateTickets t p).killed = (t p).killed := by
  simp only [updateTickets]
  split_ifs <;> rfl

theorem updateTickets_touched (k : State ι) (e : Event ι) (p : Slot) :
    Touched k e p (updateTickets k.proc p) :=
  .same (updateTickets_killed k.proc p) (by rw [updateTickets_state])

/-- In the same way as `Touched.modify`, after the passes have been set. -/
theorem dispatch_touched (e : Event ι) {q : Slot} (hq : (k.proc q).state = .runnable) (p : Slot) :
    Touched k e p ((updateTickets k.proc).modify q Proc.dispatch p) := by
  by_cases hpq : p = q
  · subst hpq
    rw [Table.modify_self]
    exact .same (updateTickets_killed k.proc p) (by simp [Proc.dispatch, hq])
  · rw [Table.modify_of_ne hpq]
    exact updateTickets_touched k e p

theorem allocproc_touched (k : State ι) (e : Event ι) (cur p : Slot) :
    Touched k e p ((k.allocproc cur).proc p) := by
  unfold State.allocproc
  split
  next => exact .refl k _ p
  next q hfind =>
    have hq : (k.proc q).state = .unused := by simpa using List.find?_some hfind
    show Touched k _ p (k.proc.modify q (·.alloc k.nextpid) p)
    by_cases hpq : p = q
    · subst hpq
      rw [Table.modify_self]
      exact .taken hq rfl
    · rw [Table.modify_of_ne hpq]
      exact .refl k _ p

theorem kill_touched (k : State ι) (c : ι) (pid : Int) (p : Slot) :
    Touched k (.kill c pid) p ((Sched.kill pid k.proc).2 p) := by
  unfold Sched.kill
  split
  next => exact .refl k _ p
  next q hfind =>
    dsimp only
    by_cases hpq : p = q
    · subst hpq
      refine .named c pid rfl hfind ?_
      rw [Table.modify_self]
      dsimp only
      split_ifs with hsleep
      · simp [hsleep]
      · exact Iff.rfl
    · rw [Table.modify_of_ne hpq]
      exact .refl k _ p

theorem step_touched (h : Inv False k) (hs : Step k e k') (p : Slot) :
    Touched k e p (k'.proc p) := by
  cases step_moves hs with
  | idle hfree hcpu => exact updateTickets_touched k _ p
  | stride hfree hcpu hmin =>
      have hrun := (getminproc_eq_some hmin).1
      rw [updateTickets_state] at hrun
      exact dispatch_touched _ hrun p
  | roundRobin hfree hcpu | scanned hlock hscan | skip hlock hscan hp | unlock hlock hcpu hpc =>
      exact .refl k _ p
  | pick hlock hscan hp =>
      exact .modify _ (fun q => { q with state := .running }) (by simp [hp]) rfl (by simp) p
  | awake hlock hcpu hpc =>
      have hcur := h.current hcpu
      exact .modify _ (fun q => { q with chan := none }) (by simp [hcur]) rfl (by simp [hcur]) p
  | @again c cur hlock hcpu hpc =>
      have hcur := h.current hcpu
      exact waitLoop_touched k _ (fun q => .modify _ (fun q => { q with chan := none })
        (by simp [hcur]) rfl (by simp [hcur]) q) c hcur (by rw [Table.modify_self]) p
  | yield hc =>
      have hcur := h.current (current_eq_some.1 hc).2
      exact .modify _ (fun q => { q with state := .runnable }) (by simp [hcur]) rfl (by simp) p
  | @sleep c cur a hc =>
      have hcur := h.current (caller_eq_some.1 hc).2.1
      exact .modify _ (fun q => { q with chan := some (.addr a), state := .sleeping })
        (by simp [hcur]) rfl (by simp) p
  | @exit c cur hc hinit =>
      have hcur := h.current (caller_eq_some.1 hc).2.1
      obtain ⟨b, hw, -, heq⟩ := exitTable_apply cur k.initproc k.proc p
      show Touched k _ p (exitTable cur k.initproc k.proc p)
      rw [heq]
      by_cases hpc : p = cur
      · subst hpc
        rw [if_pos rfl]
        exact .same hw.killed (by simp [hcur])
      · rw [if_neg hpc]
        exact .woken hw
  | @wait c cur hc =>
      exact waitLoop_touched k _ (fun q => .refl k _ q) c (h.current (caller_eq_some.1 hc).2.1) rfl p
  | @allocproc c cur hc => exact allocproc_touched k _ cur p
  | @forkParent c cur np hc hpc =>
      have hnp := h.forks.embryo cur np (Or.inl hpc)
      exact .modify _ (fun q => { q with parent := some cur }) (by simp [hnp]) rfl (by simp [hnp]) p
  | @forkFail c cur np hc hpc =>
      show Touched k _ p (k.proc.modify np (fun q => { q with state := .unused }) p)
      by_cases hpn : p = np
      · subst hpn
        rw [Table.modify_self]
        exact .dropped c cur rfl hc hpc rfl
      · rw [Table.modify_of_ne hpn]
        exact .refl k _ p
  | @forkDone c cur np hc hpc =>
      have hnp := h.forks.embryo cur np (Or.inr hpc)
      exact .modify _ (fun q => { q with state := .runnable }) (by simp [hnp]) rfl (by simp) p
  | wakeup hfree => exact .woken (woken_wakeup1 _ _ p)
  | @kill c cur pid hc => exact kill_touched k c pid p
  | setMode => exact .refl k _ p

end Touch

/-! ## Whole runs -/

section Run

variable {ι : Type} [DecidableEq ι] {k k' : State ι} {e : Event ι}
  {tr : List (State ι × Event ι)}

/-- A call of `kill` does not find an UNUSED entry before one in use, and a `fork` does not give up
    a new process that has been killed. -/
def KillSafe (k : State ι) : Event ι → Prop
  | .kill _ pid => ∀ p, (k.proc p).pid = pid → (k.proc p).state = .unused →
      ∃ q < p, (k.proc q).pid = pid ∧ (k.proc q).state ≠ .unused
  | .forkFail c => ∀ cur np, k.running c = some cur → k.pc cur = .forking np →
      (k.proc np).killed = false
  | _ => True

instance (k : State ι) : (e : Event ι) → Decidable (KillSafe k e)
  | .kill _ pid => inferInstanceAs (Decidable (∀ p, (k.proc p).pid = pid →
      (k.proc p).state = .unused → ∃ q < p, (k.proc q).pid = pid ∧ (k.proc q).state ≠ .unused))
  | .forkFail c => inferInstanceAs (Decidable (∀ cur np, k.running c = some cur →
      k.pc cur = .forking np → (k.proc np).killed = false))
  | .acquire _ | .resume _ | .yield _ | .sleep _ _ | .exit _ | .wait _ | .allocproc _
  | .forkParent _ | .forkDone _ | .wakeup _ | .setMode _ => inferInstanceAs (Decidable True)

/-- The process in this entry has been named by a call of `kill`. It is the same process as long as
    the entry does not become UNUSED. -/
def Named (tr : List (State ι × Event ι)) (p : Slot) : Prop :=
  ∃ tr₁ k₀ c pid tr₂, tr = tr₁ ++ (k₀, Event.kill c pid) :: tr₂ ∧ (k₀.proc p).pid = pid ∧
    (k₀.proc p).state ≠ .unused ∧ ∀ x ∈ tr₂, (x.1.proc p).state ≠ .unused

theorem find?_slots_le {f : Slot → Bool} {p q : Slot} (h : slots.find? f = some p)
    (hq : f q = true) : p ≤ q := by
  obtain ⟨-, as, bs, heq, hbefore⟩ := List.find?_eq_some_iff_append.1 h
  have hsorted : (as ++ p :: bs).Pairwise (· < ·) := heq ▸ List.pairwise_lt_finRange nproc
  have hmem : q ∈ as ++ p :: bs := heq ▸ mem_slots q
  rcases List.mem_append.1 hmem with hin | hin
  · have hno := hbefore q hin
    simp [hq] at hno
  · rcases List.mem_cons.1 hin with rfl | hin
    · exact Fin.le_refl q
    · have hlt := (List.pairwise_cons.1 (List.pairwise_append.1 hsorted).2.1).1 q hin
      exact Fin.le_of_lt hlt

/-- The entry that a safe call of `kill` finds is in use. -/
theorem KillSafe.found {c : ι} {pid : Int} {p : Slot} (h : KillSafe k (.kill c pid))
    (hfind : slots.find? (fun q => (k.proc q).pid = pid) = some p) :
    (k.proc p).state ≠ .unused := by
  intro hunused
  obtain ⟨q, hlt, hpid, -⟩ := h p (by simpa using List.find?_some hfind) hunused
  have hle := find?_slots_le hfind (by simpa using hpid)
  exact absurd hlt (Fin.not_lt.2 hle)

omit [DecidableEq ι] in
theorem Named.snoc {p : Slot} (h : Named tr p) (hp : (k.proc p).state ≠ .unused) :
    Named (tr ++ [(k, e)]) p := by
  obtain ⟨tr₁, k₀, c, pid, tr₂, rfl, hpid, hstate, hafter⟩ := h
  refine ⟨tr₁, k₀, c, pid, tr₂ ++ [(k, e)], by simp, hpid, hstate, fun x hx => ?_⟩
  rcases List.mem_append.1 hx with hx | hx
  · exact hafter x hx
  · rw [List.mem_singleton.1 hx]
    exact hp

/-- An UNUSED entry is not killed, and a process that is has been named. -/
structure Marked (tr : List (State ι × Event ι)) (k : State ι) : Prop where
  unused : ∀ p, (k.proc p).state = .unused → (k.proc p).killed = false
  named : ∀ p, (k.proc p).state ≠ .unused → (k.proc p).killed = true → Named tr p

/-- A safe step leaves no mark on an entry that is UNUSED before it. -/
theorem Marked.fresh (h : Marked tr k) (hinv : Inv False k) (hs : Step k e k')
    (hsafe : KillSafe k e) {p : Slot} (hp : (k.proc p).state = .unused) :
    (k'.proc p).killed = false := by
  cases step_touched hinv hs p with
  | same hk _ => rw [hk, h.unused p hp]
  | taken _ hk => rw [hk, h.unused p hp]
  | reaped hk => exact hk
  | dropped c cur _ _ _ hk => rw [hk, h.unused p hp]
  | named c pid he hfind _ =>
      subst he
      exact absurd hp (hsafe.found hfind)

theorem Marked.step (h : Marked tr k) (hinv : Inv False k) (hs : Step k e k')
    (hsafe : KillSafe k e) : Marked (tr ++ [(k, e)]) k' := by
  refine ⟨fun p hp => ?_, fun p hp hkilled => ?_⟩
  · by_cases hwas : (k.proc p).state = .unused
    · exact h.fresh hinv hs hsafe hwas
    · cases step_touched hinv hs p with
      | same _ hu => exact absurd (hu.1 hp) hwas
      | taken hu _ => exact absurd hu hwas
      | reaped hk => exact hk
      | dropped c cur he hcur hpc hk =>
          subst he
          rw [hk, hsafe cur p hcur hpc]
      | named c pid _ _ hu => exact absurd (hu.1 hp) hwas
  · have hwas : (k.proc p).state ≠ .unused := by
      intro hwas
      rw [h.fresh hinv hs hsafe hwas] at hkilled
      exact nomatch hkilled
    cases step_touched hinv hs p with
    | same hk _ => exact (h.named p hwas (hk ▸ hkilled)).snoc hwas
    | taken hu _ => exact absurd hu hwas
    | reaped hk =>
        rw [hk] at hkilled
        exact nomatch hkilled
    | dropped c cur _ _ _ hk => exact (h.named p hwas (hk ▸ hkilled)).snoc hwas
    | named c pid he hfind _ =>
        subst he
        exact ⟨tr, k, c, pid, [], rfl, by simpa using List.find?_some hfind, hwas, by simp⟩

theorem run_marked (hrun : Run Step (boot ι) tr k) (hsafe : ∀ x ∈ tr, KillSafe x.1 x.2) :
    Inv False k ∧ Marked tr k := by
  induction hrun with
  | nil => exact ⟨boot_inv, fun _ _ => rfl, fun _ _ hk => nomatch hk⟩
  | @snoc tr k k' e hrun hs ih =>
      obtain ⟨hinv, hmarked⟩ := ih fun x hx => hsafe x (List.mem_append_left _ hx)
      exact ⟨hinv.step hs False.elim, hmarked.step hinv hs (hsafe (k, e) (by simp))⟩

/-- A safe call of `kill` returns 0 if and only if a process has the pid. -/
theorem KillSafe.returns {c : ι} {pid : Int} (h : KillSafe k (.kill c pid)) :
    (Sched.kill pid k.proc).1 = 0 ↔
      ∃ p, (k.proc p).state ≠ .unused ∧ (k.proc p).pid = pid := by
  unfold Sched.kill
  split
  next hnone =>
    refine ⟨fun h0 => (nomatch h0), fun ⟨p, _, hpid⟩ => ?_⟩
    have hno := List.find?_eq_none.1 hnone p (mem_slots p)
    simp [hpid] at hno
  next p hfind =>
    exact ⟨fun _ => ⟨p, h.found hfind, by simpa using List.find?_some hfind⟩, fun _ => rfl⟩

/-- What `kill` has done up to the end of a run. -/
structure KillOk (tr : List (State ι × Event ι)) (k : State ι) : Prop where
  returns : ∀ k₀ c pid, (k₀, Event.kill c pid) ∈ tr →
    ((Sched.kill pid k₀.proc).1 = 0 ↔ ∃ p, (k₀.proc p).state ≠ .unused ∧ (k₀.proc p).pid = pid)
  /-- a call that returns -1 changes nothing -/
  fails : ∀ k₀ c pid k₁, (k₀, Event.kill c pid) ∈ tr → Step k₀ (.kill c pid) k₁ →
    (Sched.kill pid k₀.proc).1 = -1 → k₁ = k₀
  /-- a process starts its life with `killed == 0` -/
  starts : ∀ k₀ e k₁, (k₀, e) ∈ tr → Step k₀ e k₁ → ∀ p, (k₀.proc p).state = .unused →
    (k₁.proc p).state ≠ .unused → (k₁.proc p).killed = false
  /-- a process that is killed has been named while it was alive -/
  named : ∀ p, (k.proc p).state ≠ .unused → (k.proc p).killed = true → Named tr p

theorem kill_fails {c : ι} {pid : Int} (hs : Step k (.kill c pid) k')
    (hret : (Sched.kill pid k.proc).1 = -1) : k' = k := by
  unfold Step at hs
  obtain ⟨cur, -, rfl⟩ := Option.map_eq_some_iff.1 hs
  unfold Sched.kill at hret ⊢
  split
  next => rfl
  next p hfind =>
    simp only [hfind] at hret
    exact absurd hret (by decide)

/-- **Kill.** Along every run in which no call of `kill` finds an UNUSED entry first and no `fork`
    gives up a new process that has been killed, `kill` returns 0 if and only if a process has the
    pid, changes nothing when it returns -1, every process starts its life with `killed == 0`, and
    one that is killed has been named while it was alive. -/
theorem kill_named (hrun : Run Step (boot ι) tr k) (hsafe : ∀ x ∈ tr, KillSafe x.1 x.2) :
    KillOk tr k := by
  refine ⟨fun k₀ c pid hmem => (hsafe _ hmem).returns, fun k₀ c pid k₁ _ hs => kill_fails hs,
    fun k₀ e k₁ hmem hs p hp _ => ?_, (run_marked hrun hsafe).2.named⟩
  obtain ⟨tr₁, hrun₁, hsub⟩ := hrun.of_mem hmem
  obtain ⟨hinv, hmarked⟩ := run_marked hrun₁ fun x hx => hsafe x (hsub hx)
  exact hmarked.fresh hinv hs (hsafe _ hmem) hp

end Run

/-- The first process forks and kills its child. -/
def forkKill : List (Event (Fin 2)) :=
  [.setMode true, .acquire 0, .resume 0, .allocproc 0, .forkParent 0, .forkDone 0, .kill 0 2,
    .kill 0 7]

theorem kill_named_child :
    ∃ tr k, Run Step (boot (Fin 2)) tr k ∧ tr.map Prod.snd = forkKill ∧
      (∀ x ∈ tr, KillSafe x.1 x.2) ∧ (k.proc 1).killed = true ∧ KillOk tr k := by
  have hplay : ((play State.next (boot (Fin 2)) forkKill).map fun r =>
      (decide (∀ x ∈ r.1, KillSafe x.1 x.2), (r.2.proc 1).killed)) = some (true, true) := by
    decide +kernel
  obtain ⟨⟨tr, k⟩, hplay, heq⟩ := Option.map_eq_some_iff.1 hplay
  obtain ⟨hsafe, hkilled⟩ := Prod.mk.inj heq
  obtain ⟨hrun, hevents⟩ := play_run hplay
  have hsafe := of_decide_eq_true hsafe
  exact ⟨tr, k, hrun, hevents, hsafe, hkilled, kill_named hrun hsafe⟩

/-- The first process calls `kill(0)`, which finds the first UNUSED entry, and forks. -/
def killZero : List (Event (Fin 2)) :=
  [.setMode true, .acquire 0, .resume 0, .kill 0 0, .allocproc 0]

/-- **`kill(0)` kills a process that is not there.** It returns 0 although no process has the pid 0,
    and the next child starts its life killed. -/
theorem kill_zero_marks_unused :
    ∃ tr k, Run Step (boot (Fin 2)) tr k ∧
      (∃ x ∈ tr, x.2 = .kill 0 0 ∧ (Sched.kill 0 x.1.proc).1 = 0 ∧
        ∀ p, (x.1.proc p).state ≠ .unused → (x.1.proc p).pid ≠ 0) ∧
      (k.proc 1).state = .embryo ∧ (k.proc 1).killed = true ∧ ¬ KillOk tr k := by
  have hplay : ((play State.next (boot (Fin 2)) killZero).map fun r =>
      (decide (∃ x ∈ r.1, x.2 = .kill 0 0 ∧ (Sched.kill 0 x.1.proc).1 = 0 ∧
          ∀ p, (x.1.proc p).state ≠ .unused → (x.1.proc p).pid ≠ 0),
        (r.2.proc 1).state, (r.2.proc 1).killed)) = some (true, .embryo, true) := by
    decide +kernel
  obtain ⟨⟨tr, k⟩, hplay, heq⟩ := Option.map_eq_some_iff.1 hplay
  obtain ⟨hrun, -⟩ := play_run hplay
  obtain ⟨hzero, heq⟩ := Prod.mk.inj heq
  obtain ⟨hembryo, hkilled⟩ := Prod.mk.inj heq
  have hzero := of_decide_eq_true hzero
  refine ⟨tr, k, hrun, hzero, hembryo, hkilled, fun hok => ?_⟩
  obtain ⟨⟨k₀, e⟩, hmem, he, hret, hno⟩ := hzero
  cases he
  obtain ⟨p, hp, hpid⟩ := (hok.returns k₀ 0 0 hmem).1 hret
  exact hno p hp hpid

end Cs350.Kernel
