import Cs350.Shell.Exec
import Mathlib.Order.Nat

set_option autoImplicit false

/-! # What the processes of the shell can be doing

The lists of frames that occur are few: in a process that runs `execcmd` for the read loop, what is
left after the current call is nothing; in a forked process it is an `exit`, except in the child of
an EXEC, which has inherited what its parent had left to do. `CodeOk` collects these shapes with the
bookkeeping of pids, and every step keeps them. -/

namespace Cs350.Shell

variable {W : Type}

/-- The next thing to do is `exit`; what its callers had left to do ends the same way. -/
def Exits (k : List (Frame W)) : Prop :=
  ∃ n k', k = .exit n :: k' ∧ ∀ f ∈ k', ∃ m, f = .exit m

/-- Inside `execcmd`, where `R` describes what is left to do after the call. -/
inductive Body (R : List (Frame W) → Prop) : List (Frame W) → Prop
  | ret {k} (h : R k) : Body R k
  | call {c k} (h : R k) : Body R (.call c :: k)
  | waitFor {q k} (h : R k) : Body R (.waitFor q :: k)
  | waitOnce {q c k} (h : R k) : Body R (.waitOnce q :: .call c :: k)
  | redirWait {own a b k} (h : R k) : Body R (.waitAll own :: .redirEnd a b :: k)
  | redirEnd {a b k} (h : R k) : Body R (.redirEnd a b :: k)
  | pipeFork {c a b q k} (h : R k) : Body R (.pipeFork c a b q :: k)
  | pipeClose {a b own own' k} (h : R k) :
      Body R (.pipeClose a b :: .waitAll own :: .waitAll own' :: .pipeEnd :: k)
  | pipeWait {own own' k} (h : R k) : Body R (.waitAll own :: .waitAll own' :: .pipeEnd :: k)
  | pipeWait' {own k} (h : R k) : Body R (.waitAll own :: .pipeEnd :: k)
  | pipeEnd {k} (h : R k) : Body R (.pipeEnd :: k)

/-- What a forked process can be doing, where `R` describes what is left after a call it makes. -/
inductive Forked (R : List (Frame W) → Prop) : List (Frame W) → Prop
  | body {k} (h : Body R k) : Forked R k
  | execvp {argv k} (h : k = [] ∨ Exits k) : Forked R (.execvp argv :: k)
  | redirect {file mode n c k} (h : Exits k) : Forked R (.redirect file mode n :: .call c :: k)
  | pipeOut {a b c k} (h : Exits k) : Forked R (.pipeOut a b :: .call c :: k)
  | pipeIn {a b c k} (h : Exits k) : Forked R (.pipeIn a b :: .call c :: k)

theorem Exits.mem {k : List (Frame W)} (h : Exits k) {f : Frame W} (hf : f ∈ k) :
    ∃ n, f = .exit n := by
  obtain ⟨n, k', rfl, hall⟩ := h
  rcases List.mem_cons.1 hf with rfl | hf
  · exact ⟨n, rfl⟩
  · exact hall f hf

theorem not_exits_nil : ¬ Exits ([] : List (Frame W)) := by
  rintro ⟨n, k, h, -⟩
  cases h

theorem not_exits_waitFor (q : Nat) (k : List (Frame W)) : ¬ Exits (.waitFor q :: k) := by
  rintro ⟨n, k, h, -⟩
  cases h

/-- After a call the process is back at its caller: in the read loop, or about to `exit`. -/
def Returns (R : List (Frame W) → Prop) : Prop := ∀ k, R k → k = [] ∨ Exits k

theorem Returns.exits_cons {R : List (Frame W) → Prop} (hR : Returns R) {k : List (Frame W)}
    (h : R k) (n : Int) : Exits (.exit n :: k) := by
  refine ⟨n, k, rfl, fun f hf => ?_⟩
  rcases hR k h with rfl | h
  · cases hf
  · exact h.mem hf

theorem returns_nil : Returns fun k : List (Frame W) => k = [] := fun _ h => Or.inl h

theorem returns_exits : Returns (Exits : List (Frame W) → Prop) := fun _ h => Or.inr h

/-- The read loop or an `exit`. -/
def Back (k : List (Frame W)) : Prop := k = [] ∨ Exits k

theorem returns_back : Returns (Back : List (Frame W) → Prop) := fun _ h => h

theorem Returns.not_waitFor {R : List (Frame W) → Prop} (hR : Returns R) {q : Nat}
    {k : List (Frame W)} : ¬ R (.waitFor q :: k) := by
  intro h
  rcases hR _ h with h | h
  · cases h
  · exact not_exits_waitFor q k h

/-- Good outcomes: the process stays inside `execcmd`, waits only for the child it has just forked,
    and that child does what forked processes do. -/
structure OutcomeOk (R : List (Frame W) → Prop) (pid : Nat) (o : Outcome W) : Prop where
  body : Body R o.code
  waits : ∀ q k, o.code = .waitFor q :: k → q = pid ∧ o.child ≠ none
  child : ∀ code, o.child = some code → Forked Exits code
  childWaits : ∀ q k, o.child ≠ some (.waitFor q :: k)

theorem execcmd_ok {R : List (Frame W) → Prop} (hR : Returns R) {c : Cmd W} {k : List (Frame W)}
    (hk : R k) (fds : FdTable W) (pid : Nat) (id : Nat) (ok : Bool) :
    (∃ n, execcmd c k fds pid id ok = .exit n) ∨
      ∃ o, execcmd c k fds pid id ok = .next o ∧ OutcomeOk R pid o := by
  have hnot : ∀ q k', k ≠ .waitFor q :: k' := fun q k' h => hR.not_waitFor (h ▸ hk)
  cases c with
  | exec argv =>
      right
      simp only [execcmd]
      split_ifs with hargv
      · exact ⟨_, rfl, .ret hk, fun q k' h => absurd h (hnot q k'), by simp, by simp⟩
      · refine ⟨_, rfl, .waitFor hk, fun q k' h => ?_, fun code h => ?_, by simp⟩
        · cases h
          exact ⟨rfl, by simp⟩
        · cases h
          exact .execvp (hR k hk)
  | redir cmd file mode n =>
      right
      refine ⟨_, rfl, .redirWait hk, by simp, fun code h => ?_, by simp⟩
      cases h
      exact .redirect (hR.exits_cons hk 0)
  | list left right =>
      right
      refine ⟨_, rfl, .waitOnce hk, by simp, fun code h => ?_, by simp⟩
      cases h
      exact .body (.call (hR.exits_cons hk 0))
  | pipe left right =>
      simp only [execcmd]
      split_ifs with hok
      · right
        refine ⟨_, rfl, .pipeFork hk, by simp, fun code h => ?_, by simp⟩
        cases h
        exact .pipeOut (hR.exits_cons hk 0)
      · exact Or.inl ⟨_, rfl⟩
  | back cmd =>
      right
      refine ⟨_, rfl, .ret hk, fun q k' h => absurd h (hnot q k'), fun code h => ?_, by simp⟩
      cases h
      exact .body (.call (hR.exits_cons hk 1))

/-- A step inside `execcmd` exits or has a good outcome. -/
theorem runFrame_body {R : List (Frame W) → Prop} (hR : Returns R) {f : Frame W}
    {k : List (Frame W)} (hbody : Body R (f :: k)) {fds : FdTable W} {pid : Nat} {id : Nat}
    {ok : Bool} {r : Result W} (hr : runFrame f k fds pid id ok = some r) :
    (∃ n, r = .exit n) ∨ ∃ o, r = .next o ∧ OutcomeOk R pid o := by
  cases hbody with
  | ret h =>
      rcases hR _ h with h | ⟨n, k', h, -⟩
      · cases h
      · cases h
        exact Or.inl ⟨n, (Option.some.inj hr).symm⟩
  | call h =>
      obtain rfl := Option.some.inj hr
      exact execcmd_ok hR h fds pid id ok
  | waitFor h => cases hr
  | waitOnce h => cases hr
  | redirWait h => cases hr
  | redirEnd h =>
      obtain rfl := Option.some.inj hr
      exact Or.inr ⟨_, rfl, .ret h, fun q k' hq => absurd h (by
        rw [show k = .waitFor q :: k' from hq]; exact hR.not_waitFor), by simp, by simp⟩
  | pipeFork h =>
      obtain rfl := Option.some.inj hr
      refine Or.inr ⟨_, rfl, .pipeClose h, by simp, fun code hc => ?_, by simp⟩
      cases hc
      exact .pipeIn (hR.exits_cons h 0)
  | pipeClose h =>
      obtain rfl := Option.some.inj hr
      exact Or.inr ⟨_, rfl, .pipeWait h, by simp, by simp, by simp⟩
  | pipeWait h => cases hr
  | pipeWait' h => cases hr
  | pipeEnd h => cases hr

/-- A step of a forked process becomes a program, exits, returns to the read loop after a failed
    `execvp`, or leaves it a forked process. -/
theorem runFrame_forked {R : List (Frame W) → Prop} (hR : Returns R) (hexits : ∀ k, Exits k → R k)
    {f : Frame W} {k : List (Frame W)} (hcode : Forked R (f :: k)) {fds : FdTable W} {pid : Nat}
    {id : Nat} {ok : Bool} {r : Result W}
    (hr : runFrame f k fds pid id ok = some r) :
    (∃ argv, r = .exec argv) ∨ (∃ n, r = .exit n) ∨
    (∃ argv, f = .execvp argv ∧ k = [] ∧ ok = false ∧ r = .next { fds := fds, code := [] }) ∨
    ∃ o, r = .next o ∧ OutcomeOk R pid o := by
  cases hcode with
  | body h =>
      rcases runFrame_body hR h hr with h | h
      · exact Or.inr (Or.inl h)
      · exact Or.inr (Or.inr (Or.inr h))
  | @execvp argv _ h =>
      obtain rfl := Option.some.inj hr
      cases ok with
      | true => exact Or.inl ⟨argv, rfl⟩
      | false =>
          right; right
          rcases h with rfl | h
          · exact Or.inl ⟨argv, rfl, rfl, rfl, rfl⟩
          · exact Or.inr ⟨_, rfl, .ret (hexits _ h), fun q k' hq => absurd h (by
              rw [show k = .waitFor q :: k' from hq]; exact not_exits_waitFor q k'),
              by simp, by simp⟩
  | redirect h =>
      obtain rfl := Option.some.inj hr
      exact Or.inr (Or.inr (Or.inr ⟨_, rfl, .call (hexits _ h), by simp, by simp, by simp⟩))
  | pipeOut h =>
      obtain rfl := Option.some.inj hr
      exact Or.inr (Or.inr (Or.inr ⟨_, rfl, .call (hexits _ h), by simp, by simp, by simp⟩))
  | pipeIn h =>
      obtain rfl := Option.some.inj hr
      exact Or.inr (Or.inr (Or.inr ⟨_, rfl, .call (hexits _ h), by simp, by simp, by simp⟩))

theorem Body.mono {R R' : List (Frame W) → Prop} (hR : ∀ k, R k → R' k) {k : List (Frame W)}
    (h : Body R k) : Body R' k := by
  cases h with
  | ret h => exact .ret (hR _ h)
  | call h => exact .call (hR _ h)
  | waitFor h => exact .waitFor (hR _ h)
  | waitOnce h => exact .waitOnce (hR _ h)
  | redirWait h => exact .redirWait (hR _ h)
  | redirEnd h => exact .redirEnd (hR _ h)
  | pipeFork h => exact .pipeFork (hR _ h)
  | pipeClose h => exact .pipeClose (hR _ h)
  | pipeWait h => exact .pipeWait (hR _ h)
  | pipeWait' h => exact .pipeWait' (hR _ h)
  | pipeEnd h => exact .pipeEnd (hR _ h)

/-- What is left once a wait is over, or the descriptors of a PIPE are restored. -/
theorem Body.tail_of_wait {R : List (Frame W) → Prop} (hR : Returns R) {f : Frame W}
    {k : List (Frame W)} (h : Body R (f :: k)) (hf : f.Waits ∨ f = .pipeEnd) :
    Body R k ∧ ∀ q k', k ≠ .waitFor q :: k' := by
  have hnot : ∀ {k : List (Frame W)}, R k → ∀ q k', k ≠ .waitFor q :: k' :=
    fun h q k' heq => hR.not_waitFor (heq ▸ h)
  cases h with
  | ret h =>
      exfalso
      rcases hR _ h with h | ⟨n, k', h, -⟩
      · cases h
      · cases h
        rcases hf with hf | hf
        · exact hf
        · cases hf
  | waitFor h => exact ⟨.ret h, hnot h⟩
  | waitOnce h => exact ⟨.call h, by simp⟩
  | redirWait h => exact ⟨.redirEnd h, by simp⟩
  | pipeWait h => exact ⟨.pipeWait' h, by simp⟩
  | pipeWait' h => exact ⟨.pipeEnd h, by simp⟩
  | pipeEnd h => exact ⟨.ret h, hnot h⟩
  | _ =>
      rcases hf with hf | hf
      · exact hf.elim
      · cases hf

/-! ## The invariant -/

/-- The invariant of all processes, where `C p` describes what the process `p` can be doing. -/
structure CodeOk (C : Nat → List (Frame W) → Prop) (w : World W) : Prop where
  pos : 0 < w.next
  /-- The pids from `next` on are unused. -/
  fresh : ∀ p, w.next ≤ p → w.proc p = ⟨none, [], .reaped⟩
  code : ∀ p k, (w.proc p).status = .shell k → C p k
  /-- The loop of EXEC waits for a child that exists. -/
  waits : ∀ p q k, (w.proc p).status = .shell (.waitFor q :: k) → w.Child p q
  /-- Children are younger than their parents. -/
  older : ∀ p q, (w.proc q).parent = some p → p < q

section Closure

variable {C : Nat → List (Frame W) → Prop}

theorem CodeOk.lt_next {w : World W} (hw : CodeOk C w) {p : Nat}
    (h : (w.proc p).status ≠ .reaped) : p < w.next := by
  by_contra hle
  rw [hw.fresh p (not_lt.1 hle)] at h
  exact h rfl

theorem CodeOk.lt_next_of_shell {w : World W} (hw : CodeOk C w) {p : Nat} {k : List (Frame W)}
    (h : (w.proc p).status = .shell k) : p < w.next :=
  hw.lt_next (by rw [h]; simp)

theorem codeOk_init (hC : C 0 []) (fds : FdTable W) : CodeOk C (World.init fds) where
  pos := Nat.one_pos
  fresh p hp := by
    have hp : 1 ≤ p := hp
    simp [World.init, show p ≠ 0 by omega]
  code p k h := by
    by_cases hp : p = 0
    · subst hp
      simp only [World.init, if_true, Status.shell.injEq] at h
      exact h ▸ hC
    · simp [World.init, hp] at h
  waits p q k h := by
    by_cases hp : p = 0 <;> simp [World.init, hp] at h
  older p q h := by
    by_cases hq : q = 0 <;> simp [World.init, hq] at h

/-- Steps that create no process: what remains to be checked are the codes and waits that are new. -/
theorem CodeOk.of_same_next {w w' : World W} (hw : CodeOk C w) (hnext : w'.next = w.next)
    (hfresh : ∀ p, w.next ≤ p → w'.proc p = w.proc p)
    (hparent : ∀ p q, (w'.proc q).parent = some p → (w.proc q).parent = some p)
    (hcode : ∀ p k, (w'.proc p).status = .shell k → (w.proc p).status = .shell k ∨ C p k)
    (hwaits : ∀ p q k, (w'.proc p).status = .shell (.waitFor q :: k) → w'.Child p q) :
    CodeOk C w' where
  pos := hnext ▸ hw.pos
  fresh p hp := by
    rw [hnext] at hp
    rw [hfresh p hp, hw.fresh p hp]
  code p k h := (hcode p k h).elim (hw.code p k) id
  waits := hwaits
  older p q h := hw.older p q (hparent p q h)

/-- A process goes on with other code, or stops running shell code, and is not reaped. -/
theorem CodeOk.setStatus {w : World W} (hw : CodeOk C w) {p : Nat} (hp : p < w.next) {st : Status W}
    (hreaped : st ≠ .reaped) (hcode : ∀ k, st = .shell k → C p k)
    (hwaits : ∀ q k, st ≠ .shell (.waitFor q :: k)) : CodeOk C (w.setStatus p st) := by
  refine hw.of_same_next rfl (fun q hq => ?_) (fun q r h => by simpa using h) (fun q k h => ?_)
    (fun q r k h => ?_)
  · exact setStatus_proc_of_ne w st (by omega)
  · by_cases hq : q = p
    · subst hq
      rw [setStatus_status_self] at h
      exact Or.inr (hcode k h)
    · rw [setStatus_proc_of_ne w st hq] at h
      exact Or.inl h
  · have hq : q ≠ p := by
      rintro rfl
      rw [setStatus_status_self] at h
      exact hwaits r k h
    rw [setStatus_proc_of_ne w st hq] at h
    obtain ⟨hparent, hstatus⟩ := hw.waits q r k h
    refine ⟨by rwa [setStatus_parent], ?_⟩
    by_cases hr : r = p
    · rwa [hr, setStatus_status_self]
    · rwa [setStatus_proc_of_ne w st hr]

/-- A child is reaped that nobody waits for by its pid. -/
theorem CodeOk.reap {w : World W} (hw : CodeOk C w) {q : Nat} (hq : q < w.next)
    (hnobody : ∀ p k, (w.proc p).status ≠ .shell (.waitFor q :: k)) :
    CodeOk C (w.setStatus q .reaped) := by
  refine hw.of_same_next rfl (fun r hr => ?_) (fun p r h => by simpa using h) (fun p k h => ?_)
    (fun p r k h => ?_)
  · exact setStatus_proc_of_ne w _ (by omega)
  · have hp : p ≠ q := by
      rintro rfl
      rw [setStatus_status_self] at h
      cases h
    rw [setStatus_proc_of_ne w _ hp] at h
    exact Or.inl h
  · have hp : p ≠ q := by
      rintro rfl
      rw [setStatus_status_self] at h
      cases h
    rw [setStatus_proc_of_ne w _ hp] at h
    have hr : r ≠ q := by
      rintro rfl
      exact hnobody p k h
    refine ⟨by simpa using (hw.waits p r k h).1, ?_⟩
    rw [setStatus_proc_of_ne w _ hr]
    exact (hw.waits p r k h).2

theorem CodeOk.terminate {w : World W} (hw : CodeOk C w) {p : Nat} (hp : p < w.next) (n : Int) :
    CodeOk C (w.terminate p n) := by
  have hcode : ∀ q k, ((w.terminate p n).proc q).status = .shell k →
      q ≠ p ∧ (w.proc q).status = .shell k := by
    intro q k h
    have hq : q ≠ p := by
      rintro rfl
      rw [terminate_status_self] at h
      cases h
    exact ⟨hq, by rwa [terminate_status_of_ne w n hq] at h⟩
  refine hw.of_same_next rfl (fun q hq => ?_) (fun q r h => (terminate_parent h).1)
    (fun q k h => Or.inl (hcode q k h).2) (fun q r k h => ?_)
  · have hne : q ≠ p := by omega
    simp [World.terminate, hne, hw.fresh q hq]
  · obtain ⟨hne, h⟩ := hcode q _ h
    obtain ⟨hparent, hstatus⟩ := hw.waits q r k h
    by_cases hr : r = p
    · subst hr
      exact ⟨by simpa [World.terminate] using hparent, by simp⟩
    · have hkeep : (w.terminate p n).proc r = w.proc r := by
        simp [World.terminate, hr, hparent, hne]
      exact ⟨by rwa [hkeep], by rwa [hkeep]⟩

theorem CodeOk.continue {w : World W} (hw : CodeOk C w) {p : Nat} (hp : p < w.next) {o : Outcome W}
    (hcode : C p o.code)
    (hwaits : ∀ q k, o.code = .waitFor q :: k → q = w.next ∧ o.child ≠ none)
    (hchild : ∀ code, o.child = some code → C w.next code ∧ ∀ q k, code ≠ .waitFor q :: k) :
    CodeOk C (w.continue p o) := by
  have hpn : p ≠ w.next := by omega
  have hself := continue_self w o hpn
  have hother : ∀ q, q ≠ p → q ≠ w.next → (w.continue p o).proc q = w.proc q :=
    fun q => continue_proc_of_ne w o
  have hkept : ∀ q, q ≠ w.next → (w.proc q).status ≠ .reaped →
      ((w.continue p o).proc q).status ≠ .reaped := by
    intro q hq hr
    by_cases hqp : q = p
    · rw [hqp, hself]
      simp
    · rwa [hother q hqp hq]
  have hparent : ∀ q, q ≠ w.next → ((w.continue p o).proc q).parent = (w.proc q).parent := by
    intro q hq
    by_cases hqp : q = p
    · rw [hqp, hself]
    · rw [hother q hqp hq]
  have hwaitsOld : ∀ q r k, q ≠ p → q ≠ w.next →
      ((w.continue p o).proc q).status = .shell (.waitFor r :: k) → (w.continue p o).Child q r := by
    intro q r k hq hqn h
    rw [hother q hq hqn] at h
    obtain ⟨h1, h2⟩ := hw.waits q r k h
    have hr := (hw.lt_next h2).ne
    exact ⟨by rwa [hparent r hr], hkept r hr h2⟩
  rcases continue_next w o hpn with ⟨hnone, hnext, hnew⟩ | ⟨code, hsome, hnext, hnew⟩
  · refine hw.of_same_next hnext (fun q hq => ?_) (fun q r h => ?_) (fun q k h => ?_)
      (fun q r k h => ?_)
    · by_cases hqn : q = w.next
      · rw [hqn, hnew]
      · exact hother q (by omega) hqn
    · by_cases hr : r = w.next
      · rwa [hr, hnew, ← hr] at h
      · rwa [hparent r hr] at h
    · by_cases hq : q = p
      · rw [hq, hself] at h
        cases h
        exact Or.inr (hq ▸ hcode)
      · by_cases hqn : q = w.next
        · rw [hqn, hnew, ← hqn] at h
          exact Or.inl h
        · rw [hother q hq hqn] at h
          exact Or.inl h
    · by_cases hq : q = p
      · rw [hq, hself] at h
        exact absurd hnone (hwaits r k (by simpa using h)).2
      · by_cases hqn : q = w.next
        · rw [hqn, hnew, hw.fresh _ le_rfl] at h
          cases h
        · exact hwaitsOld q r k hq hqn h
  · obtain ⟨hnew', hnowait⟩ := hchild code hsome
    refine ⟨by omega, fun q hq => ?_, fun q k h => ?_, fun q r k h => ?_, fun q r h => ?_⟩
    · rw [hother q (by omega) (by omega), hw.fresh q (by omega)]
    · by_cases hq : q = p
      · rw [hq, hself] at h
        cases h
        exact hq ▸ hcode
      · by_cases hqn : q = w.next
        · rw [hqn, hnew] at h
          cases h
          exact hqn ▸ hnew'
        · rw [hother q hq hqn] at h
          exact hw.code q k h
    · by_cases hq : q = p
      · rw [hq, hself] at h
        obtain ⟨rfl, -⟩ := hwaits r k (by simpa using h)
        exact ⟨by rw [hnew, hq], by rw [hnew]; simp⟩
      · by_cases hqn : q = w.next
        · rw [hqn, hnew] at h
          cases h
          exact absurd rfl (hnowait r k)
        · exact hwaitsOld q r k hq hqn h
    · by_cases hr : r = w.next
      · rw [hr, hnew] at h
        cases h
        omega
      · rw [hparent r hr] at h
        exact hw.older q r h

/-- Every step keeps the invariant if `C` is closed under what the steps do to the code. -/
theorem moves_codeOk_of {w w' : World W} {a : Act W} (hw : CodeOk C w) (h : Moves w a w')
    (hread : ∀ p c, C p [] → C p [.call c])
    (htail : ∀ p f k, C p (f :: k) → f.Waits ∨ f = .pipeEnd →
      C p k ∧ ∀ q k', k ≠ .waitFor q :: k')
    (hrun : ∀ p ok f k r, a = .run p ok → (w.proc p).status = .shell (f :: k) →
      runFrame f k (w.proc p).fds w.next w.nextPipe ok = some r → CodeOk C (w.apply p r)) :
    CodeOk C w' := by
  cases h with
  | @read p c hp =>
      refine hw.setStatus (hw.lt_next_of_shell hp) (by simp) (fun k hk => ?_) (by simp)
      cases hk
      exact hread p c (hw.code p _ hp)
  | @run p ok f k r hp hr => exact hrun p ok f k r rfl hp hr
  | restore hp =>
      obtain ⟨hcode, hnot⟩ := htail _ _ _ (hw.code _ _ hp) (Or.inr rfl)
      exact hw.continue (hw.lt_next_of_shell hp) hcode (fun q k h => absurd h (hnot q k)) (by simp)
  | @reapLast p q f k hchild hterm hp hf =>
      have hwait : f.Waits := by rcases hf with rfl | ⟨own, rfl⟩ <;> trivial
      obtain ⟨hcode, hnot⟩ := htail _ _ _ (hw.code _ _ hp) (Or.inl hwait)
      have hpq := hw.older p q hchild.1
      -- leave the wait first: then nobody waits for `q` by its pid
      have hleft : CodeOk C (w.setStatus p (.shell k)) :=
        hw.setStatus (hw.lt_next_of_shell hp) (by simp)
          (fun k' h => by cases h; exact hcode) (fun q' k' h => hnot q' k' (by simpa using h))
      have hcomm : (w.setStatus q .reaped).setStatus p (.shell k) =
          (w.setStatus p (.shell k)).setStatus q .reaped :=
        setStatus_comm w (show q ≠ p by omega) _ _
      rw [hcomm]
      refine hleft.reap (hw.lt_next hchild.2) fun r k' h => ?_
      by_cases hr : r = p
      · subst hr
        rw [setStatus_status_self] at h
        exact hnot q k' (by simpa using h)
      · rw [setStatus_proc_of_ne w _ hr] at h
        have := (hw.waits r q k' h).1
        rw [hchild.1] at this
        exact hr (Option.some.inj this).symm
  | @reapOther p q f k hchild hterm hp hf =>
      refine hw.reap (hw.lt_next hchild.2) fun r k' h => ?_
      have hparent := (hw.waits r q k' h).1
      rw [hchild.1] at hparent
      obtain rfl := Option.some.inj hparent
      rw [hp] at h
      cases h
      rcases hf with ⟨pid, h, hne⟩ | ⟨own, h⟩
      · cases h
        exact hne rfl
      · cases h
  | @waitFails p f k hno hp hf =>
      have hwait : f.Waits := by rcases hf with ⟨own, rfl⟩ | ⟨own, rfl⟩ <;> trivial
      obtain ⟨hcode, hnot⟩ := htail _ _ _ (hw.code _ _ hp) (Or.inl hwait)
      exact hw.setStatus (hw.lt_next_of_shell hp) (by simp)
        (fun k' h => by cases h; exact hcode) (fun q' k' h => hnot q' k' (by simpa using h))
  | waitSpins hno hp => exact hw
  | finish hq => exact hw.terminate (hw.lt_next (by rw [hq]; simp)) _

theorem OutcomeOk.codeOk {R : List (Frame W) → Prop} {w : World W} (hw : CodeOk C w) {p : Nat}
    (hp : p < w.next) {o : Outcome W} (ho : OutcomeOk R w.next o) (hcode : C p o.code)
    (hchild : ∀ code, Forked Exits code → C w.next code) : CodeOk C (w.continue p o) := by
  refine hw.continue hp hcode ho.waits fun code h => ⟨hchild code (ho.child code h), ?_⟩
  intro q k heq
  rw [heq] at h
  exact ho.childWaits q k h

end Closure

theorem Forked.body_of_wait {R : List (Frame W) → Prop} {f : Frame W} {k : List (Frame W)}
    (h : Forked R (f :: k)) (hf : f.Waits ∨ f = .pipeEnd) : Body R (f :: k) := by
  cases h with
  | body h => exact h
  | _ =>
      rcases hf with hf | hf
      · exact hf.elim
      · cases hf

theorem Forked.mono {R R' : List (Frame W) → Prop} (hR : ∀ k, R k → R' k) {k : List (Frame W)}
    (h : Forked R k) : Forked R' k := by
  cases h with
  | body h => exact .body (h.mono hR)
  | execvp h => exact .execvp h
  | redirect h => exact .redirect h
  | pipeOut h => exact .pipeOut h
  | pipeIn h => exact .pipeIn h

/-! ## Waiting -/

/-- A wait never blocks when all children have terminated. -/
theorem wait_step [DecidableEq W] {w : World W} {p : Nat} {f : Frame W} {k : List (Frame W)}
    (hp : (w.proc p).status = .shell (f :: k))
    (hf : f.Waits) (hchildren : ∀ q, w.Child p q → w.Terminated q) :
    (∃ q, (w.step (.reap p q)).isSome) ∨ (w.step (.noChild p)).isSome := by
  by_cases h : ∃ q, w.Child p q
  · left
    obtain ⟨q, hq⟩ := h
    refine ⟨q, ?_⟩
    simp only [World.step, hp, if_pos (And.intro hq (hchildren q hq))]
    cases f with
    | waitFor r =>
        simp only
        split_ifs <;> rfl
    | waitOnce own => rfl
    | waitAll own => rfl
    | _ => exact hf.elim
  · right
    have hno : ∀ q < w.next, ¬ w.Child p q := fun q _ hq => h ⟨q, hq⟩
    simp only [World.step, hp, if_pos hno]
    cases f with
    | waitFor r => rfl
    | waitOnce own => rfl
    | waitAll own => rfl
    | _ => exact hf.elim

/-! ## The shapes without further assumptions -/

/-- Whatever happens, every process is inside `execcmd`, in the read loop or about to `exit`. -/
def AnyCode (_ : Nat) (k : List (Frame W)) : Prop := Forked Back k

theorem moves_anyCode {w w' : World W} {a : Act W} (hw : CodeOk AnyCode w) (h : Moves w a w') :
    CodeOk AnyCode w' := by
  have hexits : ∀ k : List (Frame W), Exits k → Back k := fun k h => Or.inr h
  refine moves_codeOk_of hw h (fun p c _ => .body (.call (Or.inl rfl))) (fun p f k hcode hf => ?_) ?_
  · obtain ⟨h1, h2⟩ := (Forked.body_of_wait hcode hf).tail_of_wait returns_back hf
    exact ⟨.body h1, h2⟩
  · rintro p ok f k r - hp hr
    have hlt := hw.lt_next_of_shell hp
    rcases runFrame_forked returns_back hexits (hw.code p _ hp) hr with
      ⟨argv, rfl⟩ | ⟨n, rfl⟩ | ⟨argv, rfl, rfl, rfl, rfl⟩ | ⟨o, rfl, ho⟩
    · exact hw.setStatus hlt (by simp) (by simp) (by simp)
    · exact hw.terminate hlt n
    · have hcode : AnyCode p ([] : List (Frame W)) := .body (.ret (Or.inl rfl))
      exact hw.continue hlt (o := { fds := (w.proc p).fds, code := [] }) hcode (by simp) (by simp)
    · exact ho.codeOk hw hlt (.body ho.body) fun code h => h.mono hexits

/-! ## The shapes as long as no last `execvp` fails -/

/-- What the process `p` can be doing; process 0 is the shell, and the others exit. -/
def CodeOf (p : Nat) (k : List (Frame W)) : Prop :=
  if p = 0 then Body (fun k => k = []) k else Forked Exits k

/-- The `execvp` of a process fails that has nothing left to do: the child of an EXEC at the end of
    the right sides of LISTs, with no construct around it. -/
def LastExecFails (w : World W) (a : Act W) : Prop :=
  ∃ p argv, a = .run p false ∧ (w.proc p).status = .shell [.execvp argv]

theorem not_forked_nil : ¬ Forked Exits ([] : List (Frame W)) := by
  intro h
  cases h with
  | body h =>
      cases h with
      | ret h => exact not_exits_nil h

/-- What is left after a wait is inside `execcmd` again. -/
theorem CodeOf.tail_of_wait {p : Nat} {f : Frame W} {k : List (Frame W)} (h : CodeOf p (f :: k))
    (hf : f.Waits ∨ f = .pipeEnd) : CodeOf p k ∧ Body Back k ∧ ∀ q k', k ≠ .waitFor q :: k' := by
  unfold CodeOf at h ⊢
  split_ifs at h ⊢ with hp
  · obtain ⟨h1, h2⟩ := h.tail_of_wait returns_nil hf
    exact ⟨h1, h1.mono fun _ => Or.inl, h2⟩
  · obtain ⟨h1, h2⟩ := (h.body_of_wait hf).tail_of_wait returns_exits hf
    exact ⟨.body h1, h1.mono fun _ => Or.inr, h2⟩

theorem run_codeOk {w : World W} (hw : CodeOk CodeOf w) {p : Nat} {ok : Bool} {f : Frame W}
    {k : List (Frame W)} {r : Result W} (hp : (w.proc p).status = .shell (f :: k))
    (hr : runFrame f k (w.proc p).fds w.next w.nextPipe ok = some r)
    (hlast : ¬ LastExecFails w (.run p ok)) : CodeOk CodeOf (w.apply p r) := by
  have hlt := hw.lt_next_of_shell hp
  have hcode := hw.code p _ hp
  have hchild : ∀ code : List (Frame W), Forked Exits code → CodeOf w.next code := by
    intro code h
    have hpos := hw.pos
    rwa [CodeOf, if_neg (by omega)]
  unfold CodeOf at hcode
  split_ifs at hcode with h0
  · rcases runFrame_body returns_nil hcode hr with ⟨n, rfl⟩ | ⟨o, rfl, ho⟩
    · exact hw.terminate hlt n
    · exact ho.codeOk hw hlt (by rw [CodeOf, if_pos h0]; exact ho.body) hchild
  · rcases runFrame_forked returns_exits (fun _ => id) hcode hr with ⟨argv, rfl⟩ | ⟨n, rfl⟩ |
      ⟨argv, rfl, rfl, rfl, -⟩ | ⟨o, rfl, ho⟩
    · exact hw.setStatus hlt (by simp) (by simp) (by simp)
    · exact hw.terminate hlt n
    · exact absurd ⟨p, argv, rfl, hp⟩ hlast
    · exact ho.codeOk hw hlt (by rw [CodeOf, if_neg h0]; exact .body ho.body) hchild

/-- Every step keeps the shapes, except a last `execvp` that fails. -/
theorem moves_codeOk {w w' : World W} {a : Act W} (hw : CodeOk CodeOf w) (h : Moves w a w')
    (hlast : ¬ LastExecFails w a) : CodeOk CodeOf w' := by
  refine moves_codeOk_of hw h (fun p c hcode => ?_) (fun p f k hcode hf => ?_) ?_
  · unfold CodeOf at hcode ⊢
    split_ifs at hcode ⊢ with h0
    · exact .call rfl
    · exact absurd hcode not_forked_nil
  · obtain ⟨h1, -, h2⟩ := hcode.tail_of_wait hf
    exact ⟨h1, h2⟩
  · rintro p ok f k r rfl hp hr
    exact run_codeOk hw hp hr hlast

end Cs350.Shell
