import Cs350.Shell.Code
import Mathlib.Algebra.BigOperators.Group.Finset.Basic
import Mathlib.Algebra.Order.BigOperators.Group.Finset

set_option autoImplicit false

/-! # Who returns from `execcmd` to the read loop

A forked process has an `exit` ahead of it, with one exception: the child of an EXEC that the shell
itself runs has inherited the shell's own way back to the read loop, and takes it when its `execvp`
fails. Otherwise every forked process terminates: each step uses up some of a bounded amount of
work, and processes that wait have a child that can still do something. -/

namespace Cs350.Shell

open Transition

variable {W : Type}

/-- No process but the shell is in the read loop. -/
def OnlyShellReturns (w : World W) : Prop := ∀ p, p ≠ 0 → (w.proc p).status ≠ .shell []

theorem CodeOk.onlyShellReturns {w : World W} (hw : CodeOk CodeOf w) : OnlyShellReturns w := by
  intro p hp h
  have hcode := hw.code p [] h
  rw [CodeOf, if_neg hp] at hcode
  exact not_forked_nil hcode

/-- A last `execvp` that fails brings its process into the read loop. -/
theorem not_onlyShellReturns_of_lastExecFails {w w' : World W} {a : Act W} (hw : CodeOk CodeOf w)
    (h : Moves w a w') (hlast : LastExecFails w a) : ¬ OnlyShellReturns w' := by
  obtain ⟨p, argv, rfl, hp⟩ := hlast
  cases h with
  | @run _ _ f k r hp' hr =>
      rw [hp] at hp'
      cases hp'
      obtain rfl := Option.some.inj hr
      have h0 : p ≠ 0 := by
        rintro rfl
        have hcode := hw.code 0 _ hp
        rw [CodeOf, if_pos rfl] at hcode
        cases hcode with
        | ret h => cases h
      have hlt := hw.lt_next_of_shell hp
      intro hsafe
      refine hsafe p h0 ?_
      simp only [World.apply, Bool.false_eq_true, if_false]
      rw [continue_self w _ (by omega)]

/-! ## The work that is left -/

/-- More than the number of steps that running the command can take. -/
def Cmd.work : Cmd W → Nat
  | .exec _ => 8
  | .redir c _ _ _ => c.work + 10
  | .list l r => l.work + r.work + 8
  | .pipe l r => l.work + r.work + 20
  | .back c => c.work + 8

def codeWork : List (Frame W) → Nat
  | [] => 0
  | .exit _ :: _ => 1
  | .call c :: k => c.work + codeWork k
  | .pipeFork c _ _ _ :: k => c.work + 12 + codeWork k
  | .execvp _ :: k | .waitFor _ :: k | .waitOnce _ :: k | .waitAll _ :: k | .redirect _ _ _ :: k
  | .redirEnd _ _ :: k | .pipeOut _ _ :: k | .pipeIn _ _ :: k | .pipeClose _ _ :: k
  | .pipeEnd :: k => 1 + codeWork k

def Status.work : Status W → Nat
  | .shell k => codeWork k + 3
  | .program _ => 2
  | .zombie _ => 1
  | .reaped => 0

def World.work (w : World W) : Nat := ∑ p ∈ Finset.range w.next, (w.proc p).status.work

/-- The work of the child of an outcome. -/
def Outcome.childWork (o : Outcome W) : Nat :=
  match o.child with
  | none => 0
  | some k => codeWork k + 3

theorem Returns.codeWork_le {R : List (Frame W) → Prop} (hR : Returns R) {k : List (Frame W)}
    (h : R k) : codeWork k ≤ 1 := by
  rcases hR k h with rfl | ⟨n, k', rfl, -⟩ <;> simp [codeWork]

/-- A call and the processes it creates have less to do than the call was worth. -/
theorem execcmd_work {c : Cmd W} {k : List (Frame W)} (hk : codeWork k ≤ 1) {fds : FdTable W}
    {pid id : Nat} {ok : Bool} {o : Outcome W} (h : execcmd c k fds pid id ok = .next o) :
    codeWork o.code + o.childWork < c.work + codeWork k := by
  cases c with
  | exec argv =>
      simp only [execcmd] at h
      split_ifs at h <;> cases h <;> simp [codeWork, Outcome.childWork, Cmd.work]
      omega
  | redir cmd file mode n =>
      simp only [execcmd, Result.next.injEq] at h
      subst h
      simp [codeWork, Outcome.childWork, Cmd.work]
      omega
  | list left right =>
      simp only [execcmd, Result.next.injEq] at h
      subst h
      simp [codeWork, Outcome.childWork, Cmd.work]
      omega
  | pipe left right =>
      simp only [execcmd] at h
      split_ifs at h
      cases h
      simp [codeWork, Outcome.childWork, Cmd.work]
      omega
  | back cmd =>
      simp only [execcmd, Result.next.injEq] at h
      subst h
      simp [codeWork, Outcome.childWork, Cmd.work]
      omega

theorem CodeOf.codeWork_le_of_call {p : Nat} {c : Cmd W} {k : List (Frame W)}
    (h : CodeOf p (.call c :: k)) : codeWork k ≤ 1 := by
  unfold CodeOf at h
  split_ifs at h with hp
  · cases h with
    | ret h => cases h
    | call h => exact returns_nil.codeWork_le h
  · cases h with
    | body h =>
        cases h with
        | ret h =>
            obtain ⟨n, k', h, -⟩ := h
            cases h
        | call h => exact returns_exits.codeWork_le h

theorem runFrame_work {p : Nat} {f : Frame W} {k : List (Frame W)} (hcode : CodeOf p (f :: k))
    {fds : FdTable W} {pid id : Nat} {ok : Bool} {o : Outcome W}
    (h : runFrame f k fds pid id ok = some (.next o)) :
    codeWork o.code + o.childWork < codeWork (f :: k) := by
  cases f with
  | call c => exact execcmd_work hcode.codeWork_le_of_call (Option.some.inj h)
  | execvp argv =>
      simp only [runFrame, Option.some.injEq] at h
      split_ifs at h
      cases h
      simp [codeWork, Outcome.childWork]
  | exit n => cases h
  | waitFor q => cases h
  | waitOnce q => cases h
  | waitAll own => cases h
  | pipeEnd => cases h
  | pipeFork c a b q =>
      cases h
      simp [codeWork, Outcome.childWork]
      omega
  | _ =>
      cases h
      simp [codeWork, Outcome.childWork]

/-- Changing one summand. -/
theorem sum_range_of_ne {n p : Nat} (hp : p < n) {f g : Nat → Nat} (h : ∀ q, q ≠ p → g q = f q) :
    (∑ q ∈ Finset.range n, g q) + f p = (∑ q ∈ Finset.range n, f q) + g p := by
  have hmem := Finset.mem_range.2 hp
  rw [← Finset.add_sum_erase _ f hmem, ← Finset.add_sum_erase _ g hmem]
  have hrest : ∑ q ∈ (Finset.range n).erase p, g q = ∑ q ∈ (Finset.range n).erase p, f q :=
    Finset.sum_congr rfl fun q hq => h q (Finset.ne_of_mem_erase hq)
  omega

theorem setStatus_work {w : World W} {p : Nat} (hp : p < w.next) (st : Status W) :
    (w.setStatus p st).work + (w.proc p).status.work = w.work + st.work := by
  have h := sum_range_of_ne hp (f := fun q => (w.proc q).status.work)
    (g := fun q => ((w.setStatus p st).proc q).status.work)
    (fun q hq => by rw [setStatus_proc_of_ne w st hq])
  simpa [World.work] using h

theorem terminate_work {w : World W} {p : Nat} (hp : p < w.next) (n : Int) :
    (w.terminate p n).work + (w.proc p).status.work = w.work + 1 := by
  have h := sum_range_of_ne hp (f := fun q => (w.proc q).status.work)
    (g := fun q => ((w.terminate p n).proc q).status.work)
    (fun q hq => by rw [terminate_status_of_ne w n hq])
  simpa [World.work, Status.work] using h

theorem continue_work {w : World W} {p : Nat} (hp : p < w.next) (o : Outcome W) :
    (w.continue p o).work + (w.proc p).status.work =
      w.work + (codeWork o.code + 3) + o.childWork := by
  have hpn : p ≠ w.next := by omega
  have h := sum_range_of_ne hp (f := fun q => (w.proc q).status.work)
    (g := fun q => if q = w.next then (w.proc q).status.work
      else ((w.continue p o).proc q).status.work)
    (fun q hq => by
      split_ifs with hqn
      · rfl
      · rw [continue_proc_of_ne w o hq hqn])
  have hold : ∑ q ∈ Finset.range w.next, ((w.continue p o).proc q).status.work =
      ∑ q ∈ Finset.range w.next, (if q = w.next then (w.proc q).status.work
        else ((w.continue p o).proc q).status.work) :=
    Finset.sum_congr rfl fun q hq => by rw [if_neg (Finset.mem_range.1 hq).ne]
  rw [← hold, if_neg hpn, continue_self w o hpn] at h
  rcases continue_next w o hpn with ⟨hnone, hnext, -⟩ | ⟨code, hsome, hnext, hnew⟩
  · simp only [World.work, hnext, Outcome.childWork, hnone]
    simp only [Status.work] at h ⊢
    omega
  · simp only [World.work, hnext, Outcome.childWork, hsome, Finset.sum_range_succ, hnew]
    simp only [Status.work] at h ⊢
    omega

/-- Every step but the reading of a command uses up some work. -/
theorem moves_work {w w' : World W} {a : Act W} (hw : CodeOk CodeOf w) (h : Moves w a w')
    (hread : ∀ p c, a ≠ .read p c) : w'.work < w.work := by
  have hshell : ∀ {p : Nat} {k : List (Frame W)}, (w.proc p).status = .shell k →
      p < w.next ∧ (w.proc p).status.work = codeWork k + 3 :=
    fun hp => ⟨hw.lt_next_of_shell hp, by rw [hp]; rfl⟩
  cases h with
  | read hp => exact absurd rfl (hread _ _)
  | @run p ok f k r hp hr =>
      obtain ⟨hlt, hwork⟩ := hshell hp
      cases r with
      | next o =>
          have h1 := runFrame_work (hw.code p _ hp) hr
          have h2 := continue_work hlt o
          simp only [World.apply]
          omega
      | exec argv =>
          have h2 := setStatus_work hlt (.program argv)
          have hprogram : (Status.program argv).work = 2 := rfl
          simp only [World.apply]
          omega
      | exit n =>
          have h2 := terminate_work hlt n
          simp only [World.apply]
          omega
  | @restore p x y k hp =>
      obtain ⟨hlt, hwork⟩ := hshell hp
      have h2 := continue_work hlt
        ({ fds := ((w.proc p).fds.dup2 x 0).dup2 y 1, code := k } : Outcome W)
      simp only [codeWork, Outcome.childWork] at hwork h2
      omega
  | @reapLast p q f k hchild hterm hp hf =>
      obtain ⟨hlt, hwork⟩ := hshell hp
      have hne : p ≠ q := by have := hw.older p q hchild.1; omega
      have h1 := setStatus_work (hw.lt_next hchild.2) .reaped
      have h2 := setStatus_work (w := w.setStatus q .reaped) hlt (.shell k)
      rw [setStatus_proc_of_ne w _ hne] at h2
      have hk : codeWork (f :: k) = 1 + codeWork k := by
        rcases hf with rfl | ⟨own, rfl⟩ <;> rfl
      have hk' : (Status.shell k).work = codeWork k + 3 := rfl
      have hr : (Status.reaped : Status W).work = 0 := rfl
      omega
  | @reapOther p q f k hchild hterm hp hf =>
      have h1 := setStatus_work (hw.lt_next hchild.2) .reaped
      have hpos : 0 < (w.proc q).status.work := by
        rcases hterm with h | ⟨n, h⟩
        · exact absurd h hchild.2
        · rw [h]
          exact Nat.one_pos
      have hr : (Status.reaped : Status W).work = 0 := rfl
      omega
  | @waitFails p f k hno hp hf =>
      obtain ⟨hlt, hwork⟩ := hshell hp
      have h1 := setStatus_work hlt (.shell k)
      have hk : codeWork (f :: k) = 1 + codeWork k := by
        rcases hf with ⟨own, rfl⟩ | ⟨own, rfl⟩ <;> rfl
      have hk' : (Status.shell k).work = codeWork k + 3 := rfl
      omega
  | @waitSpins p q k hno hp =>
      have hchild := hw.waits p q k hp
      exact absurd hchild (hno q (hw.lt_next hchild.2))
  | @finish q n argv hq =>
      have hwork : (w.proc q).status.work = 2 := by rw [hq]; rfl
      have h1 := terminate_work (hw.lt_next (by rw [hq]; simp)) n
      omega

section Runs

variable [DecidableEq W]

/-- Without new commands a run is no longer than the work at its start. -/
theorem run_length_le {w w' : World W} {tr : List (World W × Act W)} (hw : CodeOk CodeOf w)
    (hrun : Run Step w tr w')
    (hsteps : ∀ x ∈ tr, ¬ LastExecFails x.1 x.2 ∧ ∀ p c, x.2 ≠ .read p c) :
    CodeOk CodeOf w' ∧ tr.length + w'.work ≤ w.work := by
  induction hrun with
  | nil => exact ⟨hw, by simp⟩
  | @snoc tr u u' a hrun hstep ih =>
      obtain ⟨hu, hlen⟩ := ih fun x hx => hsteps x (List.mem_append_left _ hx)
      obtain ⟨hlast, hread⟩ := hsteps (u, a) (by simp)
      have hmoves := step_moves hstep
      have hless := moves_work hu hmoves hread
      refine ⟨moves_codeOk hu hmoves hlast, ?_⟩
      rw [List.length_append, List.length_singleton]
      omega

/-- Nothing can happen but the reading of a command. -/
def Quiescent (w : World W) : Prop := ∀ a w', Step w a w' → ∃ p c, a = .read p c

/-- When nothing can happen any more, every process has terminated or is in the read loop. The
    youngest process for which this failed would have a step, as its children are younger. -/
theorem quiescent_done {w : World W} (hw : CodeOk CodeOf w) (hq : Quiescent w) (p : Nat) :
    w.Terminated p ∨ (w.proc p).status = .shell [] := by
  induction hn : w.next - p using Nat.strong_induction_on generalizing p with
  | _ n ih =>
      have hstep : ∀ a, (w.step a).isSome → (∀ r c, a ≠ .read r c) → False := by
        intro a h hread
        obtain ⟨w', h⟩ := Option.isSome_iff_exists.1 h
        obtain ⟨r, c, rfl⟩ := hq a w' h
        exact hread r c rfl
      cases hst : (w.proc p).status with
      | reaped => exact Or.inl (Or.inl hst)
      | zombie m => exact Or.inl (Or.inr ⟨m, hst⟩)
      | program argv => exact (hstep (.finish p 0) (by simp [World.step, hst]) (by simp)).elim
      | shell code =>
          cases code with
          | nil => exact Or.inr rfl
          | cons f k =>
              exfalso
              have hlt := hw.lt_next_of_shell hst
              have hchildren : ∀ q, w.Child p q → w.Terminated q := by
                intro q hqc
                have hpq := hw.older p q hqc.1
                have hqn := hw.lt_next hqc.2
                rcases ih (w.next - q) (by omega) q rfl with h | h
                · exact h
                · exact absurd h (hw.onlyShellReturns q (by omega))
              cases hr : runFrame f k (w.proc p).fds w.next w.nextPipe true with
              | some r => exact hstep (.run p true) (by simp [World.step, hst, hr]) (by simp)
              | none =>
                  have hwait : f.Waits ∨ f = .pipeEnd := by
                    cases f <;> simp [runFrame, Frame.Waits] at hr ⊢
                  rcases hwait with hwait | rfl
                  rotate_left
                  · exact hstep (.restore p 0 0) (by simp [World.step, hst]) (by simp)
                  · rcases wait_step hst hwait hchildren with ⟨q, h⟩ | h
                    · exact hstep _ h (by simp)
                    · exact hstep _ h (by simp)

end Runs

/-! ## Commands that do not end in an EXEC -/

/-- What the right sides of LISTs end in. -/
def Cmd.last : Cmd W → Cmd W
  | .list _ r => r.last
  | c => c

/-- The last thing the shell does itself is an EXEC with a program to run. -/
def Cmd.EndsInExec (c : Cmd W) : Prop := ∃ argv, argv ≠ [] ∧ c.last = .exec argv

/-- No process runs a last `execvp`, and none will without a new command. -/
structure NoLastExec (w : World W) : Prop where
  shell : ∀ k, (w.proc 0).status = .shell k → ∀ c, .call c ∈ k → ¬ c.EndsInExec
  execvp : ∀ p argv, (w.proc p).status ≠ .shell [.execvp argv]

theorem Body.ne_execvp {R : List (Frame W) → Prop} (hR : Returns R) {k : List (Frame W)}
    (h : Body R k) (argv : List W) (k' : List (Frame W)) : k ≠ .execvp argv :: k' := by
  rintro rfl
  cases h with
  | ret h => rcases hR _ h with h | ⟨n, k', h, -⟩ <;> cases h

theorem NoLastExec.of_shrink {w w' : World W} (hw : NoLastExec w)
    (h : ∀ p k, (w'.proc p).status = .shell k → (w.proc p).status = .shell k ∨
      (∀ argv, k ≠ [.execvp argv]) ∧ (p = 0 → ∀ c, .call c ∈ k → ¬ c.EndsInExec)) :
    NoLastExec w' where
  shell k hk c hc := by
    rcases h 0 k hk with h | h
    · exact hw.shell k h c hc
    · exact h.2 rfl c hc
  execvp p argv hk := by
    rcases h p _ hk with h | h
    · exact hw.execvp p argv h
    · exact h.1 argv rfl

theorem NoLastExec.setStatus {w : World W} (hw : NoLastExec w) {p : Nat} {st : Status W}
    (h : ∀ k, st = .shell k →
      (∀ argv, k ≠ [.execvp argv]) ∧ (p = 0 → ∀ c, .call c ∈ k → ¬ c.EndsInExec)) :
    NoLastExec (w.setStatus p st) := by
  refine hw.of_shrink fun q k hk => ?_
  by_cases hq : q = p
  · subst hq
    rw [setStatus_status_self] at hk
    exact Or.inr (h k hk)
  · rw [setStatus_proc_of_ne w st hq] at hk
    exact Or.inl hk

theorem NoLastExec.terminate {w : World W} (hw : NoLastExec w) (p : Nat) (n : Int) :
    NoLastExec (w.terminate p n) := by
  refine hw.of_shrink fun q k hk => Or.inl ?_
  have hq : q ≠ p := by
    rintro rfl
    rw [terminate_status_self] at hk
    cases hk
  rwa [terminate_status_of_ne w n hq] at hk

/-- The shell goes on without a last EXEC, and its children start with something left to do. -/
theorem execcmd_noLastExec {c : Cmd W} (hc : ¬ c.EndsInExec) {fds : FdTable W} {pid id : Nat}
    {ok : Bool} {o : Outcome W} (h : execcmd c [] fds pid id ok = .next o) :
    (∀ c', .call c' ∈ o.code → ¬ c'.EndsInExec) ∧ ∀ argv, o.child ≠ some [.execvp argv] := by
  cases c with
  | exec argv =>
      have hargv : argv = [] := by
        by_contra hne
        exact hc ⟨argv, hne, rfl⟩
      simp only [execcmd, if_pos hargv, Result.next.injEq] at h
      subst h
      simp
  | list left right =>
      simp only [execcmd, Result.next.injEq] at h
      subst h
      refine ⟨fun c' hc' => ?_, by simp⟩
      simp only [List.mem_cons, List.not_mem_nil, or_false, Frame.call.injEq, reduceCtorEq,
        false_or] at hc'
      rw [hc']
      exact hc
  | redir cmd file mode n =>
      simp only [execcmd, Result.next.injEq] at h
      subst h
      simp
  | pipe left right =>
      simp only [execcmd] at h
      split_ifs at h
      cases h
      simp
  | back cmd =>
      simp only [execcmd, Result.next.injEq] at h
      subst h
      simp

theorem continue_noLastExec {w : World W} (hw : NoLastExec w) (hok : CodeOk CodeOf w) {p : Nat}
    (hp : p < w.next) {o : Outcome W}
    (hcode : (∀ argv, o.code ≠ [.execvp argv]) ∧ (p = 0 → ∀ c, .call c ∈ o.code → ¬ c.EndsInExec))
    (hchild : ∀ argv, o.child ≠ some [.execvp argv]) : NoLastExec (w.continue p o) := by
  have hpn : p ≠ w.next := by omega
  refine hw.of_shrink fun q k hk => ?_
  by_cases hq : q = p
  · rw [hq, continue_self w o hpn] at hk
    cases hk
    exact Or.inr (hq ▸ hcode)
  · by_cases hqn : q = w.next
    · rcases continue_next w o hpn with ⟨-, -, hnew⟩ | ⟨code, hsome, -, hnew⟩
      · rw [hqn, hnew, ← hqn] at hk
        exact Or.inl hk
      · rw [hqn, hnew] at hk
        cases hk
        refine Or.inr ⟨fun argv h => hchild argv (by rw [hsome, h]), fun h0 => ?_⟩
        have := hok.pos
        omega
    · rw [continue_proc_of_ne w o hq hqn] at hk
      exact Or.inl hk

/-- A child with nothing but an `execvp` to do comes from an EXEC after which nothing was left. -/
theorem runFrame_child_execvp {f : Frame W} {k : List (Frame W)} {fds : FdTable W} {pid id : Nat}
    {ok : Bool} {o : Outcome W} (h : runFrame f k fds pid id ok = some (.next o)) {argv : List W}
    (hchild : o.child = some [.execvp argv]) : (∃ c, f = .call c) ∧ k = [] := by
  cases f with
  | call c =>
      refine ⟨⟨c, rfl⟩, ?_⟩
      have h := Option.some.inj h
      cases c with
      | exec argv' =>
          simp only [execcmd] at h
          split_ifs at h
          · cases h
            cases hchild
          · cases h
            have hboth : argv' = argv ∧ k = [] := by simpa using hchild
            exact hboth.2
      | pipe left right =>
          simp only [execcmd] at h
          split_ifs at h
          cases h
          cases hchild
      | _ =>
          cases h
          cases hchild
  | execvp argv' =>
      simp only [runFrame, Option.some.injEq] at h
      split_ifs at h
      cases h
      cases hchild
  | _ =>
      cases h <;> cases hchild

theorem run_noLastExec {w : World W} (hw : NoLastExec w) (hok : CodeOk CodeOf w) {p : Nat} {ok : Bool}
    {f : Frame W} {k : List (Frame W)} {r : Result W} (hp : (w.proc p).status = .shell (f :: k))
    (hr : runFrame f k (w.proc p).fds w.next w.nextPipe ok = some r) :
    NoLastExec (w.apply p r) := by
  have hlt := hok.lt_next_of_shell hp
  have hcode := hok.code p _ hp
  cases r with
  | exec argv => exact hw.setStatus fun k h => by cases h
  | exit n => exact hw.terminate p n
  | next o =>
      unfold CodeOf at hcode
      split_ifs at hcode with h0
      · have hbody : Body (fun k => k = []) o.code := by
          rcases runFrame_body returns_nil hcode hr with ⟨n, h⟩ | ⟨o', h, ho⟩
          · cases h
          · cases h
            exact ho.body
        have hne := fun argv => hbody.ne_execvp returns_nil argv []
        subst h0
        have hcalls := hw.shell _ hp
        cases hcode with
        | ret h => cases h
        | call h =>
            subst h
            obtain ⟨h1, h2⟩ := execcmd_noLastExec (hcalls _ (by simp)) (Option.some.inj hr)
            exact continue_noLastExec hw hok hlt ⟨hne, fun _ => h1⟩ h2
        | redirEnd h =>
            subst h
            cases hr
            exact continue_noLastExec hw hok hlt ⟨hne, by simp⟩ (by simp)
        | pipeFork h =>
            subst h
            cases hr
            exact continue_noLastExec hw hok hlt ⟨hne, by simp⟩ (by simp)
        | pipeClose h =>
            subst h
            cases hr
            exact continue_noLastExec hw hok hlt ⟨hne, by simp⟩ (by simp)
        | _ => cases hr
      · rcases runFrame_forked returns_exits (fun _ => id) hcode hr with ⟨argv, h⟩ | ⟨n, h⟩ |
          ⟨argv, rfl, rfl, -, h⟩ | ⟨o', h, ho⟩
        · cases h
        · cases h
        · exact absurd hp (hw.execvp p argv)
        · cases h
          refine continue_noLastExec hw hok hlt
            ⟨fun argv => ho.body.ne_execvp returns_exits argv [], fun h => absurd h h0⟩ ?_
          intro argv hchild
          obtain ⟨⟨c, rfl⟩, rfl⟩ := runFrame_child_execvp hr hchild
          cases hcode with
          | body h =>
              cases h with
              | ret h =>
                  obtain ⟨n, k', h, -⟩ := h
                  cases h
              | call h => exact not_exits_nil h

theorem moves_noLastExec {w w' : World W} {a : Act W} (hw : NoLastExec w) (hok : CodeOk CodeOf w)
    (h : Moves w a w') (hread : ∀ p c, a = .read p c → ¬ c.EndsInExec) : NoLastExec w' := by
  -- leaving a wait keeps part of the code
  have htail : ∀ {p : Nat} {f : Frame W} {k : List (Frame W)}, (w.proc p).status = .shell (f :: k) →
      f.Waits ∨ f = .pipeEnd →
      (∀ argv, k ≠ [.execvp argv]) ∧ (p = 0 → ∀ c, .call c ∈ k → ¬ c.EndsInExec) := by
    intro p f k hp hf
    have hbody := ((hok.code p _ hp).tail_of_wait hf).2.1
    refine ⟨fun argv => hbody.ne_execvp returns_back argv [], ?_⟩
    rintro rfl c hc
    exact hw.shell _ hp c (List.mem_cons_of_mem _ hc)
  cases h with
  | @read p c hp =>
      refine hw.setStatus fun k hk => ?_
      cases hk
      refine ⟨by simp, fun _ c' hc' => ?_⟩
      obtain rfl : c' = c := by simpa using hc'
      exact hread p c' rfl
  | run hp hr => exact run_noLastExec hw hok hp hr
  | restore hp =>
      exact continue_noLastExec hw hok (hok.lt_next_of_shell hp) (htail hp (Or.inr rfl)) (by simp)
  | @reapLast p q f k hchild hterm hp hf =>
      refine (hw.setStatus fun k h => by cases h).setStatus fun k' hk => ?_
      cases hk
      exact htail hp (Or.inl (by rcases hf with rfl | ⟨own, rfl⟩ <;> trivial))
  | reapOther hchild hterm hp hf => exact hw.setStatus fun k h => by cases h
  | waitFails hno hp hf =>
      refine hw.setStatus fun k' hk => ?_
      cases hk
      exact htail hp (Or.inl (by rcases hf with ⟨own, rfl⟩ | ⟨own, rfl⟩ <;> trivial))
  | waitSpins hno hp => exact hw
  | finish hq => exact hw.terminate _ _

/-! ## Sessions -/

section Sessions

variable [DecidableEq W]

/-- **Who returns to the read loop.** In a session of the shell only the shell itself ever comes
    back to the read loop exactly if no `execvp` of a last EXEC fails. Then, without new commands,
    only finitely many steps are possible, and when none is left every forked process has
    terminated. In particular this is so if no command ends, on the right sides of its LISTs, in
    an EXEC. -/
theorem only_shell_returns_iff {fds : FdTable W} {w : World W} {tr : List (World W × Act W)}
    (hrun : Run Step (World.init fds) tr w) :
    (Along OnlyShellReturns tr w ↔ ∀ x ∈ tr, ¬ LastExecFails x.1 x.2) ∧
    ((∀ x ∈ tr, ¬ LastExecFails x.1 x.2) → ∀ tr' w', Run Step w tr' w' →
      (∀ x ∈ tr', ¬ LastExecFails x.1 x.2 ∧ ∀ p c, x.2 ≠ .read p c) →
      tr'.length ≤ w.work ∧ (Quiescent w' → ∀ p, p ≠ 0 → w'.Terminated p)) ∧
    ((∀ x ∈ tr, ∀ p c, x.2 = .read p c → ¬ c.EndsInExec) → Along OnlyShellReturns tr w) := by
  have hinit : CodeOk CodeOf (World.init fds) := codeOk_init (.ret rfl) fds
  refine ⟨?_, fun hlast tr' w' hrun' hsteps => ?_, fun hread => ?_⟩
  · exact hrun.along_iff hinit (fun u hu => hu.onlyShellReturns)
      (fun u a u' hu hC hstep => moves_codeOk hu (step_moves hstep) hC)
      (fun u a u' hu hC hstep => not_onlyShellReturns_of_lastExecFails hu (step_moves hstep)
        (not_not.1 hC))
  · have hw := (hrun.invariant_of_steps hinit
      (fun u a u' hu hC hstep => moves_codeOk hu (step_moves hstep) hC) hlast).2
    obtain ⟨hw', hlen⟩ := run_length_le hw hrun' hsteps
    refine ⟨by omega, fun hq p hp => ?_⟩
    exact (quiescent_done hw' hq p).resolve_right (hw'.onlyShellReturns p hp)
  · have h := hrun.invariant_of_steps (I := fun u => CodeOk CodeOf u ∧ NoLastExec u)
      (C := fun _ a => ∀ p c, a = .read p c → ¬ c.EndsInExec)
      ⟨hinit, fun k hk c hc => ?_, fun p argv h => ?_⟩ ?_ hread
    · exact ⟨fun x hx => (h.1 x hx).1.onlyShellReturns, h.2.1.onlyShellReturns⟩
    · simp only [World.init, if_true, Status.shell.injEq] at hk
      rw [← hk] at hc
      cases hc
    · by_cases hp : p = 0 <;> simp [World.init, hp] at h
    · rintro u a u' ⟨hu, hno⟩ hC hstep
      have hmoves := step_moves hstep
      refine ⟨moves_codeOk hu hmoves ?_, moves_noLastExec hno hu hmoves hC⟩
      rintro ⟨p, argv, -, hp⟩
      exact hno.execvp p argv hp

end Sessions

/-- The command `7` is run, and its program ends. -/
theorem only_shell_returns_one_command :
    ∃ tr w, Run Step (World.init ([] : FdTable Nat)) tr w ∧
      tr.map Prod.snd =
        [.read 0 (.exec [7]), .run 0 true, .run 1 true, .finish 1 0, .reap 0 1] ∧
      Along OnlyShellReturns tr w := by
  have hplay : (play World.step (World.init ([] : FdTable Nat)) [.read 0 (.exec [7]), .run 0 true,
      .run 1 true, .finish 1 0, .reap 0 1]).isSome := by decide
  obtain ⟨⟨tr, w⟩, hplay⟩ := Option.isSome_iff_exists.1 hplay
  obtain ⟨hrun, hlabels⟩ := play_run hplay
  refine ⟨tr, w, hrun, hlabels, (only_shell_returns_iff hrun).1.2 fun x hx => ?_⟩
  rintro ⟨p, argv, ha, -⟩
  have hmem : x.2 ∈ tr.map Prod.snd := List.mem_map_of_mem hx
  rw [hlabels, ha] at hmem
  simp at hmem

/-- The command `7` cannot be executed: its process comes back to the read loop of the shell. -/
theorem failed_exec_returns :
    ∃ tr w, Run Step (World.init ([] : FdTable Nat)) tr w ∧
      tr.map Prod.snd = [.read 0 (.exec [7]), .run 0 true, .run 1 false] ∧
      (w.proc 1).status = .shell [] ∧ ¬ OnlyShellReturns w := by
  have hplay : (play World.step (World.init ([] : FdTable Nat)) [.read 0 (.exec [7]), .run 0 true,
      .run 1 false]).map (fun r => (r.2.proc 1).status) = some (.shell []) := by decide
  obtain ⟨⟨tr, w⟩, hplay, hstatus⟩ := Option.map_eq_some_iff.1 hplay
  obtain ⟨hrun, hlabels⟩ := play_run hplay
  exact ⟨tr, w, hrun, hlabels, hstatus, fun h => h 1 (by decide) hstatus⟩

end Cs350.Shell
