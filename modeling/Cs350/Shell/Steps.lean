import Cs350.Shell.Descriptors

set_option autoImplicit false

/-! # What a step leaves of a process

Where the code and the table of a process come from after a step of any process, and what all
processes that run shell code have: standard input and output, and no end of a pipe that is not made
yet. -/

namespace Cs350.Shell

open Transition FdTable

variable {W : Type}

/-! ## Standard input and output -/

/-- The pipe that a descriptor is an end of. -/
def Desc.pipe? : Desc W → Option Nat
  | .pipeRead id | .pipeWrite id => some id
  | _ => none

/-- A descriptor that is open is not the lowest free one. -/
theorem FdTable.ne_free {t : FdTable W} {n : Nat} {d : Desc W} (h : t.get n = some d) : n ≠ t.free := by
  rintro rfl
  rw [get_free] at h
  exact nomatch h

theorem two_le_free {t : FdTable W} {d e : Desc W} (h0 : t.get 0 = some d) (h1 : t.get 1 = some e) :
    2 ≤ t.free := by
  have hne0 := ne_free h0
  have hne1 := ne_free h1
  omega

/-- The ends of pipes that are open are those of pipes made before. -/
def Known (made : Nat) (t : FdTable W) : Prop :=
  ∀ n d id, t.get n = some d → d.pipe? = some id → id < made

/-- The descriptors that a frame closes are not 0 or 1. -/
def Frame.High : Frame W → Prop
  | .pipeOut fd0 fd1 | .pipeIn fd0 fd1 | .pipeFork _ fd0 fd1 _ | .pipeClose fd0 fd1 => 2 ≤ fd0 ∧ 2 ≤ fd1
  | _ => True

/-- The table and the code of a process that runs shell code. -/
structure Able (made : Nat) (code : List (Frame W)) (fds : FdTable W) : Prop where
  isOpen : fds.Open
  known : Known made fds
  high : ∀ f ∈ code, f.High

section Able

variable {made : Nat} {t : FdTable W} {code k : List (Frame W)}

theorem Known.mono {made' : Nat} (h : Known made t) (hle : made ≤ made') : Known made' t :=
  fun n d id hn hd => (h n d id hn hd).trans_le hle

theorem Known.put (h : Known made t) (n : Nat) {d : Desc W}
    (hd : ∀ id, d.pipe? = some id → id < made) : Known made (t.put n (some d)) := by
  intro m e id hm he
  rw [get_put] at hm
  split_ifs at hm
  · obtain rfl := Option.some.inj hm
    exact hd id he
  · exact h m e id hm he

theorem Known.dup (h : Known made t) (n : Nat) : Known made (t.dup n).2 := by
  unfold FdTable.dup
  cases hn : t.get n with
  | none => exact h
  | some d => exact h.put t.free fun id hd => h n d id hn hd

theorem Known.dup2 (h : Known made t) (x : Int) (n : Nat) : Known made (t.dup2 x n) := by
  match x with
  | .negSucc _ => exact h
  | .ofNat a =>
      cases ha : t.get a with
      | none =>
          simp only [FdTable.dup2, ha]
          exact h
      | some d =>
          simp only [FdTable.dup2, ha]
          exact h.put n fun id hd => h a d id ha hd

theorem Known.close (h : Known made t) (n : Nat) : Known made (t.close n) := by
  intro m d id hm hd
  rw [get_close] at hm
  split_ifs at hm
  exact h m d id hm hd

theorem FdTable.Open.dup (h : t.Open) (n : Nat) : (t.dup n).2.Open := by
  unfold FdTable.dup
  cases hn : t.get n with
  | none => exact h
  | some d => exact (keeps_put_free t _).isOpen h

theorem FdTable.Open.close (h : t.Open) {n : Nat} (hn : 2 ≤ n) : (t.close n).Open := by
  refine ⟨?_, ?_⟩
  · rw [get_close, if_neg (by omega)]
    exact h.stdin
  · rw [get_close, if_neg (by omega)]
    exact h.stdout

theorem FdTable.Open.two_le (h : t.Open) : 2 ≤ t.free := by
  obtain ⟨d, hd⟩ := Option.isSome_iff_exists.1 h.stdin
  obtain ⟨e, he⟩ := Option.isSome_iff_exists.1 h.stdout
  exact two_le_free hd he

theorem FdTable.Open.pipe (h : t.Open) (id : Nat) :
    (t.pipe id).2.2.Open ∧ 2 ≤ (t.pipe id).1 ∧ 2 ≤ (t.pipe id).2.1 := by
  have hopen := (keeps_put_free t (some (.pipeRead id))).isOpen h
  exact ⟨(keeps_put_free _ _).isOpen hopen, h.two_le, hopen.two_le⟩

theorem Known.pipe (h : Known made t) : Known (made + 1) (t.pipe made).2.2 := by
  have hown : ∀ d : Desc W, d.pipe? = some made → ∀ id, d.pipe? = some id → id < made + 1 :=
    fun d hd id hid => by
      rw [hd] at hid
      exact Option.some.inj hid ▸ Nat.lt_succ_self made
  exact ((h.mono (Nat.le_succ made)).put _ (hown _ rfl)).put _ (hown _ rfl)

theorem Able.mono {made' : Nat} (h : Able made code t) (hle : made ≤ made') : Able made' code t :=
  ⟨h.isOpen, h.known.mono hle, h.high⟩

/-- What is left of the code. -/
theorem Able.sub (h : Able made code t) (hsub : k ⊆ code) : Able made k t :=
  ⟨h.isOpen, h.known, fun f hf => h.high f (hsub hf)⟩

theorem Able.openOnto (h : Able made code t) (file : W) (mode : Mode) (n : Nat) (ok : Bool) :
    Able made code (t.openOnto file mode n ok) := by
  unfold FdTable.openOnto
  cases ok with
  | false => exact h
  | true =>
      refine ⟨?_, ?_, h.high⟩
      · exact (Open.dup2 ((keeps_put_free t _).isOpen h.isOpen) _ n).close h.isOpen.two_le
      · have hknown := h.known.put (d := .file file mode) t.free fun id hid => nomatch hid
        exact (hknown.dup2 _ n).close _

/-- What a process that goes on, and its child, have. -/
structure Outcome.Able (made : Nat) (o : Outcome W) : Prop where
  self : Shell.Able (if o.newPipe then made + 1 else made) o.code o.fds
  child : ∀ code, o.child = some code →
    Shell.Able (if o.newPipe then made + 1 else made) code o.fds

/-- Other code with the same table. -/
theorem Able.with_code (h : Able made k t) (hcode : ∀ f ∈ code, f.High) : Able made code t :=
  ⟨h.isOpen, h.known, hcode⟩

theorem Able.execcmd {c : Cmd W} (h : Able made k t) {pid : Nat} {ok : Bool} {o : Outcome W}
    (ho : Shell.execcmd c k t pid made ok = .next o) : o.Able made := by
  cases c with
  | exec argv =>
      simp only [Shell.execcmd] at ho
      split_ifs at ho
      · cases ho
        refine ⟨h, fun code hc => ?_⟩
        cases hc
      · cases ho
        refine ⟨h.with_code (by simpa [Frame.High] using h.high), fun code hc => ?_⟩
        cases hc
        exact h.with_code (by simpa [Frame.High] using h.high)
  | redir cmd file mode fd =>
      cases ho
      have hdup : Able made k ((t.dup 1).2.dup 0).2 :=
        ⟨(h.isOpen.dup 1).dup 0, (h.known.dup 1).dup 0, h.high⟩
      refine ⟨hdup.with_code (by simpa [Frame.High] using h.high), fun code hc => ?_⟩
      cases hc
      exact hdup.with_code (by simpa [Frame.High] using h.high)
  | list left right =>
      cases ho
      refine ⟨h.with_code (by simpa [Frame.High] using h.high), fun code hc => ?_⟩
      cases hc
      exact h.with_code (by simpa [Frame.High] using h.high)
  | pipe left right =>
      simp only [Shell.execcmd] at ho
      split_ifs at ho
      cases ho
      obtain ⟨hopen, hhigh⟩ := h.isOpen.pipe made
      have hpipe : Able (made + 1) k (t.pipe made).2.2 := ⟨hopen, h.known.pipe, h.high⟩
      refine ⟨hpipe.with_code (by simpa [Frame.High, hhigh] using h.high), fun code hc => ?_⟩
      cases hc
      exact hpipe.with_code (by simpa [Frame.High, hhigh] using h.high)
  | back cmd =>
      cases ho
      refine ⟨h, fun code hc => ?_⟩
      cases hc
      exact h.with_code (by simpa [Frame.High] using h.high)

theorem Able.runFrame {f : Frame W} (h : Able made (f :: k) t) {pid : Nat} {ok : Bool}
    {o : Outcome W} (ho : Shell.runFrame f k t pid made ok = some (.next o)) : o.Able made := by
  have hk := h.sub (List.subset_cons_self f k)
  have hf := h.high f List.mem_cons_self
  cases f with
  | call c => exact hk.execcmd (Option.some.inj ho)
  | execvp argv =>
      cases ok with
      | true => exact nomatch ho
      | false =>
          cases ho
          exact ⟨hk, fun code hc => nomatch hc⟩
  | redirect file mode fd =>
      cases ho
      refine ⟨?_, fun code hc => nomatch hc⟩
      show Able made k (if _ then _ else _)
      split_ifs
      · exact hk.openOnto file mode fd ok
      · exact hk
  | redirEnd x y =>
      cases ho
      exact ⟨⟨(hk.isOpen.dup2 x 0).dup2 y 1, (hk.known.dup2 x 0).dup2 y 1, hk.high⟩,
        fun code hc => nomatch hc⟩
  | pipeOut fd0 fd1 =>
      cases ho
      exact ⟨⟨(((hk.isOpen.dup 1).dup2 _ 1).close hf.1).close hf.2,
        (((hk.known.dup 1).dup2 _ 1).close fd0).close fd1, hk.high⟩, fun code hc => nomatch hc⟩
  | pipeIn fd0 fd1 =>
      cases ho
      exact ⟨⟨(((hk.isOpen.dup 0).dup2 _ 0).close hf.1).close hf.2,
        (((hk.known.dup 0).dup2 _ 0).close fd0).close fd1, hk.high⟩, fun code hc => nomatch hc⟩
  | pipeFork right fd0 fd1 cpid =>
      cases ho
      have hhigh : 2 ≤ fd0 ∧ 2 ≤ fd1 := hf
      refine ⟨hk.with_code (by simpa [Frame.High, hhigh] using hk.high), fun code hc => ?_⟩
      cases hc
      exact hk.with_code (by simpa [Frame.High, hhigh] using hk.high)
  | pipeClose fd0 fd1 =>
      cases ho
      exact ⟨⟨(hk.isOpen.close hf.1).close hf.2, (hk.known.close fd0).close fd1, hk.high⟩,
        fun code hc => nomatch hc⟩
  | exit n => exact nomatch Option.some.inj ho
  | _ => exact nomatch ho

end Able

/-- Where the code and the table of a process are from, after a step. -/
inductive Came (w : World W) (a : Act W) (q : Nat) : List (Frame W) → FdTable W → Prop
  | same {code : List (Frame W)} (hq : (w.proc q).status = .shell code) :
      Came w a q code (w.proc q).fds
  | read {c : Cmd W} (hq : (w.proc q).status = .shell []) : Came w a q [.call c] (w.proc q).fds
  | wait {f : Frame W} {k : List (Frame W)} (hq : (w.proc q).status = .shell (f :: k)) :
      Came w a q k (w.proc q).fds
  | restore {x y : Int} {f : Frame W} {k : List (Frame W)}
      (hq : (w.proc q).status = .shell (f :: k)) :
      Came w a q k (((w.proc q).fds.dup2 x 0).dup2 y 1)
  | next {ok : Bool} {f : Frame W} {k : List (Frame W)} {o : Outcome W}
      (hq : (w.proc q).status = .shell (f :: k))
      (hr : runFrame f k (w.proc q).fds w.next w.nextPipe ok = some (.next o))
      (ha : a = .run q ok) : Came w a q o.code o.fds
  | born {p : Nat} {ok : Bool} {f : Frame W} {k code : List (Frame W)} {o : Outcome W}
      (hp : (w.proc p).status = .shell (f :: k))
      (hr : runFrame f k (w.proc p).fds w.next w.nextPipe ok = some (.next o))
      (hc : o.child = some code) (ha : a = .run p ok) (hn : q = w.next) : Came w a q code o.fds

/-- The pipes made after a step. -/
def World.made (w : World W) (o : Outcome W) : Nat := if o.newPipe then w.nextPipe + 1 else w.nextPipe

theorem continue_nextPipe (w : World W) (p : Nat) (o : Outcome W) :
    (w.continue p o).nextPipe = w.made o := by
  unfold World.continue World.made
  cases o.child <;> rfl

section Moves

variable {w w' : World W} {a : Act W} {q : Nat} {code : List (Frame W)}

theorem came_setStatus {p : Nat} {st : Status W}
    (hq : ((w.setStatus p st).proc q).status = .shell code)
    (hself : q = p → Came w a q code (w.proc q).fds) :
    Came w a q code ((w.setStatus p st).proc q).fds := by
  rw [setStatus_fds]
  by_cases hqp : q = p
  · exact hself hqp
  · rw [setStatus_proc_of_ne w st hqp] at hq
    exact .same hq

theorem moves_came (hw : CodeOk AnyCode w) (h : Moves w a w')
    (hq : (w'.proc q).status = .shell code) : Came w a q code (w'.proc q).fds := by
  cases h with
  | @read p c hp =>
      refine came_setStatus hq fun hqp => ?_
      subst hqp
      rw [setStatus_status_self] at hq
      cases hq
      exact .read hp
  | @run p ok f k r hp hr =>
      cases r with
      | exec argv =>
          refine came_setStatus hq fun hqp => ?_
          subst hqp
          exact nomatch (setStatus_status_self w q _).symm.trans hq
      | exit n =>
          show Came w _ q code ((w.terminate p n).proc q).fds
          rw [terminate_fds]
          by_cases hqp : q = p
          · subst hqp
            exact nomatch (terminate_status_self w q n).symm.trans hq
          · exact .same ((terminate_status_of_ne w n hqp).symm.trans hq)
      | next o =>
          have hpn : p ≠ w.next := (hw.lt_next_of_shell hp).ne
          change ((w.continue p o).proc q).status = _ at hq
          show Came w _ q code ((w.continue p o).proc q).fds
          by_cases hqp : q = p
          · subst hqp
            rw [continue_self w o hpn] at hq ⊢
            cases hq
            exact .next hp hr rfl
          · by_cases hqn : q = w.next
            · subst hqn
              rcases continue_next w o hpn with ⟨-, -, hold⟩ | ⟨code', hc, -, hnew⟩
              · rw [hold] at hq ⊢
                exact .same hq
              · rw [hnew] at hq ⊢
                cases hq
                exact .born hp hr hc rfl rfl
            · rw [continue_proc_of_ne w o hqp hqn] at hq ⊢
              exact .same hq
  | @restore p x y k hp =>
      have hpn : p ≠ w.next := (hw.lt_next_of_shell hp).ne
      by_cases hqp : q = p
      · subst hqp
        rw [continue_self w _ hpn] at hq ⊢
        cases hq
        exact .restore hp
      · by_cases hqn : q = w.next
        · subst hqn
          rcases continue_next w { fds := ((w.proc p).fds.dup2 x 0).dup2 y 1, code := k } hpn with
            ⟨-, -, hold⟩ | ⟨code', hc, -⟩
          · rw [hold] at hq ⊢
            exact .same hq
          · exact nomatch hc
        · rw [continue_proc_of_ne w _ hqp hqn] at hq ⊢
          exact .same hq
  | @reapLast p r f k hchild hterm hp hf =>
      have hne : q ≠ p → q ≠ r := by
        rintro hqp rfl
        rw [setStatus_proc_of_ne _ _ hqp, setStatus_status_self] at hq
        exact nomatch hq
      rw [setStatus_fds, setStatus_fds]
      by_cases hqp : q = p
      · subst hqp
        rw [setStatus_status_self] at hq
        cases hq
        exact .wait hp
      · rw [setStatus_proc_of_ne _ _ hqp, setStatus_proc_of_ne _ _ (hne hqp)] at hq
        exact .same hq
  | @reapOther p r f k hchild hterm hp hf =>
      refine came_setStatus hq fun hqr => ?_
      subst hqr
      exact nomatch (setStatus_status_self w q _).symm.trans hq
  | @waitFails p f k hno hp hf =>
      refine came_setStatus hq fun hqp => ?_
      subst hqp
      rw [setStatus_status_self] at hq
      cases hq
      exact .wait hp
  | waitSpins => exact .same hq
  | @finish r n argv hr =>
      rw [terminate_fds]
      by_cases hqr : q = r
      · subst hqr
        exact nomatch (terminate_status_self w q n).symm.trans hq
      · exact .same ((terminate_status_of_ne w n hqr).symm.trans hq)

/-- The process that takes the step. -/
def Act.actor : Act W → Nat
  | .read p _ | .run p _ | .restore p _ _ | .reap p _ | .noChild p | .finish p _ => p

/-- A process that has not terminated is changed by its own steps only. -/
theorem moves_others (hw : CodeOk AnyCode w) (h : Moves w a w') (hlive : ¬ w.Terminated q)
    (hactor : q ≠ a.actor) :
    (w'.proc q).status = (w.proc q).status ∧ (w'.proc q).fds = (w.proc q).fds := by
  have hqn : q ≠ w.next := by
    rintro rfl
    exact hlive (Or.inl (by rw [hw.fresh w.next (Nat.le_refl _)]))
  have hset : ∀ (p : Nat) (st : Status W), q ≠ p →
      ((w.setStatus p st).proc q).status = (w.proc q).status ∧
        ((w.setStatus p st).proc q).fds = (w.proc q).fds := fun p st hqp => by
    rw [setStatus_proc_of_ne w st hqp]
    exact ⟨rfl, rfl⟩
  -- a process that is waited for has terminated
  have hterm : ∀ r, w.Terminated r → q ≠ r := fun r hr hqr => hlive (hqr ▸ hr)
  cases h with
  | @read p c => exact hset p _ hactor
  | @run p ok f' k' r =>
      have hqp : q ≠ p := hactor
      cases r with
      | exec argv => exact hset p _ hqp
      | exit n => exact ⟨terminate_status_of_ne w n hqp, terminate_fds ..⟩
      | next o =>
          show ((w.continue p o).proc q).status = _ ∧ ((w.continue p o).proc q).fds = _
          rw [continue_proc_of_ne w o hqp hqn]
          exact ⟨rfl, rfl⟩
  | @restore p x y k' =>
      have hqp : q ≠ p := hactor
      rw [continue_proc_of_ne w _ hqp hqn]
      exact ⟨rfl, rfl⟩
  | @reapLast p r f' k' _ hr =>
      have hqp : q ≠ p := hactor
      rw [setStatus_proc_of_ne _ _ hqp]
      exact hset r _ (hterm r hr)
  | @reapOther p r f' k' _ hr => exact hset r _ (hterm r hr)
  | @waitFails p => exact hset p _ hactor
  | waitSpins => exact ⟨rfl, rfl⟩
  | @finish r n => exact ⟨terminate_status_of_ne w n hactor, terminate_fds ..⟩

/-- A process that neither waits nor is at the end of a PIPE takes only steps that run its code. -/
theorem moves_frame (h : Moves w a w') {f : Frame W} {k : List (Frame W)}
    (hq : (w.proc a.actor).status = .shell (f :: k)) (hwaits : ¬ f.Waits) (hend : f ≠ .pipeEnd) :
    ∃ ok r, a = .run a.actor ok ∧
      runFrame f k (w.proc a.actor).fds w.next w.nextPipe ok = some r ∧ w' = w.apply a.actor r := by
  cases h with
  | read hp => exact nomatch hq.symm.trans hp
  | @run p ok _ _ r hp hr =>
      cases hq.symm.trans hp
      exact ⟨ok, r, rfl, hr, rfl⟩
  | restore hp =>
      cases hq.symm.trans hp
      exact absurd rfl hend
  | reapLast _ _ hp hf =>
      cases hq.symm.trans hp
      rcases hf with rfl | ⟨own, rfl⟩ <;> exact absurd trivial hwaits
  | reapOther _ _ hp hf =>
      cases hq.symm.trans hp
      rcases hf with ⟨pid, rfl, -⟩ | ⟨own, rfl⟩ <;> exact absurd trivial hwaits
  | waitFails _ hp hf =>
      cases hq.symm.trans hp
      rcases hf with ⟨own, rfl⟩ | ⟨own, rfl⟩ <;> exact absurd trivial hwaits
  | waitSpins _ hp =>
      cases hq.symm.trans hp
      exact absurd trivial hwaits
  | finish hp => exact nomatch hq.symm.trans hp

theorem moves_keep (hw : CodeOk AnyCode w) (h : Moves w a w') {f : Frame W} {k : List (Frame W)}
    (hq : (w.proc q).status = .shell (f :: k)) (hwaits : ¬ f.Waits) (hend : f ≠ .pipeEnd)
    (hne : ∀ ok, a ≠ .run q ok) :
    (w'.proc q).status = .shell (f :: k) ∧ (w'.proc q).fds = (w.proc q).fds := by
  have hlive : ¬ w.Terminated q := not_terminated_of_shell hq
  refine hq ▸ moves_others hw h hlive ?_
  rintro rfl
  obtain ⟨ok, r, ha, -⟩ := moves_frame h hq hwaits hend
  exact hne ok ha

/-- The only step of a program is its end. -/
theorem moves_program (h : Moves w a w') {argv : List W}
    (hq : (w.proc a.actor).status = .program argv) : ∃ n, a = .finish a.actor n := by
  cases h with
  | finish => exact ⟨_, rfl⟩
  | read hp => exact nomatch hq.symm.trans hp
  | run hp => exact nomatch hq.symm.trans hp
  | restore hp => exact nomatch hq.symm.trans hp
  | reapLast _ _ hp => exact nomatch hq.symm.trans hp
  | reapOther _ _ hp => exact nomatch hq.symm.trans hp
  | waitFails _ hp => exact nomatch hq.symm.trans hp
  | waitSpins _ hp => exact nomatch hq.symm.trans hp

theorem moves_nextPipe (h : Moves w a w') : w.nextPipe ≤ w'.nextPipe := by
  cases h with
  | @run p ok f k r _ _ =>
      cases r with
      | next o =>
          show w.nextPipe ≤ (w.continue p o).nextPipe
          rw [continue_nextPipe, World.made]
          split_ifs <;> omega
      | _ => exact Nat.le_refl _
  | restore =>
      rw [continue_nextPipe]
      exact Nat.le_refl _
  | _ => exact Nat.le_refl _

/-- All processes that run shell code have standard input and output, and know no pipe that is not
    made yet. -/
structure Sane (w : World W) : Prop where
  codes : CodeOk AnyCode w
  able : ∀ q code, (w.proc q).status = .shell code → Able w.nextPipe code (w.proc q).fds

theorem moves_made {p : Nat} {ok : Bool} {f : Frame W} {k : List (Frame W)} {o : Outcome W}
    (h : Moves w (.run p ok) w') (hp : (w.proc p).status = .shell (f :: k))
    (hr : runFrame f k (w.proc p).fds w.next w.nextPipe ok = some (.next o)) :
    w' = w.continue p o ∧ w'.nextPipe = w.made o := by
  cases h with
  | run hp' hr' =>
      cases hp.symm.trans hp'
      obtain rfl := Option.some.inj (hr.symm.trans hr')
      exact ⟨rfl, continue_nextPipe w p o⟩

theorem Sane.step (h : Sane w) (hm : Moves w a w') : Sane w' := by
  refine ⟨moves_anyCode h.codes hm, fun q code hq => ?_⟩
  have hle := moves_nextPipe hm
  have hcame := moves_came h.codes hm hq
  generalize (w'.proc q).fds = fds at hcame ⊢
  cases hcame with
  | same hp => exact (h.able q _ hp).mono hle
  | read hp => exact ((h.able q _ hp).mono hle).with_code (by simp [Frame.High])
  | wait hp => exact ((h.able q _ hp).mono hle).sub (List.subset_cons_self ..)
  | restore hp =>
      have hsub := ((h.able q _ hp).mono hle).sub (List.subset_cons_self ..)
      exact ⟨(hsub.isOpen.dup2 _ 0).dup2 _ 1, (hsub.known.dup2 _ 0).dup2 _ 1, hsub.high⟩
  | next hp hr ha =>
      subst ha
      rw [(moves_made hm hp hr).2]
      exact ((h.able q _ hp).runFrame hr).self
  | born hp hr hc ha _ =>
      subst ha
      rw [(moves_made hm hp hr).2]
      exact ((h.able _ _ hp).runFrame hr).child _ hc

end Moves

end Cs350.Shell
