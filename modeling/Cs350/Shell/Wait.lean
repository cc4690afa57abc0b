import Cs350.Shell.Code

set_option autoImplicit false

/-! # What a foreground construct waits for

`wait` takes any child of the process, and the background children of the shell are children like
any other. EXEC compares the pid that `wait` returns and so waits for its own child; LIST takes the
first child it gets, and REDIR and PIPE go on until there is no child left. These are waits for the
processes the construct has forked exactly when there is no other child in the way: for LIST none at
all, for REDIR and PIPE none that is still running. -/

namespace Cs350.Shell

open Transition

variable {W : Type}

/-- The processes forked by the construct that waits. -/
def Frame.own : Frame W → List Nat
  | .waitFor q => [q]
  | .waitOnce q => [q]
  | .waitAll own => own
  | _ => []

/-- Foreground constructs wait for what they forked: a wait is over only after these processes have
    terminated, and it does not block any more once they have. -/
structure ExactWait [DecidableEq W] (w : World W) : Prop where
  after : ∀ p f k a w', (w.proc p).status = .shell (f :: k) → f.Waits → Step w a w' →
    (w'.proc p).status = .shell k → ∀ q ∈ f.own, w'.Terminated q
  prompt : ∀ p f k, (w.proc p).status = .shell (f :: k) → f.Waits →
    (∀ q ∈ f.own, w.Terminated q) →
    (∃ q, (w.step (.reap p q)).isSome) ∨ (w.step (.noChild p)).isSome

/-- No other child is in the way when `p` starts the construct. -/
def Cmd.Undisturbed (w : World W) (p : Nat) : Cmd W → Prop
  | .list _ _ => ∀ q < w.next, ¬ w.Child p q
  | .redir _ _ _ _ | .pipe _ _ => ∀ q < w.next, w.Child p q → w.Terminated q
  | .exec _ | .back _ => True

instance [DecidableEq W] (w : World W) (p : Nat) (c : Cmd W) : Decidable (c.Undisturbed w p) :=
  match c with
  | .list _ _ => inferInstanceAs (Decidable (∀ q < w.next, ¬ w.Child p q))
  | .redir _ _ _ _ => inferInstanceAs (Decidable (∀ q < w.next, w.Child p q → w.Terminated q))
  | .pipe _ _ => inferInstanceAs (Decidable (∀ q < w.next, w.Child p q → w.Terminated q))
  | .exec _ => .isTrue trivial
  | .back _ => .isTrue trivial

/-- The process that calls `execcmd` in the step, and the command. -/
def World.called (w : World W) : Act W → Option (Nat × Cmd W)
  | .run p _ =>
    match (w.proc p).status with
    | .shell (.call c :: _) => some (p, c)
    | _ => none
  | _ => none

/-- The condition on a step: a call of `execcmd` is undisturbed. -/
def CallUndisturbed (w : World W) (a : Act W) : Prop :=
  ∀ x ∈ w.called a, x.2.Undisturbed w x.1

instance [DecidableEq W] (w : World W) (a : Act W) : Decidable (CallUndisturbed w a) :=
  inferInstanceAs (Decidable (∀ x ∈ w.called a, _))

/-! ## Children along a step -/

/-- `q` is a child of `p`, or has been waited for. -/
def World.Known (w : World W) (p q : Nat) : Prop :=
  (w.proc q).parent = some p ∨ (w.proc q).status = .reaped

/-- From `w` to `w'`, as seen by `p`: no new child, nobody comes back to life, and no child is lost
    unless it is waited for. -/
structure Settles (w w' : World W) (p : Nat) : Prop where
  child : ∀ q, w'.Child p q → w.Child p q
  terminated : ∀ q, w.Terminated q → w'.Terminated q
  known : ∀ q, w.Known p q → w'.Known p q

/-- Giving a running process another status than `reaped`. -/
theorem setStatus_settles {w : World W} {r : Nat} (hr : ¬ w.Terminated r) {st : Status W}
    (hst : st ≠ .reaped) (p : Nat) :
    Settles w (w.setStatus r st) p ∧ ∀ q, w.Child p q → (w.setStatus r st).Child p q := by
  have hne : (w.proc r).status ≠ .reaped := fun h => hr (Or.inl h)
  refine ⟨⟨fun q hq => ?_, fun q hq => ?_, fun q hq => ?_⟩, fun q hq => ?_⟩
  · refine ⟨by simpa using hq.1, ?_⟩
    by_cases hqr : q = r
    · rwa [hqr]
    · have := hq.2
      rwa [setStatus_proc_of_ne w st hqr] at this
  · have hqr : q ≠ r := by
      rintro rfl
      exact hr hq
    unfold World.Terminated
    rwa [setStatus_proc_of_ne w st hqr]
  · rcases hq with hq | hq
    · exact Or.inl (by simpa using hq)
    · have hqr : q ≠ r := by
        rintro rfl
        exact hne hq
      exact Or.inr (by rwa [setStatus_proc_of_ne w st hqr])
  · refine ⟨by simpa using hq.1, ?_⟩
    by_cases hqr : q = r
    · rwa [hqr, setStatus_status_self]
    · rw [setStatus_proc_of_ne w st hqr]
      exact hq.2

theorem reap_settles (w : World W) (r p : Nat) :
    Settles w (w.setStatus r .reaped) p ∧
      ∀ q, q ≠ r → w.Child p q → (w.setStatus r .reaped).Child p q := by
  refine ⟨⟨fun q hq => ?_, fun q hq => ?_, fun q hq => ?_⟩, fun q hqr hq => ?_⟩
  · have hqr : q ≠ r := by
      rintro rfl
      exact hq.2 (setStatus_status_self w q .reaped)
    refine ⟨by simpa using hq.1, ?_⟩
    have := hq.2
    rwa [setStatus_proc_of_ne w _ hqr] at this
  · by_cases hqr : q = r
    · exact Or.inl (by rw [hqr, setStatus_status_self])
    · unfold World.Terminated
      rwa [setStatus_proc_of_ne w _ hqr]
  · by_cases hqr : q = r
    · exact Or.inr (by rw [hqr, setStatus_status_self])
    · unfold World.Known
      rwa [setStatus_proc_of_ne w _ hqr]
  · unfold World.Child
    rwa [setStatus_proc_of_ne w _ hqr]

theorem terminate_settles {w : World W} {r p : Nat} (hp : p ≠ r)
    (hr : (w.proc r).status ≠ .reaped) (n : Int) :
    Settles w (w.terminate r n) p ∧ ∀ q, w.Child p q → (w.terminate r n).Child p q := by
  have hparent : ∀ q, (w.proc q).parent = some p → ((w.terminate r n).proc q).parent = some p := by
    intro q hq
    by_cases hqr : q = r
    · subst hqr
      simpa [World.terminate] using hq
    · simp [World.terminate, hqr, hq, hp]
  have hreaped : ∀ q, q ≠ r → (w.proc q).status = ((w.terminate r n).proc q).status :=
    fun q hq => (terminate_status_of_ne w n hq).symm
  refine ⟨⟨fun q hq => ?_, fun q hq => ?_, fun q hq => ?_⟩, fun q hq => ⟨hparent q hq.1, ?_⟩⟩
  · refine ⟨(terminate_parent hq.1).1, ?_⟩
    by_cases hqr : q = r
    · rwa [hqr]
    · rw [hreaped q hqr]
      exact hq.2
  · by_cases hqr : q = r
    · exact Or.inr ⟨n, by rw [hqr, terminate_status_self]⟩
    · unfold World.Terminated
      rwa [← hreaped q hqr]
  · rcases hq with hq | hq
    · exact Or.inl (hparent q hq)
    · have hqr : q ≠ r := by
        rintro rfl
        exact hr hq
      exact Or.inr (by rw [← hreaped q hqr]; exact hq)
  · by_cases hqr : q = r
    · rw [hqr, terminate_status_self]
      simp
    · rw [← hreaped q hqr]
      exact hq.2

/-- A process goes on; the only new child is the one it forks. -/
theorem continue_children {C : Nat → List (Frame W) → Prop} {w : World W} (hw : CodeOk C w)
    {r : Nat} {k : List (Frame W)} (hr : (w.proc r).status = .shell k) (o : Outcome W) (p : Nat) :
    (∀ q, (w.continue r o).Child p q → w.Child p q ∨ (p = r ∧ q = w.next ∧ o.child ≠ none)) ∧
    (∀ q, w.Terminated q → q ≠ w.next → (w.continue r o).Terminated q) ∧
    (∀ q, w.Known p q → q ≠ w.next → (w.continue r o).Known p q) ∧
    ∀ q, w.Child p q → (w.continue r o).Child p q := by
  have hlt := hw.lt_next_of_shell hr
  have hrn : r ≠ w.next := by omega
  have hself := continue_self w o hrn
  have hother : ∀ q, q ≠ r → q ≠ w.next → (w.continue r o).proc q = w.proc q :=
    fun q => continue_proc_of_ne w o
  refine ⟨fun q hq => ?_, fun q hq hqn => ?_, fun q hq hqn => ?_, fun q hq => ?_⟩
  · by_cases hqr : q = r
    · subst hqr
      have := hq.1
      rw [hself] at this
      exact Or.inl ⟨this, by rw [hr]; simp⟩
    · by_cases hqn : q = w.next
      · rcases continue_next w o hrn with ⟨-, -, hnew⟩ | ⟨code, hsome, -, hnew⟩
        · have := hq.1
          rw [hqn, hnew, hw.fresh _ le_rfl] at this
          cases this
        · have := hq.1
          rw [hqn, hnew] at this
          exact Or.inr ⟨(Option.some.inj this).symm, hqn, by rw [hsome]; simp⟩
      · left
        unfold World.Child at hq ⊢
        rwa [hother q hqr hqn] at hq
  · have hqr : q ≠ r := by
      rintro rfl
      exact not_terminated_of_shell hr hq
    unfold World.Terminated
    rwa [hother q hqr hqn]
  · by_cases hqr : q = r
    · subst hqr
      rcases hq with hq | hq
      · exact Or.inl (by rwa [hself])
      · rw [hr] at hq
        cases hq
    · unfold World.Known
      rwa [hother q hqr hqn]
  · have hqn : q ≠ w.next := (hw.lt_next hq.2).ne
    by_cases hqr : q = r
    · subst hqr
      exact ⟨by rw [hself]; exact hq.1, by rw [hself]; simp⟩
    · unfold World.Child
      rwa [hother q hqr hqn]

/-! ## The children of a process that waits -/

/-- Which children `p` has when the frame is part of its code. -/
def FrameInv (w : World W) (p : Nat) : Frame W → Prop
  | .waitOnce own => w.Child p own ∧ ∀ q, w.Child p q → q = own
  | .waitAll own => (∀ q ∈ own, q < w.next ∧ w.Known p q) ∧
      ∀ q, w.Child p q → q ∈ own ∨ w.Terminated q
  | .pipeFork _ _ _ own => w.Child p own ∧ ∀ q, w.Child p q → q = own ∨ w.Terminated q
  | _ => True

def OwnInv (w : World W) : Prop :=
  ∀ p k, (w.proc p).status = .shell k → ∀ f ∈ k, FrameInv w p f

/-- The frames that rely on a child not being waited for elsewhere. -/
def Frame.Relies : Frame W → Prop
  | .waitOnce _ | .pipeFork _ _ _ _ => True
  | _ => False

theorem FrameInv.mono {C : Nat → List (Frame W) → Prop} {w w' : World W} (hw : CodeOk C w)
    {p : Nat} {f : Frame W} (h : FrameInv w p f) (hnext : w.next ≤ w'.next)
    (hchild : ∀ q, w'.Child p q → w.Child p q)
    (hterm : ∀ q, q < w.next → w.Terminated q → w'.Terminated q)
    (hknown : ∀ q, q < w.next → w.Known p q → w'.Known p q)
    (hkeep : f.Relies → ∀ q, w.Child p q → w'.Child p q) : FrameInv w' p f := by
  cases f with
  | waitOnce own => exact ⟨hkeep trivial own h.1, fun q hq => h.2 q (hchild q hq)⟩
  | waitAll own =>
      refine ⟨fun q hq => ?_, fun q hq => ?_⟩
      · obtain ⟨h1, h2⟩ := h.1 q hq
        exact ⟨by omega, hknown q h1 h2⟩
      · have hq' := hchild q hq
        exact (h.2 q hq').imp id (hterm q (hw.lt_next hq'.2))
  | pipeFork c a b own =>
      refine ⟨hkeep trivial own h.1, fun q hq => ?_⟩
      have hq' := hchild q hq
      exact (h.2 q hq').imp id (hterm q (hw.lt_next hq'.2))
  | _ => trivial

theorem FrameInv.settles {C : Nat → List (Frame W) → Prop} {w w' : World W} (hw : CodeOk C w)
    {p : Nat} {f : Frame W} (h : FrameInv w p f) (hnext : w'.next = w.next)
    (hs : Settles w w' p) (hkeep : f.Relies → ∀ q, w.Child p q → w'.Child p q) :
    FrameInv w' p f :=
  h.mono hw (by omega) hs.child (fun q _ => hs.terminated q) (fun q _ => hs.known q) hkeep

/-- After a wait, no frame is left that relies on a child. -/
theorem Forked.not_relies_of_wait {f : Frame W} {k : List (Frame W)} (h : Forked Back (f :: k))
    (hf : f.Waits) : ∀ g ∈ k, ¬ g.Relies := by
  have hback : ∀ {k : List (Frame W)}, Back k → ∀ g ∈ k, ¬ g.Relies := by
    intro k hk g hg
    rcases hk with rfl | hk
    · cases hg
    · obtain ⟨n, rfl⟩ := hk.mem hg
      exact id
  cases h.body_of_wait (Or.inl hf) with
  | ret h =>
      rcases h with h | ⟨n, k', h, -⟩
      · cases h
      · cases h
        exact hf.elim
  | waitFor hk => exact hback hk
  | waitOnce hk =>
      intro g hg
      rcases List.mem_cons.1 hg with rfl | hg
      · exact id
      · exact hback hk g hg
  | redirWait hk =>
      intro g hg
      rcases List.mem_cons.1 hg with rfl | hg
      · exact id
      · exact hback hk g hg
  | pipeWait hk =>
      intro g hg
      simp only [List.mem_cons] at hg
      rcases hg with rfl | rfl | hg
      · exact id
      · exact id
      · exact hback hk g hg
  | pipeWait' hk =>
      intro g hg
      rcases List.mem_cons.1 hg with rfl | hg
      · exact id
      · exact hback hk g hg
  | _ => exact hf.elim

/-- The processes other than `p` keep their status, and `p` gets code whose frames are fine. -/
theorem OwnInv.of_status {w w' : World W} (hw : CodeOk AnyCode w) (hinv : OwnInv w) (p : Nat)
    (hother : ∀ r k, r ≠ p → (w'.proc r).status = .shell k → (w.proc r).status = .shell k)
    (hmono : ∀ r, r ≠ p → Settles w w' r ∧ ∀ q, w.Child r q → w'.Child r q)
    (hnext : w'.next = w.next)
    (hp : ∀ k, (w'.proc p).status = .shell k → ∀ f ∈ k, FrameInv w' p f) : OwnInv w' := by
  intro r k hk f hf
  by_cases hr : r = p
  · subst hr
    exact hp k hk f hf
  · obtain ⟨hs, hkeep⟩ := hmono r hr
    exact (hinv r k (hother r k hr hk) f hf).settles hw hnext hs fun _ => hkeep

/-- The frames that say nothing about children. -/
def Frame.Plain : Frame W → Prop
  | .waitOnce _ | .waitAll _ | .pipeFork _ _ _ _ => False
  | _ => True

theorem frameInv_of_plain {w : World W} {p : Nat} {f : Frame W} (h : f.Plain) : FrameInv w p f := by
  cases f <;> trivial

theorem plain_of_back {k : List (Frame W)} (hk : Back k) {f : Frame W} (hf : f ∈ k) : f.Plain := by
  rcases hk with rfl | hk
  · cases hf
  · obtain ⟨n, rfl⟩ := hk.mem hf
    trivial

/-- A forked child is the next pid, and a child from then on. -/
theorem continue_forks (w : World W) {p : Nat} (hp : p < w.next) {o : Outcome W}
    (hchild : o.child ≠ none) :
    (w.continue p o).Child p w.next ∧ (w.continue p o).next = w.next + 1 := by
  rcases continue_next w o (show p ≠ w.next by omega) with ⟨hnone, -⟩ | ⟨code, -, hnext, hnew⟩
  · exact absurd hnone hchild
  · exact ⟨⟨by rw [hnew], by rw [hnew]; simp⟩, hnext⟩

theorem continue_ownInv {w : World W} (hw : CodeOk AnyCode w) (hinv : OwnInv w) {p : Nat}
    {k : List (Frame W)} (hp : (w.proc p).status = .shell k) {o : Outcome W}
    (hcode : ∀ f ∈ o.code, FrameInv (w.continue p o) p f)
    (hchild : ∀ code, o.child = some code → ∀ f ∈ code, f.Plain) : OwnInv (w.continue p o) := by
  have hpn : p ≠ w.next := (hw.lt_next_of_shell hp).ne
  have hnext : w.next ≤ (w.continue p o).next := by
    rcases continue_next w o hpn with ⟨-, h, -⟩ | ⟨code, -, h, -⟩ <;> omega
  intro r k' hk f hf
  by_cases hr : r = p
  · subst hr
    rw [continue_self w o hpn] at hk
    cases hk
    exact hcode f hf
  · by_cases hrn : r = w.next
    · rcases continue_next w o hpn with ⟨-, -, hnew⟩ | ⟨code, hsome, -, hnew⟩
      · rw [hrn, hnew, hw.fresh _ le_rfl] at hk
        cases hk
      · rw [hrn, hnew] at hk
        cases hk
        exact frameInv_of_plain (hchild _ hsome f hf)
    · rw [continue_proc_of_ne w o hr hrn] at hk
      obtain ⟨h1, h2, h3, h4⟩ := continue_children hw hp o r
      refine (hinv r k' hk f hf).mono hw hnext (fun q hq => ?_) (fun q hq ht => h2 q ht hq.ne)
        (fun q hq ht => h3 q ht hq.ne) fun _ => h4
      exact (h1 q hq).resolve_right fun h => hr h.1

theorem call_ownInv {w : World W} (hw : CodeOk AnyCode w) (hinv : OwnInv w) {p : Nat} {c : Cmd W}
    {k : List (Frame W)} (hp : (w.proc p).status = .shell (.call c :: k)) (hk : Back k)
    (hc : c.Undisturbed w p) {ok : Bool} {o : Outcome W}
    (ho : execcmd c k (w.proc p).fds w.next w.nextPipe ok = .next o) :
    OwnInv (w.continue p o) := by
  have hlt := hw.lt_next_of_shell hp
  have hplain : ∀ f ∈ k, f.Plain := fun f => plain_of_back hk
  obtain ⟨hold, hterm, -, -⟩ := continue_children hw hp o p
  cases c with
  | exec argv =>
      simp only [execcmd] at ho
      split_ifs at ho
      · cases ho
        exact continue_ownInv hw hinv hp (fun f hf => frameInv_of_plain (hplain f hf)) (by simp)
      · cases ho
        refine continue_ownInv hw hinv hp (fun f hf => frameInv_of_plain ?_) (fun code h => ?_)
        · exact List.forall_mem_cons.2 ⟨trivial, hplain⟩ f hf
        · cases h
          exact List.forall_mem_cons.2 ⟨trivial, hplain⟩
  | list left right =>
      simp only [execcmd, Result.next.injEq] at ho
      have hnew := (continue_forks w hlt (o := o) (by rw [← ho]; simp)).1
      subst ho
      refine continue_ownInv hw hinv hp (fun f hf => ?_) (fun code h => ?_)
      · simp only [List.mem_cons] at hf
        rcases hf with rfl | rfl | hf
        · refine ⟨hnew, fun q hq => ?_⟩
          rcases hold q hq with h | ⟨-, h, -⟩
          · exact absurd h (hc q (hw.lt_next h.2))
          · exact h
        · trivial
        · exact frameInv_of_plain (hplain f hf)
      · cases h
        simpa only [List.forall_mem_cons] using ⟨trivial, trivial, hplain⟩
  | redir cmd file mode n =>
      simp only [execcmd, Result.next.injEq] at ho
      obtain ⟨hnew, hnext⟩ := continue_forks w hlt (o := o) (by rw [← ho]; simp)
      subst ho
      refine continue_ownInv hw hinv hp (fun f hf => ?_) (fun code h => ?_)
      · simp only [List.mem_cons] at hf
        rcases hf with rfl | rfl | hf
        · refine ⟨fun q hq => ?_, fun q hq => ?_⟩
          · rw [List.mem_singleton.1 hq]
            exact ⟨by omega, Or.inl hnew.1⟩
          · rcases hold q hq with h | ⟨-, h, -⟩
            · exact Or.inr (hterm q (hc q (hw.lt_next h.2) h) (hw.lt_next h.2).ne)
            · exact Or.inl (List.mem_singleton.2 h)
        · trivial
        · exact frameInv_of_plain (hplain f hf)
      · cases h
        simpa only [List.forall_mem_cons] using ⟨trivial, trivial, trivial, hplain⟩
  | pipe left right =>
      simp only [execcmd] at ho
      split_ifs at ho
      have ho := Result.next.inj ho
      obtain ⟨hnew, -⟩ := continue_forks w hlt (o := o) (by rw [← ho]; simp)
      subst ho
      refine continue_ownInv hw hinv hp (fun f hf => ?_) (fun code h => ?_)
      · rcases List.mem_cons.1 hf with rfl | hf
        · refine ⟨hnew, fun q hq => ?_⟩
          rcases hold q hq with h | ⟨-, h, -⟩
          · exact Or.inr (hterm q (hc q (hw.lt_next h.2) h) (hw.lt_next h.2).ne)
          · exact Or.inl h
        · exact frameInv_of_plain (hplain f hf)
      · cases h
        simpa only [List.forall_mem_cons] using ⟨trivial, trivial, trivial, hplain⟩
  | back cmd =>
      simp only [execcmd, Result.next.injEq] at ho
      subst ho
      refine continue_ownInv hw hinv hp (fun f hf => frameInv_of_plain (hplain f hf))
        (fun code h => ?_)
      cases h
      simpa only [List.forall_mem_cons] using ⟨trivial, trivial, hplain⟩

theorem run_ownInv {w : World W} (hw : CodeOk AnyCode w) (hinv : OwnInv w) {p : Nat} {ok : Bool}
    {f : Frame W} {k : List (Frame W)} {r : Result W} (hp : (w.proc p).status = .shell (f :: k))
    (hr : runFrame f k (w.proc p).fds w.next w.nextPipe ok = some r)
    (hcall : ∀ c, f = .call c → c.Undisturbed w p) : OwnInv (w.apply p r) := by
  have hlt := hw.lt_next_of_shell hp
  have hrunning := not_terminated_of_shell hp
  cases r with
  | exec argv =>
      refine hinv.of_status hw p (fun q k' hq h => ?_)
        (fun q _ => setStatus_settles hrunning (by simp) q) rfl (fun k' h => ?_)
      · rwa [World.apply, setStatus_proc_of_ne w _ hq] at h
      · rw [World.apply, setStatus_status_self] at h
        cases h
  | exit n =>
      refine hinv.of_status hw p (fun q k' hq h => ?_)
        (fun q hq => terminate_settles hq (by rw [hp]; simp) n) rfl (fun k' h => ?_)
      · rwa [World.apply, terminate_status_of_ne w n hq] at h
      · rw [World.apply, terminate_status_self] at h
        cases h
  | next o =>
      rw [World.apply]
      have hcode : Forked Back (f :: k) := hw.code p _ hp
      -- popping a frame keeps the rest, and the children are the same
      have hpop : o.code = k → o.child = none → (∀ g ∈ k, FrameInv w p g) →
          OwnInv (w.continue p o) := by
        intro hk hnone hfine
        obtain ⟨h1, h2, h3, h4⟩ := continue_children hw hp o p
        have hnext : w.next ≤ (w.continue p o).next := by
          rcases continue_next w o hlt.ne with ⟨-, h, -⟩ | ⟨code, -, h, -⟩ <;> omega
        refine continue_ownInv hw hinv hp (fun g hg => ?_) (by simp [hnone])
        refine (hfine g (hk ▸ hg)).mono hw hnext (fun q hq => ?_) (fun q hq ht => h2 q ht hq.ne)
          (fun q hq ht => h3 q ht hq.ne) fun _ => h4
        exact (h1 q hq).resolve_right fun h => h.2.2 hnone
      have hrest : ∀ g ∈ k, FrameInv w p g := fun g hg =>
        hinv p _ hp g (List.mem_cons_of_mem _ hg)
      cases f with
      | call c =>
          have hk : Back k := by
            cases hcode with
            | body h =>
                cases h with
                | ret h =>
                    rcases h with h | ⟨n, k', h, -⟩ <;> cases h
                | call h => exact h
          exact call_ownInv hw hinv hp hk (hcall c rfl) (Option.some.inj hr)
      | execvp argv =>
          simp only [runFrame, Option.some.injEq] at hr
          split_ifs at hr
          cases hr
          exact hpop rfl rfl hrest
      | pipeFork c a b own =>
          have hr := Result.next.inj (Option.some.inj hr)
          obtain ⟨hnew, hnext⟩ := continue_forks w hlt (o := o) (by rw [← hr]; simp)
          obtain ⟨hold, hterm, -, hkeep⟩ := continue_children hw hp o p
          obtain ⟨hown, honly⟩ := hinv p _ hp (.pipeFork c a b own) (by simp)
          have hk : Back k := by
            cases hcode with
            | body h =>
                cases h with
                | ret h =>
                    rcases h with h | ⟨n, k', h, -⟩ <;> cases h
                | pipeFork h => exact h
          have hplain : ∀ g ∈ k, g.Plain := fun g => plain_of_back hk
          have hboth : FrameInv (w.continue p o) p (.waitAll [own, w.next]) := by
            refine ⟨fun q hq => ?_, fun q hq => ?_⟩
            · have hltOwn := hw.lt_next hown.2
              simp only [List.mem_cons, List.not_mem_nil, or_false] at hq
              rcases hq with rfl | rfl
              · exact ⟨by omega, Or.inl (hkeep q hown).1⟩
              · exact ⟨by omega, Or.inl hnew.1⟩
            · rcases hold q hq with h | ⟨-, h, -⟩
              · rcases honly q h with h' | h'
                · exact Or.inl (by simp [h'])
                · exact Or.inr (hterm q h' (hw.lt_next h.2).ne)
              · exact Or.inl (by simp [h])
          subst hr
          refine continue_ownInv hw hinv hp (fun g hg => ?_) (fun code h => ?_)
          · simp only [List.mem_cons] at hg
            rcases hg with rfl | rfl | rfl | rfl | hg
            · trivial
            · exact hboth
            · exact hboth
            · trivial
            · exact frameInv_of_plain (hplain g hg)
          · cases h
            simpa only [List.forall_mem_cons] using ⟨trivial, trivial, trivial, hplain⟩
      | exit n => cases hr
      | waitFor q => cases hr
      | waitOnce q => cases hr
      | waitAll own => cases hr
      | pipeEnd => cases hr
      | _ =>
          cases hr
          exact hpop rfl rfl hrest

/-- Every step keeps the invariant when the calls are undisturbed. -/
theorem moves_ownInv {w w' : World W} {a : Act W} (hw : CodeOk AnyCode w) (hinv : OwnInv w)
    (h : Moves w a w') (hcall : CallUndisturbed w a) : OwnInv w' := by
  -- a process that waits goes on with the frames after the wait
  have hleave : ∀ {p : Nat} {f : Frame W} {k : List (Frame W)}, (w.proc p).status = .shell (f :: k) →
      OwnInv (w.setStatus p (.shell k)) := by
    intro p f k hp
    have hset : ∀ q, Settles w (w.setStatus p (.shell k)) q ∧
        ∀ r, w.Child q r → (w.setStatus p (.shell k)).Child q r :=
      setStatus_settles (not_terminated_of_shell hp) (by simp)
    refine hinv.of_status hw p (fun q k' hq h => ?_) (fun q _ => hset q) rfl (fun k' h g hg => ?_)
    · rwa [setStatus_proc_of_ne w _ hq] at h
    · rw [setStatus_status_self] at h
      cases h
      exact (hinv p _ hp g (List.mem_cons_of_mem _ hg)).settles hw rfl (hset p).1 fun _ => (hset p).2
  -- a child of `p` is waited for while `p` has no frame that relies on it
  have hreap : ∀ {u : World W} {p q : Nat}, CodeOk AnyCode u → OwnInv u → (u.proc q).parent = some p →
      (∀ k, (u.proc p).status = .shell k → ∀ g ∈ k, ¬ g.Relies) → OwnInv (u.setStatus q .reaped) := by
    intro u p q hu hinvu hparent hrelies r k hk g hg
    have hrq : r ≠ q := by
      rintro rfl
      rw [setStatus_status_self] at hk
      cases hk
    rw [setStatus_proc_of_ne u _ hrq] at hk
    obtain ⟨hs, hkeep⟩ := reap_settles u q r
    refine (hinvu r k hk g hg).settles hu rfl hs fun hg' b hb => ?_
    refine hkeep b (fun hbq => ?_) hb
    have hrp : r = p := by
      have := hb.1
      rw [hbq, hparent] at this
      exact (Option.some.inj this).symm
    subst hrp
    exact hrelies k hk g hg hg'
  cases h with
  | @read p c hp =>
      have hset : ∀ q, Settles w (w.setStatus p (.shell [.call c])) q ∧
          ∀ r, w.Child q r → (w.setStatus p (.shell [.call c])).Child q r :=
        setStatus_settles (not_terminated_of_shell hp) (by simp)
      refine hinv.of_status hw p (fun q k' hq h => ?_) (fun q _ => hset q) rfl (fun k' h g hg => ?_)
      · rwa [setStatus_proc_of_ne w _ hq] at h
      · rw [setStatus_status_self] at h
        cases h
        rw [List.mem_singleton.1 hg]
        trivial
  | @run p ok f k r hp hr =>
      refine run_ownInv hw hinv hp hr ?_
      rintro c rfl
      exact hcall (p, c) (by simp [World.called, hp])
  | @restore p x y k hp =>
      obtain ⟨h1, h2, h3, h4⟩ := continue_children hw hp
        ({ fds := ((w.proc p).fds.dup2 x 0).dup2 y 1, code := k } : Outcome W) p
      refine continue_ownInv hw hinv hp (fun g hg => ?_) (by simp)
      refine (hinv p _ hp g (List.mem_cons_of_mem _ hg)).mono hw (le_refl w.next) (fun q hq => ?_)
        (fun q hq ht => h2 q ht hq.ne) (fun q hq ht => h3 q ht hq.ne) fun _ => h4
      exact (h1 q hq).resolve_right fun h => h.2.2 rfl
  | @reapLast p q f k hchild hterm hp hf =>
      have hwait : f.Waits := by rcases hf with rfl | ⟨own, rfl⟩ <;> trivial
      have hpq : p ≠ q := by have := hw.older p q hchild.1; omega
      obtain ⟨hcode, hnot⟩ := (Forked.body_of_wait (hw.code p _ hp) (Or.inl hwait)).tail_of_wait
        returns_back (Or.inl hwait)
      have hcomm : (w.setStatus q .reaped).setStatus p (.shell k) =
          (w.setStatus p (.shell k)).setStatus q .reaped := setStatus_comm w hpq.symm _ _
      rw [hcomm]
      refine hreap ?_ (hleave hp) (p := p) (by simpa using hchild.1) (fun k' hk => ?_)
      · exact hw.setStatus (hw.lt_next_of_shell hp) (by simp)
          (fun k' h => by cases h; exact .body hcode) (fun q' k' h => hnot q' k' (by simpa using h))
      · rw [setStatus_status_self] at hk
        cases hk
        exact Forked.not_relies_of_wait (hw.code p _ hp) hwait
  | @reapOther p q f k hchild hterm hp hf =>
      refine hreap hw hinv hchild.1 fun k' hk => ?_
      rw [hp] at hk
      cases hk
      have hwait : f.Waits := by rcases hf with ⟨pid, rfl, -⟩ | ⟨own, rfl⟩ <;> trivial
      refine List.forall_mem_cons.2 ⟨?_, Forked.not_relies_of_wait (hw.code p _ hp) hwait⟩
      rcases hf with ⟨pid, rfl, -⟩ | ⟨own, rfl⟩ <;> exact id
  | waitFails hno hp hf => exact hleave hp
  | waitSpins hno hp => exact hinv
  | @finish q n argv hq =>
      refine hinv.of_status hw q (fun r k' hr h => ?_)
        (fun r hr => terminate_settles hr (by rw [hq]; simp) n) rfl (fun k' h => ?_)
      · rwa [terminate_status_of_ne w n hr] at h
      · rw [terminate_status_self] at h
        cases h

/-! ## Sessions -/

/-- The only steps that end a wait of `p` are its own. -/
theorem ends_wait {w w' : World W} {a : Act W} (hw : CodeOk AnyCode w) (h : Moves w a w') {p : Nat}
    {f : Frame W} {k : List (Frame W)} (hp : (w.proc p).status = .shell (f :: k)) (hf : f.Waits)
    (hk : (w'.proc p).status = .shell k) :
    (∃ q, w.Child p q ∧ (f = .waitFor q ∨ ∃ own, f = .waitOnce own) ∧
      w' = (w.setStatus q .reaped).setStatus p (.shell k)) ∨
    (∀ q < w.next, ¬ w.Child p q) ∧ ((∃ own, f = .waitOnce own) ∨ ∃ own, f = .waitAll own) ∧
      w' = w.setStatus p (.shell k) := by
  have hstay : (w'.proc p).status ≠ (w.proc p).status := by
    rw [hk, hp]
    intro h
    have := congrArg List.length (Status.shell.inj h)
    simp at this
  have hset : ∀ {r : Nat} {st : Status W}, ((w.setStatus r st).proc p).status = .shell k →
      ((w.setStatus r st).proc p).status ≠ (w.proc p).status → p = r := by
    intro r st _ hne
    by_contra hpr
    exact hne (by rw [setStatus_proc_of_ne w st hpr])
  have hcont : ∀ {r : Nat} {k' : List (Frame W)} {o : Outcome W}, (w.proc r).status = .shell k' →
      ((w.continue r o).proc p).status ≠ (w.proc p).status → p = r := by
    intro r k' o hr hne
    by_contra hpr
    exact hne (by rw [continue_proc_of_ne w o hpr (hw.lt_next_of_shell hp).ne])
  have hexit : ∀ {r : Nat} {n : Int}, ((w.terminate r n).proc p).status = .shell k →
      ((w.terminate r n).proc p).status ≠ (w.proc p).status → False := by
    intro r n h hne
    by_cases hpr : p = r
    · subst hpr
      rw [terminate_status_self] at h
      cases h
    · exact hne (terminate_status_of_ne w n hpr)
  cases h with
  | @read r c hr =>
      obtain rfl := hset hk hstay
      rw [hp] at hr
      cases hr
  | @run r ok g k' res hr hres =>
      have hpr : p = r := by
        cases res with
        | next o => exact hcont hr hstay
        | exec argv => exact hset hk hstay
        | exit n => exact (hexit hk hstay).elim
      subst hpr
      rw [hp] at hr
      cases hr
      cases f <;> first | exact hf.elim | cases hres
  | @restore r x y k' hr =>
      obtain rfl := hcont hr hstay
      rw [hp] at hr
      cases hr
      exact hf.elim
  | @reapLast r q g k' hchild hterm hr hg =>
      have hpr : p = r := by
        by_contra hpr
        rw [setStatus_proc_of_ne _ _ hpr] at hk hstay
        have hpq : p = q := hset hk hstay
        rw [hpq, setStatus_status_self] at hk
        cases hk
      subst hpr
      rw [hp] at hr
      cases hr
      exact Or.inl ⟨q, hchild, hg, rfl⟩
  | @reapOther r q g k' hchild hterm hr hg =>
      obtain rfl := hset hk hstay
      rw [setStatus_status_self] at hk
      cases hk
  | @waitFails r g k' hno hr hg =>
      obtain rfl := hset hk hstay
      rw [hp] at hr
      cases hr
      exact Or.inr ⟨hno, hg, rfl⟩
  | waitSpins hno hr => exact absurd rfl hstay
  | finish hq => exact (hexit hk hstay).elim

section Sessions

variable [DecidableEq W]

theorem exactWait_of_ownInv {w : World W} (hw : CodeOk AnyCode w) (hinv : OwnInv w) :
    ExactWait w := by
  refine ⟨fun p f k a w' hp hf hstep hk q hq => ?_, fun p f k hp hf hown => ?_⟩
  · have hrunning := not_terminated_of_shell hp
    have hframe := hinv p _ hp f (by simp)
    rcases ends_wait hw (step_moves hstep) hp hf hk with ⟨r, hchild, hf', rfl⟩ | ⟨hno, hf', rfl⟩
    · have hqr : q = r := by
        rcases hf' with rfl | ⟨own, rfl⟩
        · exact List.mem_singleton.1 hq
        · rw [List.mem_singleton.1 hq, hframe.2 r hchild]
      have hqp : q ≠ p := by have := hw.older p r hchild.1; omega
      subst hqr
      left
      rw [setStatus_proc_of_ne _ _ hqp, setStatus_status_self]
    · rcases hf' with ⟨own, rfl⟩ | ⟨own, rfl⟩
      · exact absurd hframe.1 (hno own (hw.lt_next hframe.1.2))
      · -- a child that has not been waited for would still be there
        obtain ⟨hlt, hknown⟩ := hframe.1 q hq
        have hreaped : (w.proc q).status = .reaped := by
          by_contra hne
          exact hno q hlt ⟨hknown.resolve_right hne, hne⟩
        have hqp : q ≠ p := by
          rintro rfl
          exact hrunning (Or.inl hreaped)
        left
        rwa [setStatus_proc_of_ne _ _ hqp]
  · have hframe := hinv p _ hp f (by simp)
    cases f with
    | waitFor q =>
        left
        have hchild := hw.waits p q k hp
        refine ⟨q, ?_⟩
        simp [World.step, hp, hchild, hown q (by simp [Frame.own])]
    | waitOnce own =>
        refine wait_step hp hf fun q hq => ?_
        rw [hframe.2 q hq]
        exact hown own (by simp [Frame.own])
    | waitAll own =>
        refine wait_step hp hf fun q hq => ?_
        exact (hframe.2 q hq).elim (hown q) id
    | _ => exact hf.elim

/-- **Foreground constructs wait for what they forked**, in every state of a session in which a LIST
    is started only without other children, and a REDIR or PIPE only without others that are still
    running. -/
theorem waits_exactly {fds : FdTable W} {w : World W} {tr : List (World W × Act W)}
    (hrun : Run Step (World.init fds) tr w) (hcalls : ∀ x ∈ tr, CallUndisturbed x.1 x.2) :
    Along ExactWait tr w := by
  have h := hrun.invariant_of_steps (I := fun u => CodeOk AnyCode u ∧ OwnInv u)
    ⟨codeOk_init (.body (.ret (Or.inl rfl))) fds, ?_⟩
    (fun u a u' hu hC hstep => ⟨moves_anyCode hu.1 (step_moves hstep),
      moves_ownInv hu.1 hu.2 (step_moves hstep) hC⟩) hcalls
  · exact ⟨fun x hx => exactWait_of_ownInv (h.1 x hx).1 (h.1 x hx).2,
      exactWait_of_ownInv h.2.1 h.2.2⟩
  · intro p k hk f hf
    by_cases hp : p = 0
    · simp only [World.init, hp, if_true, Status.shell.injEq] at hk
      rw [← hk] at hf
      cases hf
    · simp [World.init, hp] at hk

end Sessions

/-- The list `1 ; 2` with no other process around. -/
theorem waits_exactly_list :
    ∃ tr w, Run Step (World.init ([] : FdTable Nat)) tr w ∧
      tr.map Prod.snd = [.read 0 (.list (.exec [1]) (.exec [2])), .run 0 true, .run 1 true,
        .run 2 true, .finish 2 0, .reap 1 2, .run 1 true, .reap 0 1] ∧
      (w.proc 0).status = .shell [.call (.exec [2])] ∧ Along ExactWait tr w := by
  have hplay : (play World.step (World.init ([] : FdTable Nat))
      [.read 0 (.list (.exec [1]) (.exec [2])), .run 0 true, .run 1 true, .run 2 true,
        .finish 2 0, .reap 1 2, .run 1 true, .reap 0 1]).map (fun r =>
      (decide (∀ x ∈ r.1, CallUndisturbed x.1 x.2), (r.2.proc 0).status)) =
      some (true, .shell [.call (.exec [2])]) := by decide
  obtain ⟨⟨tr, w⟩, hplay, hstatus⟩ := Option.map_eq_some_iff.1 hplay
  obtain ⟨hrun, hlabels⟩ := play_run hplay
  obtain ⟨hcalls, hstatus⟩ := Prod.mk.inj hstatus
  exact ⟨tr, w, hrun, hlabels, hstatus, waits_exactly hrun (of_decide_eq_true hcalls)⟩

/-- After `1 &`, the list `2 ; 3` starts `3` as soon as the background process has terminated, while
    process 2, forked for `2`, is still running. -/
theorem list_goes_on_after_background :
    ∃ tr w w', Run Step (World.init ([] : FdTable Nat)) tr w ∧
      tr.map Prod.snd = [.read 0 (.back (.exec [1])), .run 0 true,
        .read 0 (.list (.exec [2]) (.exec [3])), .run 0 true, .run 1 true, .run 3 true,
        .finish 3 0, .reap 1 3, .run 1 true] ∧
      (w.proc 0).status = .shell [.waitOnce 2, .call (.exec [3])] ∧
      Step w (.reap 0 1) w' ∧ (w'.proc 0).status = .shell [.call (.exec [3])] ∧
      ¬ w'.Terminated 2 ∧ ¬ ExactWait w := by
  have hplay : (play World.step (World.init ([] : FdTable Nat)) [.read 0 (.back (.exec [1])),
      .run 0 true, .read 0 (.list (.exec [2]) (.exec [3])), .run 0 true, .run 1 true, .run 3 true,
      .finish 3 0, .reap 1 3, .run 1 true]).map (fun r => ((r.2.proc 0).status,
        (r.2.step (.reap 0 1)).map fun w' =>
          ((w'.proc 0).status, decide (¬ w'.Terminated 2)))) =
      some (.shell [.waitOnce 2, .call (.exec [3])],
        some (.shell [.call (.exec [3])], true)) := by decide
  obtain ⟨⟨tr, w⟩, hplay, hfacts⟩ := Option.map_eq_some_iff.1 hplay
  obtain ⟨hrun, hlabels⟩ := play_run hplay
  obtain ⟨hstatus, hnext⟩ := Prod.mk.inj hfacts
  obtain ⟨w', hstep, hfacts⟩ := Option.map_eq_some_iff.1 hnext
  obtain ⟨hgone, hrunning⟩ := Prod.mk.inj hfacts
  have hrunning := of_decide_eq_true hrunning
  exact ⟨tr, w, w', hrun, hlabels, hstatus, hstep, hgone, hrunning, fun h =>
    hrunning (h.after 0 _ _ _ w' hstatus trivial hstep hgone 2 (by simp [Frame.own]))⟩

end Cs350.Shell
