import Cs350.Shell.Pipeline

set_option autoImplicit false

/-! # Which redirection wins

The parser puts the last redirection of a command outermost, and `execcmd` opens the files on its
way from the outermost node to the command. So of the redirections of one descriptor the first one
in the line is opened last, and stays. -/

namespace Cs350.Shell

open Transition FdTable

/-! ## Simple commands -/

/-- A command without `|`, `&` and `;`. -/
def SimpleCommand (ts : List Tok) : Prop := ∀ t ∈ ts, t ≠ .pipe ∧ t ≠ .amp ∧ t ≠ .semi

/-- The redirections of a simple command, in the order of the text. -/
def redirections : List Tok → List Redir
  | .lt :: .word w :: ts => ⟨w, .rdonly, 0⟩ :: redirections ts
  | .gt :: .word w :: ts => ⟨w, .wronlyCreat, 1⟩ :: redirections ts
  | .gtgt :: .word w :: ts => ⟨w, .wronlyCreat, 1⟩ :: redirections ts
  | _ :: ts => redirections ts
  | [] => []

/-- The words of a simple command that are not files of redirections. -/
def arguments : List Tok → List Word
  | .lt :: .word _ :: ts => arguments ts
  | .gt :: .word _ :: ts => arguments ts
  | .gtgt :: .word _ :: ts => arguments ts
  | .word w :: ts => w :: arguments ts
  | _ :: ts => arguments ts
  | [] => []

/-- The first redirection of the descriptor `n`. -/
def firstFor (n : Nat) (rs : List Redir) : Option Redir := rs.find? (·.fdToClose = n)

/-- The last redirection of the descriptor `n`. -/
def lastFor (n : Nat) (rs : List Redir) : Option Redir := rs.reverse.find? (·.fdToClose = n)

theorem Redirs.append {ts : List Tok} {rs : List Redir} (h : Redirs ts rs) (rest : List Tok) :
    redirections (ts ++ rest) = rs ++ redirections rest ∧ arguments (ts ++ rest) = arguments rest := by
  induction h with
  | nil => exact ⟨rfl, rfl⟩
  | lt _ ih => simp [redirections, arguments, ih]
  | gt _ ih => simp [redirections, arguments, ih]
  | gtgt _ ih => simp [redirections, arguments, ih]

theorem Args.parts {ts : List Tok} {ws : List Word} {rs : List Redir} (h : Args ts ws rs) :
    redirections ts = rs ∧ arguments ts = ws := by
  induction h with
  | nil => exact ⟨rfl, rfl⟩
  | @cons w ts rs ts' ws rs' hw hr hargs ih =>
      obtain ⟨hrs, hws⟩ := hr.append ts'
      simp only [redirections, arguments, hrs, hws, ih, and_self]

/-- The tree of a simple command. -/
theorem ExecOf.eq_execNode {ts : List Tok} {c : Cmd Word} (h : ExecOf ts c) :
    c = execNode (arguments ts) (redirections ts) := by
  cases h with
  | mk hr hargs =>
      obtain ⟨hrs, hws⟩ := hr.append _
      rw [hrs, hws, hargs.parts.1, hargs.parts.2]
      rfl

theorem parsecmd_simpleCommand {buf : List Char} {c : Cmd Word} (h : parsecmd buf = .ok c)
    (hsimple : SimpleCommand (lineTokens buf)) :
    c = execNode (arguments (lineTokens buf)) (redirections (lineTokens buf)) := by
  have hline := parsecmd_lineOf h
  generalize lineTokens buf = ts at hline hsimple ⊢
  cases hline with
  | one n hpipe =>
      cases n with
      | succ n => exact absurd rfl (hsimple .amp (by simp [List.replicate_succ])).2.1
      | zero =>
          rw [List.replicate_zero, List.append_nil] at hsimple ⊢
          cases hpipe with
          | one hexec => exact hexec.eq_execNode
          | more => exact absurd rfl (hsimple .pipe (by simp)).1
  | more => exact absurd rfl (hsimple .semi (by simp)).2.2

/-- The descriptor gives the mode. -/
theorem redirections_mode {ts : List Tok} {r : Redir} (hr : r ∈ redirections ts) :
    r.mode = if r.fdToClose = 0 then .rdonly else .wronlyCreat := by
  induction ts using redirections.induct with
  | case1 w ts ih =>
      rcases List.mem_cons.1 hr with rfl | hr
      · rfl
      · exact ih hr
  | case2 w ts ih =>
      rcases List.mem_cons.1 hr with rfl | hr
      · rfl
      · exact ih hr
  | case3 w ts ih =>
      rcases List.mem_cons.1 hr with rfl | hr
      · rfl
      · exact ih hr
  | case4 t ts hlt hgt hgtgt ih =>
      rw [redirections] at hr
      · exact ih hr
      all_goals assumption
  | case5 => exact nomatch hr

/-! ## The files that are opened -/

/-- What a descriptor refers to after its redirection, or without one. -/
def redirected (t : FdTable Word) (n : Nat) : Option Redir → Option (Desc Word)
  | none => t.get n
  | some r => some (.file r.file r.mode)

/-- Standard input and output belong to their first redirections in `rs`; without one they are as in
    `t`. -/
def FirstWins (t : FdTable Word) (rs : List Redir) (fds : FdTable Word) : Prop :=
  ∀ n < 2, fds.get n = redirected t n (firstFor n rs)

theorem keeps_dup {W : Type} (fds : FdTable W) (n : Nat) : fds.Keeps (fds.dup n).2 := by
  unfold FdTable.dup
  cases fds.get n with
  | none => exact fun _ _ h => h
  | some d => exact keeps_put_free fds _

theorem FirstWins.keeps {t fds fds' : FdTable Word} {rs : List Redir} (h : FirstWins t rs fds)
    (hopen : fds.Open) (hkeeps : fds.Keeps fds') : FirstWins t rs fds' := by
  intro n hn
  have hsome : (fds.get n).isSome := by
    match n with
    | 0 => exact hopen.stdin
    | 1 => exact hopen.stdout
  obtain ⟨d, hd⟩ := Option.isSome_iff_exists.1 hsome
  rw [hkeeps n d hd, ← hd]
  exact h n hn

/-- `open` and `dup2` put the file onto its descriptor. -/
theorem get_openOnto {W : Type} {fds : FdTable W} (hopen : fds.Open) (file : W) (mode : Mode) (n : Nat)
    {m : Nat} (hm : m < 2) :
    (fds.openOnto file mode n true).get m = if m = n then some (.file file mode) else fds.get m := by
  have hfree := hopen.two_le
  have hput : (fds.put fds.free (some (.file file mode))).get fds.free = some (.file file mode) := by
    rw [get_put, if_pos rfl]
  have heq : fds.openOnto file mode n true =
      ((fds.put fds.free (some (.file file mode))).dup2 fds.free n).close fds.free := rfl
  rw [heq, get_close, if_neg (by omega), get_dup2 hput, get_put, if_neg (by omega : m ≠ fds.free)]

theorem FirstWins.opened {t fds : FdTable Word} {rs : List Redir} (h : FirstWins t rs fds)
    (hopen : fds.Open) (r : Redir) :
    FirstWins t (r :: rs) (if r.fdToClose = 0 ∨ r.fdToClose = 1
      then fds.openOnto r.file r.mode r.fdToClose true else fds) := by
  intro n hn
  by_cases hr : r.fdToClose = n
  · have hlow : r.fdToClose = 0 ∨ r.fdToClose = 1 := by omega
    rw [if_pos hlow, get_openOnto hopen _ _ _ hn, if_pos hr.symm]
    simp [firstFor, hr, redirected]
  · have hfirst : firstFor n (r :: rs) = firstFor n rs := by
      simp [firstFor, hr]
    rw [hfirst, ← h n hn]
    split_ifs
    · rw [get_openOnto hopen _ _ _ hn, if_neg (Ne.symm hr)]
    · rfl

/-! ## The process that carries the command on -/

/-- The process that goes on with a simple command after its frame `f` has been run in `self`: `self`
    or the child that it forks. There is none any more when an `open` or `execvp` has failed. -/
def Frame.carrier (f : Frame Word) (self child : Nat) (ok : Bool) : Option Nat :=
  match f with
  | .call (.redir _ _ _ _) => some child
  | .call (.exec argv) => if argv = [] then none else some child
  | .redirect _ _ _ | .execvp _ => if ok then some self else none
  | _ => none

/-- The process that goes on with the command after the step `a`, if `q` was the one. -/
def World.carrier (w : World Word) (a : Act Word) (q : Nat) : Option Nat :=
  if a.actor = q then
    match a, (w.proc q).status with
    | .run _ ok, .shell (f :: _) => f.carrier q w.next ok
    | _, _ => none
  else some q

/-- The process that carries the command on which `p` has begun to execute, after the steps `tr`. -/
def carrierOf (p : Nat) (tr : List (World Word × Act Word)) : Option Nat :=
  tr.foldl (fun q x => q.bind (x.1.carrier x.2)) (some p)

/-- What the process that carries the command on does, and its table: the redirections in `todo` are
    not executed yet. -/
inductive Carries (t : FdTable Word) (argv : List Word) (rs : List Redir) :
    Status Word → FdTable Word → Prop
  | call {todo done : List Redir} {k : List (Frame Word)} {fds : FdTable Word} (hrs : rs = todo ++ done)
      (h : FirstWins t done fds) : Carries t argv rs (.shell (.call (execNode argv todo) :: k)) fds
  | redirect {todo done : List Redir} {r : Redir} {k : List (Frame Word)} {fds : FdTable Word}
      (hrs : rs = todo ++ r :: done) (h : FirstWins t done fds) :
      Carries t argv rs
        (.shell (.redirect r.file r.mode r.fdToClose :: .call (execNode argv todo) :: k)) fds
  | execvp {k : List (Frame Word)} {fds : FdTable Word} (h : FirstWins t rs fds) :
      Carries t argv rs (.shell (.execvp argv :: k)) fds
  | program {fds : FdTable Word} (h : FirstWins t rs fds) : Carries t argv rs (.program argv) fds

section Carries

variable {t : FdTable Word} {argv : List Word} {rs : List Redir} {w w' : World Word} {a : Act Word}
  {q q' : Nat}

theorem execNode_concat (argv : List Word) (todo : List Redir) (r : Redir) :
    execNode argv (todo ++ [r]) = .redir (execNode argv todo) r.file r.mode r.fdToClose := by
  rw [execNode, List.foldl_append]
  rfl

/-- The process stays while others take steps. -/
theorem Carries.others (h : Carries t argv rs (w.proc q).status (w.proc q).fds) (hs : Sane w)
    (hm : Moves w a w') (hactor : a.actor ≠ q) :
    Carries t argv rs (w'.proc q).status (w'.proc q).fds := by
  have hlive : ¬ w.Terminated q := by
    generalize (w.proc q).fds = fds at h
    rintro (hst | ⟨n, hst⟩) <;> rw [hst] at h <;> exact nomatch h
  obtain ⟨hst, hfds⟩ := moves_others hs.codes hm hlive hactor.symm
  rw [hst, hfds]
  exact h

/-- A child that the process forks. -/
theorem Carries.child (hs : Sane w) {k code : List (Frame Word)} {o : Outcome Word}
    (hq : (w.proc q).status = .shell k) (hchild : o.child = some code)
    (h : Carries t argv rs (.shell code) o.fds) :
    Carries t argv rs ((w.continue q o).proc w.next).status ((w.continue q o).proc w.next).fds := by
  rcases continue_next w o (hs.codes.lt_next_of_shell hq).ne with ⟨hnone, -⟩ | ⟨code', hc, -, hnew⟩
  · exact nomatch hnone.symm.trans hchild
  · cases hc.symm.trans hchild
    rw [hnew]
    exact h

theorem carrier_run {ok : Bool} {f : Frame Word} {k : List (Frame Word)}
    (hst : (w.proc q).status = .shell (f :: k)) :
    w.carrier (.run q ok) q = f.carrier q w.next ok := by
  simp [World.carrier, Act.actor, hst]

theorem carrier_of_ne (hactor : a.actor ≠ q) : w.carrier a q = some q := by
  unfold World.carrier
  exact if_neg hactor

/-- The call: the outermost redirection, or the command itself. -/
theorem Carries.called (hs : Sane w) {todo done : List Redir} {k : List (Frame Word)} {ok : Bool}
    {r : Result Word} (hst : (w.proc q).status = .shell (.call (execNode argv todo) :: k))
    (hrs : rs = todo ++ done) (h : FirstWins t done (w.proc q).fds)
    (hr : execcmd (execNode argv todo) k (w.proc q).fds w.next w.nextPipe ok = r)
    (hq : (Frame.call (execNode argv todo)).carrier q w.next ok = some q') :
    Carries t argv rs ((w.apply q r).proc q').status ((w.apply q r).proc q').fds := by
  have hopen := (hs.able q _ hst).isOpen
  subst hr
  rcases List.eq_nil_or_concat todo with rfl | ⟨todo, r, rfl⟩
  · -- EXEC: the child that is forked calls `execvp`
    obtain rfl : rs = done := hrs
    have hexec : execNode argv [] = .exec argv := rfl
    rw [hexec] at hq ⊢
    simp only [Frame.carrier] at hq
    split_ifs at hq with hargv
    obtain rfl := Option.some.inj hq
    obtain ⟨o, ho, hchild, hfds⟩ : ∃ o, execcmd (.exec argv) k (w.proc q).fds w.next w.nextPipe ok =
        .next o ∧ o.child = some (.execvp argv :: k) ∧ o.fds = (w.proc q).fds :=
      ⟨_, if_neg hargv, rfl, rfl⟩
    rw [ho]
    exact Carries.child hs hst hchild (.execvp (hfds ▸ h))
  · -- REDIR: the outermost node is the last redirection, whose file the child opens first
    rw [List.concat_eq_append, execNode_concat] at hq ⊢
    rw [List.concat_eq_append, List.append_assoc, List.singleton_append] at hrs
    obtain rfl := Option.some.inj hq
    obtain ⟨o, ho, hchild, hfds⟩ : ∃ o, execcmd (.redir (execNode argv todo) r.file r.mode r.fdToClose)
        k (w.proc q).fds w.next w.nextPipe ok = .next o ∧
        o.child = some (.redirect r.file r.mode r.fdToClose :: .call (execNode argv todo) :: .exit 0
          :: k) ∧ o.fds = (((w.proc q).fds.dup 1).2.dup 0).2 := ⟨_, rfl, rfl, rfl⟩
    rw [ho]
    have hkeeps := (keeps_dup (w.proc q).fds 1).trans (keeps_dup _ 0)
    exact Carries.child hs hst hchild (.redirect hrs (hfds ▸ h.keeps hopen hkeeps))

theorem Carries.step (hs : Sane w) (hm : Moves w a w')
    (h : Carries t argv rs (w.proc q).status (w.proc q).fds) (hq : w.carrier a q = some q') :
    Carries t argv rs (w'.proc q').status (w'.proc q').fds := by
  by_cases hactor : a.actor = q
  · subst hactor
    generalize hst : (w.proc a.actor).status = st at h
    generalize hfds : (w.proc a.actor).fds = fds at h
    -- the frames of the command neither wait nor end a PIPE
    have hrun : ∀ f k, st = .shell (f :: k) → ¬ f.Waits → f ≠ .pipeEnd → ∃ ok r,
        f.carrier a.actor w.next ok = some q' ∧
        runFrame f k fds w.next w.nextPipe ok = some r ∧ w' = w.apply a.actor r := by
      rintro f k rfl hwaits hend
      obtain ⟨ok, r, ha, hr, hw'⟩ := moves_frame hm hst hwaits hend
      refine ⟨ok, r, ?_, hfds ▸ hr, hw'⟩
      rw [← carrier_run hst, ← ha]
      exact hq
    cases h with
    | @call todo done k _ hrs h =>
        obtain ⟨ok, r, hc, hr, rfl⟩ := hrun _ _ rfl (by simp [Frame.Waits]) (by simp)
        subst hfds
        exact Carries.called hs hst hrs h (Option.some.inj hr) hc
    | @redirect todo done r k _ hrs h =>
        obtain ⟨ok, res, hc, hr, rfl⟩ := hrun _ _ rfl (by simp [Frame.Waits]) (by simp)
        simp only [Frame.carrier] at hc
        split_ifs at hc with hok
        obtain rfl := Option.some.inj hc
        obtain rfl := Option.some.inj hr
        have hopen := (hs.able a.actor _ hst).isOpen
        have hpn : a.actor ≠ w.next := (hs.codes.lt_next_of_shell hst).ne
        subst hfds hok
        simp only [World.apply]
        rw [continue_self w _ hpn]
        exact .call hrs (h.opened hopen r)
    | @execvp k _ h =>
        obtain ⟨ok, res, hc, hr, rfl⟩ := hrun _ _ rfl (by simp [Frame.Waits]) (by simp)
        simp only [Frame.carrier] at hc
        split_ifs at hc with hok
        obtain rfl := Option.some.inj hc
        subst hfds hok
        obtain rfl := Option.some.inj hr
        simp only [World.apply, if_true]
        rw [setStatus_status_self, setStatus_fds]
        exact .program h
    | program h =>
        obtain ⟨n, ha⟩ := moves_program hm hst
        unfold World.carrier at hq
        rw [if_pos rfl, ha] at hq
        cases hq
  · obtain rfl := Option.some.inj ((carrier_of_ne hactor).symm.trans hq)
    exact h.others hs hm hactor

end Carries

/-! ## The program that is executed -/

/-- Both name the same file, or there are none. -/
def SameFile (r r' : Option Redir) : Prop := r.map (·.file.text) = r'.map (·.file.text)

instance (r r' : Option Redir) : Decidable (SameFile r r') := inferInstanceAs (Decidable (_ = _))

/-- The descriptor `n` is bound to the file of the redirection, and as in `t` without one. -/
def Bound (t fds : FdTable Word) (n : Nat) : Option Redir → Prop
  | none => fds.get n = t.get n
  | some r => ∃ file : Word, file.text = r.file.text ∧ fds.get n = some (.file file r.mode)

/-- Standard input and output belong to their last redirections in `rs`. -/
structure LastWins (t : FdTable Word) (rs : List Redir) (fds : FdTable Word) : Prop where
  stdin : Bound t fds 0 (lastFor 0 rs)
  stdout : Bound t fds 1 (lastFor 1 rs)

theorem firstFor_eq_none_iff (n : Nat) (rs : List Redir) :
    firstFor n rs = none ↔ lastFor n rs = none := by
  simp [firstFor, lastFor]

theorem bound_iff {t fds : FdTable Word} {ts : List Tok} {n : Nat}
    (hfirst : fds.get n = redirected t n (firstFor n (redirections ts))) :
    Bound t fds n (lastFor n (redirections ts)) ↔
      SameFile (firstFor n (redirections ts)) (lastFor n (redirections ts)) := by
  have hnone := firstFor_eq_none_iff n (redirections ts)
  cases hl : lastFor n (redirections ts) with
  | none =>
      rw [hnone.2 hl] at hfirst ⊢
      exact iff_of_true hfirst rfl
  | some r =>
      cases hf : firstFor n (redirections ts) with
      | none => exact nomatch (hnone.1 hf).symm.trans hl
      | some r' =>
          have hr : r.fdToClose = n := by simpa using List.find?_some hl
          have hr' : r'.fdToClose = n := by simpa using List.find?_some hf
          have hmode := redirections_mode (List.mem_reverse.1 (List.mem_of_find?_eq_some hl))
          have hmode' := redirections_mode (List.mem_of_find?_eq_some hf)
          rw [hr] at hmode
          rw [hr', ← hmode] at hmode'
          rw [hf, redirected, hmode'] at hfirst
          constructor
          · rintro ⟨file, htext, hget⟩
            cases hfirst.symm.trans hget
            exact congrArg some htext
          · intro htext
            exact ⟨r'.file, Option.some.inj htext, hfirst⟩

section Run

variable {fds : FdTable Word} {w₀ w : World Word} {tr₀ tr : List (World Word × Act Word)} {p q : Nat}
  {k : List (Frame Word)} {argv : List Word}

theorem run_carries {rs : List Redir} (hs : Sane w₀)
    (hp : (w₀.proc p).status = .shell (.call (execNode argv rs) :: k)) (hrun : Run Step w₀ tr w) :
    Sane w ∧ ∀ q, carrierOf p tr = some q →
      Carries (w₀.proc p).fds argv rs (w.proc q).status (w.proc q).fds := by
  induction hrun with
  | nil =>
      refine ⟨hs, fun q hq => ?_⟩
      obtain rfl := Option.some.inj hq
      rw [hp]
      exact .call (List.append_nil rs).symm fun n _ => rfl
  | snoc _ hstep ih =>
      obtain ⟨hs, ih⟩ := ih
      have hm := step_moves hstep
      refine ⟨hs.step hm, fun q' hq' => ?_⟩
      rw [carrierOf, List.foldl_append] at hq'
      obtain ⟨q, hq, hq'⟩ := Option.bind_eq_some_iff.1 hq'
      exact (ih q hq).step hs hm hq'

/-- **Which redirection wins.** The line in `buf` is a simple command, `p` executes it, all files can
    be opened, and `q` has become its program. Its standard input and output are bound to the files
    of the last `<` and of the last `>` or `>>` of the line, and inherited without one, exactly if for
    both the first redirection names the same file as the last. -/
theorem last_redirection_iff (hopen : fds.Open)
    (hends : ∀ n d, fds.get n = some d → d.pipe? = none) (hrun₀ : Run Step (World.init fds) tr₀ w₀)
    {buf : List Char} {c : Cmd Word} (hc : parsecmd buf = .ok c)
    (hsimple : SimpleCommand (lineTokens buf)) (hp : (w₀.proc p).status = .shell (.call c :: k))
    (hrun : Run Step w₀ tr w) (hq : carrierOf p tr = some q)
    (hprogram : (w.proc q).status = .program argv) :
    argv = arguments (lineTokens buf) ∧
    (LastWins (w₀.proc p).fds (redirections (lineTokens buf)) (w.proc q).fds ↔
      SameFile (firstFor 0 (redirections (lineTokens buf)))
        (lastFor 0 (redirections (lineTokens buf))) ∧
      SameFile (firstFor 1 (redirections (lineTokens buf)))
        (lastFor 1 (redirections (lineTokens buf)))) := by
  have hs := run_sane hopen hends hrun₀
  rw [parsecmd_simpleCommand hc hsimple] at hp
  have hcarries := (run_carries hs hp hrun).2 q hq
  rw [hprogram] at hcarries
  generalize (w.proc q).fds = fds' at hcarries ⊢
  cases hcarries with
  | program h =>
      refine ⟨rfl, ?_⟩
      rw [← bound_iff (h 0 (by decide)), ← bound_iff (h 1 (by decide))]
      exact ⟨fun h => ⟨h.stdin, h.stdout⟩, fun h => ⟨h.1, h.2⟩⟩

end Run

/-- The two redirections of the output in `a>x<f>x` name the same file. -/
theorem one_file_wins :
    ∃ c w₁ tr w, parsecmd "a>x<f>x".toList = .ok c ∧
      redirections (lineTokens "a>x<f>x".toList) = [⟨⟨2, ['x']⟩, .wronlyCreat, 1⟩,
        ⟨⟨4, ['f']⟩, .rdonly, 0⟩, ⟨⟨6, ['x']⟩, .wronlyCreat, 1⟩] ∧
      Step (World.init shellFds) (.read 0 c) w₁ ∧ Run Step w₁ tr w ∧ carrierOf 0 tr = some 4 ∧
      (w.proc 4).status = .program [⟨0, ['a']⟩] ∧
      LastWins (w₁.proc 0).fds (redirections (lineTokens "a>x<f>x".toList)) (w.proc 4).fds := by
  let rs : List Redir := [⟨⟨2, ['x']⟩, .wronlyCreat, 1⟩, ⟨⟨4, ['f']⟩, .rdonly, 0⟩,
    ⟨⟨6, ['x']⟩, .wronlyCreat, 1⟩]
  let c : Cmd Word := execNode [⟨0, ['a']⟩] rs
  let w₁ := (World.init shellFds).setStatus 0 (.shell [.call c])
  have htokens : lineTokens "a>x<f>x".toList = [.word ⟨0, ['a']⟩, .gt, .word ⟨2, ['x']⟩, .lt,
      .word ⟨4, ['f']⟩, .gt, .word ⟨6, ['x']⟩] := by
    have h₁ : gettoken ⟨0, "a>x<f>x".toList⟩ = (.word ⟨0, ['a']⟩, ⟨1, ">x<f>x".toList⟩) := by decide
    have h₂ : gettoken ⟨1, ">x<f>x".toList⟩ = (.gt, ⟨2, "x<f>x".toList⟩) := by decide
    have h₃ : gettoken ⟨2, "x<f>x".toList⟩ = (.word ⟨2, ['x']⟩, ⟨3, "<f>x".toList⟩) := by decide
    have h₄ : gettoken ⟨3, "<f>x".toList⟩ = (.lt, ⟨4, "f>x".toList⟩) := by decide
    have h₅ : gettoken ⟨4, "f>x".toList⟩ = (.word ⟨4, ['f']⟩, ⟨5, ">x".toList⟩) := by decide
    have h₆ : gettoken ⟨5, ">x".toList⟩ = (.gt, ⟨6, "x".toList⟩) := by decide
    have h₇ : gettoken ⟨6, "x".toList⟩ = (.word ⟨6, ['x']⟩, ⟨7, []⟩) := by decide
    have h₈ : gettoken ⟨7, []⟩ = (.eof, ⟨7, []⟩) := by decide
    rw [lineTokens_of_nul (by decide), tokens_of_gettoken h₁ (by decide),
      tokens_of_gettoken h₂ (by decide), tokens_of_gettoken h₃ (by decide),
      tokens_of_gettoken h₄ (by decide), tokens_of_gettoken h₅ (by decide),
      tokens_of_gettoken h₆ (by decide), tokens_of_gettoken h₇ (by decide), tokens_of_eof h₈]
  have hredirs : redirections (lineTokens "a>x<f>x".toList) = rs := by
    rw [htokens]
    rfl
  have hplay : ((play World.step w₁ [.run 0 true, .run 1 true, .run 1 true, .run 2 true, .run 2 true,
      .run 3 true, .run 3 true, .run 4 true]).map fun r => (carrierOf 0 r.1, (r.2.proc 4).status)) =
      some (some 4, .program [⟨0, ['a']⟩]) := by decide +kernel
  obtain ⟨⟨tr, w⟩, hplay, heq⟩ := Option.map_eq_some_iff.1 hplay
  obtain ⟨hcarrier, hprogram⟩ := Prod.mk.inj heq
  have hparse : parsecmd "a>x<f>x".toList = .ok c := by decide
  have hread : Step (World.init shellFds) (.read 0 c) w₁ := rfl
  have hrun : Run Step w₁ tr w := (play_run hplay).1
  have hcall : (w₁.proc 0).status = .shell (.call c :: []) := rfl
  have hsimple : SimpleCommand (lineTokens "a>x<f>x".toList) := by
    rw [htokens]
    unfold SimpleCommand
    decide
  refine ⟨c, w₁, tr, w, hparse, hredirs, hread, hrun, hcarrier, hprogram, ?_⟩
  refine (last_redirection_iff ⟨rfl, rfl⟩ shellFds_ends (Run.nil.snoc hread) hparse hsimple hcall hrun
    hcarrier hprogram).2.2 ?_
  rw [hredirs]
  decide

/-- The program of `a>x>y` writes to `x`. -/
theorem first_redirection_wins :
    ∃ c w₁ tr w, parsecmd "a>x>y".toList = .ok c ∧ SimpleCommand (lineTokens "a>x>y".toList) ∧
      redirections (lineTokens "a>x>y".toList) =
        [⟨⟨2, ['x']⟩, .wronlyCreat, 1⟩, ⟨⟨4, ['y']⟩, .wronlyCreat, 1⟩] ∧
      Step (World.init shellFds) (.read 0 c) w₁ ∧ Run Step w₁ tr w ∧ carrierOf 0 tr = some 3 ∧
      (w.proc 3).status = .program [⟨0, ['a']⟩] ∧
      (w.proc 3).fds.get 1 = some (.file ⟨2, ['x']⟩ .wronlyCreat) ∧
      ¬ LastWins (w₁.proc 0).fds (redirections (lineTokens "a>x>y".toList)) (w.proc 3).fds := by
  let rs : List Redir := [⟨⟨2, ['x']⟩, .wronlyCreat, 1⟩, ⟨⟨4, ['y']⟩, .wronlyCreat, 1⟩]
  let c : Cmd Word := execNode [⟨0, ['a']⟩] rs
  let w₁ := (World.init shellFds).setStatus 0 (.shell [.call c])
  have htokens : lineTokens "a>x>y".toList =
      [.word ⟨0, ['a']⟩, .gt, .word ⟨2, ['x']⟩, .gt, .word ⟨4, ['y']⟩] := by
    have h₁ : gettoken ⟨0, "a>x>y".toList⟩ = (.word ⟨0, ['a']⟩, ⟨1, ">x>y".toList⟩) := by decide
    have h₂ : gettoken ⟨1, ">x>y".toList⟩ = (.gt, ⟨2, "x>y".toList⟩) := by decide
    have h₃ : gettoken ⟨2, "x>y".toList⟩ = (.word ⟨2, ['x']⟩, ⟨3, ">y".toList⟩) := by decide
    have h₄ : gettoken ⟨3, ">y".toList⟩ = (.gt, ⟨4, "y".toList⟩) := by decide
    have h₅ : gettoken ⟨4, "y".toList⟩ = (.word ⟨4, ['y']⟩, ⟨5, []⟩) := by decide
    have h₆ : gettoken ⟨5, []⟩ = (.eof, ⟨5, []⟩) := by decide
    rw [lineTokens_of_nul (by decide), tokens_of_gettoken h₁ (by decide),
      tokens_of_gettoken h₂ (by decide), tokens_of_gettoken h₃ (by decide),
      tokens_of_gettoken h₄ (by decide), tokens_of_gettoken h₅ (by decide), tokens_of_eof h₆]
  have hredirs : redirections (lineTokens "a>x>y".toList) = rs := by
    rw [htokens]
    rfl
  have hsimple : SimpleCommand (lineTokens "a>x>y".toList) := by
    rw [htokens]
    unfold SimpleCommand
    decide
  have hplay : ((play World.step w₁ [.run 0 true, .run 1 true, .run 1 true, .run 2 true, .run 2 true,
      .run 3 true]).map fun r => (carrierOf 0 r.1, (r.2.proc 3).status, (r.2.proc 3).fds.get 1)) =
      some (some 3, .program [⟨0, ['a']⟩], some (.file ⟨2, ['x']⟩ .wronlyCreat)) := by decide +kernel
  obtain ⟨⟨tr, w⟩, hplay, heq⟩ := Option.map_eq_some_iff.1 hplay
  obtain ⟨hcarrier, heq⟩ := Prod.mk.inj heq
  obtain ⟨hprogram, hget⟩ := Prod.mk.inj heq
  refine ⟨c, w₁, tr, w, by decide, hsimple, hredirs, rfl, (play_run hplay).1, hcarrier, hprogram, hget,
    fun hlast => ?_⟩
  rw [hredirs] at hlast
  obtain ⟨file, htext, hfile⟩ := hlast.stdout
  cases hget.symm.trans hfile
  exact absurd htext (by decide)

end Cs350.Shell
