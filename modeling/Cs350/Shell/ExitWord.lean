import Cs350.Shell.Grammar
import Cs350.Shell.Wait

set_option autoImplicit false

/-! # The word `exit`

`parseexec` calls `exit(0)` as soon as it has read the first word of a command and the word is
`exit`. The whole line is parsed before any of it is executed, so a line that has such a command in
one of its elements ends the shell before the elements in front of it are executed. -/

namespace Cs350.Shell

open Transition

/-- The word that `parseexec` acts upon. -/
def exitWord : List Char := ['e', 'x', 'i', 't']

/-- Some command of the tree has `exit` as its first word. -/
def Cmd.CallsExit : Cmd Word → Prop
  | .exec argv => argv.head?.map Word.text = some exitWord
  | .redir cmd _ _ _ => cmd.CallsExit
  | .pipe left right => left.CallsExit ∨ right.CallsExit
  | .list left right => left.CallsExit ∨ right.CallsExit
  | .back cmd => cmd.CallsExit

instance Cmd.decidableCallsExit : (c : Cmd Word) → Decidable c.CallsExit
  | .exec argv => inferInstanceAs (Decidable (argv.head?.map Word.text = some exitWord))
  | .redir cmd _ _ _ => decidableCallsExit cmd
  | .pipe left right =>
    have := decidableCallsExit left
    have := decidableCallsExit right
    inferInstanceAs (Decidable (left.CallsExit ∨ right.CallsExit))
  | .list left right =>
    have := decidableCallsExit left
    have := decidableCallsExit right
    inferInstanceAs (Decidable (left.CallsExit ∨ right.CallsExit))
  | .back cmd => decidableCallsExit cmd

/-- The elements of a list. -/
def Cmd.elements : Cmd Word → List (Cmd Word)
  | .list left right => left :: right.elements
  | c => [c]

/-- The elements before the first one that has the command `exit`. -/
def Cmd.beforeExit (c : Cmd Word) : List (Cmd Word) := c.elements.takeWhile fun e => ¬ e.CallsExit

/-! ## The trees that the parser builds -/

theorem foldl_callsExit (redirs : List Redir) (c : Cmd Word) :
    (redirs.foldl initRedircmd c).CallsExit ↔ c.CallsExit := by
  induction redirs generalizing c with
  | nil => rfl
  | cons r redirs ih => exact ih _

theorem beforeExit_eq_nil_iff (c : Cmd Word) :
    c.beforeExit = [] ↔ ∃ e ∈ c.elements.head?, e.CallsExit := by
  have hne : c.elements ≠ [] := by
    cases c <;> exact List.cons_ne_nil _ _
  obtain ⟨e, rest, heq⟩ := List.exists_cons_of_ne_nil hne
  rw [Cmd.beforeExit, heq, List.takeWhile_cons]
  by_cases he : e.CallsExit <;> simp [he]

theorem parseexecLoop_not_exit {n : Nat} {argv argv' : List Word} {redirs redirs' : List Redir}
    {ps ps' : Cursor} (h : parseexecLoop n argv redirs ps = .ok (argv', redirs', ps'))
    (hargv : argv.head?.map Word.text ≠ some exitWord) :
    argv'.head?.map Word.text ≠ some exitWord := by
  induction n generalizing argv redirs ps with
  | zero => exact nomatch h
  | succ n ih =>
      rcases parseexecLoop_round n argv redirs ps with ⟨-, ps₁, heq, -⟩ |
        ⟨w, ts, ps₁, -, -, -, heq⟩ | ⟨t, ts, msg, -, -, heq⟩
      · cases h.symm.trans heq
        exact hargv
      · rw [h] at heq
        split_ifs at heq with hexit hmax
        split at heq
        · exact nomatch heq
        · refine ih heq.symm ?_
          cases argv with
          | nil =>
              intro hw
              exact hexit ⟨rfl, Option.some.inj hw⟩
          | cons w' argv => exact hargv
      · exact nomatch h.symm.trans heq

theorem parseexec_not_exit {n : Nat} {ps ps' : Cursor} {c : Cmd Word}
    (h : parseexec n ps = .ok (c, ps')) : ¬ c.CallsExit := by
  unfold parseexec at h
  split at h
  · exact nomatch h
  · split at h
    · exact nomatch h
    · next hloop =>
        cases h
        rw [execNode, foldl_callsExit]
        exact parseexecLoop_not_exit hloop (by simp)

theorem parsepipe_not_exit {n : Nat} {ps ps' : Cursor} {c : Cmd Word}
    (h : parsepipe n ps = .ok (c, ps')) : ¬ c.CallsExit := by
  induction n generalizing ps c with
  | zero => cases h
  | succ n ih =>
      rw [parsepipe] at h
      split at h
      · cases h
      · next hexec =>
          simp only at h
          split_ifs at h with hfound
          · split at h
            · cases h
            · next hright =>
                cases h
                exact not_or.2 ⟨parseexec_not_exit hexec, ih hright⟩
          · cases h
            exact parseexec_not_exit hexec

theorem parsebacks_not_exit {n : Nat} {cmd c : Cmd Word} {ps ps' : Cursor}
    (h : parsebacks n cmd ps = .ok (c, ps')) (hcmd : ¬ cmd.CallsExit) : ¬ c.CallsExit := by
  induction n generalizing cmd ps with
  | zero => exact nomatch h
  | succ n ih =>
      rw [parsebacks] at h
      simp only at h
      split_ifs at h with hfound
      · exact ih h hcmd
      · cases h
        exact hcmd

theorem parseline_not_exit {n : Nat} {ps ps' : Cursor} {c : Cmd Word}
    (h : parseline n ps = .ok (c, ps')) : ¬ c.CallsExit := by
  induction n generalizing ps c with
  | zero => cases h
  | succ n ih =>
      rw [parseline] at h
      split at h
      · cases h
      · next hpipe =>
          split at h
          · cases h
          · next hbacks =>
              have hleft := parsebacks_not_exit hbacks (parsepipe_not_exit hpipe)
              simp only at h
              split_ifs at h with hfound
              · split at h
                · cases h
                · next hright =>
                    cases h
                    exact not_or.2 ⟨hleft, ih hright⟩
              · cases h
                exact hleft

/-- The parser gives no tree that has the command `exit` in it. -/
theorem parsecmd_not_exit {buf : List Char} {c : Cmd Word} (h : parsecmd buf = .ok c) :
    ¬ c.CallsExit := by
  simp only [parsecmd] at h
  split at h
  · exact nomatch h
  · next hline =>
      split_ifs at h
      cases h
      exact parseline_not_exit hline

/-- It exits instead, wherever in the line the command stands. -/
theorem parsecmd_exit {buf : List Char} {t : Cmd Word} (hline : LineOf (lineTokens buf) t)
    (ht : t.CallsExit) : parsecmd buf = .error .exit :=
  (parsecmd_complete hline).resolve_left fun h => parsecmd_not_exit h ht

/-! ## The read loop -/

/-- The steps of the system in which the lines that are read are given. -/
inductive LineAct
  /-- `p` is in the read loop and gets the line in `buf`. -/
  | line (p : Nat) (buf : List Char)
  /-- Any other step. -/
  | act (a : Act Word)
  deriving DecidableEq, Repr

/-- One round of the loop of `main` is `command = parsecmd(buf); execcmd(command)`, where PANIC
    calls `exit(-1)`. -/
def World.lineStep (w : World Word) : LineAct → Option (World Word)
  | .line p buf =>
    match (w.proc p).status with
    | .shell [] =>
      match parsecmd buf with
      | .ok c => w.step (.read p c)
      | .error .exit => some (w.terminate p 0)
      | .error (.panic _) => some (w.terminate p (-1))
      | .error .rounds => none
    | _ => none
  | .act (.read _ _) => none
  | .act a => w.step a

def LineStep (w : World Word) (a : LineAct) (w' : World Word) : Prop := w.lineStep a = some w'

/-- The commands that `execcmd` has been called with, in this order. -/
def executed (tr : List (World Word × LineAct)) : List (Cmd Word) :=
  tr.filterMap fun x =>
    match x.2 with
    | .line _ _ => none
    | .act a => (x.1.called a).map Prod.snd

/-- A line with the command `exit` in it terminates the shell that gets it, before any of it is
    executed. -/
theorem lineStep_exit {w : World Word} {p : Nat} (hp : (w.proc p).status = .shell [])
    {buf : List Char} {t : Cmd Word} (hline : LineOf (lineTokens buf) t) (ht : t.CallsExit) :
    w.lineStep (.line p buf) = some (w.terminate p 0) := by
  simp only [World.lineStep, hp, parsecmd_exit hline ht]

/-- **What is executed before `exit`.** The line in `buf` is a list by the grammar, and one of its
    elements has a command with `exit` as its first word. In every run in which the shell `p` gets
    the line and terminates, the elements before the first such element have been executed in order,
    exactly if that is the first element of the list. -/
theorem before_exit_iff {w : World Word} {p : Nat} (hp : (w.proc p).status = .shell [])
    {buf : List Char} {t : Cmd Word} (hline : LineOf (lineTokens buf) t) (ht : t.CallsExit) :
    (∀ tr w', Run LineStep w ((w, .line p buf) :: tr) w' → w'.Terminated p →
      t.beforeExit.Sublist (executed tr)) ↔ ∃ e ∈ t.elements.head?, e.CallsExit := by
  rw [← beforeExit_eq_nil_iff]
  constructor
  · intro hall
    -- the run that ends with the line: the shell has terminated, and nothing was executed
    have hstep : LineStep w (.line p buf) (w.terminate p 0) := lineStep_exit hp hline ht
    have hterm : (w.terminate p 0).Terminated p := Or.inr ⟨0, terminate_status_self w p 0⟩
    exact List.sublist_nil.1 (hall [] _ (Run.nil.snoc hstep) hterm)
  · intro hnil tr w' _ _
    rw [hnil]
    exact List.nil_sublist _

/-- A word on its own is a command by the grammar. -/
theorem lineOf_word {w : Word} (hw : w.text.head? ≠ some ')') : LineOf [.word w] (.exec [w]) :=
  .one 0 (.one (.mk .nil (.cons hw .nil .nil) (by simp)))

/-- A shell that has just been started. -/
def freshShell : World Word := World.init []

/-- The line `a|exit;b` terminates the shell, and there is no element to execute before. -/
theorem before_exit_first :
    ∃ t w', LineOf (lineTokens "a|exit;b".toList) t ∧
      t.elements = [.pipe (.exec [⟨0, ['a']⟩]) (.exec [⟨2, exitWord⟩]), .exec [⟨7, ['b']⟩]] ∧
      Run LineStep freshShell [(freshShell, .line 0 "a|exit;b".toList)] w' ∧ w'.Terminated 0 ∧
      ∀ tr w', Run LineStep freshShell ((freshShell, .line 0 "a|exit;b".toList) :: tr) w' →
        w'.Terminated 0 → t.beforeExit.Sublist (executed tr) := by
  have htokens : lineTokens "a|exit;b".toList =
      [.word ⟨0, ['a']⟩, .pipe, .word ⟨2, exitWord⟩, .semi, .word ⟨7, ['b']⟩] := by
    have h₁ : gettoken ⟨0, "a|exit;b".toList⟩ = (.word ⟨0, ['a']⟩, ⟨1, "|exit;b".toList⟩) := by decide
    have h₂ : gettoken ⟨1, "|exit;b".toList⟩ = (.pipe, ⟨2, "exit;b".toList⟩) := by decide
    have h₃ : gettoken ⟨2, "exit;b".toList⟩ = (.word ⟨2, exitWord⟩, ⟨6, ";b".toList⟩) := by decide
    have h₄ : gettoken ⟨6, ";b".toList⟩ = (.semi, ⟨7, "b".toList⟩) := by decide
    have h₅ : gettoken ⟨7, "b".toList⟩ = (.word ⟨7, ['b']⟩, ⟨8, []⟩) := by decide
    have h₆ : gettoken ⟨8, []⟩ = (.eof, ⟨8, []⟩) := by decide
    rw [lineTokens_of_nul (by decide), tokens_of_gettoken h₁ (by decide),
      tokens_of_gettoken h₂ (by decide), tokens_of_gettoken h₃ (by decide),
      tokens_of_gettoken h₄ (by decide), tokens_of_gettoken h₅ (by decide), tokens_of_eof h₆]
  have hline : LineOf (lineTokens "a|exit;b".toList)
      (.list (.pipe (.exec [⟨0, ['a']⟩]) (.exec [⟨2, exitWord⟩])) (.exec [⟨7, ['b']⟩])) := by
    rw [htokens]
    exact .more 0 (.more (.mk .nil (.cons (by decide) .nil .nil) (by decide))
      (.one (.mk .nil (.cons (by decide) .nil .nil) (by decide)))) (lineOf_word (by decide))
  have hexit : Cmd.CallsExit (.list (.pipe (.exec [⟨0, ['a']⟩]) (.exec [⟨2, exitWord⟩]))
      (.exec [⟨7, ['b']⟩])) := Or.inl (Or.inr rfl)
  have hshell : (freshShell.proc 0).status = .shell [] := rfl
  have hstep : LineStep freshShell (.line 0 "a|exit;b".toList) (freshShell.terminate 0 0) :=
    lineStep_exit hshell hline hexit
  exact ⟨_, _, hline, rfl, Run.nil.snoc hstep, Or.inr ⟨0, terminate_status_self freshShell 0 0⟩,
    (before_exit_iff hshell hline hexit).2 ⟨_, rfl, Or.inr rfl⟩⟩

/-- The line `a;exit` terminates the shell, and `a` is not executed. -/
theorem element_before_exit_lost :
    ∃ t w', LineOf (lineTokens "a;exit".toList) t ∧
      t.elements = [.exec [⟨0, ['a']⟩], .exec [⟨2, exitWord⟩]] ∧
      t.beforeExit = [.exec [⟨0, ['a']⟩]] ∧
      Run LineStep freshShell [(freshShell, .line 0 "a;exit".toList)] w' ∧ w'.Terminated 0 ∧
      ¬ t.beforeExit.Sublist (executed []) := by
  have htokens : lineTokens "a;exit".toList =
      [.word ⟨0, ['a']⟩, .semi, .word ⟨2, exitWord⟩] := by
    have h₁ : gettoken ⟨0, "a;exit".toList⟩ = (.word ⟨0, ['a']⟩, ⟨1, ";exit".toList⟩) := by decide
    have h₂ : gettoken ⟨1, ";exit".toList⟩ = (.semi, ⟨2, "exit".toList⟩) := by decide
    have h₃ : gettoken ⟨2, "exit".toList⟩ = (.word ⟨2, exitWord⟩, ⟨6, []⟩) := by decide
    have h₄ : gettoken ⟨6, []⟩ = (.eof, ⟨6, []⟩) := by decide
    rw [lineTokens_of_nul (by decide), tokens_of_gettoken h₁ (by decide),
      tokens_of_gettoken h₂ (by decide), tokens_of_gettoken h₃ (by decide), tokens_of_eof h₄]
  have hline : LineOf (lineTokens "a;exit".toList)
      (.list (.exec [⟨0, ['a']⟩]) (.exec [⟨2, exitWord⟩])) := by
    rw [htokens]
    exact .more 0 (.one (.mk .nil (.cons (by decide) .nil .nil) (by decide)))
      (lineOf_word (by decide))
  have hstep : LineStep freshShell (.line 0 "a;exit".toList) (freshShell.terminate 0 0) :=
    lineStep_exit rfl hline (Or.inr rfl)
  exact ⟨_, _, hline, rfl, by decide, Run.nil.snoc hstep,
    Or.inr ⟨0, terminate_status_self freshShell 0 0⟩, by decide⟩

end Cs350.Shell
