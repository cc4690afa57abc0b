import Cs350.Shell.Tokens
import Mathlib.Logic.Function.Iterate

set_option autoImplicit false

/-! # The language of the parser

The grammar over tokens, each derivation with its tree, and the proof that the recursive descent of
`parser.c` decides it. For each function one lemma says what it can do with the tokens that are left
(take those of a derivation, panic, or find the command `exit`) and one that it does take a
derivation followed by something that cannot belong to it. -/

namespace Cs350.Shell

/-! ## The grammar -/

/-- redir*, where redir ::= ('<' | '>' | '>>') word. -/
inductive Redirs : List Tok → List Redir → Prop
  | nil : Redirs [] []
  | lt {w ts rs} (h : Redirs ts rs) : Redirs (.lt :: .word w :: ts) (⟨w, .rdonly, 0⟩ :: rs)
  | gt {w ts rs} (h : Redirs ts rs) : Redirs (.gt :: .word w :: ts) (⟨w, .wronlyCreat, 1⟩ :: rs)
  | gtgt {w ts rs} (h : Redirs ts rs) : Redirs (.gtgt :: .word w :: ts) (⟨w, .wronlyCreat, 1⟩ :: rs)

/-- (word redir*)*, where no word begins with `)`. -/
inductive Args : List Tok → List Word → List Redir → Prop
  | nil : Args [] [] []
  | cons {w ts rs ts' ws rs'} (hw : w.text.head? ≠ some ')') (h : Redirs ts rs)
      (h' : Args ts' ws rs') : Args (.word w :: (ts ++ ts')) (w :: ws) (rs ++ rs')

/-- exec ::= redir* (word redir*)*, with at most 9 words, so that the null entry after them is
    within `MAXARGS`; the last redirection is outermost. -/
inductive ExecOf : List Tok → Cmd Word → Prop
  | mk {ts rs ts' ws rs'} (h : Redirs ts rs) (h' : Args ts' ws rs') (hlen : ws.length ≤ 9) :
      ExecOf (ts ++ ts')
        ((rs ++ rs').foldl (fun c r => .redir c r.file r.mode r.fdToClose) (.exec ws))

/-- pipe ::= exec ['|' pipe]. -/
inductive PipeOf : List Tok → Cmd Word → Prop
  | one {ts c} (h : ExecOf ts c) : PipeOf ts c
  | more {ts c ts' c'} (h : ExecOf ts c) (h' : PipeOf ts' c') :
      PipeOf (ts ++ .pipe :: ts') (.pipe c c')

/-- line ::= pipe '&'* [';' line]. -/
inductive LineOf : List Tok → Cmd Word → Prop
  | one {ts c} (n : Nat) (h : PipeOf ts c) : LineOf (ts ++ List.replicate n .amp) (Cmd.back^[n] c)
  | more {ts c ts' c'} (n : Nat) (h : PipeOf ts c) (h' : LineOf ts' c') :
      LineOf (ts ++ List.replicate n .amp ++ .semi :: ts') (.list (Cmd.back^[n] c) c')

/-- A command begins at the start of the line and after `|` or `;`. -/
def CommandStart (ts : List Tok) : Prop :=
  ts = [] ∨ (∃ ts', ts = ts' ++ [.pipe]) ∨ ∃ ts', ts = ts' ++ [.semi]

/-- Some command has `exit` as its first word. -/
def HasExit (ts : List Tok) : Prop :=
  ∃ before rts rs w after, ts = before ++ rts ++ .word w :: after ∧ CommandStart before ∧
    Redirs rts rs ∧ w.text = ['e', 'x', 'i', 't']

/-! ## Redirections -/

theorem Tok.IsRedir.redirs {t : Tok} (ht : t.IsRedir) (w : Word) {ts : List Tok} {rs : List Redir}
    (h : Redirs ts rs) : Redirs (t :: .word w :: ts) (redirOf t w ++ rs) := by
  rcases ht with rfl | rfl | rfl
  · exact .lt h
  · exact .gt h
  · exact .gtgt h

/-- One round of `parseredirs`, on the tokens that are left. -/
theorem parseredirs_round (n : Nat) (acc : List Redir) (ps : Cursor) :
    ((∀ t ts, tokens ps = t :: ts → ¬ t.IsRedir) ∧
      ∃ ps', parseredirs (n + 1) acc ps = .ok (acc, ps') ∧ tokens ps' = tokens ps) ∨
    (∃ t w ts ps', tokens ps = t :: .word w :: ts ∧ t.IsRedir ∧ tokens ps' = ts ∧
      parseredirs (n + 1) acc ps = parseredirs n (acc ++ redirOf t w) ps') ∨
    (∃ t ts msg, tokens ps = t :: ts ∧ t.IsRedir ∧ (∀ w, ts.head? ≠ some (.word w)) ∧
      parseredirs (n + 1) acc ps = .error (.panic msg)) := by
  by_cases hfound : (peek ps ['<', '>']).2 = true
  · -- `gettoken` takes the symbol, and then what should be the word
    obtain ⟨t, ts, hts, ht⟩ := (peek_redir ps).1 hfound
    have h1 : (gettoken (peek ps ['<', '>']).1).1 = t := by
      rw [gettoken_fst, tokens_peek, hts, List.headD_cons]
    have h2 : tokens (gettoken (peek ps ['<', '>']).1).2 = ts := by
      rw [tokens_gettoken, tokens_peek, hts, List.tail_cons]
    have h3 : (gettoken (gettoken (peek ps ['<', '>']).1).2).1 = ts.headD .eof := by
      rw [gettoken_fst, h2]
    have h4 : tokens (gettoken (gettoken (peek ps ['<', '>']).1).2).2 = ts.tail := by
      rw [tokens_gettoken, h2]
    right
    simp only [parseredirs, hfound, if_true]
    split
    · next file ps' htok =>
        rw [htok] at h3 h4
        cases ts with
        | nil => cases h3
        | cons t' ts' =>
            obtain rfl : Tok.word file = t' := h3
            exact Or.inl ⟨t, file, ts', ps', hts, ht, h4, by rw [h1]⟩
    · next htok =>
        refine Or.inr ⟨t, ts, _, hts, ht, ?_, rfl⟩
        intro w hw
        cases ts with
        | nil => cases hw
        | cons t' ts' =>
            obtain rfl : t' = .word w := Option.some.inj hw
            exact htok w _ (Prod.ext h3 rfl)
  · left
    refine ⟨fun t ts hts ht => hfound ((peek_redir ps).2 ⟨t, ts, hts, ht⟩), ?_⟩
    exact ⟨(peek ps ['<', '>']).1, by simp [parseredirs, hfound], tokens_peek ps _⟩

/-- `parseredirs` takes redirections, as many as there are, or panics. -/
theorem parseredirs_sound (n : Nat) (acc : List Redir) (ps : Cursor)
    (hn : (tokens ps).length < n) :
    (∃ ts rs ps', parseredirs n acc ps = .ok (acc ++ rs, ps') ∧ tokens ps = ts ++ tokens ps' ∧
      Redirs ts rs ∧ (tokens ps').length ≤ (tokens ps).length) ∨
    ∃ msg, parseredirs n acc ps = .error (.panic msg) := by
  induction n generalizing acc ps with
  | zero => omega
  | succ n ih =>
      rcases parseredirs_round n acc ps with ⟨-, ps', heq, hts⟩ | ⟨t, w, ts, ps', hts, ht, hts', heq⟩ |
        ⟨t, ts, msg, -, -, -, heq⟩
      · exact Or.inl ⟨[], [], ps', by rw [heq, List.append_nil], by rw [hts]; rfl, .nil, hts ▸ le_rfl⟩
      · have hlen : (tokens ps').length < n := by
          rw [hts, List.length_cons, List.length_cons] at hn
          rw [hts']
          omega
        rcases ih (acc ++ redirOf t w) ps' hlen with ⟨ts₁, rs, ps₁, h1, h2, h3, h4⟩ | ⟨msg, h1⟩
        · refine Or.inl ⟨t :: .word w :: ts₁, redirOf t w ++ rs, ps₁, ?_, ?_, ht.redirs w h3, ?_⟩
          · rw [heq, h1, List.append_assoc]
          · rw [hts, ← hts', h2]
            rfl
          · rw [hts, List.length_cons, List.length_cons]
            rw [hts'] at h4
            omega
        · exact Or.inr ⟨msg, by rw [heq, h1]⟩
      · exact Or.inr ⟨msg, heq⟩

theorem parseredirs_complete {ts : List Tok} {rs : List Redir} (h : Redirs ts rs) {rest : List Tok}
    (hrest : ∀ t, rest.head? = some t → ¬ t.IsRedir) (n : Nat) (acc : List Redir) (ps : Cursor)
    (hps : tokens ps = ts ++ rest) (hn : ts.length < n) :
    ∃ ps', parseredirs n acc ps = .ok (acc ++ rs, ps') ∧ tokens ps' = rest := by
  -- one redirection, for any of the three symbols
  have hmore : ∀ {t : Tok} {w : Word} {ts : List Tok} {rs : List Redir}, t.IsRedir →
      (∀ (n : Nat) (acc : List Redir) (ps : Cursor), tokens ps = ts ++ rest → ts.length < n →
        ∃ ps', parseredirs n acc ps = .ok (acc ++ rs, ps') ∧ tokens ps' = rest) →
      ∀ (n : Nat) (acc : List Redir) (ps : Cursor), tokens ps = (t :: .word w :: ts) ++ rest →
        (t :: .word w :: ts).length < n →
        ∃ ps', parseredirs n acc ps = .ok (acc ++ (redirOf t w ++ rs), ps') ∧ tokens ps' = rest := by
    intro t w ts rs ht ih n acc ps hps hn
    cases n with
    | zero => omega
    | succ n =>
        rw [List.length_cons, List.length_cons] at hn
        rcases parseredirs_round n acc ps with ⟨hnot, -⟩ | ⟨t', w', ts', ps', hts, -, hts', heq⟩ |
          ⟨t', ts', msg, hts, -, hnot, -⟩
        · exact absurd ht (hnot t _ hps)
        · rw [hps] at hts
          simp only [List.cons_append, List.cons.injEq, Tok.word.injEq] at hts
          obtain ⟨rfl, rfl, rfl⟩ := hts
          obtain ⟨ps₁, h1, h2⟩ := ih n (acc ++ redirOf t w) ps' hts' (by omega)
          exact ⟨ps₁, by rw [heq, h1, List.append_assoc], h2⟩
        · rw [hps] at hts
          simp only [List.cons_append, List.cons.injEq] at hts
          obtain ⟨-, rfl⟩ := hts
          exact absurd rfl (hnot w)
  induction h generalizing n acc ps with
  | nil =>
      cases n with
      | zero => omega
      | succ n =>
          rcases parseredirs_round n acc ps with ⟨-, ps', heq, hts⟩ | ⟨t, w, ts, ps', hts, ht, -⟩ |
            ⟨t, ts, msg, hts, ht, -⟩
          · exact ⟨ps', by rw [heq, List.append_nil], by rw [hts, hps]; rfl⟩
          · rw [hps] at hts
            exact absurd ht (hrest t (by rw [show rest = _ from hts]; rfl))
          · rw [hps] at hts
            exact absurd ht (hrest t (by rw [show rest = _ from hts]; rfl))
  | lt h ih => exact hmore (Or.inl rfl) (fun n acc ps => ih n acc ps) n acc ps hps hn
  | gt h ih => exact hmore (Or.inr (Or.inl rfl)) (fun n acc ps => ih n acc ps) n acc ps hps hn
  | gtgt h ih => exact hmore (Or.inr (Or.inr rfl)) (fun n acc ps => ih n acc ps) n acc ps hps hn

/-! ## Commands -/

/-- One round of the loop of `parseexec`, on the tokens that are left. -/
theorem parseexecLoop_round (n : Nat) (argv : List Word) (redirs : List Redir) (ps : Cursor) :
    ((tokens ps = [] ∨ ∃ t ts, tokens ps = t :: ts ∧ t.Stops) ∧
      ∃ ps', parseexecLoop (n + 1) argv redirs ps = .ok (argv, redirs, ps') ∧
        tokens ps' = tokens ps) ∨
    (∃ w ts ps', tokens ps = .word w :: ts ∧ w.text.head? ≠ some ')' ∧ tokens ps' = ts ∧
      parseexecLoop (n + 1) argv redirs ps =
        if argv = [] ∧ w.text = ['e', 'x', 'i', 't'] then .error .exit
        else if (argv ++ [w]).length ≥ maxArgs then .error (.panic "too many args\n")
        else
          match parseredirs (n + 1) redirs ps' with
          | .error e => .error e
          | .ok (redirs, ps) => parseexecLoop n (argv ++ [w]) redirs ps) ∨
    (∃ t ts msg, tokens ps = t :: ts ∧ t.IsRedir ∧
      parseexecLoop (n + 1) argv redirs ps = .error (.panic msg)) := by
  have hpeek := tokens_peek ps ['|', ')', '&', ';']
  by_cases hstop : (peek ps ['|', ')', '&', ';']).2 = true
  · left
    refine ⟨Or.inr ((peek_stop ps).1 hstop), _, ?_, hpeek⟩
    simp [parseexecLoop, hstop]
  · have hnot := fun t ts hts ht => hstop ((peek_stop ps).2 ⟨t, ts, hts, ht⟩)
    have h1 := gettoken_fst (peek ps ['|', ')', '&', ';']).1
    have h2 := tokens_gettoken (peek ps ['|', ')', '&', ';']).1
    rw [hpeek] at h1 h2
    cases hts : tokens ps with
    | nil =>
        left
        rw [hts] at h1 h2
        have htok : gettoken (peek ps ['|', ')', '&', ';']).1 =
            (.eof, (gettoken (peek ps ['|', ')', '&', ';']).1).2) := Prod.ext h1 rfl
        refine ⟨Or.inl rfl, (gettoken (peek ps ['|', ')', '&', ';']).1).2, ?_, h2⟩
        simp only [parseexecLoop, hstop]
        rw [htok]
        rfl
    | cons t ts =>
        right
        rw [hts] at h1 h2
        have hproper : t.Proper := tokens_proper (by rw [hts]; exact List.mem_cons_self)
        have htok : gettoken (peek ps ['|', ')', '&', ';']).1 =
            (t, (gettoken (peek ps ['|', ')', '&', ';']).1).2) := Prod.ext h1 rfl
        cases t with
        | word w =>
            left
            refine ⟨w, ts, (gettoken (peek ps ['|', ')', '&', ';']).1).2, rfl,
              hnot _ ts hts, h2, ?_⟩
            conv_lhs => rw [parseexecLoop]
            simp only [hstop]
            rw [htok]
            rfl
        | eof => exact hproper.elim
        | pipe => exact (hnot _ ts hts trivial).elim
        | amp => exact (hnot _ ts hts trivial).elim
        | semi => exact (hnot _ ts hts trivial).elim
        | lt =>
            refine Or.inr ⟨_, ts, "syntax\n", rfl, Or.inl rfl, ?_⟩
            simp only [parseexecLoop, hstop]
            rw [htok]
            rfl
        | gt =>
            refine Or.inr ⟨_, ts, "syntax\n", rfl, Or.inr (Or.inl rfl), ?_⟩
            simp only [parseexecLoop, hstop]
            rw [htok]
            rfl
        | gtgt =>
            refine Or.inr ⟨_, ts, "syntax\n", rfl, Or.inr (Or.inr rfl), ?_⟩
            simp only [parseexecLoop, hstop]
            rw [htok]
            rfl

theorem parseexecLoop_sound (n : Nat) (argv : List Word) (redirs : List Redir) (ps : Cursor)
    (hn : (tokens ps).length < n) (hargv : argv.length ≤ 9) :
    (∃ ts ws rs ps', parseexecLoop n argv redirs ps = .ok (argv ++ ws, redirs ++ rs, ps') ∧
      tokens ps = ts ++ tokens ps' ∧ Args ts ws rs ∧ (argv ++ ws).length ≤ 9) ∨
    (∃ msg, parseexecLoop n argv redirs ps = .error (.panic msg)) ∨
    (argv = [] ∧ ∃ w ts, tokens ps = .word w :: ts ∧ w.text = ['e', 'x', 'i', 't'] ∧
      parseexecLoop n argv redirs ps = .error .exit) := by
  induction n generalizing argv redirs ps with
  | zero => omega
  | succ n ih =>
      rcases parseexecLoop_round n argv redirs ps with ⟨-, ps', heq, hts⟩ |
        ⟨w, ts, ps₁, hts, hw, hts₁, heq⟩ | ⟨t, ts, msg, -, -, heq⟩
      · exact Or.inl ⟨[], [], [], ps', by rw [heq]; simp, by rw [hts]; rfl, .nil, by simpa using hargv⟩
      · split_ifs at heq with hexit hmax
        · exact Or.inr (Or.inr ⟨hexit.1, w, ts, hts, hexit.2, heq⟩)
        · exact Or.inr (Or.inl ⟨_, heq⟩)
        · have hlen₁ : (tokens ps₁).length < n := by
            rw [hts, List.length_cons] at hn
            rw [hts₁]
            omega
          have hargv₁ : (argv ++ [w]).length ≤ 9 := by
            unfold maxArgs at hmax
            omega
          rcases parseredirs_sound (n + 1) redirs ps₁ (by omega) with
            ⟨ts₂, rs₂, ps₂, h1, h2, h3, h4⟩ | ⟨msg, h1⟩
          · rw [h1] at heq
            rcases ih (argv ++ [w]) (redirs ++ rs₂) ps₂ (by omega) hargv₁ with
              ⟨ts₃, ws, rs₃, ps₃, g1, g2, g3, g4⟩ | ⟨msg, g1⟩ | ⟨hnil, -⟩
            · refine Or.inl ⟨.word w :: (ts₂ ++ ts₃), w :: ws, rs₂ ++ rs₃, ps₃, ?_, ?_,
                .cons hw h3 g3, by simpa using g4⟩
              · simpa using heq.trans g1
              · rw [hts, ← hts₁, h2, g2]
                simp
            · exact Or.inr (Or.inl ⟨msg, heq.trans g1⟩)
            · simp at hnil
          · rw [h1] at heq
            exact Or.inr (Or.inl ⟨msg, heq⟩)
      · exact Or.inr (Or.inl ⟨msg, heq⟩)

/-- What may follow a command. -/
def Tok.EndsCommand (t : Tok) : Prop := t = .pipe ∨ t = .amp ∨ t = .semi

theorem Tok.EndsCommand.not_isRedir {t : Tok} (h : t.EndsCommand) : ¬ t.IsRedir := by
  rcases h with rfl | rfl | rfl <;> rintro (h | h | h) <;> cases h

/-- After redirections comes a word or the end of the command. -/
theorem Args.next_not_redir {ts : List Tok} {ws : List Word} {rs : List Redir} (h : Args ts ws rs)
    {rest : List Tok} (hrest : ∀ t, rest.head? = some t → t.EndsCommand) (t : Tok)
    (ht : (ts ++ rest).head? = some t) : ¬ t.IsRedir := by
  cases h with
  | nil => exact (hrest t ht).not_isRedir
  | cons =>
      cases ht
      rintro (h | h | h) <;> cases h

theorem parseexecLoop_complete {ts : List Tok} {ws : List Word} {rs : List Redir}
    (h : Args ts ws rs) {rest : List Tok} (hrest : ∀ t, rest.head? = some t → t.EndsCommand)
    (n : Nat) (argv : List Word) (redirs : List Redir) (ps : Cursor)
    (hps : tokens ps = ts ++ rest) (hn : ts.length < n) (hlen : (argv ++ ws).length ≤ 9) :
    (∃ ps', parseexecLoop n argv redirs ps = .ok (argv ++ ws, redirs ++ rs, ps') ∧
      tokens ps' = rest) ∨ parseexecLoop n argv redirs ps = .error .exit := by
  induction h generalizing n argv redirs ps with
  | nil =>
      cases n with
      | zero => omega
      | succ n =>
          rcases parseexecLoop_round n argv redirs ps with ⟨-, ps', heq, hts⟩ |
            ⟨w, ts, ps₁, hts, -⟩ | ⟨t, ts, msg, hts, ht, -⟩
          · exact Or.inl ⟨ps', by rw [heq]; simp, by rw [hts, hps]; rfl⟩
          · rw [hps] at hts
            have := hrest _ (by rw [show rest = _ from hts]; rfl)
            rcases this with h | h | h <;> cases h
          · rw [hps] at hts
            have hend := hrest _ (by rw [show rest = _ from hts]; rfl)
            exact absurd ht hend.not_isRedir
  | @cons w ts rs ts' ws rs' hw hr hargs ih =>
      cases n with
      | zero => omega
      | succ n =>
          rw [List.length_cons, List.length_append] at hn
          rcases parseexecLoop_round n argv redirs ps with ⟨hstop, -⟩ |
            ⟨w', ts₁, ps₁, hts, -, hts₁, heq⟩ | ⟨t, ts₁, msg, hts, ht, -⟩
          · rw [hps] at hstop
            rcases hstop with hnil | ⟨t, ts₁, hts, ht⟩
            · cases hnil
            · obtain ⟨rfl, -⟩ := List.cons.inj hts
              exact absurd ht hw
          · rw [hps] at hts
            simp only [List.cons_append, List.cons.injEq, Tok.word.injEq] at hts
            obtain ⟨rfl, rfl⟩ := hts
            have hmax : ¬ (argv ++ [w]).length ≥ maxArgs := by
              simp only [List.length_append, List.length_cons] at hlen
              simp only [List.length_append, List.length_singleton, maxArgs]
              omega
            by_cases hexit : argv = [] ∧ w.text = ['e', 'x', 'i', 't']
            · rw [if_pos hexit] at heq
              exact Or.inr heq
            · rw [if_neg hexit, if_neg hmax] at heq
              obtain ⟨ps₂, h1, h2⟩ := parseredirs_complete hr (hargs.next_not_redir hrest) (n + 1)
                redirs ps₁ (by rw [hts₁, List.append_assoc]) (by omega)
              rw [h1] at heq
              rcases ih n (argv ++ [w]) (redirs ++ rs) ps₂ h2 (by omega) (by simpa using hlen) with
                ⟨ps₃, g1, g2⟩ | g1
              · exact Or.inl ⟨ps₃, by simpa using heq.trans g1, g2⟩
              · exact Or.inr (heq.trans g1)
          · rw [hps] at hts
            obtain ⟨rfl, -⟩ := List.cons.inj hts
            rcases ht with h | h | h <;> cases h

/-- What a parser function can do with the tokens that are left: take the tokens of a derivation of
    `G` and give its tree, panic, or find the command `exit`. -/
def Sound (G : List Tok → Cmd Word → Prop) (ps : Cursor) (r : Except Stop (Cmd Word × Cursor)) :
    Prop :=
  (∃ ts c ps', r = .ok (c, ps') ∧ tokens ps = ts ++ tokens ps' ∧ G ts c) ∨
  (∃ msg, r = .error (.panic msg)) ∨ (HasExit (tokens ps) ∧ r = .error .exit)

theorem parseexec_sound (n : Nat) (ps : Cursor) (hn : (tokens ps).length < n) :
    Sound ExecOf ps (parseexec n ps) := by
  unfold parseexec
  rcases parseredirs_sound n [] ps hn with ⟨ts₁, rs₁, ps₁, h1, h2, h3, h4⟩ | ⟨msg, h1⟩
  · rw [h1]
    simp only [List.nil_append]
    rcases parseexecLoop_sound n [] rs₁ ps₁ (by omega) (by simp) with
      ⟨ts₂, ws, rs₂, ps₂, g1, g2, g3, g4⟩ | ⟨msg, g1⟩ | ⟨-, w, ts₂, g1, g2, g3⟩
    · left
      rw [g1]
      refine ⟨ts₁ ++ ts₂, _, ps₂, rfl, by rw [h2, g2, List.append_assoc], ?_⟩
      exact .mk h3 g3 g4
    · right; left
      exact ⟨msg, by rw [g1]⟩
    · right; right
      refine ⟨⟨[], ts₁, rs₁, w, ts₂, by rw [h2, g1]; rfl, Or.inl rfl, h3, g2⟩, by rw [g3]⟩
  · right; left
    exact ⟨msg, by rw [h1]⟩

theorem parseexec_complete {ts : List Tok} {c : Cmd Word} (h : ExecOf ts c) {rest : List Tok}
    (hrest : ∀ t, rest.head? = some t → t.EndsCommand) (n : Nat) (ps : Cursor)
    (hps : tokens ps = ts ++ rest) (hn : ts.length < n) :
    (∃ ps', parseexec n ps = .ok (c, ps') ∧ tokens ps' = rest) ∨
      parseexec n ps = .error .exit := by
  cases h with
  | @mk ts₁ rs₁ ts₂ ws rs₂ hr hargs hlen =>
      rw [List.length_append] at hn
      obtain ⟨ps₁, h1, h2⟩ := parseredirs_complete hr (hargs.next_not_redir hrest) n [] ps
        (by rw [hps, List.append_assoc]) (by omega)
      unfold parseexec
      rw [h1]
      simp only [List.nil_append]
      rcases parseexecLoop_complete hargs hrest n [] rs₁ ps₁ h2 (by omega) (by simpa using hlen) with
        ⟨ps₂, g1, g2⟩ | g1
      · exact Or.inl ⟨ps₂, by rw [g1]; rfl, g2⟩
      · exact Or.inr (by rw [g1])

/-! ## Pipelines and lines -/

theorem HasExit.after_sep {ts : List Tok} (h : HasExit ts) (before : List Tok) {sep : Tok}
    (hsep : sep = .pipe ∨ sep = .semi) : HasExit (before ++ sep :: ts) := by
  obtain ⟨b, rts, rs, w, after, rfl, hstart, hr, hw⟩ := h
  refine ⟨before ++ sep :: b, rts, rs, w, after, by simp, ?_, hr, hw⟩
  rcases hstart with rfl | ⟨b', rfl⟩ | ⟨b', rfl⟩
  · rcases hsep with rfl | rfl
    · exact Or.inr (Or.inl ⟨before, rfl⟩)
    · exact Or.inr (Or.inr ⟨before, rfl⟩)
  · exact Or.inr (Or.inl ⟨before ++ sep :: b', by simp⟩)
  · exact Or.inr (Or.inr ⟨before ++ sep :: b', by simp⟩)

/-- After `peek` has found the symbol, `gettoken` takes it. -/
theorem tokens_after_symbol {ps : Cursor} (toks : List Char) {sym : Tok} {ts : List Tok}
    (h : tokens ps = sym :: ts) : tokens (gettoken (peek ps toks).1).2 = ts := by
  rw [tokens_gettoken, tokens_peek, h, List.tail_cons]

theorem parsepipe_sound (n : Nat) (ps : Cursor) (hn : (tokens ps).length < n) :
    Sound PipeOf ps (parsepipe n ps) := by
  induction n generalizing ps with
  | zero => omega
  | succ n ih =>
      rw [parsepipe]
      rcases parseexec_sound (n + 1) ps hn with ⟨ts₁, c₁, ps₁, h1, h2, h3⟩ | ⟨msg, h1⟩ | ⟨hexit, h1⟩
      · rw [h1]
        by_cases hfound : (peek ps₁ ['|']).2 = true
        · simp only [hfound, if_true]
          obtain ⟨ts₂, hts₂⟩ := (peek_symbol ps₁ (Or.inl rfl) rfl).1 hfound
          have hrest := tokens_after_symbol ['|'] hts₂
          have hlen : (tokens (gettoken (peek ps₁ ['|']).1).2).length < n := by
            rw [h2, hts₂, List.length_append, List.length_cons] at hn
            rw [hrest]
            omega
          rcases ih _ hlen with ⟨ts₃, c₃, ps₃, g1, g2, g3⟩ | ⟨msg, g1⟩ | ⟨hexit, g1⟩
          · left
            refine ⟨ts₁ ++ .pipe :: ts₃, .pipe c₁ c₃, ps₃, by rw [g1], ?_, .more h3 g3⟩
            rw [h2, hts₂, ← hrest, g2]
            simp
          · right; left
            exact ⟨msg, by rw [g1]⟩
          · right; right
            refine ⟨?_, by rw [g1]⟩
            rw [h2, hts₂, ← hrest]
            exact hexit.after_sep ts₁ (Or.inl rfl)
        · simp only [hfound]
          left
          exact ⟨ts₁, c₁, _, rfl, by rw [h2, tokens_peek], .one h3⟩
      · right; left
        exact ⟨msg, by rw [h1]⟩
      · right; right
        exact ⟨hexit, by rw [h1]⟩

theorem parsepipe_complete {ts : List Tok} {c : Cmd Word} (h : PipeOf ts c) {rest : List Tok}
    (hrest : ∀ t, rest.head? = some t → t = .amp ∨ t = .semi) (n : Nat) (ps : Cursor)
    (hps : tokens ps = ts ++ rest) (hn : ts.length < n) :
    (∃ ps', parsepipe n ps = .ok (c, ps') ∧ tokens ps' = rest) ∨
      parsepipe n ps = .error .exit := by
  induction h generalizing n ps with
  | one h =>
      cases n with
      | zero => omega
      | succ n =>
          rw [parsepipe]
          rcases parseexec_complete h (fun t ht => Or.inr (hrest t ht)) (n + 1) ps hps hn with
            ⟨ps₁, h1, h2⟩ | h1
          · rw [h1]
            have hfound : (peek ps₁ ['|']).2 ≠ true := by
              intro hfound
              obtain ⟨ts₂, hts₂⟩ := (peek_symbol ps₁ (Or.inl rfl) rfl).1 hfound
              have := hrest .pipe (by rw [← h2, hts₂]; rfl)
              rcases this with h | h <;> cases h
            simp only [hfound]
            exact Or.inl ⟨_, rfl, by rw [tokens_peek, h2]⟩
          · exact Or.inr (by rw [h1])
  | @more ts c ts' c' h h' ih =>
      cases n with
      | zero => omega
      | succ n =>
          rw [List.length_append, List.length_cons] at hn
          rw [parsepipe]
          have hends : ∀ t, (Tok.pipe :: (ts' ++ rest)).head? = some t → t.EndsCommand :=
            fun t ht => Or.inl (Option.some.inj ht).symm
          rcases parseexec_complete h hends (n + 1) ps (by rw [hps]; simp) (by omega) with
            ⟨ps₁, h1, h2⟩ | h1
          · rw [h1]
            have hfound : (peek ps₁ ['|']).2 = true :=
              (peek_symbol ps₁ (Or.inl rfl) rfl).2 ⟨_, h2⟩
            simp only [hfound, if_true]
            rcases ih n _ (tokens_after_symbol _ h2) (by omega) with ⟨ps₂, g1, g2⟩ | g1
            · exact Or.inl ⟨ps₂, by rw [g1], g2⟩
            · exact Or.inr (by rw [g1])
          · exact Or.inr (by rw [h1])

/-- The loop over `&` takes all of them. -/
theorem parsebacks_eq (m : Nat) {rest : List Tok} (hrest : rest.head? ≠ some .amp) (n : Nat)
    (cmd : Cmd Word) (ps : Cursor) (hps : tokens ps = List.replicate m .amp ++ rest) (hn : m < n) :
    ∃ ps', parsebacks n cmd ps = .ok (Cmd.back^[m] cmd, ps') ∧ tokens ps' = rest := by
  induction m generalizing n cmd ps with
  | zero =>
      cases n with
      | zero => omega
      | succ n =>
          have hfound : (peek ps ['&']).2 ≠ true := by
            intro hfound
            obtain ⟨ts₂, hts₂⟩ := (peek_symbol ps (Or.inr (Or.inl rfl)) rfl).1 hfound
            rw [hps] at hts₂
            exact hrest (by rw [show rest = _ from hts₂]; rfl)
          refine ⟨(peek ps ['&']).1, by simp [parsebacks, hfound], ?_⟩
          rw [tokens_peek, hps]
          rfl
  | succ m ih =>
      cases n with
      | zero => omega
      | succ n =>
          rw [List.replicate_succ, List.cons_append] at hps
          have hfound : (peek ps ['&']).2 = true :=
            (peek_symbol ps (Or.inr (Or.inl rfl)) rfl).2 ⟨_, hps⟩
          obtain ⟨ps', h1, h2⟩ := ih n (.back cmd) _ (tokens_after_symbol _ hps) (by omega)
          refine ⟨ps', ?_, h2⟩
          simp only [parsebacks, hfound, if_true]
          exact h1

/-- The `&`s at the start of a sequence of tokens. -/
theorem exists_amps (ts : List Tok) :
    ∃ m rest, ts = List.replicate m .amp ++ rest ∧ rest.head? ≠ some .amp := by
  induction ts with
  | nil => exact ⟨0, [], rfl, by simp⟩
  | cons t ts ih =>
      by_cases ht : t = .amp
      · obtain ⟨m, rest, rfl, hrest⟩ := ih
        exact ⟨m + 1, rest, by rw [ht, List.replicate_succ, List.cons_append], hrest⟩
      · exact ⟨0, t :: ts, rfl, by simpa using ht⟩

theorem parseline_sound (n : Nat) (ps : Cursor) (hn : (tokens ps).length < n) :
    Sound LineOf ps (parseline n ps) := by
  induction n generalizing ps with
  | zero => omega
  | succ n ih =>
      rw [parseline]
      rcases parsepipe_sound (n + 1) ps hn with ⟨ts₁, c₁, ps₁, h1, h2, h3⟩ | ⟨msg, h1⟩ | ⟨hexit, h1⟩
      · rw [h1]
        obtain ⟨m, rest, hamps, hrest⟩ := exists_amps (tokens ps₁)
        have hlen := hn
        rw [h2, hamps, List.length_append, List.length_append, List.length_replicate] at hlen
        obtain ⟨ps₂, h4, h5⟩ := parsebacks_eq m hrest (n + 1) c₁ ps₁ hamps (by omega)
        simp only [h4]
        by_cases hfound : (peek ps₂ [';']).2 = true
        · simp only [hfound, if_true]
          obtain ⟨ts₂, hts₂⟩ := (peek_symbol ps₂ (Or.inr (Or.inr rfl)) rfl).1 hfound
          have hafter := tokens_after_symbol [';'] hts₂
          have hlen' : (tokens (gettoken (peek ps₂ [';']).1).2).length < n := by
            rw [← h5, hts₂, List.length_cons] at hlen
            rw [hafter]
            omega
          rcases ih _ hlen' with ⟨ts₃, c₃, ps₃, g1, g2, g3⟩ | ⟨msg, g1⟩ | ⟨hexit, g1⟩
          · left
            refine ⟨ts₁ ++ List.replicate m .amp ++ .semi :: ts₃, _, ps₃, by rw [g1], ?_, .more m h3 g3⟩
            rw [h2, hamps, ← h5, hts₂, ← hafter, g2]
            simp
          · right; left
            exact ⟨msg, by rw [g1]⟩
          · right; right
            refine ⟨?_, by rw [g1]⟩
            rw [h2, hamps, ← h5, hts₂, ← hafter, ← List.append_assoc]
            exact hexit.after_sep _ (Or.inr rfl)
        · simp only [hfound]
          left
          refine ⟨ts₁ ++ List.replicate m .amp, _, _, rfl, ?_, .one m h3⟩
          rw [h2, hamps, tokens_peek, h5, List.append_assoc]
      · right; left
        exact ⟨msg, by rw [h1]⟩
      · right; right
        exact ⟨hexit, by rw [h1]⟩

theorem parseline_complete {ts : List Tok} {c : Cmd Word} (h : LineOf ts c) (n : Nat) (ps : Cursor)
    (hps : tokens ps = ts) (hn : ts.length < n) :
    (∃ ps', parseline n ps = .ok (c, ps') ∧ tokens ps' = []) ∨ parseline n ps = .error .exit := by
  induction h generalizing n ps with
  | @one ts c m h =>
      cases n with
      | zero => omega
      | succ n =>
          rw [List.length_append, List.length_replicate] at hn
          rw [parseline]
          have hrest : ∀ t, (List.replicate m Tok.amp).head? = some t → t = .amp ∨ t = .semi := by
            intro t ht
            have hmem := List.mem_of_mem_head? ht
            exact Or.inl (List.eq_of_mem_replicate hmem)
          rcases parsepipe_complete h hrest (n + 1) ps hps (by omega) with ⟨ps₁, h1, h2⟩ | h1
          · rw [h1]
            have hend : ([] : List Tok).head? ≠ some .amp := by simp
            obtain ⟨ps₂, h3, h4⟩ := parsebacks_eq m hend (n + 1) c ps₁
              (by rw [h2, List.append_nil]) (by omega)
            have hfound : (peek ps₂ [';']).2 ≠ true := by
              intro hfound
              obtain ⟨ts₂, hts₂⟩ := (peek_symbol ps₂ (Or.inr (Or.inr rfl)) rfl).1 hfound
              rw [h4] at hts₂
              cases hts₂
            simp only [h3, hfound]
            exact Or.inl ⟨_, rfl, by rw [tokens_peek, h4]⟩
          · exact Or.inr (by rw [h1])
  | @more ts c ts' c' m h h' ih =>
      cases n with
      | zero => omega
      | succ n =>
          rw [List.length_append, List.length_append, List.length_replicate, List.length_cons] at hn
          rw [parseline]
          have hrest : ∀ t, (List.replicate m Tok.amp ++ .semi :: ts').head? = some t →
              t = .amp ∨ t = .semi := by
            intro t ht
            cases m with
            | zero => exact Or.inr (Option.some.inj ht).symm
            | succ m => exact Or.inl (Option.some.inj ht).symm
          rcases parsepipe_complete h hrest (n + 1) ps (by rw [hps, List.append_assoc]) (by omega) with
            ⟨ps₁, h1, h2⟩ | h1
          · rw [h1]
            obtain ⟨ps₂, h3, h4⟩ := parsebacks_eq m (by simp) (n + 1) c ps₁ h2 (by omega)
            have hfound : (peek ps₂ [';']).2 = true :=
              (peek_symbol ps₂ (Or.inr (Or.inr rfl)) rfl).2 ⟨_, h4⟩
            simp only [h3, hfound, if_true]
            rcases ih n _ (tokens_after_symbol _ h4) (by omega) with ⟨ps₃, g1, g2⟩ | g1
            · exact Or.inl ⟨ps₃, by rw [g1], g2⟩
            · exact Or.inr (by rw [g1])
          · exact Or.inr (by rw [h1])

/-- The tokens of the string in `buf`. -/
def lineTokens (buf : List Char) : List Tok := tokens ⟨0, buf.takeWhile (· ≠ '\x00')⟩

theorem lineTokens_of_nul {s : List Char} (hnul : '\x00' ∉ s) : lineTokens s = tokens ⟨0, s⟩ := by
  have hs : s.takeWhile (· ≠ '\x00') = s := by
    rw [List.takeWhile_eq_self_iff]
    intro c hc
    simpa using fun h : c = '\x00' => hnul (h ▸ hc)
  rw [lineTokens, hs]

/-- `parsecmd` ends with the tree of a derivation, in a PANIC, or with the command `exit`. -/
theorem parsecmd_sound (buf : List Char) :
    (∃ c, parsecmd buf = .ok c ∧ LineOf (lineTokens buf) c) ∨
    (∃ msg, parsecmd buf = .error (.panic msg)) ∨
    (HasExit (lineTokens buf) ∧ parsecmd buf = .error .exit) := by
  unfold parsecmd lineTokens
  generalize buf.takeWhile (· ≠ '\x00') = s
  have hlen : (tokens ⟨0, s⟩).length < s.length + 1 := Nat.lt_succ_of_le (length_tokens_le ⟨0, s⟩)
  rcases parseline_sound (s.length + 1) ⟨0, s⟩ hlen with ⟨ts, c, ps', h1, h2, h3⟩ | ⟨msg, h1⟩ |
    ⟨hexit, h1⟩
  · simp only [h1]
    by_cases hend : (peek ps' []).1.rest = []
    · rw [(rest_peek_eq_nil ps' []).1 hend, List.append_nil] at h2
      exact Or.inl ⟨c, if_neg (not_not.2 hend), h2 ▸ h3⟩
    · exact Or.inr (Or.inl ⟨_, if_pos hend⟩)
  · simp only [h1]
    exact Or.inr (Or.inl ⟨msg, rfl⟩)
  · simp only [h1]
    exact Or.inr (Or.inr ⟨hexit, trivial⟩)

theorem parsecmd_lineOf {buf : List Char} {c : Cmd Word} (h : parsecmd buf = .ok c) :
    LineOf (lineTokens buf) c := by
  rcases parsecmd_sound buf with ⟨c', heq, hline⟩ | ⟨msg, heq⟩ | ⟨-, heq⟩
  · cases h.symm.trans heq
    exact hline
  · cases h.symm.trans heq
  · cases h.symm.trans heq

/-- `parsecmd` finds the tree of a derivation, unless it finds the command `exit`. -/
theorem parsecmd_complete {buf : List Char} {t : Cmd Word} (h : LineOf (lineTokens buf) t) :
    parsecmd buf = .ok t ∨ parsecmd buf = .error .exit := by
  unfold lineTokens at h
  unfold parsecmd
  generalize buf.takeWhile (· ≠ '\x00') = s at h ⊢
  have hlen : (tokens ⟨0, s⟩).length < s.length + 1 := Nat.lt_succ_of_le (length_tokens_le ⟨0, s⟩)
  rcases parseline_complete h (s.length + 1) ⟨0, s⟩ rfl hlen with ⟨ps', h1, h2⟩ | h1
  · have hend := (rest_peek_eq_nil ps' []).2 h2
    simp only [h1]
    exact Or.inl (if_neg (not_not.2 hend))
  · simp only [h1]
    exact Or.inr trivial

/-- **The parser decides the grammar.** On a string without NULs in which no command has `exit` as
    its first word, `parsecmd` ends with a tree or a PANIC, and it ends with the tree `t` exactly if
    the tokens of the string have a derivation with the tree `t`. -/
theorem parsecmd_iff {s : List Char} (hnul : '\x00' ∉ s) (hexit : ¬ HasExit (tokens ⟨0, s⟩)) :
    ((∃ t, parsecmd s = .ok t) ∨ ∃ msg, parsecmd s = .error (.panic msg)) ∧
    ∀ t, parsecmd s = .ok t ↔ LineOf (tokens ⟨0, s⟩) t := by
  have hcomplete : ∀ t, LineOf (tokens ⟨0, s⟩) t → parsecmd s = .ok t ∨ parsecmd s = .error .exit :=
    fun t h => parsecmd_complete (lineTokens_of_nul hnul ▸ h)
  rcases parsecmd_sound s with ⟨c, h1, h2⟩ | ⟨msg, h1⟩ | ⟨hexit', -⟩
  · rw [lineTokens_of_nul hnul] at h2
    refine ⟨Or.inl ⟨c, h1⟩, fun t => ⟨fun h => ?_, fun h => ?_⟩⟩
    · cases h1.symm.trans h
      exact h2
    · rcases hcomplete t h with h | h
      · exact h
      · cases h1.symm.trans h
  · refine ⟨Or.inr ⟨msg, h1⟩, fun t => ⟨fun h => ?_, fun h => ?_⟩⟩
    · cases h1.symm.trans h
    · rcases hcomplete t h with h | h <;> cases h1.symm.trans h
  · exact absurd (lineTokens_of_nul hnul ▸ hexit') hexit

example : parsecmd "a < f | b &".toList =
    .ok (.back (.pipe (.redir (.exec [⟨0, ['a']⟩]) ⟨4, ['f']⟩ .rdonly 0) (.exec [⟨8, ['b']⟩]))) := by
  decide

theorem HasExit.word {ts : List Tok} (h : HasExit ts) :
    ∃ w : Word, .word w ∈ ts ∧ w.text = ['e', 'x', 'i', 't'] := by
  obtain ⟨before, rts, rs, w, after, rfl, -, -, hw⟩ := h
  exact ⟨w, List.mem_append_right _ List.mem_cons_self, hw⟩

/-- A list of two elements, a pipeline with a redirection and a command in the background. -/
theorem parsecmd_iff_line :
    parsecmd "a<f|b;c&".toList = .ok (.list (.pipe (.redir (.exec [⟨0, ['a']⟩]) ⟨2, ['f']⟩ .rdonly 0)
      (.exec [⟨4, ['b']⟩])) (.back (.exec [⟨6, ['c']⟩]))) ∧
    LineOf (tokens ⟨0, "a<f|b;c&".toList⟩) (.list (.pipe (.redir (.exec [⟨0, ['a']⟩]) ⟨2, ['f']⟩
      .rdonly 0) (.exec [⟨4, ['b']⟩])) (.back (.exec [⟨6, ['c']⟩]))) := by
  have htokens : tokens ⟨0, "a<f|b;c&".toList⟩ = [.word ⟨0, ['a']⟩, .lt, .word ⟨2, ['f']⟩, .pipe,
      .word ⟨4, ['b']⟩, .semi, .word ⟨6, ['c']⟩, .amp] := by
    have h₁ : gettoken ⟨0, "a<f|b;c&".toList⟩ = (.word ⟨0, ['a']⟩, ⟨1, "<f|b;c&".toList⟩) := by decide
    have h₂ : gettoken ⟨1, "<f|b;c&".toList⟩ = (.lt, ⟨2, "f|b;c&".toList⟩) := by decide
    have h₃ : gettoken ⟨2, "f|b;c&".toList⟩ = (.word ⟨2, ['f']⟩, ⟨3, "|b;c&".toList⟩) := by decide
    have h₄ : gettoken ⟨3, "|b;c&".toList⟩ = (.pipe, ⟨4, "b;c&".toList⟩) := by decide
    have h₅ : gettoken ⟨4, "b;c&".toList⟩ = (.word ⟨4, ['b']⟩, ⟨5, ";c&".toList⟩) := by decide
    have h₆ : gettoken ⟨5, ";c&".toList⟩ = (.semi, ⟨6, "c&".toList⟩) := by decide
    have h₇ : gettoken ⟨6, "c&".toList⟩ = (.word ⟨6, ['c']⟩, ⟨7, "&".toList⟩) := by decide
    have h₈ : gettoken ⟨7, "&".toList⟩ = (.amp, ⟨8, []⟩) := by decide
    have h₉ : gettoken ⟨8, []⟩ = (.eof, ⟨8, []⟩) := by decide
    rw [tokens_of_gettoken h₁ (by decide), tokens_of_gettoken h₂ (by decide),
      tokens_of_gettoken h₃ (by decide), tokens_of_gettoken h₄ (by decide),
      tokens_of_gettoken h₅ (by decide), tokens_of_gettoken h₆ (by decide),
      tokens_of_gettoken h₇ (by decide), tokens_of_gettoken h₈ (by decide), tokens_of_eof h₉]
  have hexit : ¬ HasExit (tokens ⟨0, "a<f|b;c&".toList⟩) := by
    intro h
    obtain ⟨w, hmem, hw⟩ := h.word
    rw [htokens] at hmem
    simp only [List.mem_cons, Tok.word.injEq, reduceCtorEq, List.not_mem_nil, or_false,
      false_or] at hmem
    rcases hmem with rfl | rfl | rfl | rfl <;> exact absurd hw (by decide)
  have hok : parsecmd "a<f|b;c&".toList = .ok (.list (.pipe (.redir (.exec [⟨0, ['a']⟩]) ⟨2, ['f']⟩
      .rdonly 0) (.exec [⟨4, ['b']⟩])) (.back (.exec [⟨6, ['c']⟩]))) := by decide
  exact ⟨hok, ((parsecmd_iff (by decide) hexit).2 _).1 hok⟩

end Cs350.Shell
