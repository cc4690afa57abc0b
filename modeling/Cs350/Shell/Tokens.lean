import Cs350.Shell.Parser
import Mathlib.Data.List.DropRight
import Mathlib.Data.List.TakeWhile

set_option autoImplicit false

/-! # The tokens of a line

The parser works on characters, and both `peek` and `gettoken` skip blanks on their own. All they
ever tell depends on the sequence of tokens that is left: `gettoken` takes its head, and `peek`
looks at the first character of its head and takes nothing. -/

namespace Cs350.Shell

theorem length_skip_le (ps : Cursor) : ps.skip.rest.length ≤ ps.rest.length :=
  List.length_dropWhile_le _ _

theorem skip_skip (ps : Cursor) : ps.skip.skip = ps.skip := by
  have hdrop : ps.skip.rest.dropWhile (fun c => decide (c ∈ whitespace)) = ps.skip.rest :=
    List.dropWhile_idempotent _ _
  have htake : ps.skip.rest.takeWhile (fun c => decide (c ∈ whitespace)) = [] := by
    have h := List.takeWhile_append_dropWhile
      (p := fun c => decide (c ∈ whitespace)) (l := ps.skip.rest)
    rw [hdrop] at h
    simpa using h
  unfold Cursor.skip at hdrop htake ⊢
  rw [hdrop, htake]
  simp

/-- The first character of a token. -/
def Tok.first : Tok → Option Char
  | .eof => none
  | .pipe => some '|'
  | .semi => some ';'
  | .amp => some '&'
  | .lt => some '<'
  | .gt | .gtgt => some '>'
  | .word w => w.text.head?

/-- A token as `gettoken` finds it: not 0, and a word does not begin with a symbol. -/
def Tok.Proper : Tok → Prop
  | .eof => False
  | .word w => ∃ c, w.text.head? = some c ∧ c ∉ symbols
  | _ => True

/-- After the blanks there is nothing, or the token of the next character. -/
theorem gettoken_cases (ps : Cursor) :
    (ps.skip.rest = [] ∧ gettoken ps = (.eof, ps.skip)) ∨
    ∃ c r, ps.skip.rest = c :: r ∧ (gettoken ps).1.Proper ∧ (gettoken ps).1.first = some c ∧
      (gettoken ps).2.rest.length < ps.rest.length := by
  have hlen := length_skip_le ps
  have hsym : ∀ (n : Nat) (r : List Char), (Cursor.mk n r).skip.rest.length ≤ r.length :=
    fun n r => length_skip_le ⟨n, r⟩
  cases hrest : ps.skip.rest with
  | nil => exact Or.inl ⟨rfl, by simp only [gettoken, hrest]⟩
  | cons c r =>
      right
      refine ⟨c, r, rfl, ?_⟩
      have hspace : c ∉ whitespace := by
        have h := List.head_dropWhile_not (p := fun c => decide (c ∈ whitespace)) (l := ps.rest)
          (by rw [show ps.rest.dropWhile _ = c :: r from hrest]; simp)
        simpa [show ps.rest.dropWhile _ = c :: r from hrest] using h
      rw [hrest, List.length_cons] at hlen
      by_cases hsymbol : c ∈ symbols
      · have hshort : (Cursor.mk (ps.skip.pos + 1) r).skip.rest.length < ps.rest.length := by
          have := hsym (ps.skip.pos + 1) r
          omega
        simp only [symbols, List.mem_cons, List.not_mem_nil, or_false] at hsymbol
        rcases hsymbol with rfl | rfl | rfl | rfl | rfl
        · simp only [gettoken, hrest, Tok.Proper, Tok.first, true_and]
          exact hshort
        · simp only [gettoken, hrest, Tok.Proper, Tok.first, true_and]
          exact hshort
        · simp only [gettoken, hrest]
          split
          · -- `>>` takes two characters
            simp only [Tok.Proper, Tok.first, true_and]
            rename_i r'
            have := hsym (ps.skip.pos + 2) r'
            rw [List.length_cons] at hlen
            omega
          · simp only [Tok.Proper, Tok.first, true_and]
            exact hshort
        · simp only [gettoken, hrest, Tok.Proper, Tok.first, true_and]
          exact hshort
        · simp only [gettoken, hrest, Tok.Proper, Tok.first, true_and]
          exact hshort
      · have hword : wordChar c = true := by simp [wordChar, hspace, hsymbol]
        have htok : gettoken ps = (.word ⟨ps.skip.pos, (c :: r).takeWhile wordChar⟩,
            (Cursor.mk (ps.skip.pos + ((c :: r).takeWhile wordChar).length)
              ((c :: r).dropWhile wordChar)).skip) := by
          simp only [gettoken, hrest]
          split <;> simp_all [symbols]
        rw [htok]
        rw [List.takeWhile_cons_of_pos hword, List.dropWhile_cons_of_pos hword]
        refine ⟨⟨c, rfl, hsymbol⟩, rfl, ?_⟩
        have h1 := hsym (ps.skip.pos + (c :: r.takeWhile wordChar).length) (r.dropWhile wordChar)
        have h2 : (r.dropWhile wordChar).length ≤ r.length := List.length_dropWhile_le _ _
        simp only
        omega

theorem length_gettoken_lt {ps : Cursor} (h : (gettoken ps).1 ≠ .eof) :
    (gettoken ps).2.rest.length < ps.rest.length := by
  rcases gettoken_cases ps with ⟨-, htok⟩ | ⟨c, r, -, -, -, hlt⟩
  · rw [htok] at h
    exact absurd rfl h
  · exact hlt

/-- The tokens that are left: what `gettoken` returns until it returns 0. -/
def tokens (ps : Cursor) : List Tok :=
  if _h : (gettoken ps).1 = .eof then []
  else (gettoken ps).1 :: tokens (gettoken ps).2
termination_by ps.rest.length
decreasing_by exact length_gettoken_lt (by assumption)

theorem tokens_of_eof {ps ps' : Cursor} (h : gettoken ps = (.eof, ps')) : tokens ps = [] := by
  rw [tokens, dif_pos (by rw [h])]

theorem tokens_of_gettoken {ps ps' : Cursor} {t : Tok} (h : gettoken ps = (t, ps')) (ht : t ≠ .eof) :
    tokens ps = t :: tokens ps' := by
  rw [tokens, dif_neg (by rwa [h]), h]

theorem gettoken_skip (ps : Cursor) : gettoken ps.skip = gettoken ps := by
  unfold gettoken
  rw [skip_skip]

theorem tokens_skip (ps : Cursor) : tokens ps.skip = tokens ps := by
  conv_lhs => unfold tokens
  conv_rhs => unfold tokens
  simp only [gettoken_skip]

/-- `gettoken` takes the first token. -/
theorem gettoken_fst (ps : Cursor) : (gettoken ps).1 = (tokens ps).headD .eof := by
  rw [tokens]
  split_ifs with h
  · rw [h, List.headD_nil]
  · rw [List.headD_cons]

theorem tokens_gettoken (ps : Cursor) : tokens (gettoken ps).2 = (tokens ps).tail := by
  rcases gettoken_cases ps with ⟨-, htok⟩ | ⟨c, r, -, hproper, -⟩
  · have hnil : tokens ps = [] := by
      rw [tokens, dif_pos (by rw [htok])]
    rw [htok, tokens_skip, hnil]
    rfl
  · have hne : (gettoken ps).1 ≠ .eof := by
      intro h
      rw [h] at hproper
      exact hproper
    conv_rhs => rw [tokens, dif_neg hne]
    rfl

theorem tokens_proper {ps : Cursor} {t : Tok} (ht : t ∈ tokens ps) : t.Proper := by
  induction hn : ps.rest.length using Nat.strong_induction_on generalizing ps with
  | _ n ih =>
      rw [tokens] at ht
      split_ifs at ht with h
      · cases ht
      · rcases List.mem_cons.1 ht with rfl | ht
        · rcases gettoken_cases ps with ⟨-, htok⟩ | ⟨c, r, -, hproper, -⟩
          · rw [htok] at h
            exact absurd rfl h
          · exact hproper
        · exact ih _ (hn ▸ length_gettoken_lt h) ht rfl

theorem length_tokens_le (ps : Cursor) : (tokens ps).length ≤ ps.rest.length := by
  induction hn : ps.rest.length using Nat.strong_induction_on generalizing ps with
  | _ n ih =>
      rw [tokens]
      split_ifs with h
      · simp
      · have hlt := length_gettoken_lt h
        have := ih _ (hn ▸ hlt) (gettoken ps).2 rfl
        rw [List.length_cons]
        omega

/-- There is nothing left but blanks, or the next character begins the first token. -/
theorem tokens_cases (ps : Cursor) :
    (ps.skip.rest = [] ∧ tokens ps = []) ∨
    ∃ c r t ts, ps.skip.rest = c :: r ∧ tokens ps = t :: ts ∧ t.first = some c := by
  rcases gettoken_cases ps with ⟨hrest, htok⟩ | ⟨c, r, hrest, hproper, hfirst, -⟩
  · exact Or.inl ⟨hrest, by rw [tokens, dif_pos (by rw [htok])]⟩
  · have hne : (gettoken ps).1 ≠ .eof := by
      intro h
      rw [h] at hproper
      exact hproper
    exact Or.inr ⟨c, r, _, _, hrest, by rw [tokens, dif_neg hne], hfirst⟩

/-- `peek` looks at the first character of the first token. -/
theorem peek_snd (ps : Cursor) (toks : List Char) :
    (peek ps toks).2 = true ↔ ∃ t ts c, tokens ps = t :: ts ∧ t.first = some c ∧ c ∈ toks := by
  rcases tokens_cases ps with ⟨hrest, hnil⟩ | ⟨c, r, t, ts, hrest, hcons, hfirst⟩
  · simp [peek, hrest, hnil]
  · simp [peek, hrest, hcons, hfirst]

theorem tokens_peek (ps : Cursor) (toks : List Char) : tokens (peek ps toks).1 = tokens ps :=
  tokens_skip ps

/-- At the end of the tokens nothing but blanks is left. -/
theorem rest_peek_eq_nil (ps : Cursor) (toks : List Char) :
    (peek ps toks).1.rest = [] ↔ tokens ps = [] := by
  rcases tokens_cases ps with ⟨hrest, hnil⟩ | ⟨c, r, t, ts, hrest, hcons, -⟩
  · simp [peek, hrest, hnil]
  · simp [peek, hrest, hcons]

/-- `<`, `>` or `>>`. -/
def Tok.IsRedir (t : Tok) : Prop := t = .lt ∨ t = .gt ∨ t = .gtgt

/-- What ends the loop of `parseexec`: `|`, `&`, `;` or a word that begins with `)`. -/
def Tok.Stops : Tok → Prop
  | .pipe | .amp | .semi => True
  | .word w => w.text.head? = some ')'
  | _ => False

theorem peek_redir (ps : Cursor) :
    (peek ps ['<', '>']).2 = true ↔ ∃ t ts, tokens ps = t :: ts ∧ t.IsRedir := by
  rw [peek_snd]
  constructor
  · rintro ⟨t, ts, c, hts, hfirst, hc⟩
    have hproper : t.Proper := tokens_proper (by rw [hts]; exact List.mem_cons_self)
    refine ⟨t, ts, hts, ?_⟩
    cases t <;> simp_all [Tok.first, Tok.Proper, Tok.IsRedir, symbols] <;>
      rcases hc with rfl | rfl <;> simp_all
  · rintro ⟨t, ts, hts, rfl | rfl | rfl⟩
    · exact ⟨_, ts, '<', hts, rfl, by simp⟩
    · exact ⟨_, ts, '>', hts, rfl, by simp⟩
    · exact ⟨_, ts, '>', hts, rfl, by simp⟩

theorem peek_stop (ps : Cursor) :
    (peek ps ['|', ')', '&', ';']).2 = true ↔ ∃ t ts, tokens ps = t :: ts ∧ t.Stops := by
  rw [peek_snd]
  constructor
  · rintro ⟨t, ts, c, hts, hfirst, hc⟩
    have hproper : t.Proper := tokens_proper (by rw [hts]; exact List.mem_cons_self)
    refine ⟨t, ts, hts, ?_⟩
    cases t <;> simp_all [Tok.first, Tok.Proper, Tok.Stops, symbols] <;>
      rcases hc with rfl | rfl | rfl | rfl <;> simp_all
  · rintro ⟨t, ts, hts, ht⟩
    cases t <;> simp_all [Tok.first, Tok.Stops]

/-- For one of the symbols that are tokens of their own. -/
theorem peek_symbol (ps : Cursor) {sym : Tok} (hsym : sym = .pipe ∨ sym = .amp ∨ sym = .semi)
    {c : Char} (hc : sym.first = some c) :
    (peek ps [c]).2 = true ↔ ∃ ts, tokens ps = sym :: ts := by
  rw [peek_snd]
  constructor
  · rintro ⟨t, ts, d, hts, hfirst, hd⟩
    have hproper : t.Proper := tokens_proper (by rw [hts]; exact List.mem_cons_self)
    rw [List.mem_singleton] at hd
    subst hd
    refine ⟨ts, ?_⟩
    rcases hsym with rfl | rfl | rfl <;> cases hc <;>
      cases t <;> simp_all [Tok.first, Tok.Proper, symbols]
  · rintro ⟨ts, hts⟩
    exact ⟨sym, ts, c, hts, hc, by simp⟩

end Cs350.Shell
