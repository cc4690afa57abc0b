import Cs350.Shell.Grammar
import Cs350.Lib.CString
import Cs350.Lib.Writes

set_option autoImplicit false

/-! # The strings of the tree

The words of the tree are pointers into the line, and `nulterminate` cuts them off there, in the order
of the tree and not in that of the line. What makes this work is that the character after a word is
not one that a word can have: the store at the end of one word is in no other. -/

namespace Cs350.Shell

open Mem Writes

/-- `nulterminate`, on a tree whose words point into the line at `s`: what it stores, in order. -/
def nulterminate (s : Nat) : Cmd Word → List (Nat × UInt8)
  | .exec argv => argv.map fun w => (s + w.eq, 0)
  | .redir cmd file _ _ => nulterminate s cmd ++ [(s + file.eq, 0)]
  | .pipe left right => nulterminate s left ++ nulterminate s right
  | .list left right => nulterminate s left ++ nulterminate s right
  | .back cmd => nulterminate s cmd

/-- The entries of `argv` in the EXEC nodes of a tree and the files in its REDIR nodes. -/
def Cmd.words {W : Type} : Cmd W → List W
  | .exec argv => argv
  | .redir cmd file _ _ => cmd.words ++ [file]
  | .pipe left right => left.words ++ right.words
  | .list left right => left.words ++ right.words
  | .back cmd => cmd.words

/-- There is one store for each word of the tree, at its end. -/
theorem nulterminate_eq (s : Nat) (t : Cmd Word) :
    nulterminate s t = t.words.map fun w => (s + w.eq, 0) := by
  induction t with
  | exec argv => rfl
  | redir cmd file mode n ih => simp [nulterminate, Cmd.words, ih]
  | pipe left right ihl ihr => simp [nulterminate, Cmd.words, ihl, ihr]
  | list left right ihl ihr => simp [nulterminate, Cmd.words, ihl, ihr]
  | back cmd ih => simp [nulterminate, Cmd.words, ih]

/-! ## The places of the words -/

/-- The cursor is at its place in the line. -/
def Cursor.On (ps : Cursor) (line : List Char) : Prop :=
  ∃ before, before.length = ps.pos ∧ line = before ++ ps.rest

/-- The word is at its place in the line, and as long as it can be. -/
def Word.On (w : Word) (line : List Char) : Prop :=
  ∃ before after, before.length = w.q ∧ line = before ++ (w.text ++ after) ∧
    (∀ c ∈ w.text, wordChar c = true) ∧ ∀ c ∈ after.head?, wordChar c = false

theorem Cursor.On.append {line xs ys : List Char} {pos : Nat} (h : Cursor.On ⟨pos, xs ++ ys⟩ line) :
    Cursor.On ⟨pos + xs.length, ys⟩ line := by
  obtain ⟨before, hpos, hline⟩ := h
  refine ⟨before ++ xs, ?_, ?_⟩
  · simp only [List.length_append, hpos]
  · rw [hline, List.append_assoc]

theorem Cursor.On.tail {line : List Char} {pos : Nat} {c : Char} {r : List Char}
    (h : Cursor.On ⟨pos, c :: r⟩ line) : Cursor.On ⟨pos + 1, r⟩ line :=
  @Cursor.On.append line [c] r pos h

theorem Cursor.On.skip {line : List Char} {ps : Cursor} (h : ps.On line) : ps.skip.On line := by
  have hsplit : ps.rest.takeWhile (· ∈ whitespace) ++ ps.rest.dropWhile (· ∈ whitespace) = ps.rest :=
    List.takeWhile_append_dropWhile
  apply Cursor.On.append
  rw [hsplit]
  exact h

/-- A word begins where `gettoken` finds it. -/
theorem Cursor.On.word {line rest : List Char} {pos : Nat} (h : Cursor.On ⟨pos, rest⟩ line) :
    Word.On ⟨pos, rest.takeWhile wordChar⟩ line := by
  obtain ⟨before, hpos, hline⟩ := h
  refine ⟨before, rest.dropWhile wordChar, hpos, ?_, ?_, ?_⟩
  · rw [List.takeWhile_append_dropWhile]
    exact hline
  · intro c hc
    exact List.mem_takeWhile_imp hc
  · intro c hc
    have hstop := List.head?_dropWhile_not wordChar rest
    rw [Option.mem_def.1 hc] at hstop
    exact hstop

/-- `gettoken` moves the cursor along the line, and the word it returns is at its place. -/
theorem Cursor.On.gettoken {line : List Char} {ps : Cursor} (h : ps.On line) :
    (gettoken ps).2.On line ∧ ∀ w, (gettoken ps).1 = .word w → w.On line := by
  have hskip := h.skip
  unfold Shell.gettoken
  generalize ps.skip = s at hskip ⊢
  obtain ⟨pos, rest⟩ := s
  dsimp only
  split
  · exact ⟨hskip, by simp⟩
  · exact ⟨hskip.tail.skip, by simp⟩
  · exact ⟨hskip.tail.skip, by simp⟩
  · exact ⟨hskip.tail.skip, by simp⟩
  · exact ⟨hskip.tail.skip, by simp⟩
  · split
    · exact ⟨hskip.tail.tail.skip, by simp⟩
    · exact ⟨hskip.tail.skip, by simp⟩
  · next c r _ _ _ _ _ =>
      have hsplit : (c :: r).takeWhile wordChar ++ (c :: r).dropWhile wordChar = c :: r :=
        List.takeWhile_append_dropWhile
      constructor
      · apply Cursor.On.skip
        apply Cursor.On.append
        rw [hsplit]
        exact hskip
      · intro w hw
        cases hw
        exact hskip.word

theorem Word.on_of_mem_tokens {line : List Char} {ps : Cursor} (h : ps.On line) {w : Word}
    (hw : .word w ∈ tokens ps) : w.On line := by
  induction hn : ps.rest.length using Nat.strong_induction_on generalizing ps with
  | _ n ih =>
      rw [tokens] at hw
      split_ifs at hw with heof
      · cases hw
      · rcases List.mem_cons.1 hw with hw | hw
        · exact h.gettoken.2 w hw.symm
        · exact ih _ (hn ▸ length_gettoken_lt heof) h.gettoken.1 hw rfl

/-! ## The words of the tree are words of the line -/

theorem Redirs.file_mem {ts : List Tok} {rs : List Redir} (h : Redirs ts rs) {r : Redir}
    (hr : r ∈ rs) : .word r.file ∈ ts := by
  induction h with
  | nil => cases hr
  | lt h ih | gt h ih | gtgt h ih =>
      rcases List.mem_cons.1 hr with rfl | hr
      · simp
      · simp [ih hr]

theorem Args.mem {ts : List Tok} {ws : List Word} {rs : List Redir} (h : Args ts ws rs) :
    (∀ w ∈ ws, .word w ∈ ts) ∧ ∀ r ∈ rs, .word r.file ∈ ts := by
  induction h with
  | nil => simp
  | @cons w ts rs ts' ws rs' hw h h' ih =>
      obtain ⟨ihw, ihr⟩ := ih
      constructor
      · intro v hv
        rcases List.mem_cons.1 hv with rfl | hv
        · simp
        · simp [ihw v hv]
      · intro r hr
        rcases List.mem_append.1 hr with hr | hr
        · simp [h.file_mem hr]
        · simp [ihr r hr]

/-- The words of an EXEC node with REDIR nodes around it. -/
theorem words_foldl_redir (rs : List Redir) (c : Cmd Word) :
    (rs.foldl (fun c r => Cmd.redir c r.file r.mode r.fdToClose) c).words =
      c.words ++ rs.map Redir.file := by
  induction rs generalizing c with
  | nil => simp
  | cons r rs ih => simp [ih, Cmd.words]

theorem ExecOf.mem {ts : List Tok} {t : Cmd Word} (h : ExecOf ts t) {w : Word} (hw : w ∈ t.words) :
    .word w ∈ ts := by
  obtain @⟨ts, rs, ts', ws, rs', h, h', -⟩ := h
  rw [words_foldl_redir, List.mem_append, List.mem_map] at hw
  rw [List.mem_append]
  rcases hw with hw | ⟨r, hr, rfl⟩
  · exact Or.inr (h'.mem.1 w hw)
  · rcases List.mem_append.1 hr with hr | hr
    · exact Or.inl (h.file_mem hr)
    · exact Or.inr (h'.mem.2 r hr)

theorem PipeOf.mem {ts : List Tok} {t : Cmd Word} (h : PipeOf ts t) {w : Word} (hw : w ∈ t.words) :
    .word w ∈ ts := by
  induction h with
  | one h => exact h.mem hw
  | more h h' ih =>
      rcases List.mem_append.1 hw with hw | hw
      · simp [h.mem hw]
      · simp [ih hw]

theorem words_back (n : Nat) (t : Cmd Word) : (Cmd.back^[n] t).words = t.words := by
  induction n generalizing t with
  | zero => rfl
  | succ n ih => rw [Function.iterate_succ_apply, ih, Cmd.words]

theorem LineOf.mem {ts : List Tok} {t : Cmd Word} (h : LineOf ts t) {w : Word} (hw : w ∈ t.words) :
    .word w ∈ ts := by
  induction h with
  | one n h =>
      rw [words_back] at hw
      simp [h.mem hw]
  | more n h h' ih =>
      rcases List.mem_append.1 hw with hw | hw
      · rw [words_back] at hw
        simp [h.mem hw]
      · simp [ih hw]

/-! ## The line after the stores -/

/-- The characters of a word are word characters. -/
theorem Word.On.inside {w : Word} {cs : List Char} (h : w.On cs) {i : Nat} (hq : w.q ≤ i)
    (heq : i < w.eq) : ∃ c, cs[i]? = some c ∧ wordChar c = true := by
  obtain ⟨before, after, hpos, hline, hword, -⟩ := h
  obtain ⟨j, rfl⟩ := Nat.exists_eq_add_of_le hq
  have hj : j < w.text.length := Nat.lt_of_add_lt_add_left heq
  refine ⟨w.text[j], ?_, hword _ (List.getElem_mem hj)⟩
  rw [hline, ← hpos, List.getElem?_append_right (Nat.le_add_right _ _), Nat.add_sub_cancel_left,
    List.getElem?_append_left hj, List.getElem?_eq_getElem hj]

/-- The character after a word is not one. -/
theorem Word.On.stop {w : Word} {cs : List Char} (h : w.On cs) {c : Char}
    (hc : cs[w.eq]? = some c) : wordChar c = false := by
  obtain ⟨before, after, hpos, hline, -, hstop⟩ := h
  apply hstop c
  rw [hline, Word.eq, ← hpos, ← List.length_append, ← List.append_assoc,
    List.getElem?_append_right (Nat.le_refl _), Nat.sub_self, ← List.head?_eq_getElem?] at hc
  exact hc

/-- No word ends inside a word. -/
theorem Word.On.ends_outside {w w' : Word} {line : List Char} (h : w.On line) (h' : w'.On line) :
    w'.eq < w.q ∨ w.eq ≤ w'.eq := by
  by_contra hinside
  rw [not_or, Nat.not_lt, Nat.not_le] at hinside
  obtain ⟨c, hc, hword⟩ := h.inside hinside.1 hinside.2
  rw [h'.stop hc] at hword
  cases hword

theorem Word.On.le {w : Word} {line : List Char} (h : w.On line) : w.eq ≤ line.length := by
  obtain ⟨before, after, hpos, hline, -, -⟩ := h
  rw [hline, List.length_append, List.length_append, Word.eq, hpos]
  omega

/-- The text of a word, taken from the line. -/
theorem Word.On.text_eq {w : Word} {line : List Char} (h : w.On line) :
    (line.drop w.q).take w.text.length = w.text := by
  obtain ⟨before, after, hpos, hline, -, -⟩ := h
  rw [hline, ← hpos, List.drop_left, List.take_left]

/-- When 0 has been stored at the end of each of the words `ws`, each of them is a string. -/
theorem isString_word {m : Mem} {s : Nat} {line : List UInt8} (hline : IsString m s line)
    {ws : List Word} (hon : ∀ w ∈ ws, w.On (line.map charOf)) {w : Word} (hw : w ∈ ws) :
    IsString (applyWrites (ws.map fun w => (s + w.eq, (0 : UInt8))) m) (s + w.q)
      ((line.drop w.q).take w.text.length) := by
  have hle := (hon w hw).le
  rw [List.length_map, Word.eq] at hle
  have hlen : ((line.drop w.q).take w.text.length).length = w.text.length := by
    rw [List.length_take, List.length_drop]
    omega
  rw [IsString.iff_forall]
  refine ⟨fun i hi => ?_, fun hzero => ?_, ?_⟩
  · rw [hlen] at hi
    have hkept : ∀ st ∈ ws.map fun w => (s + w.eq, (0 : UInt8)), st.1 ≠ s + w.q + i := by
      intro st hst heq
      obtain ⟨w', hw', rfl⟩ := List.mem_map.1 hst
      have hout := (hon w hw).ends_outside (hon w' hw')
      simp only [Word.eq] at hout heq
      omega
    rw [applyWrites_apply_of_notMem m hkept, List.getElem_take, List.getElem_drop, Nat.add_assoc]
    exact hline.get (by omega)
  · exact hline.zero_notMem (List.mem_of_mem_drop (List.mem_of_mem_take hzero))
  · rw [hlen, Nat.add_assoc]
    refine applyWrites_apply_of_mem m ⟨_, List.mem_map_of_mem hw, rfl⟩ ?_
    intro st hst _
    obtain ⟨w', -, rfl⟩ := List.mem_map.1 hst
    rfl

/-- **`nulterminate` yields the tokens.** On the tree of an accepted line, after its stores each word
    of the tree, read as a string, is the text of the token that it was parsed from; and each store
    is made to the line or to the NUL at its end. -/
theorem nulterminate_strings {m : Mem} {s : Nat} {line : List UInt8} {t : Cmd Word}
    (hline : IsString m s line) (ht : parsecmd (line.map charOf) = .ok t) :
    (∀ w ∈ t.words, Tok.word w ∈ tokens ⟨0, line.map charOf⟩ ∧
      ∃ text, text.map charOf = w.text ∧
        IsString (applyWrites (nulterminate s t) m) (s + w.q) text) ∧
    ∀ st ∈ nulterminate s t, s ≤ st.1 ∧ st.1 ≤ s + line.length := by
  have hnul : '\x00' ∉ line.map charOf := by
    intro hmem
    obtain ⟨b, hb, heq⟩ := List.mem_map.1 hmem
    obtain rfl : b = 0 := charOf_inj.1 heq
    exact hline.zero_notMem hb
  have hof := parsecmd_lineOf ht
  rw [lineTokens_of_nul hnul] at hof
  have hstart : Cursor.On ⟨0, line.map charOf⟩ (line.map charOf) := ⟨[], rfl, rfl⟩
  have hon : ∀ w ∈ t.words, w.On (line.map charOf) :=
    fun w hw => Word.on_of_mem_tokens hstart (hof.mem hw)
  rw [nulterminate_eq]
  constructor
  · intro w hw
    refine ⟨hof.mem hw, (line.drop w.q).take w.text.length, ?_, isString_word hline hon hw⟩
    rw [List.map_take, List.map_drop]
    exact (hon w hw).text_eq
  · intro st hst
    obtain ⟨w, hw, rfl⟩ := List.mem_map.1 hst
    have hle := (hon w hw).le
    rw [List.length_map] at hle
    exact ⟨Nat.le_add_right _ _, Nat.add_le_add_left hle s⟩

/-- The line `ab>c<d` at an address. -/
def abcd (a : Nat) : UInt8 := [97, 98, 62, 99, 60, 100].getD (a - 64) 0

/-- Here each symbol is where a word ends, and the stores are made to both of them. -/
theorem nulterminate_strings_abcd :
    let t : Cmd Word := .redir (.redir (.exec [⟨0, ['a', 'b']⟩]) ⟨3, ['c']⟩ .wronlyCreat 1)
      ⟨5, ['d']⟩ .rdonly 0
    IsString abcd 64 [97, 98, 62, 99, 60, 100] ∧
    parsecmd ([97, 98, 62, 99, 60, 100].map charOf) = .ok t ∧
    (∀ w ∈ t.words, Tok.word w ∈ tokens ⟨0, [97, 98, 62, 99, 60, 100].map charOf⟩ ∧
      ∃ text, text.map charOf = w.text ∧
        IsString (applyWrites (nulterminate 64 t) abcd) (64 + w.q) text) ∧
    ∀ st ∈ nulterminate 64 t, 64 ≤ st.1 ∧ st.1 ≤ 70 := by
  have hline : IsString abcd 64 [97, 98, 62, 99, 60, 100] := by decide
  have ht : parsecmd ([97, 98, 62, 99, 60, 100].map charOf) =
      .ok (.redir (.redir (.exec [⟨0, ['a', 'b']⟩]) ⟨3, ['c']⟩ .wronlyCreat 1)
        ⟨5, ['d']⟩ .rdonly 0) := by
    decide
  exact ⟨hline, ht, nulterminate_strings hline ht⟩

end Cs350.Shell
