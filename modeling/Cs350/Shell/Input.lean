import Cs350.Shell.Parser

set_option autoImplicit false

/-! # The lines that the shell reads

`gets` takes bytes up to a newline, up to a carriage return, or until the buffer is full but for its
last byte, and the read loop of `main` gives each such piece to `parsecmd`. A line that is longer
than the buffer, or has a carriage return in it, is more than one piece. -/

namespace Cs350.Shell

/-- The loop of `gets` with room for `n` bytes more: what it stores, and what is left of the input.
    `read` returns 0 at the end of the input. -/
def getsLoop : Nat → List Char → List Char × List Char
  | 0, input => ([], input)
  | _ + 1, [] => ([], [])
  | n + 1, c :: input =>
    if c = '\n' ∨ c = '\r' then ([c], input)
    else (c :: (getsLoop n input).1, (getsLoop n input).2)

/-- `gets(buf, max)` on a buffer of zeros. -/
def gets (max : Nat) (input : List Char) : List Char × List Char :=
  let (read, input) := getsLoop (max - 1) input
  (read ++ List.replicate (max - read.length) '\x00', input)

/-- `getcmd(buf, nbuf)`: the buffer, or nothing when it returns -1. -/
def getcmd (nbuf : Nat) (input : List Char) : Option (List Char) × List Char :=
  let (buf, input) := gets nbuf input
  (if buf.head? = some '\x00' then none else some buf, input)

/-- `sizeof(buf)` in `main`. -/
def bufSize : Nat := 1024

/-- The strings that the read loop of `main` gives to `parsecmd` in its first `n` rounds. A command
    that ends the shell ends the rounds with it: then `n` is the number of rounds up to there. -/
def handed : Nat → List Char → List (List Char)
  | 0, _ => []
  | n + 1, input =>
    match getcmd bufSize input with
    | (none, _) => []
    | (some buf, input) => buf.takeWhile (· ≠ '\x00') :: handed n input

/-- A line with its newline. -/
def IsLine (l : List Char) : Prop := ∃ body, l = body ++ ['\n'] ∧ '\n' ∉ body ∧ '\x00' ∉ body

/-- The line fits into the buffer and has no carriage return. -/
def OneCommand (l : List Char) : Prop := l.length ≤ bufSize - 1 ∧ '\r' ∉ l

/-! ## One call of `gets` -/

theorem getsLoop_append (n : Nat) (input : List Char) :
    (getsLoop n input).1 ++ (getsLoop n input).2 = input := by
  induction n generalizing input with
  | zero => rfl
  | succ n ih =>
      cases input with
      | nil => rfl
      | cons c input =>
          rw [getsLoop]
          split_ifs
          · rfl
          · rw [List.cons_append, ih]

theorem length_getsLoop_le (n : Nat) (input : List Char) : (getsLoop n input).1.length ≤ n := by
  induction n generalizing input with
  | zero => exact Nat.le_refl 0
  | succ n ih =>
      cases input with
      | nil => exact Nat.zero_le _
      | cons c input =>
          rw [getsLoop]
          split_ifs
          · simp
          · simpa using ih input

/-- Only the last byte that is stored can end a command. -/
theorem getsLoop_dropLast (n : Nat) (input : List Char) : '\r' ∉ (getsLoop n input).1.dropLast := by
  induction n generalizing input with
  | zero => simp [getsLoop]
  | succ n ih =>
      cases input with
      | nil => simp [getsLoop]
      | cons c input =>
          rw [getsLoop]
          split_ifs with hc
          · simp
          · have hne : '\r' ≠ c := fun h => hc (Or.inr h.symm)
            cases hread : (getsLoop n input).1 with
            | nil => simp
            | cons d read =>
                have hrest := ih input
                rw [hread] at hrest
                simp only [List.dropLast_cons_cons, List.mem_cons, not_or]
                exact ⟨hne, hrest⟩

/-- A line that fits is taken whole. -/
theorem getsLoop_line {body : List Char} (hnewline : '\n' ∉ body) (hreturn : '\r' ∉ body) {n : Nat}
    (hn : body.length < n) (rest : List Char) :
    getsLoop n (body ++ '\n' :: rest) = (body ++ ['\n'], rest) := by
  induction body generalizing n with
  | nil =>
      cases n with
      | zero => simp at hn
      | succ n => simp [getsLoop]
  | cons c body ih =>
      cases n with
      | zero => simp at hn
      | succ n =>
          simp only [List.mem_cons, not_or] at hnewline hreturn
          have hc : ¬ (c = '\n' ∨ c = '\r') := by
            rintro (rfl | rfl)
            · exact hnewline.1 rfl
            · exact hreturn.1 rfl
          rw [List.cons_append, getsLoop, if_neg hc,
            ih hnewline.2 hreturn.2 (by simpa using hn)]
          rfl

/-- `gets` takes exactly the lines that are one command. -/
theorem getsLoop_eq_line_iff {l : List Char} (hl : IsLine l) (rest : List Char) :
    getsLoop (bufSize - 1) (l ++ rest) = (l, rest) ↔ OneCommand l := by
  obtain ⟨body, rfl, hnewline, -⟩ := hl
  constructor
  · intro heq
    have hlen := length_getsLoop_le (bufSize - 1) (body ++ ['\n'] ++ rest)
    have hreturn := getsLoop_dropLast (bufSize - 1) (body ++ ['\n'] ++ rest)
    rw [heq] at hlen hreturn
    refine ⟨hlen, fun hmem => ?_⟩
    simp only [List.dropLast_concat] at hreturn
    simp [hreturn] at hmem
  · rintro ⟨hlen, hreturn⟩
    simp only [List.mem_append, not_or] at hreturn
    rw [List.length_append, List.length_singleton] at hlen
    rw [List.append_assoc, List.singleton_append]
    exact getsLoop_line hnewline hreturn.1 hlen rest

/-! ## The read loop -/

/-- Something is stored unless the input has ended. -/
theorem getsLoop_eq_nil {n : Nat} {input : List Char} (h : (getsLoop (n + 1) input).1 = []) :
    input = [] := by
  cases input with
  | nil => rfl
  | cons c input =>
      rw [getsLoop] at h
      split_ifs at h

/-- One round, on input without NULs. -/
theorem handed_succ (n : Nat) {input : List Char} (hnul : '\x00' ∉ input) (hne : input ≠ []) :
    handed (n + 1) input =
      (getsLoop (bufSize - 1) input).1 :: handed n (getsLoop (bufSize - 1) input).2 := by
  have happend := getsLoop_append (bufSize - 1) input
  cases hread : (getsLoop (bufSize - 1) input).1 with
  | nil => exact absurd (getsLoop_eq_nil hread) hne
  | cons c read =>
      rw [hread] at happend
      have hread' : ∀ d ∈ c :: read, d ≠ '\x00' := by
        rintro d hd rfl
        exact hnul (happend ▸ List.mem_append_left _ hd)
      have hfirst : c ≠ '\x00' := hread' c (by simp)
      have hstring : ∀ k, (c :: read ++ List.replicate k '\x00').takeWhile (· ≠ '\x00') =
          c :: read := by
        intro k
        rw [List.takeWhile_append_of_pos (by simpa using hread')]
        cases k <;> simp [List.replicate_succ]
      simp only [handed, getcmd, gets, hread, List.cons_append, List.head?_cons, Option.some.injEq,
        hfirst, if_false]
      rw [← List.cons_append, hstring]

theorem handed_nil (n : Nat) : handed n [] = [] := by
  cases n <;> rfl

/-- **One line, one command.** On input made of lines without NULs, the strings that the read loop
    gives to `parsecmd` are the lines, in order, exactly if every line has at most 1023 bytes with
    its newline, and no line has a carriage return, at which `gets` stops too. -/
theorem handed_lines_iff {lines : List (List Char)} (h : ∀ l ∈ lines, IsLine l) :
    (∀ n, handed n lines.flatten = lines.take n) ↔ ∀ l ∈ lines, OneCommand l := by
  induction lines with
  | nil => simp [handed_nil]
  | cons l lines ih =>
      have hline := h l (by simp)
      have hlines : ∀ l ∈ lines, IsLine l := fun l hl => h l (List.mem_cons_of_mem _ hl)
      have hne : (l :: lines).flatten ≠ [] := by
        obtain ⟨body, rfl, -⟩ := hline
        simp
      have hnul : '\x00' ∉ (l :: lines).flatten := by
        intro hmem
        obtain ⟨l', hl', hmem⟩ := List.mem_flatten.1 hmem
        obtain ⟨body, rfl, -, hbody⟩ := h l' hl'
        simp [hbody] at hmem
      have hround := fun n => handed_succ n hnul hne
      rw [List.flatten_cons] at hround
      rw [List.forall_mem_cons, ← ih hlines, ← getsLoop_eq_line_iff hline lines.flatten]
      constructor
      · intro hall
        -- the first round shows that the first line is taken whole, the later ones the rest
        have hone := hall 1
        rw [List.flatten_cons, hround, List.take_succ_cons] at hone
        have hread := (List.cons.inj hone).1
        have hrest := getsLoop_append (bufSize - 1) (l ++ lines.flatten)
        rw [hread] at hrest
        have htaken : getsLoop (bufSize - 1) (l ++ lines.flatten) = (l, lines.flatten) :=
          Prod.ext hread (List.append_cancel_left hrest)
        refine ⟨htaken, fun n => ?_⟩
        have hmore := hall (n + 1)
        rw [List.flatten_cons, hround, htaken, List.take_succ_cons] at hmore
        exact (List.cons.inj hmore).2
      · rintro ⟨htaken, hmore⟩ n
        cases n with
        | zero => rfl
        | succ n => rw [List.flatten_cons, hround, htaken, List.take_succ_cons, hmore]

/-- The two lines `a` and `b`. -/
theorem handed_two_lines : handed 2 "a\nb\n".toList = ["a\n".toList, "b\n".toList] := by
  have hlines : ∀ l ∈ ["a\n".toList, "b\n".toList], IsLine l := by
    intro l hl
    simp only [List.mem_cons, List.not_mem_nil, or_false] at hl
    rcases hl with rfl | rfl
    · exact ⟨['a'], by decide, by decide, by decide⟩
    · exact ⟨['b'], by decide, by decide, by decide⟩
  exact (handed_lines_iff hlines).2 (by unfold OneCommand; decide) 2

theorem getsLoop_full {c : Char} (hc : ¬ (c = '\n' ∨ c = '\r')) (n : Nat) (rest : List Char) :
    getsLoop n (List.replicate n c ++ rest) = (List.replicate n c, rest) := by
  induction n with
  | zero => rfl
  | succ n ih => rw [List.replicate_succ, List.cons_append, getsLoop, if_neg hc, ih]

/-- A line of 1023 blanks, `ls` and a newline: the buffer is full before `ls`, which becomes a
    command of its own. And a line with a carriage return is two commands. -/
theorem line_split :
    (IsLine (List.replicate (bufSize - 1) ' ' ++ "ls\n".toList) ∧
      handed 2 (List.replicate (bufSize - 1) ' ' ++ "ls\n".toList) =
        [List.replicate (bufSize - 1) ' ', "ls\n".toList]) ∧
    IsLine "a\rb\n".toList ∧ handed 2 "a\rb\n".toList = ["a\r".toList, "b\n".toList] := by
  refine ⟨⟨?_, ?_⟩, ⟨['a', '\r', 'b'], by decide, by decide, by decide⟩, by decide⟩
  · refine ⟨List.replicate (bufSize - 1) ' ' ++ "ls".toList, ?_, ?_, ?_⟩
    · rw [List.append_assoc]
      rfl
    · simp
    · simp
  · have hfull := getsLoop_full (c := ' ') (by decide) (bufSize - 1) "ls\n".toList
    rw [handed_succ 1 (by simp) (by simp), hfull, handed_succ 0 (by decide) (by decide)]
    rfl

end Cs350.Shell
