import Cs350.Grep.Defs
import Cs350.Lib.CString
import Cs350.Lib.LanguagePrefix

set_option autoImplicit false

/-! # The language of the matcher

A pattern is read from left to right as items. The matcher looks at the `'*'` after a character
before it looks at `'$'`, so `'$'` means the end of the text only as the last character of the
pattern, and `'*'` itself is a character where there is nothing before it to repeat. -/

namespace Cs350.Grep

open Computability

/-! ## Patterns as languages -/

/-- The words of one character that `c` stands for. -/
def chars (c : UInt8) : Language UInt8 := {w | ∃ t, w = [t] ∧ (c = '.'.toUInt8 ∨ c = t)}

/-- A character of a pattern, and whether `'*'` comes after it. -/
structure Item where
  c : UInt8
  star : Bool
deriving DecidableEq

def Item.language (i : Item) : Language UInt8 :=
  if i.star then (chars i.c)∗ else chars i.c

/-- A pattern: `'^'`, the items, `'$'`. -/
structure Pattern where
  fromStart : Bool
  items : List Item
  toEnd : Bool
deriving DecidableEq

/-- Put an item in front. -/
def Pattern.cons (i : Item) (r : Pattern) : Pattern := { r with items := i :: r.items }

def Pattern.language (r : Pattern) : Language UInt8 := (r.items.map Item.language).prod

/-- What the pattern demands of the text after the substring. -/
def Pattern.Ends (r : Pattern) (after : List UInt8) : Prop := r.toEnd = true → after = []

/-- The reading of a pattern without a `'^'` of its own. -/
def readItems : List UInt8 → Pattern
  | [] => ⟨false, [], false⟩
  | [c] => if c = '$'.toUInt8 then ⟨false, [], true⟩ else ⟨false, [⟨c, false⟩], false⟩
  | c :: d :: re =>
      if d = '*'.toUInt8 then (readItems re).cons ⟨c, true⟩
      else (readItems (d :: re)).cons ⟨c, false⟩

def readPattern : List UInt8 → Pattern
  | [] => readItems []
  | c :: re =>
      if c = '^'.toUInt8 then { readItems re with fromStart := true } else readItems (c :: re)

/-- Some substring of `text` is in the language of `re`: a prefix if `re` starts with `'^'`, with
    nothing after it if `re` has a final `'$'`. -/
def Matches (re text : List UInt8) : Prop :=
  ∃ before w after, text = before ++ w ++ after ∧
    ((readPattern re).fromStart = true → before = []) ∧
    w ∈ (readPattern re).language ∧ (readPattern re).Ends after

-- `"$*$"`: the first `'$'` is a character
example : readPattern [36, 42, 36] = ⟨false, [⟨36, true⟩], true⟩ := by decide

/-! ## The matcher on strings -/

theorem starts_chars {c : UInt8} {Q : List UInt8 → Prop} {text : List UInt8} :
    Starts (chars c) Q text ↔
      ∃ t rest, text = t :: rest ∧ (c = '.'.toUInt8 ∨ c = t) ∧ Q rest := by
  constructor
  · intro h
    obtain ⟨w, ⟨t, hw, hc⟩, rest, htext, hrest⟩ := h
    exact ⟨t, rest, by rw [htext, hw]; rfl, hc, hrest⟩
  · intro h
    obtain ⟨t, rest, htext, hc, hrest⟩ := h
    exact ⟨[t], ⟨t, rfl, hc⟩, rest, htext, hrest⟩

@[simp] theorem starts_chars_nil {c : UInt8} {Q : List UInt8 → Prop} :
    ¬ Starts (chars c) Q [] := by
  simp [starts_chars]

@[simp] theorem starts_chars_cons {c t : UInt8} {Q : List UInt8 → Prop} {text : List UInt8} :
    Starts (chars c) Q (t :: text) ↔ (c = '.'.toUInt8 ∨ c = t) ∧ Q text := by
  simp [starts_chars]

/-- What `matchhere` decides. -/
def Pattern.Here (r : Pattern) (text : List UInt8) : Prop := Starts r.language r.Ends text

theorem Pattern.here_cons {i : Item} {r : Pattern} {text : List UInt8} :
    (r.cons i).Here text ↔ Starts i.language r.Here text := by
  have hlang : (r.cons i).language = i.language * r.language := by
    simp [Pattern.language, Pattern.cons]
  rw [Pattern.Here, hlang, Starts.mul]
  rfl

theorem Pattern.here_nil {text : List UInt8} {a b : Bool} :
    Pattern.Here ⟨a, [], b⟩ text ↔ (b = true → text = []) := by
  rw [Pattern.Here, Pattern.language, List.map_nil, List.prod_nil, Starts.one]
  rfl

@[simp] theorem Pattern.here_fromStart {r : Pattern} {text : List UInt8} {a : Bool} :
    Pattern.Here { r with fromStart := a } text ↔ r.Here text := Iff.rfl

/-- The loop of `matchstar` goes through a star from the shortest prefix on. -/
theorem matchstar_iff {here : List UInt8 → Bool} {Q : List UInt8 → Prop}
    (hhere : ∀ text, here text = true ↔ Q text) (c : UInt8) (text : List UInt8) :
    matchstar here c text = true ↔ Starts (chars c)∗ Q text := by
  induction text with
  | nil =>
      rw [Starts.kstar, matchstar, hhere]
      simp
  | cons t text ih =>
      rw [Starts.kstar, starts_chars_cons, ← ih, ← hhere, matchstar,
        @eq_comm _ c t, or_comm (b := t = c)]
      simp

/-- `matchhere` decides whether the text starts with a word of the pattern. -/
theorem matchhere_iff (re text : List UInt8) :
    matchhere re text = true ↔ (readItems re).Here text := by
  induction re using readItems.induct generalizing text with
  | case1 => simp [matchhere, readItems, Pattern.here_nil]
  | case2 => simp [matchhere, readItems, Pattern.here_nil]
  | case3 c hc =>
      have hread : readItems [c] = (readItems []).cons ⟨c, false⟩ := by
        simp [readItems, hc, Pattern.cons]
      rw [hread, Pattern.here_cons, matchhere.eq_def]
      cases text <;> simp [hc, Item.language, readItems, Pattern.here_nil, matchhere]
  | case4 c re ih =>
      rw [readItems, if_pos rfl, Pattern.here_cons, matchhere.eq_def]
      simpa [Item.language] using matchstar_iff ih c text
  | case5 c d re hd ih =>
      rw [readItems, if_neg hd, Pattern.here_cons, matchhere.eq_def]
      cases text <;> simp [hd, Item.language, ih]

theorem matchLoop_iff (re text : List UInt8) :
    matchLoop re text = true ↔
      ∃ before rest, text = before ++ rest ∧ matchhere re rest = true := by
  induction text with
  | nil => simp [matchLoop]
  | cons t text ih =>
      rw [matchLoop, Bool.or_eq_true, ih]
      constructor
      · intro h
        cases h with
        | inl h => exact ⟨[], t :: text, rfl, h⟩
        | inr h =>
            obtain ⟨before, rest, htext, h⟩ := h
            exact ⟨t :: before, rest, by rw [htext]; rfl, h⟩
      · intro h
        obtain ⟨before, rest, htext, h⟩ := h
        cases before with
        | nil => exact Or.inl (by rwa [htext])
        | cons b before =>
            obtain ⟨-, htext⟩ := List.cons.inj htext
            exact Or.inr ⟨before, rest, htext, h⟩

theorem matches_iff (re text : List UInt8) :
    Matches re text ↔ ∃ before rest, text = before ++ rest ∧
      ((readPattern re).fromStart = true → before = []) ∧ (readPattern re).Here rest := by
  constructor
  · intro h
    obtain ⟨before, w, after, htext, hstart, hw, hafter⟩ := h
    exact ⟨before, w ++ after, by rw [htext, List.append_assoc], hstart, w, hw, after, rfl, hafter⟩
  · intro h
    obtain ⟨before, rest, htext, hstart, w, hw, after, hrest, hafter⟩ := h
    exact ⟨before, w, after, by rw [htext, hrest, List.append_assoc], hstart, hw, hafter⟩

theorem readItems_fromStart (re : List UInt8) : (readItems re).fromStart = false := by
  fun_induction readItems re <;> simp_all [Pattern.cons]

/-- `match` decides the language of its pattern. -/
theorem matchText_iff_matches (re text : List UInt8) :
    matchText re text = true ↔ Matches re text := by
  rw [matches_iff]
  cases re with
  | nil =>
      rw [matchText, matchLoop_iff]
      simp [readPattern, readItems_fromStart, matchhere_iff]
  | cons c re =>
      rw [matchText, readPattern]
      split
      · -- a prefix of the text
        rw [matchhere_iff]
        simp
      · rw [matchLoop_iff]
        simp [readItems_fromStart, matchhere_iff]

/-! ## The matcher on pointers

The functions as they walk through memory, with a bound on the nesting of calls and rounds: `none`
means that the bound was reached. -/

namespace Pointer

mutual

/-- `matchhere(re, text)` -/
def matchhere (mem : Mem) : Nat → Nat → Nat → Option Bool
  | 0, _, _ => none
  | n + 1, re, text =>
      if mem re = 0 then some true
      else if mem (re + 1) = '*'.toUInt8 then matchstar mem n (mem re) (re + 2) text
      else if mem re = '$'.toUInt8 ∧ mem (re + 1) = 0 then some (mem text = 0)
      else if mem text ≠ 0 ∧ (mem re = '.'.toUInt8 ∨ mem re = mem text) then
        matchhere mem n (re + 1) (text + 1)
      else some false

/-- `matchstar(c, re, text)` -/
def matchstar (mem : Mem) : Nat → UInt8 → Nat → Nat → Option Bool
  | 0, _, _, _ => none
  | n + 1, c, re, text => do
      if ← matchhere mem n re text then return true
      if mem text ≠ 0 ∧ (mem text = c ∨ c = '.'.toUInt8) then matchstar mem n c re (text + 1)
      else return false

end

/-- The loop of `match`. -/
def matchLoop (mem : Mem) : Nat → Nat → Nat → Option Bool
  | 0, _, _ => none
  | n + 1, re, text => do
      if ← matchhere mem n re text then return true
      if mem text ≠ 0 then matchLoop mem n re (text + 1) else return false

/-- `match(re, text)` -/
def matchText (mem : Mem) (n re text : Nat) : Option Bool :=
  if mem re = '^'.toUInt8 then matchhere mem n (re + 1) text else matchLoop mem n re text

end Pointer

section Pointer

variable {mem : Mem} {re text : Nat} {c : UInt8} {rs ts : List UInt8}

/-- The comparison of one character, for what `matchhere` does after it. -/
theorem pointer_char {next : Option Bool} {here : List UInt8 → Bool} :
    mem.IsString text ts → (∀ t ts', ts = t :: ts' → next = some (here ts')) →
    (if mem text ≠ 0 ∧ (c = '.'.toUInt8 ∨ c = mem text) then next else some false) =
      some (match ts with
        | [] => false
        | t :: ts => (c = '.'.toUInt8 || c = t) && here ts) := by
  intro htext hnext
  cases ts with
  | nil => simp [htext.eq_zero]
  | cons t ts =>
      rw [hnext t ts rfl]
      by_cases hc : c = '.'.toUInt8 ∨ c = t
      · simp [htext.head, htext.head_ne, hc]
      · simp [htext.head, hc]

/-- On strings the pointers do what the lists do. A call of `matchstar` takes two characters of the
    pattern, and a round of its loop takes one of the text: this bounds the nesting. -/
theorem pointer_spec (mem : Mem) (n : Nat) :
    (∀ {re text rs ts}, mem.IsString re rs → mem.IsString text ts →
      2 * rs.length + ts.length < n →
      Pointer.matchhere mem n re text = some (matchhere rs ts)) ∧
    (∀ {c re text rs ts}, mem.IsString re rs → mem.IsString text ts →
      2 * rs.length + ts.length + 1 < n →
      Pointer.matchstar mem n c re text = some (matchstar (matchhere rs) c ts)) := by
  induction n with
  | zero => simp
  | succ n ih =>
      obtain ⟨ihhere, ihstar⟩ := ih
      constructor
      · intro re text rs ts hre htext hn
        rw [Pointer.matchhere, matchhere.eq_def]
        cases rs with
        | nil => simp [hre.eq_zero]
        | cons c rs =>
            have hzero : mem re ≠ 0 := by rw [hre.head]; exact hre.head_ne
            rw [if_neg hzero, hre.head]
            rw [List.length_cons] at hn
            have hchar := pointer_char (c := c) htext fun t ts' hts =>
              ihhere hre.tail (hts ▸ htext).tail (by simp [hts] at hn; omega)
            cases rs with
            | nil =>
                have hstar : (0 : UInt8) ≠ '*'.toUInt8 := by decide
                rw [hre.tail.eq_zero, if_neg hstar, hchar]
                by_cases hc : c = '$'.toUInt8
                · simp [hc, htext.zero_iff]
                · cases ts <;> simp [hc]
            | cons d rs =>
                rw [hre.tail.head, hchar]
                rw [List.length_cons] at hn
                by_cases hd : d = '*'.toUInt8
                · have hstar := ihstar (c := c) hre.tail.tail htext (by omega)
                  simpa [hd] using hstar
                · cases ts <;> simp [hd, hre.tail.head_ne]
      · intro c re text rs ts hre htext hn
        rw [Pointer.matchstar, ihhere hre htext (by omega)]
        cases ts with
        | nil => cases hhere : matchhere rs [] <;> simp [htext.eq_zero, matchstar, hhere]
        | cons t ts =>
            have hrec := ihstar (c := c) hre htext.tail (by simp at hn; omega)
            rw [matchstar, htext.head, hrec]
            by_cases hc : t = c ∨ c = '.'.toUInt8 <;>
              cases hhere : matchhere rs (t :: ts) <;> simp [htext.head_ne, hc]

theorem pointer_loop {n : Nat} (hre : mem.IsString re rs) (htext : mem.IsString text ts)
    (hn : 2 * rs.length + 2 * ts.length + 1 < n) :
    Pointer.matchLoop mem n re text = some (matchLoop rs ts) := by
  induction ts generalizing text n with
  | nil =>
      obtain ⟨n, rfl⟩ := Nat.exists_eq_add_of_lt (Nat.zero_lt_of_lt hn)
      have hhere := (pointer_spec mem (0 + n)).1 hre htext (by simp at hn ⊢; omega)
      rw [Pointer.matchLoop, hhere]
      cases hb : matchhere rs [] <;> simp [htext.eq_zero, matchLoop, hb]
  | cons t ts ih =>
      obtain ⟨n, rfl⟩ := Nat.exists_eq_add_of_lt (Nat.zero_lt_of_lt hn)
      rw [List.length_cons] at hn
      have hhere := (pointer_spec mem (0 + n)).1 hre htext (by simp; omega)
      have hrec := ih (n := 0 + n) htext.tail (by omega)
      rw [Pointer.matchLoop, hhere, hrec]
      cases hb : matchhere rs (t :: ts) <;> simp [htext.head, htext.head_ne, matchLoop, hb]

/-- The nesting of a search. -/
def searchBound (rs ts : List UInt8) : Nat := 2 * rs.length + 2 * ts.length + 2

theorem pointer_matchText {n : Nat} (hre : mem.IsString re rs) (htext : mem.IsString text ts)
    (hn : searchBound rs ts ≤ n) : Pointer.matchText mem n re text = some (matchText rs ts) := by
  unfold searchBound at hn
  rw [Pointer.matchText]
  cases rs with
  | nil =>
      have hne : (0 : UInt8) ≠ '^'.toUInt8 := by decide
      rw [hre.eq_zero, if_neg hne, matchText]
      exact pointer_loop hre htext (by omega)
  | cons c rs =>
      rw [hre.head, matchText]
      rw [List.length_cons] at hn
      split
      · exact (pointer_spec mem n).1 hre.tail htext (by omega)
      · exact pointer_loop hre htext (by simp; omega)

/-- **The matcher decides its language**: on every pattern and every text `match`, `matchhere` and
    `matchstar` return, and `match` returns whether some substring of the text is in the language
    of the pattern. -/
theorem match_decides {n : Nat} (hre : mem.IsString re rs) (htext : mem.IsString text ts)
    (hn : searchBound rs ts ≤ n) :
    (∃ b, Pointer.matchText mem n re text = some b ∧ (b = true ↔ Matches rs ts)) ∧
      (∃ b, Pointer.matchhere mem n re text = some b) ∧
      ∀ c, ∃ b, Pointer.matchstar mem n c re text = some b := by
  have hspec := pointer_spec mem n
  have hmatch := pointer_matchText hre htext hn
  unfold searchBound at hn
  exact ⟨⟨_, hmatch, matchText_iff_matches rs ts⟩, ⟨_, hspec.1 hre htext (by omega)⟩,
    fun c => ⟨_, hspec.2 (c := c) hre htext (by omega)⟩⟩

/-- `"b$"` in `"ab"`. -/
theorem match_decides_at_end :
    ∃ b, Pointer.matchText (put (fun _ => 0) 0 [98, 36, 0, 97, 98, 0]) 10 0 3 = some b ∧
      (b = true ↔ Matches [98, 36] [97, 98]) := by
  have hre : Mem.IsString (put (fun _ => 0) 0 [98, 36, 0, 97, 98, 0]) 0 [98, 36] := by decide
  have htext : Mem.IsString (put (fun _ => 0) 0 [98, 36, 0, 97, 98, 0]) 3 [97, 98] := by decide
  exact (match_decides hre htext (by decide)).1

end Pointer

end Cs350.Grep
