import Mathlib.Data.Nat.Basic
import Mathlib.Logic.Function.Basic
import Mathlib.Order.Lattice.Nat
import Mathlib.Tactic.Common

set_option autoImplicit false

/-! # The screen (`cgaputc`)

The display has 25 rows of 80 cells and a cursor, and `cgaputc` uses 24 of the rows. What it does is
compared with a sheet of paper without an end, on which nothing is ever moved: the screen is the part
of the paper that begins at its top line, and the top line only goes down. -/

namespace Cs350.Console

/-- `BACKSPACE` -/
def backspace : UInt32 := 0x100

/-- Black on white. -/
def cell (c : UInt32) : UInt16 := ((c &&& 0xff) ||| 0x0700).toUInt16

/-- `' ' | 0x0700` -/
def blank : UInt16 := 0x0720

/-- The memory of the display, and the cursor registers: col + 80*row. -/
structure Screen where
  crt : Nat → UInt16
  pos : Nat

namespace Screen

/-- The branches on the character. -/
def advance (s : Screen) (c : UInt32) : Screen :=
  if c = 10 then { s with pos := s.pos + (80 - s.pos % 80) }
  else if c = backspace then { s with pos := if s.pos > 0 then s.pos - 1 else s.pos }
  else { crt := Function.update s.crt s.pos (cell c), pos := s.pos + 1 }

/-- Scroll up. -/
def scroll (s : Screen) : Screen :=
  -- `memmove(crt, crt+80, sizeof(crt[0])*23*80)`
  let crt := fun i => if i < 23 * 80 then s.crt (i + 80) else s.crt i
  let pos := s.pos - 80
  -- `memset(crt+pos, 0, sizeof(crt[0])*(24*80 - pos))`
  { crt := fun i => if pos ≤ i ∧ i < 24 * 80 then 0 else crt i, pos := pos }

/-- `cgaputc`; `none` is the panic. -/
def cgaputc (s : Screen) (c : UInt32) : Option Screen :=
  let s := s.advance c
  if s.pos > 25 * 80 then none
  else
    let s := if s.pos / 80 ≥ 24 then s.scroll else s
    some { s with crt := Function.update s.crt s.pos blank }

/-- What `consputc` is called with, one after the other. -/
def print (s : Screen) : List UInt32 → Option Screen
  | [] => some s
  | c :: cs => (s.cgaputc c).bind fun s => s.print cs

end Screen

/-! ## The paper -/

/-- Cells in lines of 80 without an end, where the next character goes, and the first line that is
    still on the screen. -/
structure Paper where
  cell : Nat → UInt16
  pos : Nat
  top : Nat

namespace Paper

def advance (p : Paper) (c : UInt32) : Paper :=
  if c = 10 then { p with pos := (p.pos / 80 + 1) * 80 }
  else if c = backspace then { p with pos := if p.pos > 80 * p.top then p.pos - 1 else p.pos }
  else { p with cell := Function.update p.cell p.pos (Console.cell c), pos := p.pos + 1 }

/-- The line that is written has to be among the 24 on the screen. -/
def put (p : Paper) (c : UInt32) : Paper :=
  let p := p.advance c
  { cell := Function.update p.cell p.pos blank
    pos := p.pos
    top := max p.top (p.pos / 80 - 23) }

/-- The screen shows the lines from the top one on, and nothing is written below them. -/
structure Shows (p : Paper) (s : Screen) : Prop where
  crt : ∀ i < 24 * 80, s.crt i = p.cell (80 * p.top + i)
  pos : p.pos = 80 * p.top + s.pos
  lt : s.pos < 24 * 80
  below : ∀ i, 80 * (p.top + 24) ≤ i → p.cell i = 0

/-- The character goes to the same place; the screen may be one line short now. -/
theorem Shows.advance {p : Paper} {s : Screen} (h : Shows p s) (c : UInt32) :
    (∀ i < 24 * 80, (s.advance c).crt i = (p.advance c).cell (80 * p.top + i)) ∧
      (p.advance c).pos = 80 * p.top + (s.advance c).pos ∧ (s.advance c).pos ≤ 24 * 80 ∧
      (∀ i, 80 * (p.top + 24) ≤ i → (p.advance c).cell i = 0) ∧ (p.advance c).top = p.top := by
  have hpos := h.pos
  have hlt := h.lt
  rw [Screen.advance, Paper.advance]
  by_cases hnl : c = 10
  · rw [if_pos hnl, if_pos hnl]
    refine ⟨h.crt, ?_, ?_, h.below, rfl⟩
    · dsimp only
      omega
    · dsimp only
      omega
  · rw [if_neg hnl, if_neg hnl]
    by_cases hbs : c = Console.backspace
    · rw [if_pos hbs, if_pos hbs]
      refine ⟨h.crt, ?_, ?_, h.below, rfl⟩
      · dsimp only
        by_cases hz : s.pos > 0
        · rw [if_pos hz, if_pos (by omega)]
          omega
        · rw [if_neg hz, if_neg (by omega), hpos]
      · dsimp only
        split <;> omega
    · rw [if_neg hbs, if_neg hbs]
      refine ⟨fun i hi => ?_, ?_, ?_, fun i hi => ?_, rfl⟩
      · dsimp only
        by_cases heq : i = s.pos
        · rw [heq, ← hpos, Function.update_self, Function.update_self]
        · rw [Function.update_of_ne heq, Function.update_of_ne (by omega), h.crt i hi]
      · dsimp only
        omega
      · dsimp only
        omega
      · rw [← h.below i hi]
        exact Function.update_of_ne (by omega) _ _

/-- The blank under the cursor. -/
theorem Shows.blank {p : Paper} {s : Screen} (h : Shows p s) :
    Shows { p with cell := Function.update p.cell p.pos Console.blank }
      { s with crt := Function.update s.crt s.pos Console.blank } := by
  have hpos := h.pos
  have hlt := h.lt
  refine ⟨fun i hi => ?_, h.pos, h.lt, fun i hi => ?_⟩
  · dsimp only
    by_cases heq : i = s.pos
    · rw [heq, ← hpos, Function.update_self, Function.update_self]
    · rw [Function.update_of_ne heq, Function.update_of_ne (by omega), h.crt i hi]
  · dsimp only at hi
    rw [← h.below i hi]
    exact Function.update_of_ne (by omega) _ _

/-- **One character.** `cgaputc` does not panic, and the screen shows the paper again. -/
theorem Shows.put {p : Paper} {s : Screen} (h : Shows p s) (c : UInt32) :
    ∃ s', s.cgaputc c = some s' ∧ Shows (p.put c) s' := by
  obtain ⟨hcrt, hpos, hle, hbelow, htop⟩ := h.advance c
  rw [Screen.cgaputc, if_neg (by omega)]
  refine ⟨_, rfl, ?_⟩
  by_cases hfull : (s.advance c).pos / 80 ≥ 24
  · -- the line that comes up at the bottom is empty on the paper
    rw [if_pos hfull]
    have hmax : max (p.advance c).top ((p.advance c).pos / 80 - 23) = p.top + 1 := by omega
    have hscroll : Shows { p.advance c with top := p.top + 1 } (s.advance c).scroll := by
      refine ⟨fun i hi => ?_, ?_, ?_, fun i hi => hbelow i (by dsimp only at hi; omega)⟩
      · rw [Screen.scroll]
        dsimp only
        by_cases hlast : (s.advance c).pos - 80 ≤ i ∧ i < 24 * 80
        · rw [if_pos hlast, hbelow _ (by omega)]
        · rw [if_neg hlast, if_pos (by omega), hcrt (i + 80) (by omega)]
          congr 1
          omega
      · rw [Screen.scroll]
        dsimp only
        omega
      · rw [Screen.scroll]
        dsimp only
        omega
    rw [Paper.put, hmax]
    exact hscroll.blank
  · rw [if_neg hfull]
    have hmax : max (p.advance c).top ((p.advance c).pos / 80 - 23) = (p.advance c).top := by omega
    have hsame : Shows (p.advance c) (s.advance c) := by
      refine ⟨?_, ?_, by omega, ?_⟩ <;> rw [htop] <;> assumption
    rw [Paper.put, hmax]
    exact hsame.blank

/-- A screen with the cursor above row 24 shows some paper. -/
theorem Shows.of_screen (s : Screen) (h : s.pos < 24 * 80) :
    Shows ⟨fun i => if i < 24 * 80 then s.crt i else 0, s.pos, 0⟩ s where
  crt i hi := by simp [hi]
  pos := (Nat.zero_add _).symm
  lt := h
  below i hi := if_neg (by dsimp only at hi; omega)

/-- **The screen is a window on the paper.** Whatever is printed, `cgaputc` never panics, and the
    screen shows the 24 lines of the paper from its top line on, with the cursor at its place. -/
theorem screen_shows_paper {p : Paper} {s : Screen} (h : Shows p s) (cs : List UInt32) :
    ∃ s', s.print cs = some s' ∧ Shows (cs.foldl Paper.put p) s' := by
  induction cs generalizing p s with
  | nil => exact ⟨s, rfl, h⟩
  | cons c cs ih =>
      obtain ⟨s₁, hput, hshows⟩ := h.put c
      obtain ⟨s₂, hprint, hend⟩ := ih hshows
      exact ⟨s₂, by rw [Screen.print, hput, Option.bind_some, hprint], hend⟩

theorem screen_shows_paper_full : ∃ s' : Screen,
    (Screen.mk (fun _ => 0) 1919).print [65, 10, backspace] = some s' ∧ s'.pos < 24 * 80 := by
  obtain ⟨s', hprint, hshows⟩ := screen_shows_paper
    (Shows.of_screen ⟨fun _ => 0, 1919⟩ (by decide)) [65, 10, backspace]
  exact ⟨s', hprint, hshows.lt⟩

end Paper

/-! ## Text -/

/-- A typewriter with lines of 80 characters: the lines that are done, and the one being typed. -/
structure Sheet where
  done : List (List UInt8)
  line : List UInt8

namespace Sheet

def type (t : Sheet) (c : UInt8) : Sheet :=
  if c = 10 then ⟨t.done ++ [t.line], []⟩
  else if t.line.length = 79 then ⟨t.done ++ [t.line ++ [c]], []⟩
  else ⟨t.done, t.line ++ [c]⟩

def lines (t : Sheet) : List (List UInt8) := t.done ++ [t.line]

end Sheet

/-- How a line looks: its characters, and the blank that the cursor has left behind them. -/
def lineCell : Option (List UInt8) → Nat → UInt16
  | none, _ => 0
  | some l, col =>
      match l[col]? with
      | some c => cell c.toUInt32
      | none => if col = l.length then blank else 0

/-- The paper with these lines on it. -/
def render (ls : List (List UInt8)) (i : Nat) : UInt16 := lineCell ls[i / 80]? (i % 80)

/-- The paper is what has been typed. -/
structure Typed (t : Sheet) (p : Paper) : Prop where
  cell : p.cell = render t.lines
  pos : p.pos = 80 * t.done.length + t.line.length
  short : t.line.length < 80
  top : p.top = t.lines.length - 24

/-- The last line, and what is above and below it. -/
theorem render_last (done : List (List UInt8)) (l : List UInt8) (i : Nat) :
    render (done ++ [l]) i =
      if i / 80 = done.length then lineCell (some l) (i % 80) else render done i := by
  rw [render, render]
  by_cases hrow : i / 80 = done.length
  · rw [if_pos hrow, hrow, List.getElem?_append_right (Nat.le_refl _), Nat.sub_self]
    rfl
  · rw [if_neg hrow]
    by_cases hlt : i / 80 < done.length
    · rw [List.getElem?_append_left hlt]
    · have hnone : done[i / 80]? = none := List.getElem?_eq_none (by omega)
      have hout : (done ++ [l])[i / 80]? = none := List.getElem?_eq_none (by simp; omega)
      rw [hnone, hout]

theorem render_below {ls : List (List UInt8)} {i : Nat} (h : ls.length ≤ i / 80) :
    render ls i = 0 := by
  rw [render, List.getElem?_eq_none h]
  rfl

theorem render_newline (ls : List (List UInt8)) :
    Function.update (render ls) (80 * ls.length) blank = render (ls ++ [[]]) := by
  funext i
  rw [render_last]
  by_cases heq : i = 80 * ls.length
  · rw [heq, Function.update_self, Nat.mul_div_cancel_left _ (by decide), Nat.mul_mod_right,
      if_pos rfl]
    rfl
  · rw [Function.update_of_ne heq]
    by_cases hrow : i / 80 = ls.length
    · have hcol : i % 80 ≠ 0 := by omega
      rw [if_pos hrow, render_below (by omega)]
      simp [lineCell, hcol]
    · rw [if_neg hrow]

theorem lineCell_append (l : List UInt8) (c : UInt8) (col : Nat) :
    lineCell (some (l ++ [c])) col =
      if col = l.length then cell c.toUInt32 else if col = l.length + 1 then blank
      else lineCell (some l) col := by
  by_cases hlt : col < l.length
  · rw [if_neg (by omega), if_neg (by omega)]
    simp [lineCell, List.getElem?_append_left hlt, hlt]
  · by_cases heq : col = l.length
    · simp [lineCell, heq]
    · have hnone : (l ++ [c])[col]? = none := List.getElem?_eq_none (by simp; omega)
      have hnone' : l[col]? = none := List.getElem?_eq_none (by omega)
      rw [if_neg heq, lineCell, hnone, lineCell, hnone', if_neg heq, List.length_append]
      rfl

/-- A character at the end of the last line. -/
theorem render_char (done : List (List UInt8)) (line : List UInt8) (c : UInt8)
    (h : line.length < 79) :
    Function.update (Function.update (render (done ++ [line])) (80 * done.length + line.length)
      (cell c.toUInt32)) (80 * done.length + line.length + 1) blank =
      render (done ++ [line ++ [c]]) := by
  funext i
  rw [render_last, lineCell_append]
  by_cases hnext : i = 80 * done.length + line.length + 1
  · rw [hnext, Function.update_self, if_pos (by omega), if_neg (by omega), if_pos (by omega)]
  · rw [Function.update_of_ne hnext]
    by_cases heq : i = 80 * done.length + line.length
    · rw [heq, Function.update_self, if_pos (by omega), if_pos (by omega)]
    · rw [Function.update_of_ne heq, render_last]
      by_cases hrow : i / 80 = done.length
      · rw [if_pos hrow, if_pos hrow, if_neg (by omega), if_neg (by omega)]
      · rw [if_neg hrow, if_neg hrow]

/-- A character that fills the last line. -/
theorem render_full (done : List (List UInt8)) (line : List UInt8) (c : UInt8)
    (h : line.length = 79) :
    Function.update (render (done ++ [line])) (80 * done.length + line.length)
      (cell c.toUInt32) = render (done ++ [line ++ [c]]) := by
  funext i
  rw [render_last, lineCell_append]
  by_cases heq : i = 80 * done.length + line.length
  · rw [heq, Function.update_self, if_pos (by omega), if_pos (by omega)]
  · rw [Function.update_of_ne heq, render_last]
    by_cases hrow : i / 80 = done.length
    · rw [if_pos hrow, if_pos hrow, if_neg (by omega), if_neg (by omega)]
    · rw [if_neg hrow, if_neg hrow]

/-- A byte is no `BACKSPACE`. -/
theorem byte_ne_backspace (c : UInt8) : c.toUInt32 ≠ backspace := by
  intro heq
  have hlt := c.toNat_lt
  have hval := congrArg UInt32.toNat heq
  rw [UInt8.toNat_toUInt32] at hval
  exact absurd (hval ▸ hlt) (by decide)

theorem byte_eq_newline (c : UInt8) : c.toUInt32 = 10 ↔ c = 10 := by
  rw [← UInt32.toNat_inj, ← UInt8.toNat_inj, UInt8.toNat_toUInt32]
  rfl

/-- A typed character. -/
theorem Typed.put {t : Sheet} {p : Paper} (h : Typed t p) (c : UInt8) :
    Typed (t.type c) (p.put c.toUInt32) := by
  have hpos := h.pos
  have hshort := h.short
  have htop := h.top
  have hcell := h.cell
  rw [Sheet.lines] at hcell
  rw [Sheet.lines, List.length_append, List.length_singleton] at htop
  rw [Sheet.type, Paper.put, Paper.advance]
  by_cases hnl : c = 10
  · rw [if_pos hnl, if_pos ((byte_eq_newline c).2 hnl)]
    have hnext : (p.pos / 80 + 1) * 80 = 80 * (t.done ++ [t.line]).length := by
      rw [List.length_append, List.length_singleton]
      omega
    refine ⟨?_, hnext, Nat.zero_lt_succ 79, ?_⟩
    · dsimp only
      rw [hnext, hcell, render_newline, Sheet.lines]
    · rw [Sheet.lines]
      simp only [List.length_append, List.length_singleton]
      omega
  · rw [if_neg hnl, if_neg (mt (byte_eq_newline c).1 hnl), if_neg (byte_ne_backspace c)]
    by_cases hfull : t.line.length = 79
    · rw [if_pos hfull]
      have hnext : p.pos + 1 = 80 * (t.done ++ [t.line ++ [c]]).length := by
        rw [List.length_append, List.length_singleton]
        omega
      refine ⟨?_, hnext, Nat.zero_lt_succ 79, ?_⟩
      · dsimp only
        rw [hnext, hpos, hcell, render_full _ _ _ hfull, render_newline, Sheet.lines]
      · rw [Sheet.lines]
        simp only [List.length_append, List.length_singleton]
        omega
    · rw [if_neg hfull]
      refine ⟨?_, ?_, ?_, ?_⟩
      · dsimp only
        rw [hpos, hcell, render_char _ _ _ (by omega), Sheet.lines]
      · dsimp only
        rw [List.length_append, List.length_singleton]
        omega
      · rw [List.length_append, List.length_singleton]
        omega
      · rw [Sheet.lines]
        simp only [List.length_append, List.length_singleton]
        omega

/-- An empty screen. -/
def cleared : Screen := ⟨Function.update (fun _ => 0) 0 blank, 0⟩

theorem cleared_typed : Typed ⟨[], []⟩ ⟨cleared.crt, 0, 0⟩ where
  cell := render_newline []
  pos := rfl
  short := by decide
  top := rfl

theorem cleared_shows : Paper.Shows ⟨cleared.crt, 0, 0⟩ cleared where
  crt i _ := congrArg cleared.crt (Nat.zero_add i).symm
  pos := rfl
  lt := by decide
  below i hi := by
    have hne : i ≠ 0 := by
      dsimp only at hi
      omega
    show Function.update (fun _ => (0 : UInt16)) 0 blank i = 0
    rw [Function.update_of_ne hne]

theorem Typed.foldl {t : Sheet} {p : Paper} (h : Typed t p) (text : List UInt8) :
    Typed (text.foldl Sheet.type t) ((text.map UInt8.toUInt32).foldl Paper.put p) := by
  induction text generalizing t p with
  | nil => exact h
  | cons c text ih => exact ih (h.put c)

/-- **Text on an empty screen.** The screen shows the last 24 of the lines that a typewriter would
    have made of the text, each line in its row, and the cursor is behind the last character. -/
theorem screen_shows_text (text : List UInt8) : ∃ s, cleared.print (text.map UInt8.toUInt32) = some s ∧
    let t := text.foldl Sheet.type ⟨[], []⟩
    let top := t.lines.length - 24
    (∀ row < 24, ∀ col < 80, s.crt (80 * row + col) = lineCell t.lines[top + row]? col) ∧
      s.pos = 80 * (t.done.length - top) + t.line.length := by
  obtain ⟨s, hprint, hshows⟩ := Paper.screen_shows_paper cleared_shows (text.map UInt8.toUInt32)
  have htyped := cleared_typed.foldl text
  have htop := htyped.top
  have hpos := htyped.pos
  have hpos' := hshows.pos
  refine ⟨s, hprint, fun row hrow col hcol => ?_, ?_⟩
  · rw [hshows.crt _ (by omega), htyped.cell, htop, render]
    congr 2 <;> omega
  · rw [← htop]
    have hlen : (text.foldl Sheet.type ⟨[], []⟩).lines.length =
        (text.foldl Sheet.type ⟨[], []⟩).done.length + 1 := List.length_append
    omega

end Cs350.Console
