import Cs350.Lib.CString
import Mathlib.Data.List.Basic

set_option autoImplicit false

/-! # `shutdown2.c`

The program puts its arguments into the buffer `msg`, one after the other with blanks between them.
The memory around the buffer is seen from its beginning, so that `msg[i]` is at `i`, which may be
negative, and the places that are written are written down. The arguments are C strings apart from
the buffer; what becomes of the program after a write outside of it is left open. -/

namespace Cs350.Shutdown2

/-- `sizeof(msg)` -/
def msgSize : Nat := 128

/-- `' '` -/
def blank : UInt8 := 32

/-- The memory, and where it has been written. -/
structure Buf where
  bytes : Int → UInt8
  writes : List Int

namespace Buf

/-- `*p = c` -/
def store (b : Buf) (p : Int) (c : UInt8) : Buf :=
  { bytes := Function.update b.bytes p c, writes := p :: b.writes }

/-- `strcpy(s, t)` -/
def strcpy (b : Buf) (s : Int) : List UInt8 → Buf
  | [] => b.store s 0
  | c :: t => (b.store s c).strcpy (s + 1) t

end Buf

/-- The loop of `main`, over the rest of the arguments: the memory and `p`. -/
def argLoop : List (List UInt8) → Buf → Int → Buf × Int
  | [], b, p => (b, p)
  | arg :: args, b, p =>
      let b := b.strcpy p arg
      let p := p + (arg.length + 1)
      if p ≥ msgSize then (b, msgSize) else argLoop args (b.store (p - 1) blank) p

/-- `char msg[128] = {0}` -/
def Buf.init (mem : Int → UInt8) : Buf where
  bytes i := if 0 ≤ i ∧ i < msgSize then 0 else mem i
  writes := []

/-- `main`, for `argv[1]` to `argv[argc - 1]`, up to the call of `shutdown2(msg)`. -/
def main (mem : Int → UInt8) (args : List (List UInt8)) : Buf :=
  let (b, p) := argLoop args (Buf.init mem) 0
  b.store (p - 1) 0

/-! ## Statements -/

/-- The string at `msg + i`. -/
def Buf.Holds (b : Buf) (i : Nat) (cs : List UInt8) : Prop :=
  Mem.IsString (fun a => b.bytes a) i cs

/-- The arguments with single blanks between them. -/
def joined (args : List (List UInt8)) : List UInt8 := [blank].intercalate args

/-- Only the buffer is written, and it holds the arguments, cut to 127 characters. -/
def Right (b : Buf) (args : List (List UInt8)) : Prop :=
  (∀ i ∈ b.writes, 0 ≤ i ∧ i ≤ 127) ∧ b.Holds 0 ((joined args).take 127)

/-- The place that the arguments take, with a blank or the zero after each of them. -/
def room (args : List (List UInt8)) : Nat := (args.map fun arg => arg.length + 1).sum

/-- There is an argument, and they all fit into the buffer, or the first ones fill it exactly. -/
def Fits (args : List (List UInt8)) : Prop :=
  args ≠ [] ∧ (room args ≤ msgSize ∨ ∃ k, room (args.take k) = msgSize)

/-! ## One argument -/

section Copy

variable {b : Buf} {p : Nat} {i : Int} {c : UInt8} {cs t : List UInt8}

theorem Buf.store_bytes_of_ne {j : Int} (h : i ≠ j) : (b.store j c).bytes i = b.bytes i :=
  Function.update_of_ne h _ _

@[simp] theorem Buf.store_bytes_self (b : Buf) (i : Int) (c : UInt8) : (b.store i c).bytes i = c :=
  Function.update_self _ _ _

/-- A string depends on its own bytes. -/
theorem Buf.Holds.congr {b' : Buf} (h : b.Holds p cs)
    (heq : ∀ j : Nat, p ≤ j → j ≤ p + cs.length → b'.bytes j = b.bytes j) : b'.Holds p cs :=
  Mem.IsString.congr h fun j hj => heq (p + j) (by omega) (by omega)

/-- `strcpy` writes the string and its zero, and nothing else. -/
theorem Buf.strcpy_spec (ht : 0 ∉ t) :
    (b.strcpy p t).Holds p t ∧
      (∀ j : Int, j < p ∨ p + t.length < j → (b.strcpy p t).bytes j = b.bytes j) ∧
      ∀ j, j ∈ (b.strcpy p t).writes ↔ j ∈ b.writes ∨ (p ≤ j ∧ j ≤ p + t.length) := by
  induction t generalizing b p with
  | nil =>
      refine ⟨Buf.store_bytes_self b p 0, fun j hj => ?_, fun j => ?_⟩
      · have hne : j ≠ p := by
          simp at hj
          omega
        exact Buf.store_bytes_of_ne hne
      · by_cases hj : j ∈ b.writes
        · simp [strcpy, store, hj]
        · simp [strcpy, store, hj]
          omega
  | cons c t ih =>
      rw [List.mem_cons, not_or] at ht
      obtain ⟨hstr, hbytes, hwrites⟩ := ih (b := b.store p c) (p := p + 1) ht.2
      have hcast : ((p + 1 : Nat) : Int) = p + 1 := rfl
      rw [hcast] at hstr hbytes hwrites
      rw [strcpy]
      refine ⟨⟨?_, Ne.symm ht.1, hstr⟩, fun j hj => ?_, fun j => ?_⟩
      · show ((b.store p c).strcpy (p + 1) t).bytes p = c
        rw [hbytes p (by omega), Buf.store_bytes_self]
      · rw [List.length_cons] at hj
        rw [hbytes j (by omega), Buf.store_bytes_of_ne (by omega)]
      · rw [hwrites j, List.length_cons]
        by_cases hj : j ∈ b.writes
        · simp [store, hj]
        · simp [store, hj]
          omega

end Copy

/-! ## The loop -/

/-- From `p` on, no argument goes beyond the end of the buffer, up to the one that reaches it. -/
def FitsFrom (p : Nat) : List (List UInt8) → Prop
  | [] => True
  | arg :: args =>
      p + (arg.length + 1) = msgSize ∨
        p + (arg.length + 1) < msgSize ∧ FitsFrom (p + (arg.length + 1)) args

/-- What is in the buffer when `main` is done, for arguments copied to `p` on. -/
def finish (args : List (List UInt8)) (b : Buf) (p : Nat) : Buf :=
  (argLoop args b p).1.store ((argLoop args b p).2 - 1) 0

section Loop

variable {b : Buf} {p : Nat} {args : List (List UInt8)}

theorem finish_cons (arg : List UInt8) (args : List (List UInt8)) (b : Buf) (p : Nat) :
    finish (arg :: args) b p =
      if msgSize ≤ p + (arg.length + 1) then (b.strcpy p arg).store (msgSize - 1) 0
      else finish args ((b.strcpy p arg).store (p + arg.length) blank) (p + (arg.length + 1)) := by
  have hcast : (p : Int) + (arg.length + 1) = (p + (arg.length + 1) : Nat) := by omega
  have hlast : (p : Int) + (arg.length + 1) - 1 = p + arg.length := by omega
  rw [finish, argLoop]
  split_ifs with hfull hfull' hfull'
  · rfl
  · omega
  · omega
  · rw [finish, hlast, hcast]

/-- The blank after an argument is where its zero was. -/
theorem joined_take {n : Nat} (arg : List UInt8) (hn : arg.length + 1 ≤ n) (hne : args ≠ []) :
    (joined (arg :: args)).take n =
      arg ++ blank :: (joined args).take (n - (arg.length + 1)) := by
  obtain ⟨arg', args, rfl⟩ := List.exists_cons_of_ne_nil hne
  obtain ⟨k, rfl⟩ := Nat.exists_eq_add_of_le hn
  rw [joined, List.intercalate_cons_cons, List.append_assoc, List.singleton_append,
    Nat.add_sub_cancel_left, Nat.add_assoc, List.take_length_add_append, Nat.add_comm 1,
    List.take_succ_cons]
  rfl

/-- An argument that is the last one or fills the buffer comes out whole. -/
theorem joined_take_last {n : Nat} (arg : List UInt8) (hn : arg.length ≤ n)
    (hlast : args = [] ∨ n = arg.length) : (joined (arg :: args)).take n = arg := by
  rcases args with _ | ⟨arg', args⟩
  · rw [joined, List.intercalate_singleton, List.take_of_length_le hn]
  · obtain rfl := hlast.resolve_left (by simp)
    rw [joined, List.intercalate_cons_cons, List.append_assoc, List.take_left]

/-- The zero is stored again at the end of an argument. -/
theorem stop_spec {b' : Buf} {arg : List UInt8} (harg : 0 ∉ arg)
    (hb' : b' = b.strcpy p arg ∨ b' = (b.strcpy p arg).store (p + arg.length) blank) :
    (b'.store (p + arg.length) 0).Holds p arg ∧
      (∀ j : Int, j < p → (b'.store (p + arg.length) 0).bytes j = b.bytes j) ∧
      ∀ j ∈ (b'.store (p + arg.length) 0).writes, j ∈ b.writes ∨ (p ≤ j ∧ j ≤ p + arg.length) := by
  obtain ⟨hstr, hbytes, hwrites⟩ := Buf.strcpy_spec (b := b) (p := p) harg
  have hsame : ∀ j : Int, (b'.store (p + arg.length) 0).bytes j =
      Function.update (b.strcpy p arg).bytes (p + arg.length) 0 j := by
    intro j
    rcases hb' with rfl | rfl <;> simp [Buf.store]
  refine ⟨hstr.congr fun j hlo hhi => ?_, fun j hj => ?_, fun j hj => ?_⟩
  · rw [hsame]
    by_cases hj : (j : Int) = p + arg.length
    · have hnul : (b.strcpy p arg).bytes (p + arg.length : Nat) = 0 := hstr.nul
      rw [hj, Function.update_self, ← hnul]
      rfl
    · exact Function.update_of_ne hj _ _
  · rw [hsame, Function.update_of_ne (by omega), hbytes j (Or.inl hj)]
  · have hmem : j = p + arg.length ∨ j ∈ (b.strcpy p arg).writes := by
      rcases hb' with rfl | rfl <;> simpa [Buf.store] using hj
    rcases hmem with rfl | hmem
    · exact Or.inr ⟨by omega, by omega⟩
    · exact (hwrites j).1 hmem

/-- **If the arguments fit**, the buffer holds them from `p` on, and nothing else is written. -/
theorem finish_fits (hne : args ≠ []) (hnul : ∀ arg ∈ args, 0 ∉ arg) (hfits : FitsFrom p args) :
    (finish args b p).Holds p ((joined args).take (127 - p)) ∧
      (∀ j : Int, j < p → (finish args b p).bytes j = b.bytes j) ∧
      ∀ j ∈ (finish args b p).writes, j ∈ b.writes ∨ (p ≤ j ∧ j ≤ 127) := by
  induction args generalizing b p with
  | nil => exact absurd rfl hne
  | cons arg args ih =>
      have harg : 0 ∉ arg := hnul arg (by simp)
      rw [finish_cons]
      rw [FitsFrom] at hfits
      unfold msgSize at *
      by_cases hfull : p + (arg.length + 1) = 128
      · -- the argument ends where the buffer ends
        have hend : ((128 : Nat) : Int) - 1 = p + arg.length := by omega
        obtain ⟨hstr, hbytes, hwrites⟩ := stop_spec (b := b) (p := p) harg (Or.inl rfl)
        rw [if_pos (by omega), hend, joined_take_last arg (by omega) (Or.inr (by omega))]
        exact ⟨hstr, hbytes, fun j hj => (hwrites j hj).imp_right fun h => ⟨h.1, by omega⟩⟩
      obtain ⟨hlt, hrest⟩ := hfits.resolve_left hfull
      rw [if_neg (by omega)]
      rcases List.eq_nil_or_concat args with rfl | hcons
      · -- it is the last one
        have hend : ((p + (arg.length + 1) : Nat) : Int) - 1 = p + arg.length := by omega
        obtain ⟨hstr, hbytes, hwrites⟩ := stop_spec (b := b) (p := p) harg (Or.inr rfl)
        rw [finish, argLoop, hend, joined_take_last arg (by omega) (Or.inl rfl)]
        exact ⟨hstr, hbytes, fun j hj => (hwrites j hj).imp_right fun h => ⟨h.1, by omega⟩⟩
      · have hne' : args ≠ [] := by
          obtain ⟨l, x, rfl⟩ := hcons
          simp
        obtain ⟨hstr, hbytes, hwrites⟩ := Buf.strcpy_spec (b := b) (p := p) harg
        obtain ⟨hstr', hbytes', hwrites'⟩ :=
          ih (b := (b.strcpy p arg).store (p + arg.length) blank) hne'
            (fun x hx => hnul x (by simp [hx])) hrest
        have hsub : 127 - p - (arg.length + 1) = 127 - (p + (arg.length + 1)) := by omega
        rw [joined_take arg (by omega) hne', hsub]
        refine ⟨?_, fun j hj => ?_, fun j hj => ?_⟩
        · refine hstr.append (fun j hj => ?_) ⟨?_, by decide, hstr'⟩
          · rw [hbytes' _ (by omega)]
            exact Function.update_of_ne (by omega) _ _
          · have hblank := hbytes' (p + arg.length) (by omega)
            rwa [Buf.store_bytes_self] at hblank
        · rw [hbytes' j (by omega), Buf.store_bytes_of_ne (by omega)]
          exact hbytes j (Or.inl hj)
        · rcases hwrites' j hj with hmem | hmem
          · rcases List.mem_cons.1 hmem with rfl | hmem
            · exact Or.inr ⟨by omega, by omega⟩
            · exact ((hwrites j).1 hmem).imp_right fun h => ⟨h.1, by omega⟩
          · exact Or.inr ⟨by omega, hmem.2⟩

/-- **If they do not fit**, the first argument that goes beyond the end is copied all the same. -/
theorem finish_overflows (hnul : ∀ arg ∈ args, 0 ∉ arg) (hfits : ¬ FitsFrom p args) :
    ∃ j ∈ (finish args b p).writes, (127 : Int) < j := by
  induction args generalizing b p with
  | nil => exact absurd trivial hfits
  | cons arg args ih =>
      have hend : (p + arg.length : Int) ∈ (b.strcpy p arg).writes :=
        ((Buf.strcpy_spec (hnul arg (by simp))).2.2 _).2 (Or.inr ⟨by omega, by omega⟩)
      rw [FitsFrom, not_or, not_and] at hfits
      rw [finish_cons]
      unfold msgSize at *
      split
      · exact ⟨p + arg.length, List.mem_cons_of_mem _ hend, by omega⟩
      · exact ih (fun x hx => hnul x (by simp [hx])) (hfits.2 (by omega))

theorem room_cons (arg : List UInt8) (args : List (List UInt8)) :
    room (arg :: args) = arg.length + 1 + room args := by
  simp [room]

/-- Without arguments the zero is stored before the buffer. -/
theorem finish_nil (b : Buf) : -1 ∈ (finish [] b 0).writes := List.mem_cons_self ..

/-- Where the first arguments fill the buffer, the very first is among them. -/
theorem exists_room_take {arg : List UInt8} {k : Nat} (hp : p < msgSize)
    (hk : p + room ((arg :: args).take k) = msgSize) :
    ∃ k, p + (arg.length + 1) + room (args.take k) = msgSize := by
  cases k with
  | zero =>
      simp only [List.take_zero, room, List.map_nil, List.sum_nil] at hk
      omega
  | succ k => exact ⟨k, by rw [← hk, List.take_succ_cons, room_cons, Nat.add_assoc]⟩

theorem fitsFrom_iff (hp : p < msgSize) :
    FitsFrom p args ↔ p + room args ≤ msgSize ∨ ∃ k, p + room (args.take k) = msgSize := by
  induction args generalizing p with
  | nil => exact iff_of_true trivial (Or.inl (Nat.le_of_lt hp))
  | cons arg args ih =>
      rw [FitsFrom, room_cons]
      constructor
      · intro h
        rcases h with heq | ⟨hlt, hrest⟩
        · exact Or.inr ⟨1, by simpa [room] using heq⟩
        · rcases (ih hlt).1 hrest with hle | ⟨k, hk⟩
          · exact Or.inl (by omega)
          · refine Or.inr ⟨k + 1, ?_⟩
            rw [List.take_succ_cons, room_cons]
            omega
      · intro h
        by_cases heq : p + (arg.length + 1) = msgSize
        · exact Or.inl heq
        have hrest : p + (arg.length + 1) + room args ≤ msgSize ∨
            ∃ k, p + (arg.length + 1) + room (args.take k) = msgSize := by
          rcases h with hle | ⟨k, hk⟩
          · exact Or.inl (by omega)
          · exact Or.inr (exists_room_take hp hk)
        have hlt : p + (arg.length + 1) < msgSize := by
          rcases hrest with hle | ⟨k, hk⟩ <;> omega
        exact Or.inr ⟨hlt, (ih hlt).2 hrest⟩

end Loop

theorem not_right_of_overflow {mem : Int → UInt8} {args : List (List UInt8)}
    (hnul : ∀ arg ∈ args, 0 ∉ arg) (hfits : ¬ FitsFrom 0 args) : ¬ Right (main mem args) args := by
  intro h
  obtain ⟨j, hj, hlt⟩ := finish_overflows (b := Buf.init mem) hnul hfits
  exact absurd (h.1 j hj).2 (by omega)

/-- **When the message is put together rightly**: there is an argument, and either all of them fit
    into the buffer or the first ones fill it exactly. -/
theorem main_right_iff (mem : Int → UInt8) {args : List (List UInt8)}
    (hnul : ∀ arg ∈ args, 0 ∉ arg) : Right (main mem args) args ↔ Fits args := by
  have hfits : FitsFrom 0 args ↔ room args ≤ msgSize ∨ ∃ k, room (args.take k) = msgSize := by
    simpa using fitsFrom_iff (p := 0) (by decide)
  constructor
  · intro h
    constructor
    · rintro rfl
      exact absurd (h.1 (-1) (finish_nil _)).1 (by decide)
    · by_contra hnot
      exact not_right_of_overflow hnul (fun h => hnot (hfits.1 h)) h
  · intro h
    obtain ⟨hstr, -, hwrites⟩ := finish_fits (b := Buf.init mem) h.1 hnul (hfits.2 h.2)
    refine ⟨fun j hj => ?_, hstr⟩
    rcases hwrites j hj with hmem | hmem
    · exact absurd hmem List.not_mem_nil
    · exact ⟨by omega, hmem.2⟩

/-- Two arguments of two characters. -/
theorem main_right_iff_two : Right (main (fun _ => 7) [[97, 98], [99, 100]]) [[97, 98], [99, 100]] :=
  (main_right_iff (fun _ => 7) (by decide)).2 ⟨by decide, Or.inl (by decide)⟩

/-- Without arguments a zero is stored at `msg[-1]`; an argument of 128 characters has its zero at
    `msg[128]`. -/
theorem main_writes_outside :
    ¬ Right (main (fun _ => 7) []) [] ∧
      ¬ Right (main (fun _ => 7) [List.replicate 128 97]) [List.replicate 128 97] := by
  constructor
  · intro h
    exact absurd (h.1 (-1) (List.mem_cons_self ..)).1 (by decide)
  · have hfits : ¬ FitsFrom 0 [List.replicate 128 97] := by
      intro hfits
      rw [FitsFrom, List.length_replicate, msgSize] at hfits
      omega
    have hnul : ∀ arg ∈ [List.replicate 128 (97 : UInt8)], 0 ∉ arg := by
      intro arg harg
      rw [List.mem_singleton.1 harg, List.mem_replicate]
      exact fun h => absurd h.2 (by decide)
    exact not_right_of_overflow hnul hfits

end Cs350.Shutdown2
