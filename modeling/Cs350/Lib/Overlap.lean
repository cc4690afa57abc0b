import Cs350.Lib.ByteMemory

set_option autoImplicit false

/-! # Copies byte by byte

A loop that copies one byte after the other reads what it has written itself when the ranges
overlap. Upwards it is a block copy unless the destination begins inside the source, downwards
unless the source begins inside the destination. If the destination begins `d` bytes after the
beginning of the source, an upward copy repeats the first `d` bytes. -/

namespace Cs350.Mem

/-- Copy `n` bytes, from the first one on. -/
def copyUp (m : Mem) (dst src : Nat) : Nat → Mem
  | 0 => m
  | n + 1 => copyUp (Function.update m dst (m src)) (dst + 1) (src + 1) n

/-- Copy the `n` bytes below `src` to those below `dst`, from the last one on. -/
def copyDown (m : Mem) (dst src : Nat) : Nat → Mem
  | 0 => m
  | n + 1 => copyDown (Function.update m (dst - 1) (m (src - 1))) (dst - 1) (src - 1) n

section Copies

variable {m : Mem} {dst src n d : Nat}

theorem copy_zero : m.copy dst src 0 = m := by
  funext x
  rw [copy, if_neg (by omega)]

theorem copyUp_eq_copy (h : ¬ (src < dst ∧ dst < src + n)) : m.copyUp dst src n = m.copy dst src n := by
  induction n generalizing m dst src with
  | zero => exact copy_zero.symm
  | succ n ih =>
      rw [copyUp, ih (by omega)]
      funext x
      rw [copy, copy]
      by_cases hx : dst + 1 ≤ x ∧ x < dst + 1 + n
      · rw [if_pos hx, if_pos (by omega), Function.update_of_ne (by omega)]
        congr 1
        omega
      · rw [if_neg hx]
        by_cases hd : x = dst
        · subst hd
          rw [Function.update_self, if_pos (by omega), Nat.sub_self, Nat.add_zero]
        · rw [Function.update_of_ne hd, if_neg (by omega)]

theorem copyDown_eq_copy (h : ¬ (dst < src ∧ src < dst + n)) :
    m.copyDown (dst + n) (src + n) n = m.copy dst src n := by
  induction n generalizing m with
  | zero => exact copy_zero.symm
  | succ n ih =>
      rw [copyDown, ← Nat.add_assoc, ← Nat.add_assoc, Nat.add_sub_cancel, Nat.add_sub_cancel,
        ih (by omega)]
      funext x
      rw [copy, copy]
      by_cases hx : dst ≤ x ∧ x < dst + n
      · rw [if_pos hx, if_pos (by omega), Function.update_of_ne (by omega)]
      · rw [if_neg hx]
        by_cases hd : x = dst + n
        · subst hd
          rw [Function.update_self, if_pos (by omega), Nat.add_sub_cancel_left]
        · rw [Function.update_of_ne hd, if_neg (by omega)]

/-- An upward copy leaves the other bytes alone. -/
theorem copyUp_apply (m : Mem) (dst src n x : Nat) (h : x < dst ∨ dst + n ≤ x) :
    m.copyUp dst src n x = m x := by
  induction n generalizing m dst src with
  | zero => rfl
  | succ n ih => rw [copyUp, ih _ _ _ (by omega), Function.update_of_ne (by omega)]

/-- An upward copy copies bytes that it has written: in the end, the two ranges are equal. -/
theorem copyUp_add (h : src < dst) {i : Nat} (hi : i < n) :
    m.copyUp dst src n (dst + i) = m.copyUp dst src n (src + i) := by
  induction n generalizing m dst src i with
  | zero => omega
  | succ n ih =>
      rw [copyUp]
      cases i with
      | zero =>
          rw [copyUp_apply _ _ _ _ _ (by omega), copyUp_apply _ _ _ _ _ (by omega), Nat.add_zero,
            Nat.add_zero, Function.update_self, Function.update_of_ne (by omega)]
      | succ i =>
          have hdst : dst + (i + 1) = dst + 1 + i := by omega
          have hsrc : src + (i + 1) = src + 1 + i := by omega
          rw [hdst, hsrc]
          exact ih (by omega) (by omega)

/-- **When an upward copy into the source is right**: the bytes of the source are the same again
    after the distance of the ranges. -/
theorem copyUp_eq_copy_iff (hd : 0 < d) :
    m.copyUp (src + d) src n = m.copy (src + d) src n ↔
      ∀ i, i + d < n → m (src + (i + d)) = m (src + i) := by
  have hsame : ∀ i, i < n → m.copyUp (src + d) src n (src + d + i) =
      m.copyUp (src + d) src n (src + i) := fun i hi => copyUp_add (by omega) hi
  constructor
  · intro heq i hi
    have hplace : src + (i + d) = src + d + i := by omega
    calc m (src + (i + d)) = m.copy (src + d) src n (src + d + (i + d)) :=
          (copy_add _ _ _ _ _ hi).symm
      _ = m.copyUp (src + d) src n (src + (i + d)) := by rw [← heq, hsame _ hi]
      _ = m.copy (src + d) src n (src + d + i) := by rw [← heq, hplace]
      _ = m (src + i) := copy_add _ _ _ _ _ (by omega)
  · intro hrepeat
    have hin : ∀ i, i < n → m.copyUp (src + d) src n (src + d + i) = m (src + i) := by
      intro i
      induction i using Nat.strong_induction_on with
      | _ i ih =>
          intro hi
          rw [hsame i hi]
          by_cases hid : i < d
          · exact copyUp_apply _ _ _ _ _ (by omega)
          · obtain ⟨j, rfl⟩ : ∃ j, i = j + d := ⟨i - d, by omega⟩
            have hplace : src + (j + d) = src + d + j := by omega
            rw [hrepeat j hi, hplace]
            exact ih j (by omega) (by omega)
    funext x
    by_cases hx : src + d ≤ x ∧ x < src + d + n
    · obtain ⟨i, rfl⟩ := Nat.exists_eq_add_of_le hx.1
      rw [hin i (by omega), copy_add _ _ _ _ _ (by omega)]
    · rw [copyUp_apply _ _ _ _ _ (by omega), copy_apply _ _ _ _ _ (by omega)]

end Copies

end Cs350.Mem
