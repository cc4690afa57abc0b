import Cs350.Lib.Overlap

set_option autoImplicit false

/-! # The two `memmove`s

The one of the user library (`ulib.c`) copies upwards, and takes the number of bytes as an `int`.
The one of the kernel (`string.c`) copies downwards when the destination begins inside the source.
`n` is the argument as 32 bits. The pointers into a range that does not wrap are numbers; its end,
in the comparison, is modulo `2 ^ 32`. -/

namespace Cs350

/-- `memmove(vdst, vsrc, n)` of the user library. A negative `n` copies nothing. -/
def Ulib.memmove (m : Mem) (vdst vsrc n : Nat) : Mem :=
  m.copyUp vdst vsrc (if n < 2 ^ 31 then n else 0)

/-- `memmove(dst, src, n)` of the kernel. -/
def KString.memmove (m : Mem) (dst src n : Nat) : Mem :=
  if src < dst ∧ (src + n) % 2 ^ 32 > dst then m.copyDown (dst + n) (src + n) n
  else m.copyUp dst src n

/-- The ranges do not overlap in the wrong way, or the source repeats itself. -/
def Ulib.Agrees (m : Mem) (dst src n : Nat) : Prop :=
  if n < 2 ^ 31 then
    src < dst → dst < src + n → ∀ i, i + (dst - src) < n → m (src + (i + (dst - src))) = m (src + i)
  else ∀ i, i < n → m (dst + i) = m (src + i)

section Memmove

variable {m : Mem} {dst src n : Nat}

/-- **The kernel's `memmove` is a block copy**, however the ranges overlap. -/
theorem KString.memmove_eq (hdst : dst + n ≤ 2 ^ 32) :
    KString.memmove m dst src n = m.copy dst src n := by
  rw [KString.memmove]
  split
  · exact Mem.copyDown_eq_copy (by omega)
  · rename_i hup
    refine Mem.copyUp_eq_copy fun hover => hup ⟨hover.1, ?_⟩
    -- the end of the source is below that of the destination
    rw [Nat.mod_eq_of_lt (by omega)]
    exact hover.2

theorem Ulib.memmove_eq_iff :
    Ulib.memmove m dst src n = m.copy dst src n ↔ Ulib.Agrees m dst src n := by
  rw [Ulib.memmove, Ulib.Agrees]
  split
  · by_cases hover : src < dst ∧ dst < src + n
    · obtain ⟨d, rfl⟩ : ∃ d, dst = src + d := ⟨dst - src, by omega⟩
      rw [Mem.copyUp_eq_copy_iff (by omega), Nat.add_sub_cancel_left]
      exact ⟨fun h _ _ => h, fun h => h hover.1 hover.2⟩
    · exact iff_of_true (Mem.copyUp_eq_copy hover) fun hlo hhi => absurd ⟨hlo, hhi⟩ hover
  · rw [Mem.copyUp]
    constructor
    · intro heq i hi
      have hbyte := congrFun heq (dst + i)
      rwa [Mem.copy_add _ _ _ _ _ hi] at hbyte
    · intro hsame
      funext x
      by_cases hx : dst ≤ x ∧ x < dst + n
      · obtain ⟨i, rfl⟩ := Nat.exists_eq_add_of_le hx.1
        rw [Mem.copy_add _ _ _ _ _ (by omega), hsame i (by omega)]
      · rw [Mem.copy_apply _ _ _ _ _ (by omega)]

/-- **When the two agree.** -/
theorem memmove_agree_iff (hdst : dst + n ≤ 2 ^ 32) :
    (Ulib.memmove m dst src n = KString.memmove m dst src n ∧
      Ulib.memmove m dst src n = m.copy dst src n) ↔ Ulib.Agrees m dst src n := by
  rw [KString.memmove_eq hdst, and_self, Ulib.memmove_eq_iff]

end Memmove

/-- Two bytes to the place before them. -/
theorem memmove_agree_iff_down :
    Ulib.memmove (fun a => UInt8.ofNat a) 4 5 2 = KString.memmove (fun a => UInt8.ofNat a) 4 5 2 := by
  have hagrees : Ulib.Agrees (fun a => UInt8.ofNat a) 4 5 2 := fun hlo => absurd hlo (by decide)
  exact ((memmove_agree_iff (by decide)).2 hagrees).1

/-- Two bytes to the place after them: the first one is copied twice. -/
theorem memmove_disagree :
    Ulib.memmove (fun a => UInt8.ofNat a) 5 4 2 ≠ KString.memmove (fun a => UInt8.ofNat a) 5 4 2 := by
  intro heq
  have hbyte := congrFun heq 6
  revert hbyte
  decide

end Cs350
