import Mathlib.Algebra.Group.Nat.Defs
import Mathlib.Data.Nat.Basic

set_option autoImplicit false

/-! # Words of 32 bits

Sums that do not wrap, as sums of natural numbers. -/

namespace Cs350

/-- A sum that is not below its first term has not wrapped. -/
theorem toNat_add_of_lt {off n : UInt32} (h : off.toNat + n.toNat < 2 ^ 32) :
    (off + n).toNat = off.toNat + n.toNat := by
  rw [UInt32.toNat_add, Nat.mod_eq_of_lt h]

theorem add_toNat {off n : UInt32} (h : ¬ off + n < off) :
    (off + n).toNat = off.toNat + n.toNat := by
  rw [UInt32.lt_iff_toNat_lt, UInt32.toNat_add] at h
  rw [UInt32.toNat_add]
  have hoff := off.toNat_lt
  have hn := n.toNat_lt
  omega

end Cs350
