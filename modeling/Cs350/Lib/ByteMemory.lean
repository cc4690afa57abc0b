import Mathlib.Algebra.GroupWithZero.Nat
import Mathlib.Data.Nat.Basic
import Mathlib.Logic.Function.Basic

set_option autoImplicit false

/-! # Byte-addressed memory

A memory is a function from addresses to bytes. Multi-byte objects are read and written in
little-endian order: `load m a w` is the value of the `w` bytes at `a`, and `store m a w v` writes
the low `w` bytes of `v` there. `copy` is a block copy between two ranges.

The laws needed to reason about programs on such a memory are read-after-write at the same place
(`load_store`), and the two frame rules: a store changes only its own bytes (`store_apply`), and a
load depends only on its own bytes (`load_congr`). -/

namespace Cs350

/-- Memory contents, indexed by address. -/
abbrev Mem := Nat → UInt8

namespace Mem

/-- The little-endian value of the `w` bytes at address `a`. -/
def load (m : Mem) (a : Nat) : Nat → Nat
  | 0 => 0
  | w + 1 => (m a).toNat + 256 * load m (a + 1) w

/-- Write the low `w` bytes of `v` at address `a`, least significant byte first. -/
def store (m : Mem) (a : Nat) : Nat → Nat → Mem
  | 0, _ => m
  | w + 1, v => store (Function.update m a (UInt8.ofNat v)) (a + 1) w (v / 256)

/-- Copy `n` bytes from `src` to `dst`. -/
def copy (m : Mem) (dst src n : Nat) : Mem :=
  fun a => if dst ≤ a ∧ a < dst + n then m (src + (a - dst)) else m a

/-- `memset(a, c, n)` -/
def memset (m : Mem) (a : Nat) (c : UInt8) (n : Nat) : Mem :=
  fun x => if a ≤ x ∧ x < a + n then c else m x

/-- A store leaves the bytes outside its range alone. -/
theorem store_apply (m : Mem) (a w v x : Nat) (h : x < a ∨ a + w ≤ x) :
    store m a w v x = m x := by
  induction w generalizing m a v with
  | zero => rfl
  | succ w ih =>
      rw [store, ih _ _ _ (by omega), Function.update_of_ne (by omega)]

/-- A load depends only on the bytes in its range. -/
theorem load_congr {m m' : Mem} {a w : Nat} (h : ∀ i, i < w → m (a + i) = m' (a + i)) :
    load m a w = load m' a w := by
  induction w generalizing a with
  | zero => rfl
  | succ w ih =>
      have h0 : m a = m' a := h 0 (by omega)
      have hrest : load m (a + 1) w = load m' (a + 1) w := by
        apply ih
        intro i hi
        have := h (i + 1) (by omega)
        rwa [Nat.add_comm i 1, ← Nat.add_assoc] at this
      rw [load, load, h0, hrest]

/-- A load from a range that a store does not touch. -/
theorem load_store_of_disjoint (m : Mem) (a w v b u : Nat) (h : b + u ≤ a ∨ a + w ≤ b) :
    load (store m a w v) b u = load m b u :=
  load_congr fun i hi => store_apply m a w v (b + i) (by omega)

/-- Reading back what was stored gives its low `w` bytes. -/
theorem load_store (m : Mem) (a w v : Nat) : load (store m a w v) a w = v % 256 ^ w := by
  induction w generalizing m a v with
  | zero => simp [load, Nat.mod_one]
  | succ w ih =>
      have hbyte : (UInt8.ofNat v).toNat = v % 256 := UInt8.toNat_ofNat'
      rw [load, store, ih, store_apply _ _ _ _ _ (by omega), Function.update_self, hbyte,
        Nat.pow_succ, Nat.mul_comm (256 ^ w) 256, Nat.mod_mul]

theorem load_lt (m : Mem) (a w : Nat) : load m a w < 256 ^ w := by
  induction w generalizing a with
  | zero => simp [load]
  | succ w ih =>
      have hb : (m a).toNat < 256 := (m a).toNat_lt
      have ht := ih (a + 1)
      rw [load, Nat.pow_succ]
      omega

/-- A byte of a value. -/
theorem load_byte (m : Mem) (a : Nat) {i w : Nat} (hi : i < w) :
    UInt8.ofNat (m.load a w / 256 ^ i) = m (a + i) := by
  induction i generalizing a w with
  | zero =>
      obtain ⟨w, rfl⟩ := Nat.exists_eq_succ_of_ne_zero (Nat.ne_of_gt hi)
      apply UInt8.toNat_inj.1
      have hlt := (m a).toNat_lt
      rw [Nat.pow_zero, Nat.div_one, UInt8.toNat_ofNat', Mem.load, Nat.add_mul_mod_self_left,
        Nat.mod_eq_of_lt hlt, Nat.add_zero]
  | succ i ih =>
      obtain ⟨w, rfl⟩ := Nat.exists_eq_succ_of_ne_zero (Nat.ne_of_gt (Nat.zero_lt_of_lt hi))
      have hlt := (m a).toNat_lt
      have hdiv : m.load a (w + 1) / 256 = m.load (a + 1) w := by
        rw [Mem.load]
        omega
      rw [Nat.pow_succ', ← Nat.div_div_eq_div_mul, hdiv, ih (a + 1) (Nat.lt_of_succ_lt_succ hi)]
      congr 1
      omega

theorem memset_apply (m : Mem) (a : Nat) (c : UInt8) (n x : Nat) (h : x < a ∨ a + n ≤ x) :
    memset m a c n x = m x := by
  rw [memset, if_neg (by omega)]

theorem load_memset_zero (m : Mem) {a n b : Nat} (hlo : a ≤ b) (w : Nat) (hhi : b + w ≤ a + n) :
    (memset m a 0 n).load b w = 0 := by
  induction w generalizing b with
  | zero => rfl
  | succ w ih =>
      have hbyte : memset m a 0 n b = 0 := if_pos ⟨hlo, by omega⟩
      rw [load, hbyte, ih (by omega) (by omega)]
      rfl

theorem copy_apply (m : Mem) (dst src n x : Nat) (h : x < dst ∨ dst + n ≤ x) :
    copy m dst src n x = m x := by
  rw [copy, if_neg (by omega)]

/-- The copied bytes. -/
theorem copy_add (m : Mem) (dst src n i : Nat) (h : i < n) :
    copy m dst src n (dst + i) = m (src + i) := by
  rw [copy, if_pos (by omega), Nat.add_sub_cancel_left]

end Mem

end Cs350
