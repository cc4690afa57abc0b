import Mathlib.Data.Nat.ModEq
import Mathlib.Logic.Function.Basic

set_option autoImplicit false

/-! # Ring buffers with counters that wrap

A buffer of `c` places, and counters of 32 bits that are only ever incremented: the element of
index `i` is in place `i % c`. `dist i j` is how far `j` is ahead of `i`, and `contents data c i j`
are the elements with the indices from `i` up to `j`. Nothing here needs the counters to stay below
`2 ^ 32`; all that is asked is that `c` divides `2 ^ 32`. -/

namespace Cs350.RingBuffer

variable {α : Type}

/-! ## Counters -/

/-- How far `j` is ahead of `i`. -/
def dist (i j : UInt32) : Nat := (j - i).toNat

theorem dist_eq (i j : UInt32) : dist i j = (2 ^ 32 - i.toNat + j.toNat) % 2 ^ 32 :=
  UInt32.toNat_sub ..

@[simp] theorem dist_self (i : UInt32) : dist i i = 0 := by
  rw [dist, UInt32.sub_self]
  rfl

theorem dist_eq_zero {i j : UInt32} : dist i j = 0 ↔ i = j := by
  constructor
  · intro h
    have hi := i.toNat_lt
    have hj := j.toNat_lt
    rw [dist_eq] at h
    exact UInt32.toNat_inj.1 (by omega)
  · rintro rfl
    exact dist_self i

theorem succ_toNat (i : UInt32) : (i + 1).toNat = (i.toNat + 1) % 2 ^ 32 := UInt32.toNat_add ..

/-- The counter ahead goes on. -/
theorem dist_succ_right {i j : UInt32} (h : dist i j + 1 < 2 ^ 32) :
    dist i (j + 1) = dist i j + 1 := by
  have hi := i.toNat_lt
  have hj := j.toNat_lt
  rw [dist_eq] at h ⊢
  rw [dist_eq, succ_toNat]
  omega

/-- The counter behind goes on. -/
theorem dist_succ_left {i j : UInt32} (h : i ≠ j) : dist (i + 1) j + 1 = dist i j := by
  have hi := i.toNat_lt
  have hj := j.toNat_lt
  have hne : i.toNat ≠ j.toNat := fun heq => h (UInt32.toNat_inj.1 heq)
  rw [dist_eq, dist_eq, succ_toNat]
  omega

/-- The counter ahead goes back. -/
theorem dist_pred_right {i j : UInt32} (h : i ≠ j) : dist i (j - 1) + 1 = dist i j := by
  have hi := i.toNat_lt
  have hj := j.toNat_lt
  have hne : i.toNat ≠ j.toNat := fun heq => h (UInt32.toNat_inj.1 heq)
  have hpred : (j - 1).toNat = (2 ^ 32 - 1 + j.toNat) % 2 ^ 32 := UInt32.toNat_sub ..
  rw [dist_eq, dist_eq, hpred]
  omega

theorem eq_add_iff {i j c : UInt32} : j = i + c ↔ dist i j = c.toNat := by
  have hi := i.toNat_lt
  have hj := j.toNat_lt
  have hc := c.toNat_lt
  have hadd : (i + c).toNat = (i.toNat + c.toNat) % 2 ^ 32 := UInt32.toNat_add ..
  rw [dist_eq, ← UInt32.toNat_inj, hadd]
  omega

theorem dist_add {i j k : UInt32} (h : dist i j ≤ dist i k) :
    dist i k = dist i j + dist j k := by
  have hi := i.toNat_lt
  have hj := j.toNat_lt
  have hk := k.toNat_lt
  rw [dist_eq, dist_eq] at h
  rw [dist_eq, dist_eq, dist_eq]
  omega

/-! ## Places -/

/-- The place of index `i`. -/
def slot (c i : UInt32) : Nat := (i % c).toNat

/-- Two indices less than a whole round apart have different places. -/
theorem slot_ne {c i j : UInt32} (hc : c.toNat ∣ 2 ^ 32) (h : dist i j < c.toNat) (hij : i ≠ j) :
    slot c i ≠ slot c j := by
  intro heq
  have hpos : dist i j ≠ 0 := fun hzero => hij (dist_eq_zero.1 hzero)
  have hj : j.toNat = (i.toNat + dist i j) % 2 ^ 32 := by
    have hi := i.toNat_lt
    have hj := j.toNat_lt
    rw [dist_eq]
    omega
  unfold slot at heq
  rw [UInt32.toNat_mod, UInt32.toNat_mod, hj, Nat.mod_mod_of_dvd _ hc] at heq
  have hmod : i.toNat + 0 ≡ i.toNat + dist i j [MOD c.toNat] := heq
  have hzero := Nat.ModEq.add_left_cancel' _ hmod
  unfold Nat.ModEq at hzero
  rw [Nat.zero_mod, Nat.mod_eq_of_lt h] at hzero
  exact hpos hzero.symm

/-! ## Contents -/

/-- The elements with the `n` indices from `i` on. -/
def window (data : Nat → α) (c i : UInt32) : Nat → List α
  | 0 => []
  | n + 1 => data (slot c i) :: window data c (i + 1) n

/-- The elements with the indices from `i` up to `j`. -/
def contents (data : Nat → α) (c i j : UInt32) : List α := window data c i (dist i j)

variable {data : Nat → α} {c i j k : UInt32}

theorem length_window (n : Nat) : (window data c i n).length = n := by
  induction n generalizing i with
  | zero => rfl
  | succ n ih => rw [window, List.length_cons, ih]

@[simp] theorem length_contents : (contents data c i j).length = dist i j := length_window _

@[simp] theorem contents_self : contents data c i i = [] := by
  rw [contents, dist_self]
  rfl

/-- The first element. -/
theorem contents_cons (h : i ≠ j) :
    contents data c i j = data (slot c i) :: contents data c (i + 1) j := by
  rw [contents, ← dist_succ_left h]
  rfl

theorem window_add (m n : Nat) :
    window data c i (m + n) = window data c i m ++ window data c (i + UInt32.ofNat m) n := by
  induction m generalizing i with
  | zero =>
      show _ = [] ++ window data c (i + 0) n
      rw [Nat.zero_add, UInt32.add_zero, List.nil_append]
  | succ m ih =>
      have hidx : i + 1 + UInt32.ofNat m = i + UInt32.ofNat (m + 1) := by
        rw [UInt32.add_assoc, UInt32.add_comm 1, ← UInt32.ofNat_one, ← UInt32.ofNat_add]
      rw [Nat.add_right_comm, window, ih, window, List.cons_append, hidx]

/-- An index in between. -/
theorem contents_append (h : dist i j ≤ dist i k) :
    contents data c i k = contents data c i j ++ contents data c j k := by
  have hj : i + UInt32.ofNat (dist i j) = j := by
    rw [dist, UInt32.ofNat_toNat, UInt32.add_comm, UInt32.sub_add_cancel]
  rw [contents, dist_add h, window_add, hj]
  rfl

/-- The last element. -/
theorem contents_snoc (h : i ≠ j) :
    contents data c i j = contents data c i (j - 1) ++ [data (slot c (j - 1))] := by
  have hpred := dist_pred_right h
  have hlast : contents data c (j - 1) j = [data (slot c (j - 1))] := by
    have hne : j - 1 ≠ j := fun heq => by
      rw [heq] at hpred
      omega
    rw [contents_cons hne, UInt32.sub_add_cancel, contents_self]
  rw [contents_append (j := j - 1) (by omega), hlast]

theorem window_update (hc : c.toNat ∣ 2 ^ 32) {n : Nat} (hn : n ≤ dist i j) (h : dist i j < c.toNat)
    (x : α) : window (Function.update data (slot c j) x) c i n = window data c i n := by
  induction n generalizing i with
  | zero => rfl
  | succ n ih =>
      have hij : i ≠ j := fun heq => by
        rw [heq, dist_self] at hn
        omega
      have hnext := dist_succ_left hij
      rw [window, window, ih (by omega) (by omega),
        Function.update_of_ne (slot_ne hc h hij)]

/-- A new element at index `k` does not touch those before it. -/
theorem contents_update (hc : c.toNat ∣ 2 ^ 32) (hjk : dist i j ≤ dist i k)
    (h : dist i k < c.toNat) (x : α) :
    contents (Function.update data (slot c k) x) c i j = contents data c i j :=
  window_update hc hjk h x

/-- One more element. -/
theorem contents_push (hc : c.toNat ∣ 2 ^ 32) (h : dist i j < c.toNat) (x : α) :
    contents (Function.update data (slot c j) x) c i (j + 1) = contents data c i j ++ [x] := by
  have hlt := c.toNat_lt
  have hne : i ≠ j + 1 := fun heq => by
    have hsucc := dist_succ_right (i := i) (j := j) (by omega)
    rw [← heq, dist_self] at hsucc
    omega
  have hj : j + 1 - 1 = j := UInt32.add_sub_cancel ..
  rw [contents_snoc hne, hj, contents_update hc le_rfl h, Function.update_self]

end Cs350.RingBuffer
