import Cs350.Lib.ByteMemory
import Mathlib.Data.List.Nodup

set_option autoImplicit false

/-! # Lists threaded through memory

An allocator of blocks of one size keeps the address of the next free block in the first word of
each. `Threaded w m a ps` says that the blocks from `a` on are `ps`, with words of `w` bytes, and that
a null pointer ends the list. -/

namespace Cs350

inductive Threaded (w : Nat) (m : Mem) : Nat → List Nat → Prop
  | nil : Threaded w m 0 []
  | cons {p : Nat} {ps : List Nat} : p ≠ 0 → Threaded w m (m.load p w) ps → Threaded w m p (p :: ps)

namespace Threaded

variable {w : Nat} {m m' : Mem} {a : Nat} {ps qs : List Nat}

/-- Only the first words of the blocks matter. -/
theorem congr (h : Threaded w m a ps) (hm : ∀ p ∈ ps, m'.load p w = m.load p w) :
    Threaded w m' a ps := by
  induction h with
  | nil => exact nil
  | @cons p ps hp _ ih =>
      refine cons hp ?_
      rw [hm p (List.mem_cons_self ..)]
      exact ih fun q hq => hm q (List.mem_cons_of_mem p hq)

/-- The memory and the first block determine the list. -/
theorem unique (h : Threaded w m a ps) (h' : Threaded w m a qs) : ps = qs := by
  induction h generalizing qs with
  | nil =>
      cases h' with
      | nil => rfl
      | cons hp => exact absurd rfl hp
  | cons hp _ ih =>
      cases h' with
      | nil => exact absurd rfl hp
      | cons _ h' => rw [ih h']

theorem ne_zero (h : Threaded w m a ps) : ∀ p ∈ ps, p ≠ 0 := by
  induction h with
  | nil => exact fun p hp => absurd hp List.not_mem_nil
  | cons hp _ ih => exact List.forall_mem_cons.2 ⟨hp, ih⟩

theorem head_eq_zero (h : Threaded w m a ps) : a = 0 ↔ ps = [] := by
  cases h with
  | nil => simp
  | cons hp => simp [hp]

theorem head_lt (h : Threaded w m a ps) {n : Nat} (hn : 0 < n) (hps : ∀ p ∈ ps, p < n) : a < n := by
  cases h with
  | nil => exact hn
  | cons => exact hps a (List.mem_cons_self ..)

/-- The blocks one after the other. -/
theorem head_eq (h : Threaded w m a ps) {p : Nat} (hp : ps[0]? = some p) : a = p := by
  cases h with
  | nil => cases hp
  | cons => exact Option.some.inj hp

theorem load_eq (h : Threaded w m a ps) {i p q : Nat} (hp : ps[i]? = some p)
    (hq : ps[i + 1]? = some q) : m.load p w = q := by
  induction h generalizing i with
  | nil => cases hp
  | @cons p' ps _ h ih =>
      cases i with
      | zero =>
          cases hp
          exact h.head_eq hq
      | succ i => exact ih hp hq

end Threaded

end Cs350
