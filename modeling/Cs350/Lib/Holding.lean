import Mathlib.Algebra.BigOperators.Group.Finset.Basic
import Mathlib.Algebra.BigOperators.Group.Multiset.Basic
import Mathlib.Data.Multiset.AddSub

set_option autoImplicit false

/-! # Holdings as multisets

What a family of places holds is a multiset: the sum over the places of what each one holds. That
nothing is held twice is then one statement, that the sum has no duplicates, and an operation that
hands things over is an equation between sums. -/

namespace Cs350

variable {ι β M : Type}

/-- What a place that may be empty holds. -/
def held (o : Option β) : Multiset β := o.elim 0 ({·})

@[simp] theorem held_none : held (none : Option β) = 0 := rfl

@[simp] theorem held_some (b : β) : held (some b) = {b} := rfl

@[simp] theorem mem_held {o : Option β} {b : β} : b ∈ held o ↔ o = some b := by
  cases o with
  | none => simp
  | some a => simp [eq_comm]

/-- Changing one summand. -/
theorem sum_add_of_eq_off [DecidableEq ι] [AddCommMonoid M] {s : Finset ι} {f g : ι → M} {a : ι}
    (ha : a ∈ s) (h : ∀ x, x ≠ a → g x = f x) :
    ∑ x ∈ s, g x + f a = ∑ x ∈ s, f x + g a := by
  have hrest : ∑ x ∈ s.erase a, g x = ∑ x ∈ s.erase a, f x :=
    Finset.sum_congr rfl (fun x hx => h x (Finset.ne_of_mem_erase hx))
  rw [← Finset.add_sum_erase s g ha, ← Finset.add_sum_erase s f ha, hrest,
    add_assoc, add_comm _ (f a), add_comm (g a)]

/-- What two different places hold is different if nothing is held twice. -/
theorem ne_of_nodup_sum [DecidableEq ι] {s : Finset ι} {f : ι → Multiset β}
    (h : (∑ x ∈ s, f x).Nodup) {i j : ι} (hi : i ∈ s) (hj : j ∈ s) (hij : i ≠ j) {a b : β}
    (ha : a ∈ f i) (hb : b ∈ f j) : a ≠ b := by
  rw [← Finset.add_sum_erase s f hi, Multiset.nodup_add] at h
  have hb' : b ∈ ∑ x ∈ s.erase i, f x :=
    Multiset.mem_sum.2 ⟨j, Finset.mem_erase.2 ⟨Ne.symm hij, hj⟩, hb⟩
  rintro rfl
  exact Multiset.disjoint_left.1 h.2.2 ha hb'

/-! ## Numbered places -/

/-- What the places `0, …, n - 1` hold. -/
def holdings (n : Nat) (f : Nat → Option β) : Multiset β := ∑ i ∈ Finset.range n, held (f i)

namespace holdings

variable {n : Nat} {f g : Nat → Option β}

theorem mem_iff {b : β} : b ∈ holdings n f ↔ ∃ i < n, f i = some b := by
  simp only [holdings, Multiset.mem_sum, Finset.mem_range, mem_held]

theorem ext (h : ∀ i < n, g i = f i) : holdings n g = holdings n f :=
  Finset.sum_congr rfl fun i hi => by rw [h i (Finset.mem_range.1 hi)]

theorem eq_zero (h : ∀ i < n, f i = none) : holdings n f = 0 :=
  Finset.sum_eq_zero fun i hi => by rw [h i (Finset.mem_range.1 hi), held_none]

/-- Changing what one place holds. -/
theorem update_add {i : Nat} (hi : i < n) (h : ∀ j, j ≠ i → g j = f j) :
    holdings n g + held (f i) = holdings n f + held (g i) :=
  sum_add_of_eq_off (f := fun j => held (f j)) (g := fun j => held (g j)) (Finset.mem_range.2 hi)
    fun j hj => congrArg held (h j hj)

theorem ne_of_nodup (h : (holdings n f).Nodup) {i j : Nat} (hi : i < n) (hj : j < n) (hij : i ≠ j)
    {a b : β} (ha : f i = some a) (hb : f j = some b) : a ≠ b :=
  ne_of_nodup_sum h (Finset.mem_range.2 hi) (Finset.mem_range.2 hj) hij (mem_held.2 ha)
    (mem_held.2 hb)

theorem eq_list_sum (n : Nat) (f : Nat → Option β) :
    holdings n f = ((List.range n).map fun i => held (f i)).sum := rfl

end holdings

-- the sums may be long: they are used through the lemmas above
attribute [irreducible] holdings

end Cs350
