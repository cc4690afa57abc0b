import Mathlib.Logic.Function.Basic

set_option autoImplicit false

/-! # Who holds what

A ledger says, for every place `x` that can hold a resource, which resource it holds. It is sound
for a set of resources `area` and a record `used` of those that are taken if no resource is held
at two places, what is held lies in the area, and the record is right about the area.

Taking a resource that is not in use and giving back one that is held keep a ledger sound. -/

namespace Cs350

variable {ω β : Type}

structure Ledger (area used : β → Prop) (own : ω → Option β) : Prop where
  /-- Nothing is held twice. -/
  once : ∀ x y b, own x = some b → own y = some b → x = y
  /-- What is held lies in the area. -/
  within : ∀ x b, own x = some b → area b
  /-- In the area, exactly what is held is in use. -/
  covered : ∀ b, area b → (used b ↔ ∃ x, own x = some b)

namespace Ledger

variable {area used : β → Prop} {own : ω → Option β} {x : ω} {b : β}

theorem used_of_own (h : Ledger area used own) (hx : own x = some b) : used b :=
  (h.covered b (h.within x b hx)).2 ⟨x, hx⟩

theorem ne_of_not_used (h : Ledger area used own) (hfree : ¬ used b) {c : β}
    (hx : own x = some c) : c ≠ b := by
  rintro rfl
  exact hfree (h.used_of_own hx)

variable [DecidableEq ω]

/-- Take a resource that is not in use. -/
theorem take (h : Ledger area used own) (hb : area b) (hfree : ¬ used b) (hx : own x = none)
    {used' : β → Prop} (hused : ∀ c, used' c ↔ c = b ∨ used c) :
    Ledger area used' (Function.update own x (some b)) where
  once y z c hy hz := by
    by_cases hyx : y = x <;> by_cases hzx : z = x
    · rw [hyx, hzx]
    · subst hyx
      rw [Function.update_self] at hy
      rw [Function.update_of_ne hzx] at hz
      exact absurd (Option.some.inj hy).symm (h.ne_of_not_used hfree hz)
    · subst hzx
      rw [Function.update_self] at hz
      rw [Function.update_of_ne hyx] at hy
      exact absurd (Option.some.inj hz).symm (h.ne_of_not_used hfree hy)
    · rw [Function.update_of_ne hyx] at hy
      rw [Function.update_of_ne hzx] at hz
      exact h.once y z c hy hz
  within y c hy := by
    by_cases hyx : y = x
    · subst hyx
      rw [Function.update_self] at hy
      exact Option.some.inj hy ▸ hb
    · rw [Function.update_of_ne hyx] at hy
      exact h.within y c hy
  covered c hc := by
    rw [hused]
    constructor
    · rintro (rfl | hu)
      · exact ⟨x, Function.update_self ..⟩
      · obtain ⟨y, hy⟩ := (h.covered c hc).1 hu
        have hyx : y ≠ x := by
          rintro rfl
          rw [hx] at hy
          exact nomatch hy
        exact ⟨y, by rw [Function.update_of_ne hyx, hy]⟩
    · rintro ⟨y, hy⟩
      by_cases hyx : y = x
      · subst hyx
        rw [Function.update_self] at hy
        exact Or.inl (Option.some.inj hy).symm
      · rw [Function.update_of_ne hyx] at hy
        exact Or.inr (h.used_of_own hy)

theorem of_update_none {y : ω} {c : β} (h : Function.update own x none y = some c) :
    y ≠ x ∧ own y = some c := by
  by_cases hyx : y = x
  · subst hyx
    rw [Function.update_self] at h
    exact nomatch h
  · rw [Function.update_of_ne hyx] at h
    exact ⟨hyx, h⟩

/-- Give back a resource that is held. -/
theorem give (h : Ledger area used own) (hx : own x = some b) {used' : β → Prop}
    (hused : ∀ c, used' c ↔ c ≠ b ∧ used c) :
    Ledger area used' (Function.update own x none) where
  once y z c hy hz := h.once y z c (of_update_none hy).2 (of_update_none hz).2
  within y c hy := h.within y c (of_update_none hy).2
  covered c hc := by
    rw [hused]
    constructor
    · rintro ⟨hcb, hu⟩
      obtain ⟨y, hy⟩ := (h.covered c hc).1 hu
      have hyx : y ≠ x := by
        rintro rfl
        exact hcb (Option.some.inj (hy.symm.trans hx))
      exact ⟨y, by rw [Function.update_of_ne hyx, hy]⟩
    · rintro ⟨y, hy⟩
      obtain ⟨hyx, hy⟩ := of_update_none hy
      refine ⟨fun hcb => ?_, h.used_of_own hy⟩
      exact hyx (h.once y x b (hcb ▸ hy) hx)

end Ledger

end Cs350
