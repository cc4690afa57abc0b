import Mathlib.Computability.Language

set_option autoImplicit false

/-! # Words that start in a language

`Starts L Q text`: some prefix of `text` is in the language `L`, and what comes after it satisfies
`Q`. A search with backtracking decides statements of this form, with the rest of the pattern as
`Q`. The rules say how the search goes through a product and a star. -/

namespace Cs350

open Computability

variable {α : Type*}

/-- Some prefix of `text` is in `L`, and `Q` holds of the rest. -/
def Starts (L : Language α) (Q : List α → Prop) (text : List α) : Prop :=
  ∃ w ∈ L, ∃ rest, text = w ++ rest ∧ Q rest

namespace Starts

variable {L M : Language α} {Q R : List α → Prop} {text : List α}

theorem congr (h : ∀ rest, Q rest ↔ R rest) : Starts L Q text ↔ Starts L R text := by
  simp only [Starts, h]

theorem one : Starts 1 Q text ↔ Q text := by
  constructor
  · intro h
    obtain ⟨w, hw, rest, htext, hrest⟩ := h
    rw [Language.mem_one] at hw
    rwa [htext, hw]
  · intro h
    exact ⟨[], Language.nil_mem_one, text, rfl, h⟩

theorem mul : Starts (L * M) Q text ↔ Starts L (Starts M Q) text := by
  constructor
  · intro h
    obtain ⟨w, hw, rest, htext, hrest⟩ := h
    obtain ⟨u, hu, v, hv, huv⟩ := Language.mem_mul.1 hw
    refine ⟨u, hu, v ++ rest, ?_, v, hv, rest, rfl, hrest⟩
    rw [htext, ← huv, List.append_assoc]
  · intro h
    obtain ⟨u, hu, mid, htext, v, hv, rest, hmid, hrest⟩ := h
    refine ⟨u ++ v, Language.mem_mul.2 ⟨u, hu, v, hv, rfl⟩, rest, ?_, hrest⟩
    rw [htext, hmid, List.append_assoc]

theorem add : Starts (L + M) Q text ↔ Starts L Q text ∨ Starts M Q text := by
  simp only [Starts, Language.mem_add, or_and_right, exists_or]

/-- A star is unfolded once. -/
theorem kstar : Starts L∗ Q text ↔ Q text ∨ Starts L (Starts L∗ Q) text := by
  rw [← mul, ← one (Q := Q), ← add, Language.one_add_self_mul_kstar_eq_kstar]

end Starts

end Cs350
