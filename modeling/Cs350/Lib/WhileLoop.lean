import Mathlib.Logic.Function.Basic

set_option autoImplicit false

/-! # While loops

A loop with a condition and a body, for a bounded number of rounds. It ends if a measure goes down
in every round; it does not end if the condition is kept up by what every round leaves. -/

namespace Cs350

variable {σ : Type*}

/-- `while(cond) body`, with `none` if `n` rounds are not enough. -/
def whileLoop (cond : σ → Bool) (body : σ → σ) : Nat → σ → Option σ
  | 0, _ => none
  | n + 1, s => if cond s then whileLoop cond body n (body s) else some s

namespace whileLoop

variable {cond : σ → Bool} {body : σ → σ} {s t : σ}

theorem of_true {n : Nat} (h : cond s) :
    whileLoop cond body (n + 1) s = whileLoop cond body n (body s) := if_pos h

theorem of_false {n : Nat} (h : ¬ cond s) : whileLoop cond body (n + 1) s = some s := if_neg h

/-- A loop ends if a measure goes down, and the invariant holds then. -/
theorem terminates (inv : σ → Prop) (μ : σ → Nat)
    (hbody : ∀ s, inv s → cond s → inv (body s) ∧ μ (body s) < μ s) {n : Nat} (hs : inv s)
    (hn : μ s < n) : ∃ t, whileLoop cond body n s = some t ∧ inv t ∧ ¬ cond t := by
  induction n generalizing s with
  | zero => omega
  | succ n ih =>
      by_cases hc : cond s
      · obtain ⟨hinv, hlt⟩ := hbody s hs hc
        rw [of_true hc]
        exact ih hinv (by omega)
      · exact ⟨s, of_false hc, hs, hc⟩

/-- A loop whose rounds keep its condition does not end. -/
theorem diverges (inv : σ → Prop) (hbody : ∀ s, inv s → cond s ∧ inv (body s)) (hs : inv s)
    (n : Nat) : whileLoop cond body n s = none := by
  induction n generalizing s with
  | zero => rfl
  | succ n ih => rw [of_true (hbody s hs).1, ih (hbody s hs).2]

end whileLoop

end Cs350
