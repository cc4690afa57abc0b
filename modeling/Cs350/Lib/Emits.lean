import Cs350.Lib.Prog

set_option autoImplicit false

/-! # The marks of a program

`emits m s Q B` speaks about the marks of every run from `s`, also of one that stops: if the program
returns, its marks, its result and its state satisfy `Q`, and if it stops with an error, its marks
satisfy `B`. -/

namespace Cs350.Prog

variable {ε ω σ α β : Type}

def emits (m : Prog ε ω σ α) (s : σ) (Q : List ω → α → σ → Prop) (B : List ω → Prop) : Prop :=
  match m s with
  | (ws, .ok (a, s')) => Q ws a s'
  | (ws, .error _) => B ws

section Rules

variable {m : Prog ε ω σ α} {f : α → Prog ε ω σ β} {s : σ} {a : α} {P Q : List ω → α → σ → Prop}
  {R : List ω → β → σ → Prop} {B B' : List ω → Prop}

theorem emits_mono (h : emits m s P B) (hPQ : ∀ ws a s', P ws a s' → Q ws a s')
    (hB : ∀ ws, B ws → B' ws) : emits m s Q B' := by
  unfold emits at *
  rcases hrun : m s with ⟨ws, e | ⟨a, s'⟩⟩
  · rw [hrun] at h
    exact hB ws h
  · rw [hrun] at h
    exact hPQ ws a s' h

/-- What holds of the marks in any case. -/
theorem emits_marks (h : emits m s (fun ws _ _ => B ws) B) : B (m s).1 := by
  unfold emits at h
  rcases hrun : m s with ⟨ws, e | ⟨a, s'⟩⟩
  · rwa [hrun] at h
  · rwa [hrun] at h

/-- Sequencing: the marks of the second program come after those of the first. -/
theorem emits_bind (hm : emits m s P B)
    (hf : ∀ ws a s', P ws a s' →
      emits (f a) s' (fun ws' b s'' => R (ws ++ ws') b s'') fun ws' => B (ws ++ ws')) :
    emits (m >>= f) s R B := by
  unfold emits at hm
  show emits (Prog.bind m f) s R B
  unfold emits Prog.bind
  rcases hrun : m s with ⟨ws, e | ⟨a, s'⟩⟩
  · rwa [hrun] at hm
  · rw [hrun] at hm
    have hrest := hf ws a s' hm
    unfold emits at hrest
    rcases hrun' : f a s' with ⟨ws', e | ⟨b, s''⟩⟩
    · simp only [hrun'] at hrest ⊢
      exact hrest
    · simp only [hrun'] at hrest ⊢
      exact hrest

theorem emits_pure (h : Q [] a s) : emits (pure a : Prog ε ω σ α) s Q B := h

theorem emits_stop {e : ε} (h : B []) : emits (stop e : Prog ε ω σ α) s Q B := h

theorem emits_modify_bind {g : σ → σ} {f : Unit → Prog ε ω σ β} (h : emits (f ()) (g s) R B) :
    emits (modify g >>= f) s R B :=
  emits_bind (P := fun ws _ s' => ws = [] ∧ s' = g s) ⟨rfl, rfl⟩ fun _ _ _ ⟨hws, hs⟩ => by
    subst hws hs
    exact h

theorem emits_mark_bind {g : σ → ω} {f : Unit → Prog ε ω σ β}
    (h : emits (f ()) s (fun ws b s' => R (g s :: ws) b s') fun ws => B (g s :: ws)) :
    emits (mark g >>= f) s R B :=
  emits_bind (P := fun ws _ s' => ws = [g s] ∧ s' = s) ⟨rfl, rfl⟩ fun _ _ _ ⟨hws, hs⟩ => by
    subst hws hs
    exact h

theorem emits_get_bind {f : σ → Prog ε ω σ β} (h : emits (f s) s R B) :
    emits (get >>= f) s R B :=
  emits_bind (P := fun ws a s' => ws = [] ∧ a = s ∧ s' = s) ⟨rfl, rfl, rfl⟩
    fun _ _ _ ⟨hws, ha, hs⟩ => by
      subst hws ha hs
      exact h

end Rules

end Cs350.Prog
