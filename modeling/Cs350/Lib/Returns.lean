import Cs350.Lib.Agrees

set_option autoImplicit false

/-! # What a program returns

`returns m s Q` is the partial correctness judgement that also sees the marks: if the program, run
from `s`, returns, then the marks it has left, its result and its state satisfy `Q`. It says nothing
about runs that stop with an error. -/

namespace Cs350.Prog

variable {ε ω σ τ α β : Type}

def returns (m : Prog ε ω σ α) (s : σ) (Q : List ω → α → σ → Prop) : Prop :=
  ∀ ws a s', m s = (ws, .ok (a, s')) → Q ws a s'

section Rules

variable {C : ω → Prop} {E : ε → Prop} {m : Prog ε ω σ α} {f : α → Prog ε ω σ β} {s : σ} {a : α}
  {P Q : List ω → α → σ → Prop} {R : List ω → β → σ → Prop}

theorem returns_mono (h : returns m s P) (hPQ : ∀ ws a s', P ws a s' → Q ws a s') :
    returns m s Q :=
  fun ws a s' hrun => hPQ ws a s' (h ws a s' hrun)

theorem returns_and (hP : returns m s P) (hQ : returns m s Q) :
    returns m s fun ws a s' => P ws a s' ∧ Q ws a s' :=
  fun ws a s' hrun => ⟨hP ws a s' hrun, hQ ws a s' hrun⟩

theorem returns_elim {ws : List ω} {s' : σ} (h : returns m s Q) (hrun : m s = (ws, .ok (a, s'))) :
    Q ws a s' := h ws a s' hrun

/-- The outcome is that of the run. -/
theorem returns_run (m : Prog ε ω σ α) (s : σ) :
    returns m s fun ws a s' => m s = (ws, .ok (a, s')) :=
  fun _ _ _ hrun => hrun

theorem returns_true (m : Prog ε ω σ α) (s : σ) : returns m s fun _ _ _ => True :=
  fun _ _ _ _ => trivial

/-- A specification that asks nothing of the marks. -/
theorem returns_of_wp {Q : α → σ → Prop} (h : wp C E m s Q) (hC : ∀ w, C w) :
    returns m s fun _ a s' => Q a s' := by
  intro ws a s' hrun
  have hpost := wp_elim h fun w _ => hC w
  rw [hrun] at hpost
  exact hpost

/-- A specification of the program without its marks. -/
theorem returns_of_agrees {ω' : Type} {C' : ω' → Prop} {m' : Prog ε ω' σ α} {Q : α → σ → Prop}
    (hagrees : Agrees m m') (h : wp C' E m' s Q) (hC : ∀ w, C' w) :
    returns m s fun _ a s' => Q a s' := by
  intro ws a s' hrun
  have hpost := wp_elim h fun w _ => hC w
  rw [← hagrees s, hrun] at hpost
  exact hpost

/-- A part without marks. -/
theorem returns_unmarked {C' : Empty → Prop} {m' : Prog ε Empty σ α} {Q : α → σ → Prop}
    (h : wp C' E m' s Q) :
    returns (unmarked m' : Prog ε ω σ α) s fun ws a s' => ws = [] ∧ Q a s' := by
  intro ws a s' hrun
  obtain ⟨rfl, hout⟩ := Prod.mk.inj hrun
  refine ⟨rfl, ?_⟩
  have hpost := wp_elim h fun w _ => w.elim
  rw [hout] at hpost
  exact hpost

/-- Sequencing: the marks of the second program come after those of the first. -/
theorem returns_bind (hm : returns m s P)
    (hf : ∀ ws a s', P ws a s' → returns (f a) s' fun ws' b s'' => R (ws ++ ws') b s'') :
    returns (m >>= f) s R := by
  intro ws b s'' hrun
  change Prog.bind m f s = _ at hrun
  unfold Prog.bind at hrun
  rcases hfirst : m s with ⟨ws₁, ⟨e⟩ | ⟨a, s'⟩⟩
  · rw [hfirst] at hrun
    exact nomatch (Prod.mk.inj hrun).2
  · rw [hfirst] at hrun
    obtain ⟨rfl, hsecond⟩ := Prod.mk.inj hrun
    exact hf ws₁ a s' (hm ws₁ a s' hfirst) _ b s'' (Prod.ext rfl hsecond)

theorem returns_pure (h : Q [] a s) : returns (pure a : Prog ε ω σ α) s Q := by
  rintro _ _ _ ⟨⟩
  exact h

theorem returns_modify {g : σ → σ} {Q : List ω → Unit → σ → Prop} (h : Q [] () (g s)) :
    returns (modify g : Prog ε ω σ Unit) s Q := by
  rintro _ _ _ ⟨⟩
  exact h

theorem returns_mark {g : σ → ω} {Q : List ω → Unit → σ → Prop} (h : Q [g s] () s) :
    returns (mark g : Prog ε ω σ Unit) s Q := by
  rintro _ _ _ ⟨⟩
  exact h

theorem returns_stop (e : ε) : returns (stop e : Prog ε ω σ α) s Q := by
  rintro _ _ _ ⟨⟩

theorem returns_ite {c : Prop} [Decidable c] {m' : Prog ε ω σ α} (hpos : c → returns m s Q)
    (hneg : ¬ c → returns m' s Q) : returns (if c then m else m') s Q := by
  split_ifs with h
  · exact hpos h
  · exact hneg h

/-! The same at the start of a sequence. -/

theorem returns_get_bind {f : σ → Prog ε ω σ β} (h : returns (f s) s R) :
    returns (get >>= f) s R := by
  refine returns_bind (P := fun ws a s' => ws = [] ∧ a = s ∧ s' = s) ?_ ?_
  · rintro _ _ _ ⟨⟩
    exact ⟨rfl, rfl, rfl⟩
  · rintro _ _ _ ⟨rfl, rfl, rfl⟩
    exact h

theorem returns_modify_bind {g : σ → σ} {f : Unit → Prog ε ω σ β} (h : returns (f ()) (g s) R) :
    returns (modify g >>= f) s R := by
  refine returns_bind (P := fun ws _ s' => ws = [] ∧ s' = g s) ?_ ?_
  · exact returns_modify ⟨rfl, rfl⟩
  · rintro _ _ _ ⟨rfl, rfl⟩
    exact h

theorem returns_mark_bind {g : σ → ω} {f : Unit → Prog ε ω σ β}
    (h : returns (f ()) s fun ws b s' => R (g s :: ws) b s') : returns (mark g >>= f) s R := by
  refine returns_bind (P := fun ws _ s' => ws = [g s] ∧ s' = s) ?_ ?_
  · rintro _ _ _ ⟨⟩
    exact ⟨rfl, rfl⟩
  · rintro _ _ _ ⟨rfl, rfl⟩
    exact h

/-- A computation on a part of the state, seen from the whole. -/
theorem returns_zoom {part : τ → σ} {put : τ → σ → τ} {t : τ} {Q : List ω → α → τ → Prop}
    (h : returns m (part t) fun ws a s' => Q ws a (put t s')) :
    returns (zoom part put m) t Q := by
  intro ws a t' hrun
  unfold zoom at hrun
  rcases hm : m (part t) with ⟨ws', ⟨e⟩ | ⟨a', s'⟩⟩
  · rw [hm] at hrun
    exact nomatch (Prod.mk.inj hrun).2
  · rw [hm] at hrun
    obtain ⟨rfl, hout⟩ := Prod.mk.inj hrun
    obtain ⟨rfl, rfl⟩ := Prod.mk.inj (Except.ok.inj hout)
    exact h _ _ _ hm

end Rules

-- used through the rules, like `wp`
attribute [irreducible] returns

end Cs350.Prog
