import Cs350.Lib.Agrees

set_option autoImplicit false

/-! # One program refines another

`refines X E m s m' t Q` compares a run of `m` from `s` with the run of `m'` from `t`. If `m` returns,
so does `m'`, and the two results and states are related by `Q`. If `m` stops, then either with an
error in `X`, of which `m'` knows nothing, or `m'` stops as well, with an error that corresponds to it.

The rules follow both programs at once; where only one of them has something to do, there is a rule
for that side. A part of `m` of which a specification is known is replaced by it (`refines_of_wp`). -/

namespace Cs350.Prog

variable {ε ε' ε'' ω ω' σ τ α β γ δ : Type}

/-- The errors of a part, as errors of the whole. -/
def mapError (f : ε → ε'') (m : Prog ε ω σ α) : Prog ε'' ω σ α := fun s =>
  match m s with
  | (ws, .ok r) => (ws, .ok r)
  | (ws, .error e) => (ws, .error (f e))

def refines (X : ε → Prop) (E : ε → ε' → Prop) (m : Prog ε ω σ α) (s : σ) (m' : Prog ε' ω' τ β)
    (t : τ) (Q : α → σ → β → τ → Prop) : Prop :=
  match (m s).2 with
  | .ok (a, s') => ∃ b t', (m' t).2 = .ok (b, t') ∧ Q a s' b t'
  | .error e => X e ∨ ∃ e', (m' t).2 = .error e' ∧ E e e'

section Runs

variable {X : ε → Prop} {E : ε → ε' → Prop} {m : Prog ε ω σ α} {s s' : σ} {m' : Prog ε' ω' τ β}
  {t : τ} {Q : α → σ → β → τ → Prop} {a : α} {e : ε}

theorem refines_ok (h : refines X E m s m' t Q) (hrun : (m s).2 = .ok (a, s')) :
    ∃ b t', (m' t).2 = .ok (b, t') ∧ Q a s' b t' := by
  unfold refines at h
  rw [hrun] at h
  exact h

end Runs

section Rules

variable {X : ε → Prop} {E : ε → ε' → Prop} {m : Prog ε ω σ α} {s : σ} {m' : Prog ε' ω' τ β} {t : τ}
  {f : α → Prog ε ω σ γ} {f' : β → Prog ε' ω' τ δ} {P Q : α → σ → β → τ → Prop}
  {R : γ → σ → δ → τ → Prop} {a : α} {b : β}

theorem refines_mono (h : refines X E m s m' t P) (hPQ : ∀ a s' b t', P a s' b t' → Q a s' b t') :
    refines X E m s m' t Q := by
  unfold refines at *
  split
  next a s' heq =>
    rw [heq] at h
    obtain ⟨b, t', hrun, hpost⟩ := h
    exact ⟨b, t', hrun, hPQ a s' b t' hpost⟩
  next e heq =>
    rw [heq] at h
    exact h

/-- Sequencing. -/
theorem refines_bind (hm : refines X E m s m' t P)
    (hf : ∀ a s' b t', P a s' b t' → refines X E (f a) s' (f' b) t' R) :
    refines X E (m >>= f) s (m' >>= f') t R := by
  show refines X E (Prog.bind m f) s (Prog.bind m' f') t R
  unfold refines Prog.bind at *
  rcases hrun : m s with ⟨ws, ⟨e⟩ | ⟨a, s'⟩⟩
  · rw [hrun] at hm
    dsimp only at hm ⊢
    rcases hm with hX | ⟨e', hrun', hE⟩
    · exact .inl hX
    · refine .inr ⟨e', ?_, hE⟩
      rcases hm' : m' t with ⟨ws', r'⟩
      rw [hm'] at hrun'
      obtain rfl : r' = .error e' := hrun'
      rfl
  · rw [hrun] at hm
    dsimp only at hm ⊢
    obtain ⟨b, t', hrun', hpost⟩ := hm
    rcases hm' : m' t with ⟨ws', r'⟩
    rw [hm'] at hrun'
    obtain rfl : r' = .ok (b, t') := hrun'
    exact hf a s' b t' hpost

theorem refines_pure (h : Q a s b t) :
    refines X E (pure a : Prog ε ω σ α) s (pure b : Prog ε' ω' τ β) t Q :=
  ⟨b, t, rfl, h⟩

/-- Both stop. -/
theorem refines_stop {e : ε} {e' : ε'} (h : E e e') :
    refines X E (stop e : Prog ε ω σ α) s (stop e' : Prog ε' ω' τ β) t Q :=
  .inr ⟨e', rfl, h⟩

theorem refines_ite {c c' : Prop} [Decidable c] [Decidable c'] {n : Prog ε ω σ α}
    {n' : Prog ε' ω' τ β} (hc : c ↔ c') (hpos : c → refines X E m s m' t Q)
    (hneg : ¬ c → refines X E n s n' t Q) :
    refines X E (if c then m else n) s (if c' then m' else n') t Q := by
  by_cases h : c
  · rw [if_pos h, if_pos (hc.1 h)]
    exact hpos h
  · rw [if_neg h, if_neg fun h' => h (hc.2 h')]
    exact hneg h

/-- What a specification of the first program says, against the run of the second. -/
theorem refines_of_wp {C : ω → Prop} {I : α → σ → Prop} (h : wp C X m s I) (hC : ∀ w, C w)
    (hright : ∀ a s', I a s' → ∃ b t', (m' t).2 = .ok (b, t') ∧ Q a s' b t') :
    refines X E m s m' t Q := by
  have hpost := wp_elim h fun w _ => hC w
  unfold refines
  split
  next a s' heq =>
    rw [heq] at hpost
    exact hright a s' hpost
  next e heq =>
    rw [heq] at hpost
    exact .inl hpost

/-- With what else is known of the first program. -/
theorem refines_and {C : ω → Prop} {Y : ε → Prop} {I : α → σ → Prop} (hm : refines X E m s m' t P)
    (h : wp C Y m s I) (hC : ∀ w, C w) :
    refines X E m s m' t fun a s' b t' => P a s' b t' ∧ I a s' := by
  have hpost := wp_elim h fun w _ => hC w
  unfold refines at *
  split
  next a s' heq =>
    rw [heq] at hm hpost
    obtain ⟨b, t', hrun, hP⟩ := hm
    exact ⟨b, t', hrun, hP, hpost⟩
  next e heq =>
    rw [heq] at hm
    exact hm

/-- The run of the second program is all that counts. -/
theorem refines_congr {m'' : Prog ε' ω' τ β} (h : refines X E m s m'' t Q)
    (hrun : (m' t).2 = (m'' t).2) : refines X E m s m' t Q := by
  unfold refines at *
  rwa [hrun]

/-! Steps of both at the start of a sequence. -/

theorem refines_get_bind {f : σ → Prog ε ω σ γ} {f' : τ → Prog ε' ω' τ δ}
    (h : refines X E (f s) s (f' t) t R) : refines X E (get >>= f) s (get >>= f') t R :=
  refines_bind (P := fun a s' b t' => (a = s ∧ s' = s) ∧ b = t ∧ t' = t)
    ⟨t, t, rfl, ⟨rfl, rfl⟩, rfl, rfl⟩ (by rintro _ _ _ _ ⟨⟨rfl, rfl⟩, rfl, rfl⟩; exact h)

theorem refines_modify {g : σ → σ} {g' : τ → τ} {Q : Unit → σ → Unit → τ → Prop}
    (h : Q () (g s) () (g' t)) :
    refines X E (modify g : Prog ε ω σ Unit) s (modify g' : Prog ε' ω' τ Unit) t Q :=
  ⟨(), g' t, rfl, h⟩

/-! Steps of one of them. -/

theorem refines_left {C : ω → Prop} {I : α → σ → Prop} (hm : wp C X m s I) (hC : ∀ w, C w)
    {m' : Prog ε' ω' τ δ} (hf : ∀ a s', I a s' → refines X E (f a) s' m' t R) :
    refines X E (m >>= f) s m' t R := by
  have hpost := wp_elim hm fun w _ => hC w
  show refines X E (Prog.bind m f) s m' t R
  unfold refines Prog.bind
  rcases hrun : m s with ⟨ws, ⟨e⟩ | ⟨a, s'⟩⟩
  · rw [hrun] at hpost
    dsimp only
    exact Or.inl hpost
  · rw [hrun] at hpost
    dsimp only
    have hrest := hf a s' hpost
    unfold refines at hrest
    exact hrest

theorem refines_get_left {f : σ → Prog ε ω σ γ} {m' : Prog ε' ω' τ δ}
    (h : refines X E (f s) s m' t R) : refines X E (get >>= f) s m' t R := h

theorem refines_modify_left {g : σ → σ} {f : Unit → Prog ε ω σ γ} {m' : Prog ε' ω' τ δ}
    (h : refines X E (f ()) (g s) m' t R) : refines X E (modify g >>= f) s m' t R := h

theorem refines_right {m : Prog ε ω σ γ} {t' : τ} (hrun : (m' t).2 = .ok (b, t'))
    (h : refines X E m s (f' b) t' R) : refines X E m s (m' >>= f') t R := by
  have hbind : ((m' >>= f') t).2 = (f' b t').2 := by
    show (Prog.bind m' f' t).2 = _
    unfold Prog.bind
    rcases hm' : m' t with ⟨ws', r'⟩
    rw [hm'] at hrun
    obtain rfl : r' = .ok (b, t') := hrun
    rfl
  unfold refines at *
  rwa [hbind]

end Rules

/-! ## Errors of a part -/

section MapError

variable {C : ω → Prop} {X : ε → Prop} {E : ε → ε' → Prop} {X' : ε'' → Prop} {E' : ε'' → ε' → Prop}
  {g : ε → ε''} {m : Prog ε ω σ α} {s : σ} {m' : Prog ε' ω' τ β} {t : τ}
  {Q : α → σ → β → τ → Prop} {I : α → σ → Prop}

theorem refines_mapError (h : refines X E m s m' t Q) (hX : ∀ e, X e → X' (g e))
    (hE : ∀ e e', E e e' → E' (g e) e') : refines X' E' (mapError g m) s m' t Q := by
  unfold refines mapError at *
  rcases hrun : m s with ⟨ws, ⟨e⟩ | ⟨a, s'⟩⟩
  · rw [hrun] at h
    exact h.imp (hX e) fun ⟨e', hrun', hee⟩ => ⟨e', hrun', hE e e' hee⟩
  · rw [hrun] at h
    exact h

theorem wp_mapError (h : wp C X m s I) (hX : ∀ e, X e → X' (g e)) :
    wp C X' (mapError g m) s I := by
  unfold wp mapError at *
  rcases hrun : m s with ⟨ws, ⟨e⟩ | ⟨a, s'⟩⟩
  · simp only [hrun] at h ⊢
    exact fun hC => hX e (h hC)
  · simp only [hrun] at h ⊢
    exact h

end MapError

-- used through the rules, like `wp`
attribute [irreducible] refines

end Cs350.Prog
