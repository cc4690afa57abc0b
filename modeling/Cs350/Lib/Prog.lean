import Mathlib.Data.List.Basic

set_option autoImplicit false

/-! # Programs with state, failure and marks

`Prog ε ω σ α` is a computation that changes a state, may stop with an error, and leaves a mark at
chosen points of its execution. Marks do not influence the result: they let a specification speak
about the state in which a certain point of a program is passed.

`wp C E m s Q` is the correctness judgement: run from `s`, and provided every mark it leaves
satisfies `C`, the program either returns with a result and a state that satisfy `Q`, or stops with
an error in `E`. -/

namespace Cs350

/-- A computation over states `σ`, with errors `ε` and marks `ω`. -/
def Prog (ε ω σ α : Type) : Type :=
  σ → List ω × Except ε (α × σ)

namespace Prog

variable {ε ω σ τ α β : Type}

protected def bind (m : Prog ε ω σ α) (f : α → Prog ε ω σ β) : Prog ε ω σ β := fun s =>
  match m s with
  | (ws, .ok (a, s')) => (ws ++ (f a s').1, (f a s').2)
  | (ws, .error e) => (ws, .error e)

instance : Monad (Prog ε ω σ) where
  pure a := fun s => ([], .ok (a, s))
  bind := Prog.bind

/-- Sequencing is associative. -/
theorem bind_assoc {γ : Type} (m : Prog ε ω σ α) (f : α → Prog ε ω σ β) (g : β → Prog ε ω σ γ) :
    m >>= f >>= g = m >>= fun a => f a >>= g := by
  funext s
  show Prog.bind (Prog.bind m f) g s = Prog.bind m (fun a => Prog.bind (f a) g) s
  unfold Prog.bind
  rcases hm : m s with ⟨ws, e | ⟨a, s'⟩⟩
  · rfl
  · dsimp only
    rcases hf : f a s' with ⟨ws', e | ⟨b, s''⟩⟩
    · rfl
    · dsimp only
      rw [List.append_assoc]

/-- The current state. -/
def get : Prog ε ω σ σ := fun s => ([], .ok (s, s))

/-- Change the state. -/
def modify (f : σ → σ) : Prog ε ω σ Unit := fun s => ([], .ok ((), f s))

/-- Stop. -/
def stop (e : ε) : Prog ε ω σ α := fun _ => ([], .error e)

/-- Leave a mark that records the current state. -/
def mark (f : σ → ω) : Prog ε ω σ Unit := fun s => ([f s], .ok ((), s))

/-- Run a computation on a part of the state. -/
def zoom (part : τ → σ) (put : τ → σ → τ) (m : Prog ε ω σ α) : Prog ε ω τ α := fun t =>
  match m (part t) with
  | (ws, .ok (a, s)) => (ws, .ok (a, put t s))
  | (ws, .error e) => (ws, .error e)

/-- Run a computation for every element of a list, in order. -/
def each {ι : Type} (f : ι → Prog ε ω σ Unit) : List ι → Prog ε ω σ Unit
  | [] => pure ()
  | i :: is => f i >>= fun _ => each f is

/-! ## Correctness -/

def wp (C : ω → Prop) (E : ε → Prop) (m : Prog ε ω σ α) (s : σ) (Q : α → σ → Prop) : Prop :=
  (∀ w ∈ (m s).1, C w) →
    match (m s).2 with
    | .ok (a, s') => Q a s'
    | .error e => E e

/-- What a run gives whose marks satisfy the condition. -/
theorem wp_elim {C : ω → Prop} {E : ε → Prop} {m : Prog ε ω σ α} {s : σ} {Q : α → σ → Prop}
    (h : wp C E m s Q) (hC : ∀ w ∈ (m s).1, C w) :
    match (m s).2 with
    | .ok (a, s') => Q a s'
    | .error e => E e := h hC

section Runs

variable {C : ω → Prop} {E : ε → Prop} {m : Prog ε ω σ α} {s s' : σ} {a : α} {Q : α → σ → Prop}

/-- What a run gives that returns. -/
theorem wp_of_run (h : wp C E m s Q) (hC : ∀ w ∈ (m s).1, C w) (hrun : (m s).2 = .ok (a, s')) :
    Q a s' := by
  have hpost := h hC
  rw [hrun] at hpost
  exact hpost

/-- A program that cannot stop returns. -/
theorem wp_runs (h : wp C E m s Q) (hC : ∀ w ∈ (m s).1, C w) (hE : ∀ e, ¬ E e) :
    ∃ a s', (m s).2 = .ok (a, s') ∧ Q a s' := by
  rcases hrun : (m s).2 with e | ⟨a, s'⟩
  · have hpost := h hC
    rw [hrun] at hpost
    exact absurd hpost (hE e)
  · exact ⟨a, s', rfl, wp_of_run h hC hrun⟩

end Runs

section Rules

variable {C : ω → Prop} {E : ε → Prop} {m : Prog ε ω σ α} {f : α → Prog ε ω σ β} {s s' : σ}
  {a : α} {P Q : α → σ → Prop} {R : β → σ → Prop}

theorem wp_mono (h : wp C E m s P) (hPQ : ∀ a s', P a s' → Q a s') : wp C E m s Q := by
  intro hC
  have hpost := h hC
  split
  next a s' heq =>
    rw [heq] at hpost
    exact hPQ a s' hpost
  next e heq =>
    rw [heq] at hpost
    exact hpost

/-- Two specifications of one program. -/
theorem wp_and (hP : wp C E m s P) (hQ : wp C E m s Q) :
    wp C E m s fun a s' => P a s' ∧ Q a s' := by
  intro hC
  have hpostP := hP hC
  have hpostQ := hQ hC
  split
  next a s' heq =>
    rw [heq] at hpostP hpostQ
    exact ⟨hpostP, hpostQ⟩
  next e heq =>
    rw [heq] at hpostP
    exact hpostP

/-- More errors are allowed. -/
theorem wp_errors {E' : ε → Prop} (h : wp C E m s Q) (hE : ∀ e, E e → E' e) : wp C E' m s Q := by
  intro hC
  have hpost := h hC
  split
  next a s' heq =>
    rw [heq] at hpost
    exact hpost
  next e heq =>
    rw [heq] at hpost
    exact hE e hpost

/-- Two specifications of one program that allow different errors: only those that both allow can
    happen. -/
theorem wp_and_errors {E' : ε → Prop} (hP : wp C E m s P) (hQ : wp C E' m s Q) :
    wp C (fun e => E e ∧ E' e) m s fun a s' => P a s' ∧ Q a s' := by
  intro hC
  have hpostP := hP hC
  have hpostQ := hQ hC
  split
  next a s' heq =>
    rw [heq] at hpostP hpostQ
    exact ⟨hpostP, hpostQ⟩
  next e heq =>
    rw [heq] at hpostP hpostQ
    exact ⟨hpostP, hpostQ⟩

/-- Sequencing. -/
theorem wp_bind (hm : wp C E m s P) (hf : ∀ a s', P a s' → wp C E (f a) s' R) :
    wp C E (m >>= f) s R := by
  show wp C E (Prog.bind m f) s R
  unfold wp Prog.bind at *
  intro hC
  rcases hrun : m s with ⟨ws, ⟨e⟩ | ⟨a, s'⟩⟩
  · simp only [hrun] at hm hC ⊢
    exact hm hC
  · simp only [hrun, List.mem_append] at hm hC ⊢
    exact hf a s' (hm fun w hw => hC w (Or.inl hw)) fun w hw => hC w (Or.inr hw)

theorem wp_pure (h : Q a s) : wp C E (pure a : Prog ε ω σ α) s Q :=
  fun _ => h

theorem wp_get {Q : σ → σ → Prop} (h : Q s s) : wp C E (get : Prog ε ω σ σ) s Q :=
  fun _ => h

theorem wp_modify {g : σ → σ} {Q : Unit → σ → Prop} (h : Q () (g s)) :
    wp C E (modify g : Prog ε ω σ Unit) s Q :=
  fun _ => h

theorem wp_stop {e : ε} (h : E e) : wp C E (stop e : Prog ε ω σ α) s Q :=
  fun _ => h

/-- A mark may be assumed to satisfy the condition on marks. -/
theorem wp_mark {g : σ → ω} {Q : Unit → σ → Prop} (h : C (g s) → Q () s) :
    wp C E (mark g : Prog ε ω σ Unit) s Q :=
  fun hC => h (hC _ List.mem_cons_self)

theorem wp_ite {c : Prop} [Decidable c] {m' : Prog ε ω σ α} (hpos : c → wp C E m s Q)
    (hneg : ¬ c → wp C E m' s Q) : wp C E (if c then m else m') s Q := by
  split_ifs with h
  · exact hpos h
  · exact hneg h

/-- A loop over a list: the invariant speaks about the elements that are left. -/
theorem wp_each {ι : Type} {g : ι → Prog ε ω σ Unit} {I : List ι → σ → Prop}
    (hstep : ∀ i is s, I (i :: is) s → wp C E (g i) s fun _ s' => I is s') (is : List ι)
    (h : I is s) : wp C E (each g is) s fun _ s' => I [] s' := by
  induction is generalizing s with
  | nil => exact wp_pure h
  | cons i is ih => exact wp_bind (hstep i is s h) fun _ s' h' => ih h'

/-! The same at the start of a sequence. -/

theorem wp_get_bind {f : σ → Prog ε ω σ β} (h : wp C E (f s) s R) : wp C E (get >>= f) s R := by
  apply wp_bind (P := fun a s' => a = s ∧ s' = s) (wp_get ⟨rfl, rfl⟩)
  rintro _ _ ⟨rfl, rfl⟩
  exact h

theorem wp_modify_bind {g : σ → σ} {f : Unit → Prog ε ω σ β} (h : wp C E (f ()) (g s) R) :
    wp C E (modify g >>= f) s R := by
  apply wp_bind (P := fun _ s' => s' = g s) (wp_modify rfl)
  rintro _ _ rfl
  exact h

theorem wp_mark_bind {g : σ → ω} {f : Unit → Prog ε ω σ β} (h : C (g s) → wp C E (f ()) s R) :
    wp C E (mark g >>= f) s R := by
  apply wp_bind (P := fun _ s' => s' = s ∧ C (g s)) (wp_mark fun hC => ⟨rfl, hC⟩)
  rintro _ _ ⟨rfl, hC⟩
  exact h hC

/-- A computation on a part of the state, seen from the whole. -/
theorem wp_zoom {part : τ → σ} {put : τ → σ → τ} {t : τ} {Q : α → τ → Prop}
    (h : wp C E m (part t) fun a s' => Q a (put t s')) : wp C E (zoom part put m) t Q := by
  unfold wp zoom at *
  intro hC
  rcases hrun : m (part t) with ⟨ws, ⟨e⟩ | ⟨a, s'⟩⟩
  · simp only [hrun] at h hC ⊢
    exact h hC
  · simp only [hrun] at h hC ⊢
    exact h hC

end Rules

-- specifications are used through the rules, and never by running the program
attribute [irreducible] wp

end Prog

end Cs350
