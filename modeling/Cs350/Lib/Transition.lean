import Mathlib.Data.List.Basic
import Mathlib.Data.List.Induction

set_option autoImplicit false

/-! # Labelled transition systems: runs and invariants

A system is a relation `step s a s'` (state, label, next state). `Run step s₀ tr s` is a finite
run from `s₀` to `s`; its trace `tr` lists every intermediate state together with the label taken
from it, so that a statement about *every state reached* and one about *every step made* can be
written over the same run.

The three rules below are the ones developments use: an invariant of every step is an invariant
of every run, an invariant that only some steps keep holds along the runs made of those steps, and
a property that such steps keep and every other step breaks characterises the runs. -/

namespace Cs350.Transition

variable {σ α : Type*} {step : σ → α → σ → Prop}

/-- A finite run from `s₀`, with the states left and the labels taken on the way. -/
inductive Run (step : σ → α → σ → Prop) (s₀ : σ) : List (σ × α) → σ → Prop
  | nil : Run step s₀ [] s₀
  | snoc {tr : List (σ × α)} {s s' : σ} {a : α} :
      Run step s₀ tr s → step s a s' → Run step s₀ (tr ++ [(s, a)]) s'

/-- `s` is reachable from `s₀`. -/
def Reachable (step : σ → α → σ → Prop) (s₀ s : σ) : Prop :=
  ∃ tr, Run step s₀ tr s

/-- The run visits only states that satisfy `P`. -/
def Along (P : σ → Prop) (tr : List (σ × α)) (s : σ) : Prop :=
  (∀ x ∈ tr, P x.1) ∧ P s

/-- A run along a concatenation of traces passes through a state in between. -/
theorem Run.split {s₀ s : σ} {tr₁ tr₂ : List (σ × α)} (hrun : Run step s₀ (tr₁ ++ tr₂) s) :
    ∃ u, Run step s₀ tr₁ u ∧ Run step u tr₂ s := by
  induction tr₂ using List.reverseRecOn generalizing s with
  | nil => exact ⟨s, by simpa using hrun, Run.nil⟩
  | append_singleton tr₂ x ih =>
      rw [← List.append_assoc] at hrun
      generalize htr : (tr₁ ++ tr₂) ++ [x] = tr at hrun
      cases hrun with
      | nil => simp at htr
      | @snoc tr' v _ a hrun hs =>
          obtain ⟨rfl, hx⟩ := List.append_inj' htr rfl
          rw [List.singleton_inj] at hx
          subst hx
          obtain ⟨u, h₁, h₂⟩ := ih hrun
          exact ⟨u, h₁, h₂.snoc hs⟩

/-- The last step of a run. -/
theorem Run.unsnoc {s₀ s s' : σ} {a : α} {tr : List (σ × α)} (hrun : Run step s₀ (tr ++ [(s, a)]) s') :
    Run step s₀ tr s ∧ step s a s' := by
  generalize htr : tr ++ [(s, a)] = tr' at hrun
  cases hrun with
  | nil => simp at htr
  | @snoc tr₁ v _ b hrun hs =>
      obtain ⟨rfl, hx⟩ := List.append_inj' htr rfl
      obtain ⟨rfl, rfl⟩ := Prod.mk.inj (List.singleton_inj.1 hx)
      exact ⟨hrun, hs⟩

/-- The first step of a run. -/
theorem Run.uncons {s₀ s s' : σ} {a : α} {tr : List (σ × α)} (hrun : Run step s₀ ((s, a) :: tr) s') :
    s = s₀ ∧ ∃ u, step s₀ a u ∧ Run step u tr s' := by
  obtain ⟨u, hfirst, hrest⟩ := Run.split (show Run step s₀ ([(s, a)] ++ tr) s' from hrun)
  obtain ⟨hnil, hs⟩ := Run.unsnoc (show Run step s₀ ([] ++ [(s, a)]) u from hfirst)
  generalize htr : ([] : List (σ × α)) = tr' at hnil
  cases hnil with
  | nil => exact ⟨rfl, u, hs, hrest⟩
  | snoc => simp at htr

/-- A state that a run leaves is the end of a shorter run. -/
theorem Run.of_mem {s₀ s : σ} {tr : List (σ × α)} (hrun : Run step s₀ tr s) {x : σ × α}
    (hx : x ∈ tr) : ∃ tr₁, Run step s₀ tr₁ x.1 ∧ tr₁ ⊆ tr := by
  induction hrun with
  | nil => exact absurd hx List.not_mem_nil
  | @snoc tr s s' a hrun hs ih =>
      rcases List.mem_append.1 hx with hx | hx
      · obtain ⟨tr₁, hrun₁, hsub⟩ := ih hx
        exact ⟨tr₁, hrun₁, fun y hy => List.mem_append_left _ (hsub hy)⟩
      · rw [List.mem_singleton.1 hx]
        exact ⟨tr, hrun, fun y hy => List.mem_append_left _ hy⟩

theorem Run.cons {s₀ s₁ s : σ} {a : α} {tr : List (σ × α)} (hs : step s₀ a s₁)
    (hrun : Run step s₁ tr s) : Run step s₀ ((s₀, a) :: tr) s := by
  induction hrun with
  | nil => exact Run.nil.snoc hs
  | snoc _ hlast ih => exact ih.snoc hlast

theorem Run.append {s₀ s₁ s : σ} {tr₁ tr₂ : List (σ × α)} (h₁ : Run step s₀ tr₁ s₁)
    (h₂ : Run step s₁ tr₂ s) : Run step s₀ (tr₁ ++ tr₂) s := by
  induction h₂ with
  | nil => simpa using h₁
  | snoc _ hlast ih =>
      rw [← List.append_assoc]
      exact ih.snoc hlast

theorem Run.mono {step' : σ → α → σ → Prop} {s₀ s : σ} {tr : List (σ × α)}
    (hrun : Run step s₀ tr s) (h : ∀ s a s', step s a s' → step' s a s') : Run step' s₀ tr s := by
  induction hrun with
  | nil => exact Run.nil
  | snoc _ hlast ih => exact ih.snoc (h _ _ _ hlast)

/-! ## Systems given by a function -/

/-- Take the labels in order, as long as there is a next state. -/
def play (next : σ → α → Option σ) (s : σ) : List α → Option (List (σ × α) × σ)
  | [] => some ([], s)
  | a :: as => (next s a).bind fun s' => (play next s' as).map fun r => ((s, a) :: r.1, r.2)

theorem play_run {next : σ → α → Option σ} {s s' : σ} {as : List α} {tr : List (σ × α)}
    (h : play next s as = some (tr, s')) :
    Run (fun s a s' => next s a = some s') s tr s' ∧ tr.map Prod.snd = as := by
  induction as generalizing s tr with
  | nil =>
      obtain ⟨rfl, rfl⟩ := Prod.mk.inj (Option.some.inj h)
      exact ⟨Run.nil, rfl⟩
  | cons a as ih =>
      obtain ⟨u, hu, hrest⟩ := Option.bind_eq_some_iff.1 h
      obtain ⟨⟨tr', v⟩, hplay, heq⟩ := Option.map_eq_some_iff.1 hrest
      obtain ⟨rfl, rfl⟩ := Prod.mk.inj heq
      obtain ⟨hrun, hlabels⟩ := ih hplay
      exact ⟨hrun.cons hu, by rw [List.map_cons, hlabels]⟩

/-! ## Invariants -/

theorem Run.invariant_of_steps {I : σ → Prop} {C : σ → α → Prop} {s₀ s : σ}
    {tr : List (σ × α)} (hrun : Run step s₀ tr s) (h₀ : I s₀)
    (hstep : ∀ s a s', I s → C s a → step s a s' → I s') (hC : ∀ x ∈ tr, C x.1 x.2) :
    Along I tr s := by
  induction hrun with
  | nil => exact ⟨by simp, h₀⟩
  | @snoc tr s s' a hrun hs ih =>
      obtain ⟨hall, hlast⟩ := ih (fun x hx => hC x (List.mem_append_left _ hx))
      refine ⟨fun x hx => ?_, hstep s a s' hlast (hC (s, a) (by simp)) hs⟩
      rcases List.mem_append.1 hx with hx | hx
      · exact hall x hx
      · rw [List.mem_singleton.1 hx]
        exact hlast

theorem Run.invariant {I : σ → Prop} {s₀ s : σ} {tr : List (σ × α)} (hrun : Run step s₀ tr s)
    (h₀ : I s₀) (hstep : ∀ s a s', I s → step s a s' → I s') : Along I tr s :=
  hrun.invariant_of_steps (C := fun _ _ => True) h₀ (fun s a s' hi _ => hstep s a s' hi)
    (fun _ _ => trivial)

theorem Reachable.invariant {I : σ → Prop} {s₀ s : σ} (h : Reachable step s₀ s) (h₀ : I s₀)
    (hstep : ∀ s a s', I s → step s a s' → I s') : I s := by
  obtain ⟨tr, hrun⟩ := h
  exact (hrun.invariant h₀ hstep).2

/-- **Characterisation of the safe runs.** If the steps that meet `C` keep the invariant, the
    invariant gives safety, and a step outside `C` makes the state unsafe at once, then a run is
    safe throughout exactly when all of its steps meet `C`. -/
theorem Run.along_iff {I P : σ → Prop} {C : σ → α → Prop} {s₀ s : σ} {tr : List (σ × α)}
    (hrun : Run step s₀ tr s) (h₀ : I s₀) (hP : ∀ s, I s → P s)
    (hgood : ∀ s a s', I s → C s a → step s a s' → I s')
    (hbad : ∀ s a s', I s → ¬ C s a → step s a s' → ¬ P s') :
    Along P tr s ↔ ∀ x ∈ tr, C x.1 x.2 := by
  constructor
  · -- as long as the states are safe, the invariant holds, so no step could be outside `C`
    suffices h : Along P tr s → I s ∧ ∀ x ∈ tr, C x.1 x.2 from fun hs => (h hs).2
    induction hrun with
    | nil => exact fun _ => ⟨h₀, by simp⟩
    | @snoc tr s s' a hrun hs ih =>
        rintro ⟨hall, hlast⟩
        obtain ⟨hI, hC⟩ := ih ⟨fun x hx => hall x (List.mem_append_left _ hx),
          hall (s, a) (by simp)⟩
        have hcond : C s a := by
          by_contra hne
          exact hbad s a s' hI hne hs hlast
        refine ⟨hgood s a s' hI hcond hs, fun x hx => ?_⟩
        rcases List.mem_append.1 hx with hx | hx
        · exact hC x hx
        · rw [List.mem_singleton.1 hx]
          exact hcond
  · intro hC
    obtain ⟨hall, hlast⟩ := hrun.invariant_of_steps h₀ hgood hC
    exact ⟨fun x hx => hP _ (hall x hx), hP _ hlast⟩

end Cs350.Transition
