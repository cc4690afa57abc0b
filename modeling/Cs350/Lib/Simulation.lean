import Cs350.Lib.Transition
import Mathlib.Data.List.Forall2

set_option autoImplicit false

/-! # Simulation of runs

A relation between the states of two systems that every step keeps relates whole runs: the second
system has a run with the labels of the first, through related states. -/

namespace Cs350.Transition

variable {σ τ α : Type*} {step : σ → α → σ → Prop} {step' : τ → α → τ → Prop}

/-- Two traces have the same labels, and related states. -/
def Matches (R : σ → τ → Prop) (tr : List (σ × α)) (tr' : List (τ × α)) : Prop :=
  List.Forall₂ (fun x y => R x.1 y.1 ∧ y.2 = x.2) tr tr'

end Cs350.Transition
