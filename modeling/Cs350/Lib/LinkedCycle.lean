import Mathlib.Data.List.Cycle

set_option autoImplicit false

/-! # Circular linked lists

`LinkedCycle next l` says that the links lead through the nodes of `l`, in order, and from the last
one back to the first. A node is put in or taken out behind another one; `walk` is the loop of a
program that follows the links until it has found what it looks for. -/

namespace Cs350

/-- Following `next` leads through the nodes of `l`, and back to the first one. -/
def LinkedCycle {α : Type} (next : α → α) (l : List α) : Prop :=
  Cycle.Chain (fun a b => next a = b) (l : Cycle α)

/-- Follow `next` from `a` to a node at which to stop. -/
def walk {α : Type} (next : α → α) (stop : α → Bool) : Nat → α → Option α
  | 0, _ => none
  | fuel + 1, a => if stop a then some a else walk next stop fuel (next a)

theorem walk_mono {α : Type} {next : α → α} {stop : α → Bool} {fuel fuel' : Nat} {a b : α}
    (hle : fuel ≤ fuel') (h : walk next stop fuel a = some b) :
    walk next stop fuel' a = some b := by
  induction fuel generalizing a fuel' with
  | zero => exact nomatch h
  | succ fuel ih =>
      obtain ⟨fuel', rfl⟩ : ∃ k, fuel' = k + 1 := ⟨fuel' - 1, by omega⟩
      rw [walk] at h ⊢
      split_ifs at h ⊢ with hstop
      · exact h
      · exact ih (by omega) h

namespace LinkedCycle

variable {α : Type} {next next' : α → α} {a b c : α} {l l₁ l₂ : List α}

/-- A path of links depends on the links of its nodes, but for the last one. -/
theorem chain_congr (h : List.IsChain (fun a b => next a = b) (l ++ [c]))
    (heq : ∀ b ∈ l, next' b = next b) : List.IsChain (fun a b => next' a = b) (l ++ [c]) := by
  induction l with
  | nil => simp
  | cons a l ih =>
      have hrest := ih h.tail fun b hb => heq b (by simp [hb])
      refine hrest.cons fun b hb => ?_
      rw [heq a (by simp)]
      exact h.rel_head? hb

theorem rotate (h : LinkedCycle next (l₁ ++ l₂)) : LinkedCycle next (l₂ ++ l₁) := by
  have heq : ((l₁ ++ l₂ : List α) : Cycle α) = ((l₂ ++ l₁ : List α) : Cycle α) :=
    Cycle.coe_eq_coe.2 List.isRotated_append
  rwa [LinkedCycle, ← heq]

theorem congr (h : LinkedCycle next l) (heq : ∀ b ∈ l, next' b = next b) :
    LinkedCycle next' l := by
  cases l with
  | nil => trivial
  | cons a l => exact chain_congr (l := a :: l) h heq

theorem next_eq (h : LinkedCycle next (a :: b :: l)) : next a = b := h.rel_head? rfl

theorem next_eq_self (h : LinkedCycle next [a]) : next a = a := h.rel_head? rfl

theorem next_mem (h : LinkedCycle next l) (ha : a ∈ l) : next a ∈ l := by
  obtain ⟨l₁, l₂, rfl⟩ := List.append_of_mem ha
  have hrot : LinkedCycle next (a :: (l₂ ++ l₁)) := h.rotate
  cases hl : l₂ ++ l₁ with
  | nil =>
      rw [hl] at hrot
      rw [hrot.next_eq_self]
      exact ha
  | cons b l =>
      rw [hl] at hrot
      have hb : b ∈ l₂ ++ l₁ := by simp [hl]
      rw [hrot.next_eq]
      rcases List.mem_append.1 hb with hb | hb <;> simp [hb]

/-- A node is put in behind `a`. -/
theorem insert (h : LinkedCycle next (a :: l)) (hb : next' b = next a) (ha : next' a = b)
    (heq : ∀ c ∈ l, next' c = next c) : LinkedCycle next' (a :: b :: l) := by
  have hrest : List.IsChain (fun a b => next' a = b) (l ++ [a]) := chain_congr h.tail heq
  have htail : List.IsChain (fun a b => next' a = b) (b :: (l ++ [a])) := hrest.cons fun c hc => by
    rw [hb]
    exact h.rel_head? hc
  exact htail.cons fun c hc => by
    rw [ha]
    exact Option.some.inj hc

/-- The node behind `a` is taken out. -/
theorem erase (h : LinkedCycle next (a :: b :: l)) (ha : next' a = next b)
    (heq : ∀ c ∈ l, next' c = next c) : LinkedCycle next' (a :: l) := by
  have hrest : List.IsChain (fun a b => next' a = b) (l ++ [a]) := chain_congr h.tail.tail heq
  exact hrest.cons fun c hc => by
    rw [ha]
    exact h.tail.rel_head? hc

/-- The link of `a` to the node behind it is set to the node after that. -/
theorem unlink [DecidableEq α] (h : LinkedCycle next (a :: b :: l)) (hl : a ∉ l) :
    LinkedCycle (Function.update next a (next b)) (a :: l) := by
  refine h.erase ?_ fun c hc => ?_
  · rw [Function.update_self]
  · rw [Function.update_of_ne (ne_of_mem_of_not_mem hc hl)]

/-- A node has one node before it. -/
theorem injOn (h : LinkedCycle next l) (hnodup : l.Nodup) (ha : a ∈ l) (hb : b ∈ l)
    (heq : next a = next b) : a = b := by
  obtain ⟨l₁, l₂, rfl⟩ := List.append_of_mem ha
  have hrot : LinkedCycle next (a :: (l₂ ++ l₁)) := h.rotate
  have hperm : (l₁ ++ a :: l₂).Perm (a :: (l₂ ++ l₁)) := List.perm_append_comm
  have hnodup := hperm.nodup_iff.1 hnodup
  have hb := hperm.mem_iff.1 hb
  clear h ha hperm
  generalize l₂ ++ l₁ = l at hrot hnodup hb
  by_contra hne
  have hbl : b ∈ l := (List.mem_cons.1 hb).resolve_left (Ne.symm hne)
  obtain ⟨l₃, l₄, rfl⟩ := List.append_of_mem hbl
  -- the node behind `b` comes later than the one behind `a`
  have hlater : next b ∈ l₄ ++ [a] := by
    have hcycle : LinkedCycle next (b :: (l₄ ++ (a :: l₃))) := by
      have hsplit : LinkedCycle next ((a :: l₃) ++ b :: l₄) := hrot
      exact hsplit.rotate
    cases l₄ with
    | nil => simp [hcycle.next_eq]
    | cons c l₄ => simp [hcycle.next_eq]
  rw [← heq] at hlater
  cases l₃ with
  | nil =>
      have hab : next a = b := hrot.next_eq
      rw [hab] at hlater
      simp at hlater hnodup
      tauto
  | cons c l₃ =>
      have hac : next a = c := hrot.next_eq
      rw [hac] at hlater
      simp at hlater hnodup
      tauto

/-- **The walk around the cycle stops**, at the latest when it is all around. -/
theorem walk_eq (h : LinkedCycle next (a :: l)) (stop : α → Bool) (hex : ∃ b ∈ a :: l, stop b)
    {fuel : Nat} (hfuel : l.length < fuel) :
    ∃ b ∈ a :: l, walk next stop fuel a = some b ∧ stop b := by
  have hchain : List.IsChain (fun a b => next a = b) (a :: l) := h.left_of_append
  clear h
  induction l generalizing a fuel with
  | nil =>
      obtain ⟨fuel, rfl⟩ : ∃ k, fuel = k + 1 := ⟨fuel - 1, by omega⟩
      have hstop : stop a := by simpa using hex
      exact ⟨a, by simp, if_pos hstop, hstop⟩
  | cons b l ih =>
      obtain ⟨fuel, rfl⟩ : ∃ k, fuel = k + 1 := ⟨fuel - 1, by omega⟩
      by_cases hstop : stop a
      · exact ⟨a, by simp, if_pos hstop, hstop⟩
      · have hab : next a = b := hchain.rel_head? rfl
        have hex' : ∃ c ∈ b :: l, stop c := by simpa [hstop] using hex
        obtain ⟨c, hc, hwalk, hstopc⟩ := ih hex' (by simpa using hfuel) hchain.tail
        refine ⟨c, by simp [hc], ?_, hstopc⟩
        rw [walk, if_neg hstop, hab]
        exact hwalk

end LinkedCycle

end Cs350
