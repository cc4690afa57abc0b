import Mathlib.Data.List.Basic
import Mathlib.Logic.Function.Basic

set_option autoImplicit false

/-! # Sequences of writes

A store is a function from addresses to values, and a device performs a list of writes to it in
order. A crash cuts the list short, so what matters about a list of writes is what each of its
prefixes does: it leaves the other addresses alone (`applyWrites_apply_of_notMem`), and a later
list that writes all the same addresses makes it forgotten (`applyWrites_absorb`), which is why a
redo procedure may be interrupted and started again. -/

namespace Cs350.Writes

variable {α β : Type*} [DecidableEq α]

/-- The store after the writes, performed from left to right. -/
def applyWrites (ws : List (α × β)) (d : α → β) : α → β :=
  ws.foldl (fun d w => Function.update d w.1 w.2) d

@[simp] theorem applyWrites_nil (d : α → β) : applyWrites [] d = d := rfl

@[simp] theorem applyWrites_cons (w : α × β) (ws : List (α × β)) (d : α → β) :
    applyWrites (w :: ws) d = applyWrites ws (Function.update d w.1 w.2) := rfl

theorem applyWrites_append (ws ws' : List (α × β)) (d : α → β) :
    applyWrites (ws ++ ws') d = applyWrites ws' (applyWrites ws d) := by
  rw [applyWrites, List.foldl_append]
  rfl

/-- Writes change only the addresses they are made to. -/
theorem applyWrites_apply_of_notMem {ws : List (α × β)} (d : α → β) {a : α}
    (h : ∀ w ∈ ws, w.1 ≠ a) : applyWrites ws d a = d a := by
  induction ws generalizing d with
  | nil => rfl
  | cons w ws ih =>
      have hne : a ≠ w.1 := fun heq => h w List.mem_cons_self heq.symm
      rw [applyWrites_cons, ih _ (fun w' hw' => h w' (List.mem_cons_of_mem _ hw')),
        Function.update_of_ne hne]

/-- If all writes to `a` write the same value and there is one, that value is there afterwards. -/
theorem applyWrites_apply_of_mem {ws : List (α × β)} (d : α → β) {a : α} {v : β}
    (hmem : ∃ w ∈ ws, w.1 = a) (hval : ∀ w ∈ ws, w.1 = a → w.2 = v) :
    applyWrites ws d a = v := by
  induction ws generalizing d with
  | nil =>
      obtain ⟨w, hw, -⟩ := hmem
      cases hw
  | cons w ws ih =>
      rw [applyWrites_cons]
      by_cases hlater : ∃ w' ∈ ws, w'.1 = a
      · exact ih _ hlater (fun w' hw' => hval w' (List.mem_cons_of_mem _ hw'))
      · push Not at hlater
        rw [applyWrites_apply_of_notMem _ hlater]
        obtain ⟨w', hw', ha⟩ := hmem
        rcases List.mem_cons.1 hw' with rfl | hw'
        · rw [ha, Function.update_self]
          exact hval w' List.mem_cons_self ha
        · exact absurd ha (hlater w' hw')

/-- The value at an address depends on the store before only if nothing is written there. -/
theorem applyWrites_congr {ws : List (α × β)} {d d' : α → β} {a : α}
    (h : (∀ w ∈ ws, w.1 ≠ a) → d a = d' a) : applyWrites ws d a = applyWrites ws d' a := by
  induction ws generalizing d d' with
  | nil => exact h (by simp)
  | cons w ws ih =>
      rw [applyWrites_cons, applyWrites_cons]
      apply ih
      intro hlater
      by_cases hw : a = w.1
      · rw [hw, Function.update_self, Function.update_self]
      · rw [Function.update_of_ne hw, Function.update_of_ne hw]
        apply h
        intro w' hw'
        rcases List.mem_cons.1 hw' with rfl | hw'
        · exact fun heq => hw heq.symm
        · exact hlater w' hw'

/-- Earlier writes to addresses that are all written again are forgotten. -/
theorem applyWrites_absorb {ws ws' : List (α × β)} (d : α → β)
    (h : ∀ w ∈ ws, ∃ w' ∈ ws', w'.1 = w.1) :
    applyWrites ws' (applyWrites ws d) = applyWrites ws' d := by
  funext a
  apply applyWrites_congr
  intro hne
  apply applyWrites_apply_of_notMem
  intro w hw heq
  obtain ⟨w', hw', heq'⟩ := h w hw
  exact hne w' hw' (heq'.trans heq)

/-- A list of writes is idempotent, also after any part of it. -/
theorem applyWrites_take (ws : List (α × β)) (k : Nat) (d : α → β) :
    applyWrites ws (applyWrites (ws.take k) d) = applyWrites ws d :=
  applyWrites_absorb d (fun w hw => ⟨w, List.mem_of_mem_take hw, rfl⟩)

end Cs350.Writes
