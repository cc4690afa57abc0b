import Mathlib.Data.List.Nodup
import Mathlib.Logic.Function.Basic
import Mathlib.Tactic.Common

set_option autoImplicit false

/-! # Singly linked queues

A queue is a pointer to its first node and a link from each node to the next one. `Holds q l` says
that the links lead through the nodes of `l`, in order, to the end. Putting a node in at the end is
the walk over the links that programs make, with a bound on its length; it may not end if the node
is in the queue already. -/

namespace Cs350

structure LinkedQueue (α : Type) where
  first : Option α
  next : α → Option α

namespace LinkedQueue

variable {α : Type}

/-- Following `next` from `p` goes through the nodes `l`, to the end. -/
def Chain (next : α → Option α) : Option α → List α → Prop
  | p, [] => p = none
  | p, a :: l => p = some a ∧ Chain next (next a) l

/-- The nodes in the queue. -/
structure Holds (q : LinkedQueue α) (l : List α) : Prop where
  chain : Chain q.next q.first l
  nodup : l.Nodup

/-- The last node that can be reached from `a`. -/
def lastFrom (next : α → Option α) : Nat → α → Option α
  | 0, _ => none
  | fuel + 1, a =>
      match next a with
      | none => some a
      | some b => lastFrom next fuel b

section Ops

variable [DecidableEq α]

/-- Put `a` in at the end. -/
def enqueue (fuel : Nat) (q : LinkedQueue α) (a : α) : Option (LinkedQueue α) :=
  let next := Function.update q.next a none
  match q.first with
  | none => some { first := some a, next := next }
  | some b =>
      (lastFrom next fuel b).map fun last =>
        { first := q.first, next := Function.update next last (some a) }

/-- Take the first node out. -/
def dequeue (q : LinkedQueue α) (a : α) : LinkedQueue α := { q with first := q.next a }

end Ops

section Lemmas

variable {next next' : α → Option α} {p : Option α} {a b : α} {l : List α} {q : LinkedQueue α}

theorem Chain.congr (h : Chain next p l) (heq : ∀ b ∈ l, next' b = next b) :
    Chain next' p l := by
  induction l generalizing p with
  | nil => exact h
  | cons b l ih =>
      obtain ⟨rfl, hrest⟩ := h
      refine ⟨rfl, ?_⟩
      rw [heq b (by simp)]
      exact ih hrest fun c hc => heq c (by simp [hc])

/-- There is one list of nodes. -/
theorem Chain.unique {l' : List α} (h : Chain next p l) (h' : Chain next p l') : l = l' := by
  induction l generalizing p l' with
  | nil =>
      cases l' with
      | nil => rfl
      | cons b l' => exact nomatch h.symm.trans h'.1
  | cons a l ih =>
      obtain ⟨rfl, hrest⟩ := h
      cases l' with
      | nil => exact nomatch h'
      | cons b l' =>
          obtain ⟨hab, hrest'⟩ := h'
          obtain rfl := Option.some.inj hab
          rw [ih hrest hrest']

theorem Chain.lastFrom_eq {fuel : Nat} (h : Chain next (some a) (l ++ [b]))
    (hfuel : l.length < fuel) : lastFrom next fuel a = some b := by
  induction l generalizing a fuel with
  | nil =>
      obtain ⟨hab, hend⟩ := h
      obtain rfl := Option.some.inj hab
      obtain ⟨fuel, rfl⟩ : ∃ k, fuel = k + 1 := ⟨fuel - 1, by simp at hfuel; omega⟩
      have hend : next a = none := hend
      simp only [lastFrom, hend]
  | cons c l ih =>
      obtain ⟨hac, hrest⟩ := h
      obtain rfl := Option.some.inj hac
      obtain ⟨fuel, rfl⟩ : ∃ k, fuel = k + 1 := ⟨fuel - 1, by simp at hfuel; omega⟩
      obtain ⟨d, hd⟩ : ∃ d, next a = some d := by
        cases l with
        | nil => exact ⟨b, hrest.1⟩
        | cons d l => exact ⟨d, hrest.1⟩
      simp only [lastFrom, hd]
      exact ih (hd ▸ hrest) (by simp at hfuel; omega)

theorem lastFrom_mono {fuel fuel' : Nat} (hle : fuel ≤ fuel')
    (h : lastFrom next fuel a = some b) : lastFrom next fuel' a = some b := by
  induction fuel generalizing a fuel' with
  | zero => exact nomatch h
  | succ fuel ih =>
      obtain ⟨fuel', rfl⟩ : ∃ k, fuel' = k + 1 := ⟨fuel' - 1, by omega⟩
      rw [lastFrom] at h ⊢
      cases hn : next a with
      | none => simpa only [hn] using h
      | some c =>
          simp only [hn] at h ⊢
          exact ih (by omega) h

/-- The last link of a chain is set. -/
theorem Chain.snoc [DecidableEq α] (h : Chain next p (l ++ [b])) (hnodup : (l ++ [b]).Nodup)
    (ha : next a = none) (hab : a ≠ b) :
    Chain (Function.update next b (some a)) p (l ++ [b, a]) := by
  induction l generalizing p with
  | nil =>
      obtain ⟨rfl, -⟩ := h
      refine ⟨rfl, Function.update_self .., ?_⟩
      show Function.update next b (some a) a = none
      rw [Function.update_of_ne hab, ha]
  | cons c l ih =>
      obtain ⟨rfl, hrest⟩ := h
      obtain ⟨hc, hnodup⟩ := List.nodup_cons.1 hnodup
      have hcb : c ≠ b := by
        rintro rfl
        exact hc (by simp)
      refine ⟨rfl, ?_⟩
      rw [Function.update_of_ne hcb]
      exact ih hrest hnodup

theorem Holds.first_eq (h : Holds q l) : q.first = l.head? := by
  cases l with
  | nil => exact h.chain
  | cons a l => exact h.chain.1

theorem Holds.dequeue (h : Holds q (a :: l)) : Holds (q.dequeue a) l :=
  ⟨h.chain.2, (List.nodup_cons.1 h.nodup).2⟩

/-- **`enqueue` returns, and puts the node behind the others.** -/
theorem Holds.enqueue [DecidableEq α] (h : Holds q l) (ha : a ∉ l) {fuel : Nat}
    (hfuel : l.length ≤ fuel) : ∃ q', enqueue fuel q a = some q' ∧ Holds q' (l ++ [a]) := by
  have hchain : Chain (Function.update q.next a none) q.first l :=
    h.chain.congr fun b hb => Function.update_of_ne (ne_of_mem_of_not_mem hb ha) _ _
  have hnodup : (l ++ [a]).Nodup :=
    List.nodup_append.2 ⟨h.nodup, List.nodup_singleton a, fun b hb c hc hbc =>
      ha (List.mem_singleton.1 hc ▸ hbc ▸ hb)⟩
  rcases List.eq_nil_or_concat l with rfl | ⟨l, b, rfl⟩
  · have hfirst : q.first = none := hchain
    refine ⟨⟨some a, Function.update q.next a none⟩, ?_, ⟨rfl, ?_⟩, hnodup⟩
    · simp only [LinkedQueue.enqueue, hfirst]
    · exact Function.update_self ..
  · rw [List.concat_eq_append] at *
    obtain ⟨c, hc⟩ : ∃ c, q.first = some c := by
      cases l with
      | nil => exact ⟨b, hchain.1⟩
      | cons c l => exact ⟨c, hchain.1⟩
    have hlen : l.length < fuel := by
      simp at hfuel
      omega
    have hlast := (hc ▸ hchain).lastFrom_eq hlen
    refine ⟨⟨some c, Function.update (Function.update q.next a none) b (some a)⟩, ?_, ?_, hnodup⟩
    · simp only [LinkedQueue.enqueue, hc, hlast, Option.map_some]
    · have hab : a ≠ b := fun hab => ha (by simp [hab])
      have hsnoc := hchain.snoc h.nodup (Function.update_self ..) hab
      rw [List.append_assoc]
      exact hc ▸ hsnoc

/-- More steps of the walk do not change the result. -/
theorem enqueue_mono [DecidableEq α] {fuel fuel' : Nat} {q' : LinkedQueue α} (hle : fuel ≤ fuel')
    (h : enqueue fuel q a = some q') : enqueue fuel' q a = some q' := by
  unfold enqueue at h ⊢
  cases hf : q.first with
  | none => simpa only [hf] using h
  | some b =>
      simp only [hf] at h ⊢
      obtain ⟨last, hlast, rfl⟩ := Option.map_eq_some_iff.1 h
      rw [lastFrom_mono hle hlast, Option.map_some]

theorem Holds.of_enqueue [DecidableEq α] {fuel : Nat} {q' : LinkedQueue α} (h : Holds q l)
    (ha : a ∉ l) (heq : LinkedQueue.enqueue fuel q a = some q') : Holds q' (l ++ [a]) := by
  obtain ⟨r, hr, hl⟩ := h.enqueue ha (Nat.le_max_right fuel l.length)
  rw [enqueue_mono (Nat.le_max_left fuel l.length) heq] at hr
  exact Option.some.inj hr ▸ hl

end Lemmas

end LinkedQueue

end Cs350
