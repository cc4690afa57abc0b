import Mathlib.Data.List.Nodup
import Mathlib.Logic.Function.Basic

set_option autoImplicit false

/-! # Circular doubly linked lists

The nodes are the elements of a type and one head, `none`. `Ring k l` says that following `next` from
the head gives the elements of `l` in order and then the head again, and that `prev` goes the same
way back. The two changes of such a list are written as the pointer writes that programs make:
`unlink` takes a node out, and `pushFront` puts one in after the head. -/

namespace Cs350.LinkedRing

variable {α : Type}

/-- The pointers of all nodes. -/
structure Links (α : Type) where
  next : Option α → Option α
  prev : Option α → Option α

section Pointers

variable [DecidableEq α]

/-- `b->next->prev = b->prev; b->prev->next = b->next` -/
def Links.unlink (k : Links α) (b : α) : Links α :=
  let k := { k with prev := Function.update k.prev (k.next (some b)) (k.prev (some b)) }
  { k with next := Function.update k.next (k.prev (some b)) (k.next (some b)) }

/-- `b->next = head.next; b->prev = &head; head.next->prev = b; head.next = b` -/
def Links.pushFront (k : Links α) (b : α) : Links α :=
  let k := { k with next := Function.update k.next (some b) (k.next none) }
  let k := { k with prev := Function.update k.prev (some b) none }
  let k := { k with prev := Function.update k.prev (k.next none) (some b) }
  { k with next := Function.update k.next none (some b) }

end Pointers

/-- The first element with the property, from a node on; the head ends the search. There are no more
    rounds than `n`. -/
def scan (step : Option α → Option α) (p : α → Bool) : Nat → Option α → Option α
  | 0, _ => none
  | _ + 1, none => none
  | n + 1, some b => if p b then some b else scan step p n (step (some b))

/-- The list that starts at the head. -/
structure Ring (k : Links α) (l : List α) : Prop where
  next : (none :: l.map some).map k.next = l.map some ++ [none]
  prev : (l.map some ++ [none]).map k.prev = none :: l.map some
  nodup : l.Nodup

namespace Ring

variable {k : Links α} {l : List α} {b : α}

/-- Nothing but the head. -/
theorem nil (hnext : k.next none = none) (hprev : k.prev none = none) : Ring k [] where
  next := congrArg (fun x => [x]) hnext
  prev := congrArg (fun x => [x]) hprev
  nodup := List.nodup_nil

theorem nodup_head (h : Ring k l) : (none :: l.map some).Nodup := by
  refine List.nodup_cons.2 ⟨fun hmem => ?_, h.nodup.map fun _ _ heq => Option.some.inj heq⟩
  obtain ⟨b, -, hb⟩ := List.mem_map.1 hmem
  exact nomatch hb

/-! ## Searching -/

theorem scan_eq {step : Option α → Option α} (p : α → Bool) {x : Option α} {ys : List α} {n : Nat}
    (h : (x :: ys.map some).map step = ys.map some ++ [none]) (hn : ys.length ≤ n) :
    scan step p n (step x) = ys.find? p := by
  induction ys generalizing x n with
  | nil =>
      have hx : step x = none := (List.cons.inj h).1
      rw [hx]
      cases n <;> rfl
  | cons y ys ih =>
      obtain ⟨hx, hrest⟩ := List.cons.inj h
      cases n with
      | zero => exact absurd hn (Nat.not_succ_le_zero _)
      | succ n =>
          rw [hx, scan, List.find?_cons]
          cases p y with
          | true => rfl
          | false =>
              rw [if_neg Bool.false_ne_true]
              exact ih hrest (Nat.le_of_succ_le_succ hn)

/-- A search from the head on. -/
theorem scan_next (h : Ring k l) (p : α → Bool) {n : Nat} (hn : l.length ≤ n) :
    scan k.next p n (k.next none) = l.find? p :=
  scan_eq p h.next hn

/-- A search backwards from the head. -/
theorem scan_prev (h : Ring k l) (p : α → Bool) {n : Nat} (hn : l.length ≤ n) :
    scan k.prev p n (k.prev none) = l.reverse.find? p := by
  refine scan_eq p ?_ (by rwa [List.length_reverse])
  have hrev := congrArg List.reverse h.prev
  rw [← List.map_reverse, List.reverse_append, List.reverse_singleton, List.reverse_cons] at hrev
  rw [List.map_reverse]
  exact hrev

/-! ## The pointers are inverse to each other -/

theorem prev_next (h : Ring k l) {x : Option α} (hx : x ∈ none :: l.map some) :
    k.prev (k.next x) = x := by
  have hmap : (none :: l.map some).map (k.prev ∘ k.next) = (none :: l.map some).map id := by
    rw [← List.map_map, h.next, h.prev, List.map_id]
  exact List.map_inj_left.1 hmap x hx

theorem next_prev (h : Ring k l) {x : Option α} (hx : x ∈ l.map some ++ [none]) :
    k.next (k.prev x) = x := by
  have hmap : (l.map some ++ [none]).map (k.next ∘ k.prev)
      = (l.map some ++ [none]).map id := by
    rw [← List.map_map, h.prev, h.next, List.map_id]
  exact List.map_inj_left.1 hmap x hx

/-! ## Changing the list -/

variable [DecidableEq α]

theorem map_update {f : Option α → Option α} {x : Option α} (v : Option α) {xs : List (Option α)}
    (hx : x ∉ xs) : xs.map (Function.update f x v) = xs.map f :=
  List.map_congr_left fun y hy => by
    rw [Function.update_of_ne]
    rintro rfl
    exact hx hy

theorem pushFront (h : Ring k l) (hb : b ∉ l) : Ring (k.pushFront b) (b :: l) := by
  have hbs : some b ∉ l.map some := fun hmem => by
    obtain ⟨c, hc, heq⟩ := List.mem_map.1 hmem
    exact hb (Option.some.inj heq ▸ hc)
  have hnone : none ∉ l.map some := (List.nodup_cons.1 h.nodup_head).1
  obtain ⟨x, ys, hx⟩ : ∃ x ys, l.map some ++ [none] = x :: ys :=
    List.exists_cons_of_ne_nil (List.append_ne_nil_of_right_ne_nil _ (List.cons_ne_nil _ _))
  have hnext := h.next
  have hprev := h.prev
  rw [hx, List.map_cons] at hnext hprev
  obtain ⟨hfirst, hnext⟩ := List.cons.inj hnext
  obtain ⟨-, hprev⟩ := List.cons.inj hprev
  -- neither the new node nor the first one is among those that come after
  have hnodup : (x :: ys).Nodup := by
    rw [← hx, List.nodup_append]
    refine ⟨(List.nodup_cons.1 h.nodup_head).2, List.nodup_singleton _, fun y hy z hz heq => ?_⟩
    rw [List.mem_singleton.1 hz] at heq
    exact hnone (heq ▸ hy)
  have hbx : some b ∉ x :: ys := by
    rw [← hx, List.mem_append, List.mem_singleton]
    rintro (hmem | heq)
    · exact hbs hmem
    · exact nomatch heq
  have hxb : x ≠ some b := fun heq => hbx (heq ▸ List.mem_cons_self)
  have hnb : (none : Option α) ≠ some b := fun heq => nomatch heq
  have hhead : Function.update k.next (some b) (k.next none) none = x := by
    rw [Function.update_of_ne hnb, hfirst]
  refine ⟨?_, ?_, List.nodup_cons.2 ⟨hb, h.nodup⟩⟩
  · show (none :: some b :: l.map some).map (Function.update (Function.update k.next (some b)
      (k.next none)) none (some b)) = some b :: (l.map some ++ [none])
    rw [List.map_cons, List.map_cons, Function.update_self, Function.update_of_ne hnb.symm,
      Function.update_self, map_update _ hnone, map_update _ hbs, hfirst, hnext, hx]
  · show (some b :: (l.map some ++ [none])).map (Function.update (Function.update k.prev (some b)
      none) (Function.update k.next (some b) (k.next none) none) (some b)) = none :: some b :: _
    rw [hhead, hx, List.map_cons, List.map_cons, Function.update_of_ne hxb.symm,
      Function.update_self, Function.update_self, map_update _ (List.nodup_cons.1 hnodup).1,
      map_update _ fun hmem => hbx (List.mem_cons_of_mem x hmem), hprev]

theorem unlink (h : Ring k l) (hb : b ∈ l) : Ring (k.unlink b) (l.erase b) := by
  obtain ⟨as, bs, rfl⟩ := List.append_of_mem hb
  have hnotas : b ∉ as := fun hmem =>
    (List.nodup_append.1 h.nodup).2.2 b hmem b List.mem_cons_self rfl
  have herase : (as ++ b :: bs).erase b = as ++ bs := by
    rw [List.erase_append_right _ hnotas, List.erase_cons_head]
  have hsub : (as ++ bs).Nodup := herase ▸ h.nodup.erase b
  have hnodup : (none :: as.map some ++ some b :: bs.map some).Nodup := by
    have := h.nodup_head
    rwa [List.map_append, List.map_cons] at this
  have hnext : (none :: as.map some ++ some b :: bs.map some).map k.next
      = as.map some ++ some b :: (bs.map some ++ [none]) := by
    simpa using h.next
  have hprev : (as.map some ++ some b :: (bs.map some ++ [none])).map k.prev
      = none :: as.map some ++ some b :: bs.map some := by
    simpa using h.prev
  have hlen : (none :: as.map some).length = (as.map some).length + 1 := rfl
  -- the nodes before and after the one that is taken out
  obtain ⟨ps, x, hx⟩ : ∃ ps x, none :: as.map some = ps ++ [x] :=
    ⟨_, _, (List.dropLast_append_getLast (List.cons_ne_nil _ _)).symm⟩
  obtain ⟨y, ys, hy⟩ : ∃ y ys, bs.map some ++ [none] = y :: ys :=
    List.exists_cons_of_ne_nil (List.append_ne_nil_of_right_ne_nil _ (List.cons_ne_nil _ _))
  rw [hx, List.length_append, List.length_singleton] at hlen
  rw [hx, List.append_assoc, List.singleton_append] at hnodup hnext hprev
  rw [hy] at hnext hprev
  rw [List.map_append] at hnext hprev
  obtain ⟨hps, hrest⟩ := List.append_inj hnext (by rw [List.length_map]; omega)
  obtain ⟨-, hrest⟩ := List.cons.inj hrest
  obtain ⟨hby, hbs⟩ := List.cons.inj hrest
  obtain ⟨has, hrest'⟩ := List.append_inj hprev (by rw [List.length_map]; omega)
  obtain ⟨hbx, hrest'⟩ := List.cons.inj hrest'
  obtain ⟨-, hys⟩ := List.cons.inj hrest'
  -- they are met once on the way
  have hxps : x ∉ ps := fun hmem =>
    (List.nodup_append.1 hnodup).2.2 x hmem x List.mem_cons_self rfl
  have hxbs : x ∉ bs.map some := fun hmem =>
    (List.nodup_cons.1 hnodup.of_append_right).1 (List.mem_cons_of_mem _ hmem)
  have hend : (as.map some ++ y :: ys).Nodup := by
    rw [← hy, ← List.append_assoc, ← List.map_append, List.nodup_append]
    refine ⟨hsub.map fun _ _ heq => Option.some.inj heq, List.nodup_singleton _, ?_⟩
    rintro z hz w hw rfl
    rw [List.mem_singleton.1 hw] at hz
    obtain ⟨c, -, hc⟩ := List.mem_map.1 hz
    exact nomatch hc
  have hyas : y ∉ as.map some := fun hmem =>
    (List.nodup_append.1 hend).2.2 y hmem y List.mem_cons_self rfl
  have hyys : y ∉ ys := (List.nodup_cons.1 hend.of_append_right).1
  have hyb : some b ≠ y := by
    rintro rfl
    have hmem : some b ∈ bs.map some ++ [none] := by
      rw [hy]
      exact List.mem_cons_self
    rcases List.mem_append.1 hmem with hmem | hmem
    · exact (List.nodup_cons.1 (List.nodup_cons.1 hnodup.of_append_right).2).1 hmem
    · exact nomatch List.mem_singleton.1 hmem
  have hprevb : Function.update k.prev (k.next (some b)) (k.prev (some b)) (some b) = x := by
    rw [hby, Function.update_of_ne hyb, hbx]
  rw [herase]
  refine ⟨?_, ?_, hsub⟩
  · show (none :: (as ++ bs).map some).map (Function.update k.next (Function.update k.prev
      (k.next (some b)) (k.prev (some b)) (some b)) (k.next (some b))) = _
    rw [hprevb, hby, List.map_append, ← List.cons_append, hx, List.append_assoc,
      List.singleton_append, List.map_append, List.map_cons, Function.update_self,
      map_update _ hxps, map_update _ hxbs, hps, hbs, ← hy, List.append_assoc]
  · show ((as ++ bs).map some ++ [none]).map (Function.update k.prev (k.next (some b))
      (k.prev (some b))) = _
    rw [hby, hbx, List.map_append (f := some), List.append_assoc, hy, List.map_append, List.map_cons,
      Function.update_self, map_update _ hyas, map_update _ hyys, has, hys, ← List.cons_append,
      hx, List.append_assoc, List.singleton_append]

end Ring

end Cs350.LinkedRing
