import Mathlib.Data.List.Basic

set_option autoImplicit false

/-! # A finite map in a list of slots

A slot holds a key with its value, or is empty. A key is put into the first empty slot or after the
last one, and removed by emptying its slot, so that the keys are in no order. As long as no key is in
two slots, the list is a finite map. -/

namespace Cs350.Slots

variable {κ ν : Type}

/-- The value of the first slot with the key. -/
def find [DecidableEq κ] (k : κ) : List (Option (κ × ν)) → Option ν
  | [] => none
  | none :: l => find k l
  | some (k', v) :: l => if k' = k then some v else find k l

/-- Overwrite slot `i`, or append it. -/
def store (i : Nat) (x : Option (κ × ν)) (l : List (Option (κ × ν))) : List (Option (κ × ν)) :=
  if i < l.length then l.set i x else l ++ [x]

/-- No key is in two slots. -/
def Distinct (l : List (Option (κ × ν))) : Prop :=
  ∀ (i j : Nat) (k : κ) (v w : ν), l[i]? = some (some (k, v)) → l[j]? = some (some (k, w)) → i = j

section Find

variable [DecidableEq κ] {l : List (Option (κ × ν))} {k : κ} {v : ν}

theorem find_none : find k l = none ↔ ∀ (i : Nat) (v : ν), l[i]? ≠ some (some (k, v)) := by
  induction l with
  | nil => simp [find]
  | cons x l ih =>
      have hcons : (∀ (i : Nat) (v : ν), (x :: l)[i]? ≠ some (some (k, v))) ↔
          (∀ v, x ≠ some (k, v)) ∧ ∀ (i : Nat) (v : ν), l[i]? ≠ some (some (k, v)) := by
        constructor
        · exact fun h => ⟨fun v hx => h 0 v (by simp [hx]), fun i => h (i + 1)⟩
        · rintro ⟨h0, hrest⟩ (_ | i) v
          · simpa using h0 v
          · simpa using hrest i v
      rw [hcons]
      rcases x with _ | ⟨k', w⟩
      · simpa [find] using ih
      · by_cases hk : k' = k
        · simp [find, hk]
        · simpa [find, hk] using ih

theorem exists_of_find (h : find k l = some v) : ∃ i : Nat, l[i]? = some (some (k, v)) := by
  induction l with
  | nil => simp [find] at h
  | cons x l ih =>
      rcases x with _ | ⟨k', w⟩
      · obtain ⟨i, hi⟩ := ih h
        exact ⟨i + 1, by simpa using hi⟩
      · by_cases hk : k' = k
        · simp only [find, hk, if_true, Option.some.injEq] at h
          exact ⟨0, by simp [hk, h]⟩
        · simp only [find, hk, if_false] at h
          obtain ⟨i, hi⟩ := ih h
          exact ⟨i + 1, by simpa using hi⟩

/-- In a map, a key in a slot is found with its value. -/
theorem find_of_mem (hd : Distinct l) {i : Nat} (h : l[i]? = some (some (k, v))) :
    find k l = some v := by
  rcases hfind : find k l with _ | w
  · exact absurd h (find_none.1 hfind i v)
  · obtain ⟨j, hj⟩ := exists_of_find hfind
    obtain rfl := hd i j k v w h hj
    rw [h] at hj
    simpa using hj.symm

theorem find_eq_some (hd : Distinct l) : find k l = some v ↔ ∃ i : Nat, l[i]? = some (some (k, v)) :=
  ⟨exists_of_find, fun ⟨_, h⟩ => find_of_mem hd h⟩

end Find

section Store

variable {l : List (Option (κ × ν))} {i j : Nat} {k k' : κ} {v : ν} {x : Option (κ × ν)}

theorem getElem?_store (h : i ≤ l.length) :
    (store i x l)[j]? = if j = i then some x else l[j]? := by
  unfold store
  split_ifs with hlt hj hj
  · subst hj
    exact List.getElem?_set_self hlt
  · exact List.getElem?_set_ne (Ne.symm hj)
  · obtain rfl : i = l.length := by omega
    simp [hj]
  · rcases Nat.lt_or_ge j l.length with hjl | hjl
    · exact List.getElem?_append_left hjl
    · rw [List.getElem?_eq_none (by simp; omega), List.getElem?_eq_none hjl]

theorem Distinct.clear (hd : Distinct l) (hi : i ≤ l.length) : Distinct (store i none l) := by
  have hkept : ∀ (c : Nat) (p : κ × ν), (store i none l)[c]? = some (some p) →
      l[c]? = some (some p) := by
    intro c p hc
    rw [getElem?_store hi] at hc
    split_ifs at hc with hci
    · simp at hc
    · exact hc
  exact fun a b k v w ha hb => hd a b k v w (hkept a _ ha) (hkept b _ hb)

variable [DecidableEq κ]

/-- A new key. -/
theorem Distinct.put (hd : Distinct l) (hi : i ≤ l.length) (hfresh : find k l = none) :
    Distinct (store i (some (k, v)) l) := by
  intro a b k₁ v₁ w₁ ha hb
  rw [getElem?_store hi] at ha hb
  split_ifs at ha hb with hai hbi hbi
  · rw [hai, hbi]
  · obtain ⟨rfl, -⟩ : k = k₁ ∧ v = v₁ := by simpa using ha
    exact absurd hb (find_none.1 hfresh b w₁)
  · obtain ⟨rfl, -⟩ : k = k₁ ∧ v = w₁ := by simpa using hb
    exact absurd ha (find_none.1 hfresh a v₁)
  · exact hd a b k₁ v₁ w₁ ha hb

/-- A new key in an empty slot is found, and the other keys are as before. -/
theorem find_put (hd : Distinct l) (hi : i ≤ l.length) (hempty : ∀ p, l[i]? ≠ some (some p))
    (hfresh : find k l = none) :
    find k' (store i (some (k, v)) l) = if k' = k then some v else find k' l := by
  have hd' := hd.put (v := v) hi hfresh
  refine Option.ext fun w => ?_
  rw [find_eq_some hd']
  split_ifs with hk
  · subst hk
    constructor
    · rintro ⟨a, ha⟩
      rw [getElem?_store hi] at ha
      split_ifs at ha with hai
      · simpa using ha
      · exact absurd ha (find_none.1 hfresh a w)
    · intro hv
      exact ⟨i, by rw [getElem?_store hi, if_pos rfl]; simpa using hv⟩
  · rw [find_eq_some hd]
    refine exists_congr fun a => ?_
    rw [getElem?_store hi]
    split_ifs with hai
    · subst hai
      exact iff_of_false (by simp [Ne.symm hk]) (hempty _)
    · rfl

/-- A key whose slot is emptied is not found, and the other keys are as before. -/
theorem find_clear (hd : Distinct l) (hi : l[i]? = some (some (k, v))) :
    find k' (store i none l) = if k' = k then none else find k' l := by
  have hlen : i ≤ l.length := by
    by_contra hno
    rw [List.getElem?_eq_none (by omega)] at hi
    cases hi
  refine Option.ext fun w => ?_
  rw [find_eq_some (hd.clear hlen)]
  split_ifs with hk
  · subst hk
    refine iff_of_false ?_ (by simp)
    rintro ⟨a, ha⟩
    rw [getElem?_store hlen] at ha
    split_ifs at ha with hai
    · simp at ha
    · exact hai (hd a i _ _ _ ha hi)
  · rw [find_eq_some hd]
    refine exists_congr fun a => ?_
    rw [getElem?_store hlen]
    split_ifs with hai
    · subst hai
      rw [hi]
      simp [Ne.symm hk]
    · rfl

end Store

end Cs350.Slots
