import Mathlib.Data.List.Basic

set_option autoImplicit false

/-! # Overwriting a part of a list

`splice l off new` is `l` with the elements of `new` in place of those from `off` on, as many as
there are in `new`; where `new` goes past the end of `l`, the result is longer. -/

namespace Cs350

variable {α : Type}

def splice (l : List α) (off : Nat) (new : List α) : List α :=
  l.take off ++ new ++ l.drop (off + new.length)

section Splice

variable {l a b : List α} {off i : Nat}

theorem length_splice (h : off ≤ l.length) :
    (splice l off a).length = max l.length (off + a.length) := by
  unfold splice
  rw [List.length_append, List.length_append, List.length_take, List.length_drop]
  omega

theorem getElem?_splice (h : off ≤ l.length) : (splice l off a)[i]? =
    if off ≤ i ∧ i < off + a.length then a[i - off]? else l[i]? := by
  have htake : (l.take off).length = off := List.length_take_of_le h
  unfold splice
  split_ifs with hin
  · rw [List.getElem?_append_left (by rw [List.length_append, htake]; exact hin.2),
      List.getElem?_append_right (by rw [htake]; exact hin.1), htake]
  · by_cases hlt : i < off
    · rw [List.append_assoc, List.getElem?_append_left (by rw [htake]; exact hlt),
        List.getElem?_take_of_lt hlt]
    · rw [List.getElem?_append_right (by rw [List.length_append, htake]; omega),
        List.length_append, htake, List.getElem?_drop]
      congr 1
      omega

@[simp] theorem splice_nil (l : List α) (off : Nat) : splice l off [] = l := by
  unfold splice
  rw [List.append_nil, List.length_nil, Nat.add_zero, List.take_append_drop]

/-- Two parts one after the other. -/
theorem splice_append (h : off ≤ l.length) :
    splice (splice l off a) (off + a.length) b = splice l off (a ++ b) := by
  have hle : off + a.length ≤ (splice l off a).length := by
    rw [length_splice h]
    exact Nat.le_max_right ..
  refine List.ext_getElem? fun i => ?_
  rw [getElem?_splice hle, getElem?_splice h, getElem?_splice h, List.length_append]
  split_ifs with h₁ h₂ h₃ h₃
  · rw [List.getElem?_append_right (by omega), Nat.sub_sub]
  · omega
  · rw [List.getElem?_append_left (by omega)]
  · omega
  · omega
  · rfl

end Splice

end Cs350
