import Mathlib.Data.Int.CardIntervalMod
import Mathlib.Data.List.Sort
import Mathlib.Tactic.Ring

set_option autoImplicit false

/-! # Always serving the least

Each member of a finite family has a value. In every round the first of the members with the least
value is served, and its value grows by a fixed amount `d`. Two facts follow for any number of
rounds: values that are at most `B ≥ d` apart stay so, and from equal values the members are served
in turn, in the order of the family. -/

namespace Cs350.LeastFirst

variable {ι : Type*} [LinearOrder ι]

/-- The first member of `l` with the least value is `p`. -/
structure IsFirstLeast (l : List ι) (v : ι → Int) (p : ι) : Prop where
  mem : p ∈ l
  least : ∀ q ∈ l, v p < v q ∨ (v p = v q ∧ p ≤ q)

theorem IsFirstLeast.le {l : List ι} {v : ι → Int} {p q : ι} (h : IsFirstLeast l v p)
    (hq : q ∈ l) : v p ≤ v q := by
  rcases h.least q hq with hlt | ⟨heq, -⟩
  · exact hlt.le
  · exact heq.le

theorem IsFirstLeast.unique {l : List ι} {v : ι → Int} {p q : ι} (hp : IsFirstLeast l v p)
    (hq : IsFirstLeast l v q) : p = q := by
  have hpq := hp.le hq.mem
  have hqp := hq.le hp.mem
  rcases hp.least q hq.mem with hlt | ⟨-, hle⟩
  · omega
  rcases hq.least p hp.mem with hlt | ⟨-, hge⟩
  · omega
  exact le_antisymm hle hge

/-- `v k` are the values before round `k`, in which `served k` is served. -/
structure Rounds (l : List ι) (d : Int) (v : Nat → ι → Int) (served : Nat → ι) : Prop where
  first : ∀ k, IsFirstLeast l (v k) (served k)
  next : ∀ k, ∀ p ∈ l, v (k + 1) p = v k p + if p = served k then d else 0

variable {l : List ι} {d : Int} {v : Nat → ι → Int} {served : Nat → ι}

/-- Values at most `B` apart stay at most `B` apart. -/
theorem Rounds.spread_le (h : Rounds l d v served) {B : Int} (hd : 0 ≤ d) (hdB : d ≤ B)
    (h₀ : ∀ p ∈ l, ∀ q ∈ l, v 0 p ≤ v 0 q + B) (k : Nat) :
    ∀ p ∈ l, ∀ q ∈ l, v k p ≤ v k q + B := by
  induction k with
  | zero => exact h₀
  | succ k ih =>
      intro p hp q hq
      have hnear := ih p hp q hq
      have hleast := (h.first k).le hq
      rw [h.next k p hp, h.next k q hq]
      by_cases hpk : p = served k
      · -- the value that grows was the least one
        subst hpk
        rw [if_pos rfl]
        split_ifs <;> omega
      · rw [if_neg hpk]
        split_ifs <;> omega

/-! ## Turns -/

/-- How many of the first `k` rounds belong to the `j`-th of `n` members when they take turns. -/
def turns (n k j : Nat) : Nat := k.count fun i => i % n = j

theorem turns_succ (n k j : Nat) : turns n (k + 1) j = turns n k j + if k % n = j then 1 else 0 :=
  Nat.count_succ ..

theorem turns_eq {n j : Nat} (hj : j < n) (k : Nat) :
    turns n k j = k / n + if j < k % n then 1 else 0 := by
  have hcount := Nat.count_modEq_card k (show 0 < n by omega) j
  rw [Nat.mod_eq_of_lt hj] at hcount
  rw [← hcount, turns]
  congr
  funext i
  rw [Nat.ModEq, Nat.mod_eq_of_lt hj]

/-- Everyone has had the same number of turns, up to one. -/
theorem turns_floor_or_ceil {n j : Nat} (hj : j < n) (k : Nat) :
    turns n k j = k / n ∨ turns n k j = (k + n - 1) / n := by
  rw [turns_eq hj]
  by_cases hlt : j < k % n
  · right
    have hpos : 0 < n := by omega
    have hsmall : k % n - 1 < n := by
      have := Nat.mod_lt k hpos
      omega
    have hceil : k + n - 1 = (k % n - 1) + n * (k / n + 1) := by
      have := Nat.div_add_mod k n
      rw [Nat.mul_add]
      omega
    rw [if_pos hlt, hceil, Nat.add_mul_div_left _ _ hpos, Nat.div_eq_of_lt hsmall, Nat.zero_add]
  · left
    simp [hlt]

/-- From equal values, the member whose turn it is is the first with the least value. -/
theorem Rounds.served_of_values (h : Rounds l d v served) (hl : l.Pairwise (· < ·)) (hd : 0 < d)
    {a : Int} {k : Nat} (hk : k % l.length < l.length)
    (hv : ∀ j (hj : j < l.length), v k l[j] = a + turns l.length k j * d) :
    served k = l[k % l.length] := by
  refine (h.first k).unique ⟨List.getElem_mem _, fun q hq => ?_⟩
  obtain ⟨j, hj, rfl⟩ := List.getElem_of_mem hq
  rw [hv _ hk, hv j hj, turns_eq hk, turns_eq hj, if_neg (Nat.lt_irrefl _)]
  by_cases hlt : j < k % l.length
  · left
    have hmore : ((k / l.length + 1 : Nat) : Int) * d = (k / l.length : Nat) * d + d := by
      push_cast
      ring
    rw [if_pos hlt, Nat.add_zero, hmore]
    omega
  · right
    rw [if_neg hlt]
    exact ⟨rfl, hl.sortedLT.strictMono_get.monotone (Nat.not_lt.1 hlt)⟩

theorem Rounds.values (h : Rounds l d v served) (hl : l.Pairwise (· < ·)) (hd : 0 < d) {a : Int}
    (h₀ : ∀ p ∈ l, v 0 p = a) (k : Nat) :
    ∀ j (hj : j < l.length), v k l[j] = a + turns l.length k j * d := by
  induction k with
  | zero =>
      intro j hj
      simp [turns, h₀ _ (List.getElem_mem hj)]
  | succ k ih =>
      intro j hj
      have hk : k % l.length < l.length := Nat.mod_lt k (by omega)
      rw [h.next k _ (List.getElem_mem hj), ih j hj, h.served_of_values hl hd hk ih, turns_succ,
        if_congr hl.sortedLT.nodup.getElem_inj_iff rfl rfl]
      by_cases hj : j = k % l.length
      · rw [if_pos hj, if_pos hj.symm]
        push_cast
        ring
      · rw [if_neg hj, if_neg fun he => hj he.symm]
        simp

/-- **Taking turns.** From equal values the members are served in the order of the family, over and
    over. -/
theorem Rounds.in_turn (h : Rounds l d v served) (hl : l.Pairwise (· < ·)) (hd : 0 < d) {a : Int}
    (h₀ : ∀ p ∈ l, v 0 p = a) (k : Nat) : l[k % l.length]? = some (served k) := by
  have hk : k % l.length < l.length := Nat.mod_lt k (List.length_pos_of_mem (h.first 0).mem)
  rw [List.getElem?_eq_getElem hk, h.served_of_values hl hd hk (h.values hl hd h₀ k)]

theorem Rounds.count_served (h : Rounds l d v served) (hl : l.Pairwise (· < ·)) (hd : 0 < d)
    {a : Int} (h₀ : ∀ p ∈ l, v 0 p = a) (k : Nat) {p : ι} (hp : p ∈ l) :
    (k.count fun i => served i = p) = k / l.length ∨
      (k.count fun i => served i = p) = (k + l.length - 1) / l.length := by
  obtain ⟨j, hj, rfl⟩ := List.getElem_of_mem hp
  have hturn : (fun i => served i = l[j]) = fun i => i % l.length = j := by
    funext i
    have hi : i % l.length < l.length := Nat.mod_lt i (by omega)
    rw [h.served_of_values hl hd hi (h.values hl hd h₀ i), hl.sortedLT.nodup.getElem_inj_iff]
  have hcount : (k.count fun i => served i = l[j]) = turns l.length k j := by
    rw [turns]
    congr
  rw [hcount]
  exact turns_floor_or_ceil hj k

end Cs350.LeastFirst
