import Cs350.Lib.ByteMemory
import Cs350.Lib.WhileLoop

set_option autoImplicit false

/-! # C strings in memory

`IsString m p cs`: the bytes `cs` are at `p`, none of them is zero, and a zero comes after them. The
recursion is that of a loop which moves a pointer along the string.

A loop that goes on while the byte under its pointer passes a test, which zero does not pass, ends at
the first byte of the string that does not pass it (`scan_eq`). -/

namespace Cs350

/-- The character with the code of the byte. -/
def charOf (b : UInt8) : Char := Char.ofNat b.toNat

theorem toNat_charOf (b : UInt8) : (charOf b).toNat = b.toNat := by
  have hvalid : b.toNat.isValidChar := Or.inl (Nat.lt_trans b.toNat_lt (by decide))
  rw [charOf, Char.ofNat, dif_pos hvalid]
  rfl

theorem charOf_inj {b c : UInt8} : charOf b = charOf c ↔ b = c := by
  constructor
  · intro h
    have hcode := congrArg Char.toNat h
    rw [toNat_charOf, toNat_charOf] at hcode
    exact UInt8.toNat_inj.1 hcode
  · intro h
    rw [h]

end Cs350

namespace Cs350.Mem

/-- The C string at `p`. -/
def IsString (m : Mem) : Nat → List UInt8 → Prop
  | p, [] => m p = 0
  | p, c :: cs => m p = c ∧ c ≠ 0 ∧ IsString m (p + 1) cs

instance IsString.decidable (m : Mem) : ∀ p cs, Decidable (IsString m p cs)
  | p, [] => inferInstanceAs (Decidable (m p = 0))
  | p, c :: cs =>
      have := IsString.decidable m (p + 1) cs
      inferInstanceAs (Decidable (m p = c ∧ c ≠ 0 ∧ IsString m (p + 1) cs))

namespace IsString

variable {m m' : Mem} {p q : Nat} {c : UInt8} {cs ds : List UInt8}

theorem eq_zero (h : IsString m p []) : m p = 0 := h

theorem head (h : IsString m p (c :: cs)) : m p = c := h.1

theorem head_ne (h : IsString m p (c :: cs)) : c ≠ 0 := h.2.1

theorem tail (h : IsString m p (c :: cs)) : IsString m (p + 1) cs := h.2.2

theorem zero_iff (h : IsString m p cs) : m p = 0 ↔ cs = [] := by
  cases cs with
  | nil => exact iff_of_true h rfl
  | cons c cs => simp [h.head, h.head_ne]

theorem zero_notMem (h : IsString m p cs) : 0 ∉ cs := by
  induction cs generalizing p with
  | nil => simp
  | cons c cs ih => simp [Ne.symm h.head_ne, ih h.tail]

/-- The bytes of the string, by their places. -/
theorem iff_forall :
    IsString m p cs ↔
      (∀ i (hi : i < cs.length), m (p + i) = cs[i]) ∧ 0 ∉ cs ∧ m (p + cs.length) = 0 := by
  induction cs generalizing p with
  | nil => simp [IsString]
  | cons c cs ih =>
      have hplace : ∀ i, p + 1 + i = p + (i + 1) := fun i => by omega
      rw [IsString, ih, hplace cs.length]
      constructor
      · intro h
        obtain ⟨hp, hc, hbody, hzero, hnul⟩ := h
        refine ⟨fun i hi => ?_, by simp [Ne.symm hc, hzero], hnul⟩
        cases i with
        | zero => simpa using hp
        | succ i => simpa [hplace] using hbody i (Nat.lt_of_succ_lt_succ hi)
      · intro h
        obtain ⟨hbody, hzero, hnul⟩ := h
        rw [List.mem_cons, not_or] at hzero
        refine ⟨by simpa using hbody 0 (Nat.zero_lt_succ _), Ne.symm hzero.1, fun i hi => ?_, hzero.2, hnul⟩
        simpa [hplace] using hbody (i + 1) (Nat.succ_lt_succ hi)

theorem get (h : IsString m p cs) {i : Nat} (hi : i < cs.length) : m (p + i) = cs[i] :=
  (iff_forall.1 h).1 i hi

theorem nul (h : IsString m p cs) : m (p + cs.length) = 0 := (iff_forall.1 h).2.2

/-- A string depends on its own bytes. -/
theorem congr (h : IsString m p cs) (heq : ∀ i ≤ cs.length, m' (q + i) = m (p + i)) :
    IsString m' q cs := by
  obtain ⟨hbody, hzero, hnul⟩ := iff_forall.1 h
  refine iff_forall.2 ⟨fun i hi => ?_, hzero, ?_⟩
  · rw [heq i (Nat.le_of_lt hi), hbody i hi]
  · rw [heq _ (Nat.le_refl _), hnul]

/-- A string is continued where its zero was. -/
theorem append (h : IsString m p cs) (heq : ∀ i < cs.length, m' (p + i) = m (p + i))
    (hrest : IsString m' (p + cs.length) ds) : IsString m' p (cs ++ ds) := by
  induction cs generalizing p with
  | nil => exact hrest
  | cons c cs ih =>
      have hplace : ∀ i, p + 1 + i = p + (i + 1) := fun i => by omega
      refine ⟨?_, h.head_ne, ih h.tail (fun i hi => ?_) ?_⟩
      · rw [← h.head]
        exact heq 0 (Nat.zero_lt_succ _)
      · rw [hplace]
        exact heq (i + 1) (Nat.succ_lt_succ hi)
      · rwa [hplace]

/-- There is one string at a place. -/
theorem unique (h : IsString m p cs) (h' : IsString m p ds) : cs = ds := by
  induction cs generalizing p ds with
  | nil =>
      have hnil := h'.zero_iff.1 h
      exact hnil.symm
  | cons c cs ih =>
      cases ds with
      | nil => exact absurd (h.zero_iff.1 h') (by simp)
      | cons d ds =>
          have hcd : c = d := h.head.symm.trans h'.head
          rw [hcd, ih h.tail h'.tail]

end IsString

/-! ## Scanning -/

section Scan

variable {m : Mem} {p : Nat} {cs : List UInt8} {test : UInt8 → Bool}

/-- `while(test(*p)) p++`, for at most `n` rounds. -/
def scan (test : UInt8 → Bool) (n : Nat) (m : Mem) (p : Nat) : Option Nat :=
  whileLoop (fun p => test (m p)) (· + 1) n p

theorem scan_eq {n : Nat} (h : IsString m p cs) (hzero : test 0 = false) (hn : cs.length < n) :
    scan test n m p = some (p + (cs.takeWhile test).length) := by
  induction n generalizing p cs with
  | zero => omega
  | succ n ih =>
      cases cs with
      | nil => exact whileLoop.of_false (by simp [h.eq_zero, hzero])
      | cons c cs =>
          rw [List.length_cons] at hn
          cases htest : test c with
          | false =>
              rw [List.takeWhile_cons_of_neg (by simp [htest])]
              exact whileLoop.of_false (by simp [h.head, htest])
          | true =>
              rw [List.takeWhile_cons_of_pos htest, List.length_cons, scan,
                whileLoop.of_true (by simp [h.head, htest]), ← scan, ih h.tail (by omega)]
              exact congrArg some (by omega)

/-- What is left of the string there. -/
theorem IsString.scanned (h : IsString m p cs) (test : UInt8 → Bool) :
    IsString m (p + (cs.takeWhile test).length) (cs.dropWhile test) := by
  induction cs generalizing p with
  | nil => exact h
  | cons c cs ih =>
      cases htest : test c with
      | false => simpa [List.takeWhile_cons, List.dropWhile_cons, htest] using h
      | true =>
          have hrest := ih h.tail
          rw [Nat.add_assoc, Nat.add_comm 1] at hrest
          simpa [List.takeWhile_cons, List.dropWhile_cons, htest] using hrest

end Scan

end Cs350.Mem
