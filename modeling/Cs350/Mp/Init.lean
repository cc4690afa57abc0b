import Cs350.Lib.ByteMemory
import Cs350.Lib.WhileLoop
import Mathlib.Data.List.Basic

set_option autoImplicit false

/-! # The multiprocessor tables (`mp.c`)

`mpinit` looks for the configuration table of the BIOS and goes through its entries. `phys` is
physical memory; the pointers of the source are the same numbers after `P2V`. -/

namespace Cs350.Mp

/-- `NCPU` -/
def ncpuMax : Nat := 8

/-- `sizeof(struct mp)` -/
def mpSize : Nat := 16

/-- `sizeof(struct mpconf)` -/
def mpconfSize : Nat := 44

/-- `sizeof(struct mpproc)` -/
def mpprocSize : Nat := 20

/-- `sizeof(struct mpioapic)` -/
def mpioapicSize : Nat := 8

/-- `MPPROC` -/
def mpproc : UInt8 := 0

/-- `MPBUS` -/
def mpbus : UInt8 := 1

/-- `MPIOAPIC` -/
def mpioapic : UInt8 := 2

/-- `MPIOINTR` -/
def mpiointr : UInt8 := 3

/-- `MPLINTR` -/
def mplintr : UInt8 := 4

/-! ## Finding the table -/

/-- `sum(addr, len)` -/
def sum (phys : Mem) (addr len : Nat) : UInt8 :=
  UInt8.ofNat ((List.range len).map fun i => (phys (addr + i)).toNat).sum

/-- `memcmp(p, s, 4) == 0` -/
def signature (phys : Mem) (p : Nat) (s : List UInt8) : Bool :=
  (List.range 4).map (fun i => phys (p + i)) = s

/-- The loop of `mpsearch1`, for `n` structures from `p` on. -/
def mpsearchLoop (phys : Mem) : Nat → Nat → Option Nat
  | 0, _ => none
  | n + 1, p =>
      -- "_MP_"
      if signature phys p [95, 77, 80, 95] ∧ sum phys p mpSize = 0 then some p
      else mpsearchLoop phys n (p + mpSize)

/-- `mpsearch1(a, len)` -/
def mpsearch1 (phys : Mem) (a len : Nat) : Option Nat :=
  mpsearchLoop phys ((len + mpSize - 1) / mpSize) a

/-- `mpsearch` -/
def mpsearch (phys : Mem) : Option Nat :=
  let bda := 0x400
  let ebda := ((phys (bda + 0x0F)).toNat * 2 ^ 8 + (phys (bda + 0x0E)).toNat) * 2 ^ 4
  let first :=
    if ebda ≠ 0 then mpsearch1 phys ebda 1024
    else
      let top := ((phys (bda + 0x14)).toNat * 2 ^ 8 + (phys (bda + 0x13)).toNat) * 1024
      mpsearch1 phys ((top + (2 ^ 32 - 1024)) % 2 ^ 32) 1024
  match first with
  | some mp => some mp
  | none => mpsearch1 phys 0xF0000 0x10000

/-- `conf->length` -/
def length (phys : Mem) (conf : Nat) : Nat := phys.load (conf + 4) 2

/-- `mpconfig(pmp)`: the table and `*pmp`. -/
def mpconfig (phys : Mem) : Option (Nat × Nat) :=
  match mpsearch phys with
  | none => none
  | some mp =>
      let conf := phys.load (mp + 4) 4
      if conf = 0 then none
      -- "PCMP"
      else if ¬ signature phys conf [80, 67, 77, 80] then none
      else if phys (conf + 6) ≠ 1 ∧ phys (conf + 6) ≠ 4 then none
      else if sum phys conf (length phys conf) ≠ 0 then none
      else some (conf, mp)

/-! ## Going through it -/

/-- The variables of the loop of `mpinit`. -/
structure Entries where
  p : Nat
  ismp : Bool
  /-- `cpus[i].apicid`, for `i < ncpu` -/
  apicids : List UInt8
  ioapicid : UInt8

/-- A round of the loop. In the default case `break` leaves the `switch`, and `p` stays. -/
def entry (phys : Mem) (s : Entries) : Entries :=
  if phys s.p = mpproc then
    let apicids :=
      if s.apicids.length < ncpuMax then s.apicids ++ [phys (s.p + 1)] else s.apicids
    { s with apicids := apicids, p := s.p + mpprocSize }
  else if phys s.p = mpioapic then
    { s with ioapicid := phys (s.p + 1), p := s.p + mpioapicSize }
  else if phys s.p = mpbus ∨ phys s.p = mpiointr ∨ phys s.p = mplintr then
    { s with p := s.p + 8 }
  else { s with ismp := false }

/-- `p < e` -/
def more (e : Nat) (s : Entries) : Bool := decide (s.p < e)

inductive Outcome
  /-- `panic`, with its message -/
  | panic (s : String)
  /-- the tables are read; `imcr` says if the interrupt mode is switched over -/
  | done (s : Entries) (imcr : Bool)

/-- `mpinit`, for `n` rounds of its loop at most. -/
def mpinit (n : Nat) (phys : Mem) : Option Outcome :=
  match mpconfig phys with
  | none => some (.panic "Expect to run on an SMP")
  | some (conf, mp) =>
      (whileLoop (more (conf + length phys conf)) (entry phys) n
        ⟨conf + mpconfSize, true, [], 0⟩).map fun s =>
          if ¬ s.ismp then .panic "Didn't find a suitable machine"
          else .done s (phys (mp + 12) ≠ 0)

/-! ## Statements -/

/-- A type that `mpinit` knows. -/
def Known (t : UInt8) : Prop := t.toNat ≤ 4

instance (t : UInt8) : Decidable (Known t) := inferInstanceAs (Decidable (_ ≤ _))

/-- The size of an entry, by its type. -/
def entrySize (t : UInt8) : Nat := if t = mpproc then mpprocSize else 8

/-- There is an entry of the table at `q`, which ends at `e`, in going on from `p`. -/
inductive EntryAt (phys : Mem) (e : Nat) : Nat → Nat → Prop
  | here {p : Nat} : p < e → EntryAt phys e p p
  | next {p q : Nat} : p < e → Known (phys p) →
      EntryAt phys e (p + entrySize (phys p)) q → EntryAt phys e p q

/-- Every entry of the table has a known type. -/
def WellTyped (phys : Mem) (conf : Nat) : Prop :=
  ∀ q, EntryAt phys (conf + length phys conf) (conf + mpconfSize) q → Known (phys q)

section Loop

variable {phys : Mem} {e : Nat} {s : Entries}

theorem known_iff {t : UInt8} :
    Known t ↔ t = mpproc ∨ t = mpioapic ∨ t = mpbus ∨ t = mpiointr ∨ t = mplintr := by
  simp only [Known, mpproc, mpioapic, mpbus, mpiointr, mplintr, ← UInt8.toNat_inj]
  simp
  omega

/-- A known entry is passed over. -/
theorem entry_known (h : Known (phys s.p)) :
    (entry phys s).p = s.p + entrySize (phys s.p) ∧ (entry phys s).ismp = s.ismp := by
  rcases known_iff.1 h with h | h | h | h | h <;>
    simp [entry, entrySize, h, mpproc, mpioapic, mpbus, mpiointr, mplintr, mpioapicSize]

/-- An unknown one is come back to. -/
theorem entry_unknown (h : ¬ Known (phys s.p)) : (entry phys s).p = s.p := by
  rw [known_iff] at h
  simp only [not_or] at h
  simp [entry, h]

theorem entrySize_pos (t : UInt8) : 0 < entrySize t := by
  rw [entrySize]
  split <;> decide

/-- **The loop ends** if every entry has a known type. -/
theorem loop_terminates (h : ∀ q, EntryAt phys e s.p q → Known (phys q)) :
    ∃ n t, whileLoop (more e) (entry phys) n s = some t ∧ t.ismp = s.ismp := by
  have hround : ∀ t : Entries,
      (∀ q, EntryAt phys e t.p q → Known (phys q)) ∧ t.ismp = s.ismp → more e t →
        ((∀ q, EntryAt phys e (entry phys t).p q → Known (phys q)) ∧
          (entry phys t).ismp = s.ismp) ∧ e - (entry phys t).p < e - t.p := by
    intro t ht hc
    have hlt : t.p < e := of_decide_eq_true hc
    have hknown := ht.1 t.p (.here hlt)
    obtain ⟨hp, hismp⟩ := entry_known hknown
    have hpos := entrySize_pos (phys t.p)
    refine ⟨⟨fun q hq => ht.1 q (.next hlt hknown (hp ▸ hq)), hismp.trans ht.2⟩, ?_⟩
    rw [hp]
    omega
  obtain ⟨t, hrun, hinv, -⟩ :=
    whileLoop.terminates
      (fun t : Entries => (∀ q, EntryAt phys e t.p q → Known (phys q)) ∧ t.ismp = s.ismp)
      (fun t => e - t.p) hround ⟨h, rfl⟩ (Nat.lt_succ_self (e - s.p))
  exact ⟨_, t, hrun, hinv.2⟩

/-- **A loop that ends** has met no entry of an unknown type. -/
theorem known_of_terminates {n : Nat} {t : Entries}
    (hrun : whileLoop (more e) (entry phys) n s = some t) :
    ∀ q, EntryAt phys e s.p q → Known (phys q) := by
  induction n generalizing s with
  | zero => exact nomatch hrun
  | succ n ih =>
      intro q hq
      by_cases hlt : s.p < e
      · have hmore : more e s := decide_eq_true hlt
        rw [whileLoop.of_true hmore] at hrun
        by_cases hknown : Known (phys s.p)
        · have hrest := ih hrun
          rw [(entry_known hknown).1] at hrest
          cases hq with
          | here => exact hknown
          | next _ _ hq => exact hrest q hq
        · -- the same entry again and again
          have hstays : ∀ u : Entries, u.p = s.p → more e u ∧ (entry phys u).p = s.p := by
            intro u hu
            have hu' : ¬ Known (phys u.p) := by rwa [hu]
            exact ⟨decide_eq_true (by omega), (entry_unknown hu').trans hu⟩
          rw [whileLoop.diverges (fun u => u.p = s.p) hstays (entry_unknown hknown)] at hrun
          exact nomatch hrun
      · cases hq with
        | here h => exact absurd h hlt
        | next h => exact absurd h hlt

end Loop

/-- If every entry has a known type, `mpinit` goes through all of them and does not panic. -/
theorem mpinit_done {phys : Mem} {conf mp : Nat} (h : mpconfig phys = some (conf, mp))
    (htyped : WellTyped phys conf) : ∃ n s imcr, mpinit n phys = some (.done s imcr) := by
  obtain ⟨n, t, hloop, hismp⟩ := loop_terminates (s := ⟨conf + mpconfSize, true, [], 0⟩) htyped
  refine ⟨n, t, phys (mp + 12) ≠ 0, ?_⟩
  rw [mpinit, h]
  simp only [hloop, Option.map_some, hismp, not_true_eq_false, if_false]

/-- **When `mpinit` terminates** on a table that `mpconfig` accepts. -/
theorem mpinit_terminates_iff {phys : Mem} {conf mp : Nat} (h : mpconfig phys = some (conf, mp)) :
    (∃ n out, mpinit n phys = some out) ↔ WellTyped phys conf := by
  constructor
  · intro hterm
    obtain ⟨n, out, hrun⟩ := hterm
    rw [mpinit, h] at hrun
    obtain ⟨t, hloop, -⟩ := Option.map_eq_some_iff.1 hrun
    exact known_of_terminates hloop
  · intro htyped
    obtain ⟨n, s, imcr, hrun⟩ := mpinit_done h htyped
    exact ⟨n, _, hrun⟩

/-- A BIOS whose table has one entry, of type `t`; `checksum` makes the bytes of the table add up. -/
def bios (t checksum : UInt8) : Mem := fun a =>
  if a = 0x40E then 0xC0 else if a = 0x40F then 0x9F
  else if a < 0x9FC00 then 0
  else
    ([95, 77, 80, 95, 0x10, 0xFC, 0x09, 0, 1, 4, 139, 0, 0, 0, 0, 0] ++
      [80, 67, 77, 80, 45, 0, 1, checksum] ++ List.replicate 36 0 ++ [t]).getD (a - 0x9FC00) 0

/-- A bus. -/
theorem mpinit_terminates_iff_bus : ∃ n out, mpinit n (bios 1 161) = some out := by
  have hconf : mpconfig (bios 1 161) = some (0x9FC10, 0x9FC00) := by decide +kernel
  refine (mpinit_terminates_iff hconf).2 fun q hq => ?_
  have hlength : length (bios 1 161) 0x9FC10 = 45 := by decide
  rw [hlength] at hq
  cases hq with
  | here h => decide
  | next h hknown hq =>
      have hsize : entrySize (bios 1 161 (0x9FC10 + mpconfSize)) = 8 := by decide
      rw [hsize] at hq
      cases hq with
      | here h => exact absurd h (by decide)
      | next h => exact absurd h (by decide)

/-- An entry of type 255: the loop goes on for ever. -/
theorem mpinit_loops :
    mpconfig (bios 255 163) = some (0x9FC10, 0x9FC00) ∧ ∀ n, mpinit n (bios 255 163) = none := by
  have hconf : mpconfig (bios 255 163) = some (0x9FC10, 0x9FC00) := by decide +kernel
  have hlength : length (bios 255 163) 0x9FC10 = 45 := by decide
  refine ⟨hconf, fun n => ?_⟩
  rw [mpinit, hconf]
  simp only [hlength]
  rw [Option.map_eq_none_iff, Option.eq_none_iff_forall_ne_some]
  intro t hrun
  have hknown := known_of_terminates hrun (0x9FC10 + mpconfSize) (.here (by decide))
  exact absurd hknown (by decide)

end Cs350.Mp
