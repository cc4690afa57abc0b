import Cs350.Lib.Holding
import Cs350.Vm.Defs
import Mathlib.Tactic.Abel

set_option autoImplicit false

/-! # Address spaces

The words of a page directory and of its page tables, read as a `Space`: which page tables there
are, and the entry of every virtual page. `foot d S` is the multiset of the pages that an address
space with directory `d` occupies: the directory, the page tables, and the frames that the entries
below `KERNBASE` map. The pages of the kernel's own part are not among them.

A write to a word of the directory or of a page table is an update of the `Space`, provided the
footprint has no duplicates, and a write to any other page does not change it. -/

namespace Cs350.Vm

/-! ## Words -/

theorem entry_lt (m : Mem) (i : Nat) : entry m i < 2 ^ 32 := m.load_lt (4 * i) 4

theorem entry_store_self (m : Mem) (i w : Nat) (hw : w < 2 ^ 32) :
    entry (m.store (4 * i) 4 w) i = w := by
  unfold entry
  rw [Mem.load_store]
  exact Nat.mod_eq_of_lt hw

theorem entry_store_of_ne (m : Mem) {i j : Nat} (w : Nat) (h : j ≠ i) :
    entry (m.store (4 * i) 4 w) j = entry m j :=
  m.load_store_of_disjoint (4 * i) 4 w (4 * j) 4 (by omega)

theorem entry_filled_zero (i : Nat) : entry (filled 0) i = 0 := rfl

/-- An entry is the sum of its address and its flags. -/
theorem or_eq_add (p : Nat) {f : Nat} (hf : f < pgSize) : p * pgSize ||| f = p * pgSize + f := by
  rw [Nat.mul_comm]
  exact (Nat.two_pow_add_eq_or_of_lt (i := 12) hf p).symm

theorem not_present_zero : ¬ Present 0 := by decide

theorem not_user_zero : ¬ User 0 := by decide

/-- The page that a present entry points to. -/
def pageAt (w : Nat) : Option Nat := if Present w then some (pageOf w) else none

@[simp] theorem pageAt_zero : pageAt 0 = none := rfl

theorem pageAt_of_present {w : Nat} (h : Present w) : pageAt w = some (pageOf w) := if_pos h

theorem pageAt_of_not_present {w : Nat} (h : ¬ Present w) : pageAt w = none := if_neg h

theorem pageAt_eq_some {w p : Nat} : pageAt w = some p ↔ Present w ∧ pageOf w = p := by
  unfold pageAt
  split_ifs with h
  · rw [Option.some_inj]
    exact ⟨fun hp => ⟨h, hp⟩, fun hp => hp.2⟩
  · exact ⟨fun hp => (nomatch hp), fun hp => absurd hp.1 h⟩

/-- The entry for a page with flags that include `PTE_P`. -/
theorem pageAt_add {p f : Nat} (hf : f < pgSize) (hp : f % 2 = 1) :
    pageAt (p * pgSize + f) = some p := by
  rw [show pgSize = 4096 from rfl] at hf ⊢
  refine pageAt_eq_some.2 ⟨?_, ?_⟩
  · unfold Present
    omega
  · unfold pageOf
    rw [show pgSize = 4096 from rfl]
    omega

/-! ## What the words say -/

@[ext] structure Space where
  /-- the page tables, by index in the directory -/
  tab : Nat → Option Nat
  /-- the entries, by virtual page -/
  pte : Nat → Nat

/-- The number of virtual pages below `KERNBASE`. -/
def userPages : Nat := kernBase / pgSize

def tabOf (mem : Nat → Mem) (d i : Nat) : Option Nat :=
  if i < 1024 then pageAt (entry (mem d) i) else none

/-- The address space that the directory `d` describes. Where there is no page table, the entries
    are taken to be zero. -/
def space (mem : Nat → Mem) (d : Nat) : Space where
  tab := tabOf mem d
  pte v := (tabOf mem d (v / 1024)).elim 0 fun t => entry (mem t) (v % 1024)

namespace Space

variable (S : Space) {d : Nat}

def tables : Multiset Nat := holdings 1024 S.tab

def frames : Multiset Nat := holdings userPages fun v => pageAt (S.pte v)

/-- The pages that an address space with directory `d` occupies. -/
def foot (d : Nat) : Multiset Nat := {d} + S.tables + S.frames

def addTab (i t : Nat) : Space := { S with tab := Function.update S.tab i (some t) }

def setPte (v w : Nat) : Space := { S with pte := Function.update S.pte v w }

@[simp] theorem addTab_pte (i t : Nat) : (S.addTab i t).pte = S.pte := rfl

@[simp] theorem addTab_self (i t : Nat) : (S.addTab i t).tab i = some t := Function.update_self ..

theorem addTab_of_ne {i j : Nat} (t : Nat) (h : j ≠ i) : (S.addTab i t).tab j = S.tab j :=
  Function.update_of_ne h ..

@[simp] theorem setPte_tab (v w : Nat) : (S.setPte v w).tab = S.tab := rfl

@[simp] theorem setPte_self (v w : Nat) : (S.setPte v w).pte v = w := Function.update_self ..

theorem setPte_of_ne {u v : Nat} (w : Nat) (h : u ≠ v) : (S.setPte v w).pte u = S.pte u :=
  Function.update_of_ne h ..

theorem tables_addTab {i : Nat} (hi : i < 1024) (hnone : S.tab i = none) (t : Nat) :
    (S.addTab i t).tables = S.tables + {t} := by
  have h := holdings.update_add (f := S.tab) (g := (S.addTab i t).tab) hi
    fun j hj => S.addTab_of_ne t hj
  rwa [hnone, held_none, add_zero, addTab_self, held_some] at h

/-- The frames depend on the entries only. -/
theorem frames_congr {S T : Space} (h : ∀ v < userPages, T.pte v = S.pte v) :
    T.frames = S.frames :=
  holdings.ext fun v hv => by rw [h v hv]

theorem foot_addTab {i : Nat} (hi : i < 1024) (hnone : S.tab i = none) (t : Nat) :
    (S.addTab i t).foot d = S.foot d + {t} := by
  unfold foot
  rw [S.tables_addTab hi hnone, show (S.addTab i t).frames = S.frames from rfl]
  abel

theorem frames_setPte {v : Nat} (hv : v < userPages) (w : Nat) :
    (S.setPte v w).frames + held (pageAt (S.pte v)) = S.frames + held (pageAt w) := by
  have h := holdings.update_add (f := fun u => pageAt (S.pte u))
    (g := fun u => pageAt ((S.setPte v w).pte u)) hv
    fun u hu => by rw [S.setPte_of_ne w hu]
  rwa [setPte_self] at h

theorem foot_setPte {v : Nat} (hv : v < userPages) (w : Nat) :
    (S.setPte v w).foot d + held (pageAt (S.pte v)) = S.foot d + held (pageAt w) := by
  unfold foot
  rw [add_assoc, S.frames_setPte hv, ← add_assoc]
  rfl

/-- The entries of the kernel's part do not count. -/
theorem foot_setPte_kernel {v : Nat} (hv : userPages ≤ v) (w : Nat) :
    (S.setPte v w).foot d = S.foot d := by
  have h : (S.setPte v w).frames = S.frames :=
    frames_congr fun u hu => S.setPte_of_ne w (Nat.lt_of_lt_of_le hu hv).ne
  unfold foot
  rw [h]
  rfl

variable {S}

theorem mem_tables {t : Nat} : t ∈ S.tables ↔ ∃ i < 1024, S.tab i = some t := holdings.mem_iff

theorem mem_frames {p : Nat} : p ∈ S.frames ↔ ∃ v < userPages, pageAt (S.pte v) = some p :=
  holdings.mem_iff

theorem mem_foot {p : Nat} : p ∈ S.foot d ↔ p = d ∨ p ∈ S.tables ∨ p ∈ S.frames := by
  rw [foot, Multiset.mem_add, Multiset.mem_add, Multiset.mem_singleton, or_assoc]

theorem mem_foot_dir : d ∈ S.foot d := mem_foot.2 (Or.inl rfl)

theorem mem_foot_of_tab {i t : Nat} (hi : i < 1024) (h : S.tab i = some t) : t ∈ S.foot d :=
  mem_foot.2 (Or.inr (Or.inl (mem_tables.2 ⟨i, hi, h⟩)))

theorem mem_foot_of_pte {v p : Nat} (hv : v < userPages) (h : pageAt (S.pte v) = some p) :
    p ∈ S.foot d :=
  mem_foot.2 (Or.inr (Or.inr (mem_frames.2 ⟨v, hv, h⟩)))

/-! What is different in a footprint without duplicates. -/

section Nodup

variable (h : (S.foot d).Nodup)

include h

theorem tab_ne_dir {i t : Nat} (hi : i < 1024) (ht : S.tab i = some t) : t ≠ d := by
  have hmem : t ∈ S.tables := mem_tables.2 ⟨i, hi, ht⟩
  rw [foot, add_assoc, Multiset.nodup_add] at h
  rintro rfl
  exact Multiset.disjoint_left.1 h.2.2 (Multiset.mem_singleton_self t)
    (Multiset.mem_add.2 (Or.inl hmem))

theorem tab_ne_tab {i j t u : Nat} (hi : i < 1024) (hj : j < 1024) (hij : i ≠ j)
    (ht : S.tab i = some t) (hu : S.tab j = some u) : t ≠ u := by
  rw [foot, Multiset.nodup_add, Multiset.nodup_add] at h
  exact holdings.ne_of_nodup h.1.2.1 hi hj hij ht hu

theorem pte_ne_dir {v p : Nat} (hv : v < userPages) (hp : pageAt (S.pte v) = some p) :
    p ≠ d := by
  have hmem : p ∈ S.frames := mem_frames.2 ⟨v, hv, hp⟩
  rw [foot, add_assoc, Multiset.nodup_add] at h
  rintro rfl
  exact Multiset.disjoint_left.1 h.2.2 (Multiset.mem_singleton_self p)
    (Multiset.mem_add.2 (Or.inr hmem))

theorem pte_ne_tab {v p i t : Nat} (hv : v < userPages) (hp : pageAt (S.pte v) = some p)
    (hi : i < 1024) (ht : S.tab i = some t) : p ≠ t := by
  have hpm : p ∈ S.frames := mem_frames.2 ⟨v, hv, hp⟩
  have htm : t ∈ S.tables := mem_tables.2 ⟨i, hi, ht⟩
  rw [foot, Multiset.nodup_add] at h
  rintro rfl
  exact Multiset.disjoint_left.1 h.2.2 (Multiset.mem_add.2 (Or.inr htm)) hpm

end Nodup

end Space

/-! ## Reading and writing -/

section Memory

variable {mem mem' : Nat → Mem} {d i v : Nat}

theorem tab_lt {t : Nat} (h : (space mem d).tab i = some t) : i < 1024 := by
  by_contra hi
  rw [show (space mem d).tab i = none from if_neg hi] at h
  exact nomatch h

theorem tab_eq (hi : i < 1024) : (space mem d).tab i = pageAt (entry (mem d) i) := if_pos hi

theorem pte_of_tab {t : Nat} (h : (space mem d).tab (v / 1024) = some t) :
    (space mem d).pte v = entry (mem t) (v % 1024) := by
  show (tabOf mem d (v / 1024)).elim 0 _ = _
  rw [show tabOf mem d (v / 1024) = some t from h]
  rfl

theorem pte_of_no_tab (h : (space mem d).tab (v / 1024) = none) : (space mem d).pte v = 0 := by
  show (tabOf mem d (v / 1024)).elim 0 _ = _
  rw [show tabOf mem d (v / 1024) = none from h]
  rfl

theorem pte_lt (mem : Nat → Mem) (d v : Nat) : (space mem d).pte v < 2 ^ 32 := by
  cases h : (space mem d).tab (v / 1024) with
  | none =>
      rw [pte_of_no_tab h]
      exact Nat.two_pow_pos 32
  | some t =>
      rw [pte_of_tab h]
      exact entry_lt _ _

/-- The address space depends on the directory and the page tables only. -/
theorem space_congr (hd : mem' d = mem d)
    (ht : ∀ i t, (space mem d).tab i = some t → mem' t = mem t) : space mem' d = space mem d := by
  have htab : tabOf mem' d = tabOf mem d := by
    funext i
    unfold tabOf
    rw [hd]
  refine Space.ext htab ?_
  funext v
  show (tabOf mem' d (v / 1024)).elim 0 _ = (tabOf mem d (v / 1024)).elim 0 _
  rw [htab]
  cases h : tabOf mem d (v / 1024) with
  | none => rfl
  | some t => exact congrArg (entry · (v % 1024)) (ht _ t h)

theorem space_congr_foot (h : ∀ p ∈ (space mem d).foot d, mem' p = mem p) :
    space mem' d = space mem d :=
  space_congr (h d Space.mem_foot_dir)
    fun _ t ht => h t (Space.mem_foot_of_tab (tab_lt ht) ht)

/-- A write to a page that is neither the directory nor a page table. -/
theorem space_update_of_ne {p : Nat} (m : Mem) (hd : p ≠ d)
    (ht : ∀ i, (space mem d).tab i ≠ some p) :
    space (Function.update mem p m) d = space mem d := by
  refine space_congr (Function.update_of_ne (Ne.symm hd) ..) fun i t h => ?_
  have hne : t ≠ p := by
    rintro rfl
    exact ht i h
  exact Function.update_of_ne hne ..

/-- A directory entry that points to an empty page table. -/
theorem space_addTab {t w : Nat} (hi : i < 1024) (hw : w < 2 ^ 32) (hwt : pageAt w = some t)
    (hnone : (space mem d).tab i = none) (hd : t ≠ d) (hnd : ((space mem d).foot d).Nodup)
    (hzero : mem t = filled 0) :
    space (Function.update mem d ((mem d).store (4 * i) 4 w)) d = (space mem d).addTab i t := by
  have htab : tabOf (Function.update mem d ((mem d).store (4 * i) 4 w)) d
      = ((space mem d).addTab i t).tab := by
    funext j
    unfold tabOf
    by_cases hji : j = i
    · subst hji
      rw [if_pos hi, Function.update_self, entry_store_self _ _ _ hw, hwt,
        Space.addTab_self]
    · rw [Function.update_self, entry_store_of_ne _ _ hji, Space.addTab_of_ne _ _ hji]
      rfl
  refine Space.ext htab ?_
  funext v
  show (tabOf _ d (v / 1024)).elim 0 _ = (space mem d).pte v
  rw [htab]
  by_cases hvi : v / 1024 = i
  · -- the new page table is empty, and there was none before
    rw [pte_of_no_tab (by rw [hvi, hnone]), hvi, Space.addTab_self, Option.elim_some,
      Function.update_of_ne hd, hzero]
    rfl
  · rw [Space.addTab_of_ne _ _ hvi]
    cases hu : (space mem d).tab (v / 1024) with
    | none => rw [pte_of_no_tab hu, Option.elim_none]
    | some u =>
        have hud : u ≠ d := Space.tab_ne_dir hnd (tab_lt hu) hu
        rw [Option.elim_some, Function.update_of_ne hud, pte_of_tab hu]

/-- A write to an entry of a page table. -/
theorem space_setPte {t w : Nat} (hw : w < 2 ^ 32) (ht : (space mem d).tab (v / 1024) = some t)
    (hnd : ((space mem d).foot d).Nodup) :
    space (Function.update mem t ((mem t).store (4 * (v % 1024)) 4 w)) d
      = (space mem d).setPte v w := by
  have htd : t ≠ d := Space.tab_ne_dir hnd (tab_lt ht) ht
  have htab : tabOf (Function.update mem t ((mem t).store (4 * (v % 1024)) 4 w)) d
      = tabOf mem d := by
    funext j
    unfold tabOf
    rw [Function.update_of_ne (Ne.symm htd)]
  refine Space.ext htab ?_
  funext u
  show (tabOf _ d (u / 1024)).elim 0 _ = Function.update (space mem d).pte v w u
  rw [htab]
  by_cases huv : u = v
  · subst huv
    rw [show tabOf mem d (u / 1024) = some t from ht, Option.elim_some, Function.update_self,
      Function.update_self, entry_store_self _ _ _ hw]
  · rw [Function.update_of_ne huv]
    cases ht' : (space mem d).tab (u / 1024) with
    | none =>
        rw [show tabOf mem d (u / 1024) = none from ht', Option.elim_none, pte_of_no_tab ht']
    | some t' =>
        rw [show tabOf mem d (u / 1024) = some t' from ht', Option.elim_some, pte_of_tab ht']
        by_cases hj : u / 1024 = v / 1024
        · -- another entry of the same page table
          have hne : u % 1024 ≠ v % 1024 := by omega
          have htt : t' = t := Option.some.inj (ht'.symm.trans (hj ▸ ht))
          rw [htt, Function.update_self, entry_store_of_ne _ _ hne]
        · have hne : t' ≠ t := Space.tab_ne_tab hnd (tab_lt ht') (tab_lt ht) hj ht' ht
          rw [Function.update_of_ne hne]

end Memory

end Cs350.Vm
