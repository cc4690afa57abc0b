import Cs350.FileSys.Syscall
import Cs350.Lib.Holding
import Mathlib.Algebra.BigOperators.Group.Finset.Basic
import Mathlib.Algebra.Order.BigOperators.Group.Finset
import Mathlib.Data.Multiset.Count

set_option autoImplicit false

/-! # Well-formed directory trees

`Tree` is what the inodes satisfy by themselves. Every directory starts with its `.` and `..`
entries; the entries after these name allocated inodes, and name a directory only from the place
its own `..` points to. A link count is at least the number of entries after the first two that
name the inode, plus one for each subdirectory of a directory (for its `..`), plus one for the root.
It may be higher: entries that disappear with a removed directory are never subtracted. While a call
is at work some inodes have links to spare, those in `P`.

The lemmas of this file say how `Tree` changes with each write to an inode. -/

namespace Cs350.FileSys

/-! ## Counting links -/

/-- Entries after `.` and `..` that name `i`. -/
def linksIn (es : List Dirent) (i : Nat) : Nat := (es.drop 2).countP fun de => de.inum = i

/-- Entries after `.` and `..` that name `i`, over all of the `n` inodes. -/
def linksTo (n : Nat) (inode : Nat → Inode) (i : Nat) : Nat :=
  ∑ d ∈ Finset.range n, linksIn (inode d).entries i

/-- Entries after `.` and `..` of directory `d` that name a directory. -/
def subdirs (inode : Nat → Inode) (d : Nat) : Nat :=
  ((inode d).entries.drop 2).countP fun de => de.inum ≠ 0 ∧ (inode de.inum).type = .dir

theorem linksTo_update {n d : Nat} (inode : Nat → Inode) (node : Inode) (i : Nat) (hd : d < n) :
    linksTo n (Function.update inode d node) i + linksIn (inode d).entries i
      = linksTo n inode i + linksIn node.entries i := by
  have hself : linksIn ((Function.update inode d node) d).entries i = linksIn node.entries i := by
    rw [Function.update_self]
  unfold linksTo
  rw [sum_add_of_eq_off (Finset.mem_range.2 hd)
    (f := fun x => linksIn (inode x).entries i)
    (g := fun x => linksIn ((Function.update inode d node) x).entries i)
    (fun x hx => by rw [Function.update_of_ne hx]), hself]

/-- An inode that counts no link is named by no entry. -/
theorem inum_ne_of_linksTo_eq_zero {n d i : Nat} {inode : Nat → Inode} (h : linksTo n inode i = 0)
    (hd : d < n) {de : Dirent} (hde : de ∈ (inode d).entries.drop 2) : de.inum ≠ i := by
  have hle : linksIn (inode d).entries i ≤ linksTo n inode i :=
    Finset.single_le_sum (f := fun d => linksIn (inode d).entries i) (fun _ _ => Nat.zero_le _)
      (Finset.mem_range.2 hd)
  rw [h, Nat.le_zero, linksIn, List.countP_eq_zero] at hle
  intro heq
  exact hle de hde (by simp [heq])

theorem subdirs_congr {inode inode' : Nat → Inode} {d : Nat}
    (hes : (inode' d).entries = (inode d).entries)
    (htype : ∀ de ∈ (inode d).entries.drop 2, de.inum ≠ 0 →
      (inode' de.inum).type = (inode de.inum).type) :
    subdirs inode' d = subdirs inode d := by
  unfold subdirs
  rw [hes]
  apply List.countP_congr
  intro de hde
  by_cases hzero : de.inum = 0
  · simp [hzero]
  · simp [hzero, htype de hde hzero]

/-! ## Trees -/

/-- The inode is in use on the disk. -/
def Allocated (inode : Nat → Inode) (i : Nat) : Prop := (inode i).type ≠ .free

/-- The entries of a directory `d`: `.`, then `..`, then entries with other names. -/
def Shape (d : Nat) (es : List Dirent) : Prop :=
  ∃ p rest, es = ⟨d, ['.']⟩ :: ⟨p, ['.', '.']⟩ :: rest ∧ p ≠ 0 ∧
    ∀ de ∈ rest, de.inum ≠ 0 → ¬ namecmp de.name ['.'] ∧ ¬ namecmp de.name ['.', '.']

/-- The inode that `..` of a directory names. -/
def dotdot (es : List Dirent) : Nat := (es[1]?).elim 0 Dirent.inum

theorem Shape.mem_cases {d : Nat} {es : List Dirent} (h : Shape d es) {de : Dirent}
    (hde : de ∈ es) : de.inum = d ∨ de.inum = dotdot es ∨ de ∈ es.drop 2 := by
  obtain ⟨p, rest, rfl, -, -⟩ := h
  rcases List.mem_cons.1 hde with rfl | hde
  · exact Or.inl rfl
  · rcases List.mem_cons.1 hde with rfl | hde
    · exact Or.inr (Or.inl rfl)
    · exact Or.inr (Or.inr hde)

/-- How far the link count of an inode exceeds the number of its links. -/
def surplus (n : Nat) (inode : Nat → Inode) (P : Multiset Nat) (i : Nat) : Int :=
  (inode i).nlink - (linksTo n inode i + subdirs inode i + (if i = rootIno then 1 else 0)
    + P.count i : Nat)

/-- A well-formed tree; in an `exact` one no link count is too high. -/
structure Tree (exact : Bool) (n : Nat) (inode : Nat → Inode) (P : Multiset Nat) : Prop where
  small : n ≤ 65536
  range : ∀ i, Allocated inode i → 0 < i ∧ i < n
  flat : ∀ i, (inode i).type ≠ .dir → (inode i).entries = []
  shape : ∀ d, (inode d).type = .dir → Shape d (inode d).entries
  names : ∀ d, ∀ de ∈ (inode d).entries.drop 2, de.inum ≠ 0 → Allocated inode de.inum ∧
    ((inode de.inum).type = .dir → dotdot (inode de.inum).entries = d)
  links : ∀ i, Allocated inode i →
    0 ≤ surplus n inode P i ∧ (exact = true → surplus n inode P i = 0)
  top : ∀ i, (inode i).nlink ≤ 32767

section Tree

variable {exact : Bool} {n d i : Nat} {inode : Nat → Inode} {P : Multiset Nat}

theorem Allocated.of_dir (h : (inode i).type = .dir) : Allocated inode i := by
  unfold Allocated
  rw [h]
  nofun

/-- Only directories have entries. -/
theorem Tree.dir_of_mem (ht : Tree exact n inode P) {de : Dirent} (h : de ∈ (inode d).entries) :
    (inode d).type = .dir := by
  by_contra hne
  rw [ht.flat d hne] at h
  cases h

theorem Tree.lt_of_mem (ht : Tree exact n inode P) {de : Dirent} (h : de ∈ (inode d).entries.drop 2) :
    d < n :=
  (ht.range d (Allocated.of_dir (ht.dir_of_mem (List.mem_of_mem_drop h)))).2

/-- An inode without a link is not named by an entry after the first two. -/
theorem Tree.inum_ne (ht : Tree exact n inode P) (hi : Allocated inode i) (hzero : (inode i).nlink = 0)
    {de : Dirent} (h : de ∈ (inode d).entries.drop 2) : de.inum ≠ i := by
  have hlinks := (ht.links i hi).1
  rw [surplus] at hlinks
  exact inum_ne_of_linksTo_eq_zero (by omega) (ht.lt_of_mem h) h

theorem Tree.top_update {node : Inode} (ht : Tree exact n inode P) (h : node.nlink ≤ 32767) (j : Nat) :
    (Function.update inode i node j).nlink ≤ 32767 := by
  by_cases hj : j = i
  · subst hj
    rwa [Function.update_self]
  · rw [Function.update_of_ne hj]
    exact ht.top j

/-- A change of an inode's link count together with the links to spare. -/
theorem Tree.setNlink {P' : Multiset Nat} {node : Inode} (ht : Tree exact n inode P)
    (hi : Allocated inode i) (htype : node.type = (inode i).type)
    (hentries : node.entries = (inode i).entries)
    (hm : node.nlink + P.count i = (inode i).nlink + P'.count i)
    (hP : ∀ j, j ≠ i → P'.count j = P.count j) (htop : node.nlink ≤ 32767) :
    Tree exact n (Function.update inode i node) P' := by
  have htype : ∀ j, (Function.update inode i node j).type = (inode j).type := by
    intro j
    by_cases hj : j = i
    · subst hj
      rw [Function.update_self, htype]
    · rw [Function.update_of_ne hj]
  have hes : ∀ j, (Function.update inode i node j).entries = (inode j).entries := by
    intro j
    by_cases hj : j = i
    · subst hj
      rw [Function.update_self, hentries]
    · rw [Function.update_of_ne hj]
  have hlinks : ∀ j, linksTo n (Function.update inode i node) j = linksTo n inode j := by
    intro j
    unfold linksTo
    simp only [hes]
  have hsub : ∀ j, subdirs (Function.update inode i node) j = subdirs inode j :=
    fun j => subdirs_congr (hes j) (fun _ _ _ => htype _)
  refine ⟨ht.small, ?_, ?_, ?_, ?_, ?_, ht.top_update htop⟩
  · intro j hj
    rw [Allocated, htype] at hj
    exact ht.range j hj
  · intro j hj
    rw [htype] at hj
    rw [hes, ht.flat j hj]
  · intro j hj
    rw [htype] at hj
    rw [hes]
    exact ht.shape j hj
  · intro j de hde hne
    rw [hes] at hde
    rw [Allocated, htype, hes]
    exact ht.names j de hde hne
  · intro j hj
    rw [Allocated, htype] at hj
    have hsame : surplus n (Function.update inode i node) P' j = surplus n inode P j := by
      rw [surplus, hlinks, hsub, surplus]
      by_cases hji : j = i
      · subst hji
        rw [Function.update_self]
        omega
      · rw [Function.update_of_ne hji, hP j hji]
    rw [hsame]
    exact ht.links j hj

/-- Freeing an inode without links. What its entries named is overcounted from then on. -/
theorem Tree.free {node : Inode} (ht : Tree exact n inode P) (hi : Allocated inode i)
    (hzero : (inode i).nlink = 0) (hfree : node.type = .free) (hnil : node.entries = [])
    (htop : node.nlink ≤ 32767)
    (hexact : exact = true → ∀ de ∈ (inode i).entries.drop 2, de.inum = 0) :
    Tree exact n (Function.update inode i node) P := by
  have hne : ∀ d, ∀ de ∈ (inode d).entries.drop 2, de.inum ≠ i :=
    fun d de hde => ht.inum_ne hi hzero hde
  have hother : ∀ j, j ≠ i → Function.update inode i node j = inode j :=
    fun j hj => Function.update_of_ne hj _ _
  have hself : Function.update inode i node i = node := Function.update_self _ _ _
  have halloc : ∀ j, Allocated (Function.update inode i node) j → j ≠ i ∧ Allocated inode j := by
    intro j hj
    by_cases hji : j = i
    · subst hji
      rw [Allocated, hself] at hj
      exact absurd hfree hj
    · rw [Allocated, hother j hji] at hj
      exact ⟨hji, hj⟩
  refine ⟨ht.small, fun j hj => ht.range j (halloc j hj).2, ?_, ?_, ?_, ?_, ht.top_update htop⟩
  · intro j hj
    by_cases hji : j = i
    · subst hji
      rw [hself, hnil]
    · rw [hother j hji] at hj ⊢
      exact ht.flat j hj
  · intro j hj
    have hji := (halloc j (Allocated.of_dir hj)).1
    rw [hother j hji] at hj ⊢
    exact ht.shape j hj
  · intro j de hde hnz
    by_cases hji : j = i
    · subst hji
      rw [hself, hnil] at hde
      cases hde
    · rw [hother j hji] at hde
      rw [Allocated, hother _ (hne j de hde)]
      exact ht.names j de hde hnz
  · intro j hj
    obtain ⟨hji, hj⟩ := halloc j hj
    have hlinks := linksTo_update inode node j (ht.range i hi).2
    have hzero : linksIn node.entries j = 0 := by
      rw [hnil]
      rfl
    have hsub : subdirs (Function.update inode i node) j = subdirs inode j := by
      apply subdirs_congr
      · rw [hother j hji]
      · intro de hde _
        rw [hother _ (hne j de hde)]
    have hold := ht.links j hj
    rw [surplus] at hold
    rw [surplus, hsub, hother j hji]
    refine ⟨by omega, fun he => ?_⟩
    have hnone : linksIn (inode i).entries j = 0 := by
      have hj0 := (ht.range j hj).1
      rw [linksIn, List.countP_eq_zero]
      intro de hde
      rw [hexact he de hde, decide_eq_true_eq]
      omega
    have hzero := hold.2 he
    omega

/-! ## Writing an entry -/

theorem countP_writeEntry (p : Dirent → Prop) [DecidablePred p] {es : List Dirent} {off : Nat}
    (de : Dirent) (hlen : off ≤ es.length) :
    (writeEntry es off de).countP (fun x => decide (p x))
        + (es[off]?).elim 0 (fun old => if p old then 1 else 0)
      = es.countP (fun x => decide (p x)) + if p de then 1 else 0 := by
  unfold writeEntry
  by_cases hlt : off < es.length
  · have hle := List.boole_getElem_le_countP (p := fun x => decide (p x)) hlt
    rw [if_pos hlt, List.countP_set hlt, List.getElem?_eq_getElem hlt, Option.elim_some]
    simp only [decide_eq_true_eq] at hle ⊢
    omega
  · rw [if_neg hlt, List.countP_append, List.getElem?_eq_none (by omega)]
    simp [List.countP_singleton]

/-- One entry after the first two is replaced, or added at the end. -/
theorem drop_writeEntry {es : List Dirent} {off : Nat} (de : Dirent) (h2 : 2 ≤ off)
    (hlen : off ≤ es.length) :
    (writeEntry es off de).drop 2 = writeEntry (es.drop 2) (off - 2) de := by
  unfold writeEntry
  rw [List.length_drop]
  by_cases hlt : off < es.length
  · rw [if_pos hlt, if_pos (by omega), List.drop_set, if_neg (by omega)]
  · rw [if_neg hlt, if_neg (by omega), List.drop_append_of_le_length (by omega)]

/-- The inode named by entry `off`; zero past the end. -/
def inumAt (es : List Dirent) (off : Nat) : Nat := (es[off]?).elim 0 Dirent.inum

theorem inumAt_drop (es : List Dirent) {off : Nat} (h2 : 2 ≤ off) :
    inumAt (es.drop 2) (off - 2) = inumAt es off := by
  have hadd : 2 + (off - 2) = off := by omega
  rw [inumAt, List.getElem?_drop, hadd, inumAt]

theorem linksIn_writeEntry {es : List Dirent} {off : Nat} (de : Dirent) (h2 : 2 ≤ off)
    (hlen : off ≤ es.length) {j : Nat} (hj : j ≠ 0) :
    linksIn (writeEntry es off de) j + (if inumAt es off = j then 1 else 0)
      = linksIn es j + if de.inum = j then 1 else 0 := by
  have hlen' : off - 2 ≤ (es.drop 2).length := by
    rw [List.length_drop]
    omega
  have hcount := countP_writeEntry (fun de => de.inum = j) de hlen'
  rw [linksIn, linksIn, drop_writeEntry de h2 hlen, ← inumAt_drop es h2, inumAt]
  cases hold : (es.drop 2)[off - 2]? with
  | none =>
      rw [hold] at hcount
      have hzero : (0 : Nat) ≠ j := fun h => hj h.symm
      simpa [hzero] using hcount
  | some old =>
      rw [hold] at hcount
      exact hcount

/-- Whether an entry that names `i` makes a subdirectory. -/
def isSubdir (inode : Nat → Inode) (i : Nat) : Nat :=
  if i ≠ 0 ∧ (inode i).type = .dir then 1 else 0

theorem countP_subdir_writeEntry (inode : Nat → Inode) {es : List Dirent} {off : Nat}
    (de : Dirent) (h2 : 2 ≤ off) (hlen : off ≤ es.length) :
    ((writeEntry es off de).drop 2).countP
        (fun de => decide (de.inum ≠ 0 ∧ (inode de.inum).type = .dir)) + isSubdir inode (inumAt es off)
      = (es.drop 2).countP (fun de => decide (de.inum ≠ 0 ∧ (inode de.inum).type = .dir))
        + isSubdir inode de.inum := by
  have hlen' : off - 2 ≤ (es.drop 2).length := by
    rw [List.length_drop]
    omega
  have hcount := countP_writeEntry (fun de => de.inum ≠ 0 ∧ (inode de.inum).type = .dir) de hlen'
  rw [drop_writeEntry de h2 hlen, ← inumAt_drop es h2, inumAt]
  cases hold : (es.drop 2)[off - 2]? with
  | none =>
      rw [hold] at hcount
      simpa [isSubdir] using hcount
  | some old =>
      rw [hold] at hcount
      exact hcount

theorem mem_writeEntry {es : List Dirent} {off : Nat} {de x : Dirent}
    (h : x ∈ writeEntry es off de) : x ∈ es ∨ x = de := by
  unfold writeEntry at h
  split_ifs at h
  · exact List.mem_or_eq_of_mem_set h
  · rcases List.mem_append.1 h with h | h
    · exact Or.inl h
    · exact Or.inr (List.mem_singleton.1 h)

theorem dotdot_writeEntry {es : List Dirent} {off : Nat} (de : Dirent) (h2 : 2 ≤ off)
    (hlen : off ≤ es.length) : dotdot (writeEntry es off de) = dotdot es := by
  unfold dotdot writeEntry
  split_ifs with hlt
  · rw [List.getElem?_set_ne (by omega)]
  · rw [List.getElem?_append_left (by omega)]

theorem Shape.writeEntry {es : List Dirent} {off : Nat} {de : Dirent} (h : Shape d es)
    (h2 : 2 ≤ off) (hlen : off ≤ es.length)
    (hname : de.inum ≠ 0 → ¬ namecmp de.name ['.'] ∧ ¬ namecmp de.name ['.', '.']) :
    Shape d (writeEntry es off de) := by
  obtain ⟨p, rest, rfl, hp, hrest⟩ := h
  refine ⟨p, FileSys.writeEntry rest (off - 2) de, ?_, hp, ?_⟩
  · obtain ⟨k, rfl⟩ : ∃ k, off = k + 2 := ⟨off - 2, by omega⟩
    have hlt : k + 2 < (⟨d, ['.']⟩ :: ⟨p, ['.', '.']⟩ :: rest : List Dirent).length
        ↔ k < rest.length := by simp
    unfold FileSys.writeEntry
    simp only [hlt, Nat.add_sub_cancel]
    split_ifs <;> rfl
  · intro x hx hne
    rcases mem_writeEntry hx with hx | rfl
    · exact hrest x hx hne
    · exact hname hne

/-- A write of one entry of directory `d`, given that the link counts have room for it. -/
theorem Tree.write {P' : Multiset Nat} {node : Inode} {off : Nat} {de : Dirent}
    (ht : Tree exact n inode P) (hd : (inode d).type = .dir) (htype : node.type = .dir)
    (hnlink : node.nlink = (inode d).nlink)
    (hes : node.entries = writeEntry (inode d).entries off de) (h2 : 2 ≤ off)
    (hlen : off ≤ (inode d).entries.length)
    (hname : de.inum ≠ 0 → ¬ namecmp de.name ['.'] ∧ ¬ namecmp de.name ['.', '.'])
    (hnew : de.inum ≠ 0 → Allocated inode de.inum ∧
      ((inode de.inum).type = .dir → dotdot (inode de.inum).entries = d))
    (hP : ∀ j, j ≠ 0 → P'.count j + (if de.inum = j then 1 else 0)
        + (if j = d then isSubdir inode de.inum else 0)
      = P.count j + (if inumAt (inode d).entries off = j then 1 else 0)
        + (if j = d then isSubdir inode (inumAt (inode d).entries off) else 0)) :
    Tree exact n (Function.update inode d node) P' := by
  have hdn : d < n := (ht.range d (Allocated.of_dir hd)).2
  have htop : node.nlink ≤ 32767 := by
    rw [hnlink]
    exact ht.top d
  have hself : Function.update inode d node d = node := Function.update_self _ _ _
  have hother : ∀ j, j ≠ d → Function.update inode d node j = inode j :=
    fun j hj => Function.update_of_ne hj _ _
  have htypes : ∀ j, (Function.update inode d node j).type = (inode j).type := by
    intro j
    by_cases hj : j = d
    · subst hj
      rw [hself, htype, hd]
    · rw [hother j hj]
  have hdots : ∀ j, dotdot (Function.update inode d node j).entries = dotdot (inode j).entries := by
    intro j
    by_cases hj : j = d
    · subst hj
      rw [hself, hes, dotdot_writeEntry de h2 hlen]
    · rw [hother j hj]
  refine ⟨ht.small, ?_, ?_, ?_, ?_, ?_, ht.top_update htop⟩
  · intro j hj
    rw [Allocated, htypes] at hj
    exact ht.range j hj
  · intro j hj
    rw [htypes] at hj
    have hjd : j ≠ d := by
      rintro rfl
      exact hj hd
    rw [hother j hjd, ht.flat j hj]
  · intro j hj
    rw [htypes] at hj
    by_cases hjd : j = d
    · subst hjd
      rw [hself, hes]
      exact (ht.shape j hj).writeEntry h2 hlen hname
    · rw [hother j hjd]
      exact ht.shape j hj
  · intro j x hx hne
    rw [Allocated, htypes, hdots]
    by_cases hjd : j = d
    · subst hjd
      rw [hself, hes, drop_writeEntry de h2 hlen] at hx
      rcases mem_writeEntry hx with hx | rfl
      · exact ht.names j x hx hne
      · exact hnew hne
    · rw [hother j hjd] at hx
      exact ht.names j x hx hne
  · intro j hj
    rw [Allocated, htypes] at hj
    have hj0 : j ≠ 0 := by
      have := (ht.range j hj).1
      omega
    have hlinks := linksTo_update inode node j hdn
    have hin := linksIn_writeEntry de h2 hlen hj0
    rw [← hes] at hin
    have hold := ht.links j hj
    have hroom := hP j hj0
    have hnl : (Function.update inode d node j).nlink = (inode j).nlink := by
      by_cases hjd : j = d
      · subst hjd
        rw [hself, hnlink]
      · rw [hother j hjd]
    have hsub : subdirs (Function.update inode d node) j
          + (if j = d then isSubdir inode (inumAt (inode d).entries off) else 0)
        = subdirs inode j + (if j = d then isSubdir inode de.inum else 0) := by
      by_cases hjd : j = d
      · subst hjd
        have hcount := countP_subdir_writeEntry inode de h2 hlen
        rw [← hes] at hcount
        unfold subdirs
        simp only [htypes, hself, if_pos]
        exact hcount
      · rw [if_neg hjd, if_neg hjd]
        apply congrArg (· + 0)
        exact subdirs_congr (by rw [hother j hjd]) (fun x _ _ => htypes _)
    have hsame : surplus n (Function.update inode d node) P' j = surplus n inode P j := by
      rw [surplus, surplus, hnl]
      omega
    rw [hsame]
    exact hold

/-- Erasing an entry: the inode it named has a link to spare, and so has the directory if it was a
    subdirectory. -/
theorem Tree.erase {node : Inode} {off : Nat} {de : Dirent} (ht : Tree exact n inode P)
    (hd : (inode d).type = .dir) (htype : node.type = .dir) (hnlink : node.nlink = (inode d).nlink)
    (hes : node.entries = (inode d).entries.set off ⟨0, []⟩) (h2 : 2 ≤ off)
    (hget : (inode d).entries[off]? = some de) (hne : de.inum ≠ 0) :
    Tree exact n (Function.update inode d node)
      (de.inum ::ₘ if (inode de.inum).type = .dir then d ::ₘ P else P) := by
  obtain ⟨hlt, -⟩ := List.getElem?_eq_some_iff.1 hget
  have hwrite : node.entries = writeEntry (inode d).entries off ⟨0, []⟩ := by
    rw [hes, writeEntry, if_pos hlt]
  have hat : inumAt (inode d).entries off = de.inum := by
    rw [inumAt, hget, Option.elim_some]
  refine ht.write hd htype hnlink hwrite h2 (by omega) (fun h => absurd rfl h)
    (fun h => absurd rfl h) ?_
  intro j hj
  have hzero : (0 : Nat) ≠ j := fun h => hj h.symm
  have hnot : isSubdir inode 0 = 0 := by simp [isSubdir]
  rw [hat, hnot, if_neg hzero, Multiset.count_cons]
  by_cases hdir : (inode de.inum).type = .dir
  · have hone : isSubdir inode de.inum = 1 := by simp [isSubdir, hne, hdir]
    rw [if_pos hdir, hone, Multiset.count_cons]
    split_ifs <;> omega
  · have hone : isSubdir inode de.inum = 0 := by simp [isSubdir, hdir]
    rw [if_neg hdir, hone]
    split_ifs <;> omega

/-- Entering an inode that has a link to spare, in a free place of a directory. A subdirectory also
    needs one of the directory's. -/
theorem Tree.link {node : Inode} {off : Nat} {name : Name}
    (ht : Tree exact n inode (i ::ₘ if (inode i).type = .dir then d ::ₘ P else P))
    (hd : (inode d).type = .dir) (htype : node.type = .dir) (hnlink : node.nlink = (inode d).nlink)
    (hes : node.entries = writeEntry (inode d).entries off ⟨i, name⟩) (h2 : 2 ≤ off)
    (hlen : off ≤ (inode d).entries.length) (hfree : inumAt (inode d).entries off = 0)
    (hname : ¬ namecmp name ['.'] ∧ ¬ namecmp name ['.', '.']) (hi : Allocated inode i)
    (hdots : (inode i).type = .dir → dotdot (inode i).entries = d) :
    Tree exact n (Function.update inode d node) P := by
  refine ht.write hd htype hnlink hes h2 hlen (fun _ => hname) (fun _ => ⟨hi, hdots⟩) ?_
  intro j hj
  have hi0 : i ≠ 0 := by
    have := (ht.range i hi).1
    omega
  have hzero : (0 : Nat) ≠ j := fun h => hj h.symm
  have hnot : isSubdir inode 0 = 0 := by simp [isSubdir]
  dsimp only
  rw [hfree, hnot, if_neg hzero, Multiset.count_cons]
  by_cases hdir : (inode i).type = .dir
  · have hone : isSubdir inode i = 1 := by simp [isSubdir, hi0, hdir]
    rw [if_pos hdir, hone, Multiset.count_cons]
    split_ifs <;> omega
  · have hone : isSubdir inode i = 0 := by simp [isSubdir, hdir]
    rw [if_neg hdir, hone]
    split_ifs <;> omega

/-- A new inode with one link to spare. A new directory comes with its first two entries. -/
theorem Tree.alloc {node : Inode} (ht : Tree exact n inode P) (hP : P.count i = 0)
    (hfree : (inode i).type = .free) (hpos : 0 < i) (hlt : i < n) (hroot : i ≠ rootIno)
    (hnlink : node.nlink = 1)
    (hflat : node.type ≠ .dir → node.entries = [])
    (hdots : node.type = .dir → ∃ p, p ≠ 0 ∧
      node.entries = [⟨i, ['.']⟩, ⟨p, ['.', '.']⟩]) :
    Tree exact n (Function.update inode i node) (i ::ₘ P) := by
  have htop : node.nlink ≤ 32767 := by
    rw [hnlink]
    omega
  have hself : Function.update inode i node i = node := Function.update_self _ _ _
  have hother : ∀ j, j ≠ i → Function.update inode i node j = inode j :=
    fun j hj => Function.update_of_ne hj _ _
  have hnil : (inode i).entries = [] := ht.flat i (by rw [hfree]; nofun)
  have hdrop : node.entries.drop 2 = [] := by
    by_cases hdir : node.type = .dir
    · obtain ⟨p, -, hes⟩ := hdots hdir
      rw [hes]
      rfl
    · rw [hflat hdir]
      rfl
  -- no entry names an inode that is free
  have hne : ∀ j, ∀ de ∈ (inode j).entries.drop 2, de.inum ≠ 0 → de.inum ≠ i := by
    rintro j de hde hnz rfl
    exact (ht.names j de hde hnz).1 hfree
  refine ⟨ht.small, ?_, ?_, ?_, ?_, ?_, ht.top_update htop⟩
  · intro j hj
    by_cases hji : j = i
    · subst hji
      exact ⟨hpos, hlt⟩
    · rw [Allocated, hother j hji] at hj
      exact ht.range j hj
  · intro j hj
    by_cases hji : j = i
    · subst hji
      rw [hself] at hj ⊢
      exact hflat hj
    · rw [hother j hji] at hj ⊢
      exact ht.flat j hj
  · intro j hj
    by_cases hji : j = i
    · subst hji
      rw [hself] at hj ⊢
      obtain ⟨p, hp, hes⟩ := hdots hj
      exact ⟨p, [], hes, hp, by simp⟩
    · rw [hother j hji] at hj ⊢
      exact ht.shape j hj
  · intro j de hde hnz
    by_cases hji : j = i
    · subst hji
      rw [hself, hdrop] at hde
      cases hde
    · rw [hother j hji] at hde
      rw [Allocated, hother _ (hne j de hde hnz)]
      exact ht.names j de hde hnz
  · intro j hj
    have hlinks := linksTo_update inode node j hlt
    have hin : linksIn node.entries j = 0 := by rw [linksIn, hdrop]; rfl
    have hin' : linksIn (inode i).entries j = 0 := by rw [hnil]; rfl
    by_cases hji : j = i
    · subst hji
      have hnone : linksTo n inode j = 0 := by
        rw [linksTo, Finset.sum_eq_zero_iff]
        intro d _
        rw [linksIn, List.countP_eq_zero]
        intro de hde
        by_cases hnz : de.inum = 0
        · simp [hnz]
          omega
        · simpa using hne d de hde hnz
      have hsub : subdirs (Function.update inode j node) j = 0 := by
        rw [subdirs, hself, hdrop]
        rfl
      rw [surplus, hself, hsub, if_neg hroot, Multiset.count_cons_self, hP, hnlink]
      omega
    · have hsub : subdirs (Function.update inode i node) j = subdirs inode j := by
        apply subdirs_congr
        · rw [hother j hji]
        · intro de hde hnz
          rw [hother _ (hne j de hde hnz)]
      rw [Allocated, hother j hji] at hj
      have hold := ht.links j hj
      have hsame : surplus n (Function.update inode i node) (i ::ₘ P) j = surplus n inode P j := by
        rw [surplus, hsub, hother j hji, Multiset.count_cons_of_ne hji, surplus]
        omega
      rw [hsame]
      exact hold

end Tree

end Cs350.FileSys
