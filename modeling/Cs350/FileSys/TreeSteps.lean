import Cs350.FileSys.Refs

set_option autoImplicit false

/-! # The tree under the steps of the calls

How `Tree` changes with each kind of change that the functions of `fs.c` and `sysfile.c` make, with
the facts that these functions have established at that point. -/

namespace Cs350.FileSys

section Directories

variable {d i : Nat} {es : List Dirent} {name : Name}

theorem namecmp_take (s t : Name) : namecmp (s.take dirsiz) t = namecmp s t := by
  unfold namecmp
  rw [List.take_take, Nat.min_self]

/-- A name that a directory does not have is neither `.` nor `..`. -/
theorem Shape.name_ne (h : Shape d es) (hd : d ≠ 0)
    (hnone : ∀ de ∈ es, de.inum ≠ 0 → ¬ namecmp name de.name) :
    ¬ namecmp (name.take dirsiz) ['.'] ∧ ¬ namecmp (name.take dirsiz) ['.', '.'] := by
  obtain ⟨p, rest, rfl, hp, -⟩ := h
  rw [namecmp_take, namecmp_take]
  exact ⟨hnone ⟨d, ['.']⟩ (by simp) hd, hnone ⟨p, ['.', '.']⟩ (by simp) hp⟩

/-- The first free place of a directory comes after its first two entries. -/
theorem Shape.two_le_findIdx (h : Shape d es) (hd : d ≠ 0) :
    2 ≤ es.findIdx fun de => decide (de.inum = 0) := by
  obtain ⟨p, rest, rfl, hp, -⟩ := h
  simp [List.findIdx_cons, hd, hp]

theorem inumAt_findIdx (es : List Dirent) :
    inumAt es (es.findIdx fun de => decide (de.inum = 0)) = 0 := by
  unfold inumAt
  by_cases hlt : es.findIdx (fun de => decide (de.inum = 0)) < es.length
  · have hzero := List.findIdx_getElem (w := hlt)
    rw [List.getElem?_eq_getElem hlt]
    simpa using hzero
  · rw [List.getElem?_eq_none (by omega)]
    rfl

/-- An entry with another name is not one of the first two. -/
theorem Shape.two_le (h : Shape d es) {off : Nat} {de : Dirent} (hget : es[off]? = some de)
    (hdot : ¬ namecmp de.name ['.']) (hdots : ¬ namecmp de.name ['.', '.']) : 2 ≤ off := by
  obtain ⟨p, rest, rfl, -, -⟩ := h
  match off with
  | 0 =>
      obtain rfl : (⟨d, ['.']⟩ : Dirent) = de := by simpa using hget
      exact absurd rfl hdot
  | 1 =>
      obtain rfl : (⟨p, ['.', '.']⟩ : Dirent) = de := by simpa using hget
      exact absurd rfl hdots
  | off + 2 => omega

theorem dots_eq (hi : 0 < i) (hi' : i < 65536) (hd : d < 65536) :
    dots i d = [⟨i, ['.']⟩, ⟨d, ['.', '.']⟩] := by
  unfold dots
  rw [Nat.mod_eq_of_lt hi', Nat.mod_eq_of_lt hd, List.findIdx_singleton]
  have hzero : (decide (i = 0)) = false := decide_eq_false (by omega)
  rw [hzero]
  rfl

/-- The entries of a new inode name a directory that is held, or the inode itself. -/
theorem Refs.reach_new {fs : Fs} {O H : Multiset Ip} {node : Inode} (h : Refs fs O H) (hi : 0 < i)
    (hi' : i < 65536) (hbound : ∀ dp ∈ O, (fs.icache dp).inum < 65536)
    (hflat : node.type ≠ .dir → node.entries = [])
    (hdots : node.type = .dir → ∃ dp ∈ O, node.entries = dots i (fs.icache dp).inum) :
    ∀ de ∈ node.entries, Reach fs de.inum ∨ de.inum = i := by
  intro de hde
  by_cases hdir : node.type = .dir
  · obtain ⟨dp, hdp, hes⟩ := hdots hdir
    rw [hes, dots_eq hi hi' (hbound dp hdp)] at hde
    rcases List.mem_cons.1 hde with rfl | hde
    · exact Or.inr rfl
    · rw [List.mem_singleton.1 hde]
      exact Or.inl (h.reach_slot hdp)
  · rw [hflat hdir] at hde
    exact nomatch hde

end Directories

section Steps

variable {exact : Bool} {fs : Fs} {P : Multiset Nat} {ip dp : Ip}

/-- `nlink++` of a count that can be incremented leaves a link to spare. -/
theorem Tree.bump (ht : Tree exact fs.ninodes fs.inode P) (hip : (fs.node ip).type ≠ .free)
    (hlt : (fs.node ip).nlink < 32767) :
    Tree exact fs.ninodes (fs.setNlink ip (short ((fs.node ip).nlink + 1))).inode
      ((fs.icache ip).inum ::ₘ P) := by
  have hlinks := (ht.links _ hip).1
  have hnode : (fs.inode (fs.icache ip).inum).nlink = (fs.node ip).nlink := rfl
  rw [surplus] at hlinks
  have hshort : short ((fs.node ip).nlink + 1) = (fs.node ip).nlink + 1 := by
    rw [short]
    omega
  apply ht.setNlink hip
  · rfl
  · rfl
  · rw [Multiset.count_cons_self, hnode, hshort]
    dsimp only
    omega
  · intro j hj
    rw [Multiset.count_cons_of_ne hj]
  · show short ((fs.node ip).nlink + 1) ≤ 32767
    omega

/-- `nlink--` uses up a link to spare. -/
theorem Tree.lower (ht : Tree exact fs.ninodes fs.inode ((fs.icache ip).inum ::ₘ P))
    (hip : (fs.node ip).type ≠ .free) :
    Tree exact fs.ninodes (fs.setNlink ip (short ((fs.node ip).nlink - 1))).inode P := by
  have hlinks := (ht.links _ hip).1
  have hnode : (fs.inode (fs.icache ip).inum).nlink = (fs.node ip).nlink := rfl
  have htop := ht.top (fs.icache ip).inum
  rw [surplus, Multiset.count_cons_self] at hlinks
  have hshort : short ((fs.node ip).nlink - 1) = (fs.node ip).nlink - 1 := by
    rw [short]
    omega
  apply ht.setNlink hip
  · rfl
  · rfl
  · rw [Multiset.count_cons_self, hnode, hshort]
    dsimp only
    omega
  · intro j hj
    rw [Multiset.count_cons_of_ne hj]
  · show short ((fs.node ip).nlink - 1) ≤ 32767
    omega

/-- A directory that is in use is not inode zero. -/
theorem Tree.inum_ne_zero (ht : Tree exact fs.ninodes fs.inode P)
    (hip : (fs.node ip).type ≠ .free) : (fs.icache ip).inum ≠ 0 := by
  have := (ht.range _ hip).1
  omega

theorem Tree.inum_mod (ht : Tree exact fs.ninodes fs.inode P) (hip : (fs.node ip).type ≠ .free) :
    (fs.icache ip).inum % 65536 = (fs.icache ip).inum := by
  have := (ht.range _ hip).2
  have := ht.small
  exact Nat.mod_eq_of_lt (by omega)

/-- `dirlink` of an inode that has a link to spare. -/
theorem Tree.enter {name : Name} (hip : (fs.node ip).type ≠ .free)
    (hdir : (fs.node dp).type = .dir)
    (hnone : ∀ de ∈ (fs.node dp).entries, de.inum ≠ 0 → ¬ namecmp name de.name)
    (hnew : (fs.node ip).type = .dir →
      (fs.node ip).entries = dots (fs.icache ip).inum (fs.icache dp).inum)
    (ht : Tree exact fs.ninodes fs.inode ((fs.icache ip).inum ::ₘ
      if (fs.node ip).type = .dir then (fs.icache dp).inum ::ₘ P else P)) :
    Tree exact fs.ninodes (fs.setEntries dp (writeEntry (fs.node dp).entries
      ((fs.node dp).entries.findIdx fun de => de.inum = 0)
      { inum := (fs.icache ip).inum % 65536, name := name.take dirsiz })).inode P := by
  have hdp : (fs.node dp).type ≠ .free := by
    rw [hdir]
    nofun
  have hshape := ht.shape _ hdir
  have hd0 := ht.inum_ne_zero hdp
  rw [ht.inum_mod hip]
  refine ht.link hdir hdir rfl rfl (hshape.two_le_findIdx hd0) List.findIdx_le_length
    (inumAt_findIdx _) (hshape.name_ne hd0 hnone) hip ?_
  intro htype
  have hrange := ht.range _ hip
  have hrange' := ht.range _ hdp
  have hsmall := ht.small
  have hes := hnew htype
  rw [dots_eq hrange.1 (by omega) (by omega)] at hes
  have hes : (fs.inode (fs.icache ip).inum).entries
    = [⟨(fs.icache ip).inum, ['.']⟩, ⟨(fs.icache dp).inum, ['.', '.']⟩] := hes
  rw [hes]
  rfl

/-- The erasure of an entry other than the first two. -/
theorem Tree.eraseEntry {off : Nat} {de : Dirent} (ht : Tree exact fs.ninodes fs.inode P)
    (hdir : (fs.node dp).type = .dir) (hget : (fs.node dp).entries[off]? = some de)
    (hne : de.inum ≠ 0) (hdot : ¬ namecmp de.name ['.']) (hdots : ¬ namecmp de.name ['.', '.']) :
    Tree exact fs.ninodes
      (fs.setEntries dp ((fs.node dp).entries.set off { inum := 0, name := [] })).inode
      (de.inum ::ₘ if (fs.inode de.inum).type = .dir then (fs.icache dp).inum ::ₘ P else P) :=
  ht.erase hdir hdir rfl rfl ((ht.shape _ hdir).two_le hget hdot hdots) hget hne

/-- A new inode with one link to spare. -/
theorem Tree.allocNew {i : Nat} {node : Inode} (ht : Tree exact fs.ninodes fs.inode P)
    (hP : P.count i = 0) (hfree : (fs.inode i).type = .free) (hpos : 0 < i) (hlt : i < fs.ninodes)
    (hroot : i ≠ rootIno) (hnlink : node.nlink = 1) (hflat : node.type ≠ .dir → node.entries = [])
    (hdots : node.type = .dir → ∃ dp, (fs.node dp).type ≠ .free ∧
      node.entries = dots i (fs.icache dp).inum) :
    Tree exact fs.ninodes (fs.withNew i ip node).inode (i ::ₘ P) := by
  refine ht.alloc hP hfree hpos hlt hroot hnlink hflat ?_
  intro hdir
  obtain ⟨dp, hdp, hes⟩ := hdots hdir
  have hrange := (ht.range _ hdp).2
  have hsmall := ht.small
  rw [dots_eq hpos (by omega) (by omega)] at hes
  exact ⟨_, ht.inum_ne_zero hdp, hes⟩

end Steps

/-- The file system with the root directory alone. -/
theorem boot_tree (exact : Bool) : Tree exact boot.fs.ninodes boot.fs.inode 0 := by
  have hnode : ∀ i, i ≠ rootIno → boot.fs.inode i
      = { type := .free, major := 0, minor := 0, nlink := 0, entries := [] } :=
    fun i hi => if_neg hi
  have hroot : ∀ i, Allocated boot.fs.inode i → i = rootIno := by
    intro i hi
    by_contra hne
    rw [Allocated, hnode i hne] at hi
    exact hi rfl
  have hdrop : ∀ i, (boot.fs.inode i).entries.drop 2 = [] := by
    intro i
    by_cases hi : i = rootIno
    · rw [hi]
      rfl
    · rw [hnode i hi]
      rfl
  refine ⟨by decide, ?_, ?_, ?_, ?_, ?_, ?_⟩
  · intro i hi
    rw [hroot i hi]
    decide
  · intro i hi
    have hne : i ≠ rootIno := by
      rintro rfl
      exact hi rfl
    rw [hnode i hne]
  · intro d hd
    rw [hroot d (Allocated.of_dir hd)]
    exact ⟨rootIno, [], rfl, by decide, by simp⟩
  · intro d de hde
    rw [hdrop d] at hde
    cases hde
  · intro i hi
    have hlinks : linksTo boot.fs.ninodes boot.fs.inode i = 0 := by
      apply Finset.sum_eq_zero
      intro d _
      rw [linksIn, hdrop d]
      rfl
    have hsub : subdirs boot.fs.inode i = 0 := by
      rw [subdirs, hdrop i]
      rfl
    have hnlink : (boot.fs.inode rootIno).nlink = 1 := rfl
    rw [surplus, hlinks, hsub, hroot i hi, hnlink]
    simp
  · intro i
    by_cases hi : i = rootIno
    · rw [hi]
      decide
    · rw [hnode i hi]
      decide

end Cs350.FileSys
