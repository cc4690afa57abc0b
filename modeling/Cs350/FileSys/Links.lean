import Cs350.FileSys.Dangling
import Mathlib.Algebra.BigOperators.Group.Finset.Piecewise

set_option autoImplicit false

/-! # Link counts

`Exact` says that every link count is the number of links, that a directory is entered at most once,
that a directory that is no longer entered is empty, and that an inode without links is held by a
slot of the cache, which will free it. It satisfies the laws as long as no name is entered in a
directory that has been removed, and no link count overflows.

`sys_link` and `create` do not check for the first. A name made in a directory that was removed, but
is still the current directory of a process, disappears when the directory is freed, and the link
count of what it named is not decremented. -/

namespace Cs350.FileSys

open Prog Transition

structure Exact (fs : Fs) (P : Multiset Nat) : Prop where
  tree : Tree true fs.ninodes fs.inode P
  root : (fs.inode rootIno).type = .dir ∧ dotdot (fs.inode rootIno).entries = rootIno
  once : ∀ d, (fs.inode d).type = .dir → linksTo fs.ninodes fs.inode d ≤ 1
  emptied : ∀ d, (fs.inode d).type = .dir → d ≠ rootIno → linksTo fs.ninodes fs.inode d = 0 →
    ∀ de ∈ (fs.inode d).entries.drop 2, de.inum = 0
  orphan : ∀ i, Allocated fs.inode i → (fs.inode i).nlink = 0 →
    ∃ ip, 0 < (fs.icache ip).ref ∧ (fs.icache ip).inum = i ∧ (fs.icache ip).valid

/-- The condition on the marked points: a name other than `.` and `..` is entered in a directory that
    is the root or that an entry names, and a link count that is incremented is below the largest
    `short`. -/
def Mark.Entered : Mark → Prop
  | .frees _ _ => True
  | .bumps nlink => nlink < 32767
  | .enters fs dp name => namecmp name ['.'] ∨ namecmp name ['.', '.'] ∨
      (fs.icache dp).inum = rootIno ∨ 0 < linksTo fs.ninodes fs.inode (fs.icache dp).inum

section Laws

variable {fs : Fs} {O H : Multiset Ip} {P P' : Multiset Nat} {ip dp : Ip} {i : Nat} {node : Inode}

/-- The holder of an orphan survives a change of a slot that keeps what it holds. -/
theorem Exact.setSlot (h : Exact fs P) (slot : Slot)
    (hslot : 0 < (fs.icache ip).ref → (fs.icache ip).valid →
      (fs.inode (fs.icache ip).inum).nlink = 0 →
      0 < slot.ref ∧ slot.inum = (fs.icache ip).inum ∧ slot.valid) :
    Exact (fs.setSlot ip slot) P := by
  refine ⟨h.tree, h.root, h.once, h.emptied, fun i hi hzero => ?_⟩
  obtain ⟨jp, hpos, rfl, hvalid⟩ := h.orphan i hi hzero
  refine ⟨jp, ?_⟩
  by_cases hj : jp = ip
  · subst hj
    rw [setSlot_icache_self]
    exact hslot hpos hvalid hzero
  · rw [setSlot_icache_of_ne _ _ hj]
    exact ⟨hpos, rfl, hvalid⟩

/-- A reference other than the last one to an orphan is dropped. -/
theorem Exact.decref (h : Exact fs P)
    (hnot : ¬ ((fs.icache ip).valid ∧ (fs.node ip).nlink = 0 ∧ (fs.icache ip).ref = 1)) :
    Exact (fs.decref ip) P := by
  refine h.setSlot _ fun hpos hvalid hzero => ⟨?_, rfl, hvalid⟩
  have hone : (fs.icache ip).ref ≠ 1 := fun hone => hnot ⟨hvalid, hzero, hone⟩
  show 0 < (fs.icache ip).ref - 1
  omega

/-- A change of one link count. -/
theorem Exact.setNlink {m : Int} (h : Exact fs P)
    (htree : Tree true fs.ninodes (fs.setNlink ip m).inode P')
    (horphan : m = 0 → 0 < (fs.icache ip).ref ∧ (fs.icache ip).valid) :
    Exact (fs.setNlink ip m) P' := by
  have hentries : ∀ j, ((fs.setNlink ip m).inode j).entries = (fs.inode j).entries := by
    intro j
    show (Function.update fs.inode (fs.icache ip).inum _ j).entries = _
    by_cases hj : j = (fs.icache ip).inum
    · rw [hj, Function.update_self]
      rfl
    · rw [Function.update_of_ne hj]
  have htype : ∀ j, ((fs.setNlink ip m).inode j).type = (fs.inode j).type := by
    intro j
    show (Function.update fs.inode (fs.icache ip).inum _ j).type = _
    by_cases hj : j = (fs.icache ip).inum
    · rw [hj, Function.update_self]
      rfl
    · rw [Function.update_of_ne hj]
  have hlinks : ∀ j, linksTo (fs.setNlink ip m).ninodes (fs.setNlink ip m).inode j
      = linksTo fs.ninodes fs.inode j :=
    fun j => Finset.sum_congr rfl fun d _ => by rw [hentries]
  refine ⟨htree, ?_, ?_, ?_, ?_⟩
  · rw [htype, hentries]
    exact h.root
  · intro d hd
    rw [htype] at hd
    rw [hlinks]
    exact h.once d hd
  · intro d hd hroot hzero
    rw [htype] at hd
    rw [hlinks] at hzero
    rw [hentries]
    exact h.emptied d hd hroot hzero
  · intro i hi hzero
    by_cases hj : i = (fs.icache ip).inum
    · have hm : ((fs.setNlink ip m).inode i).nlink = m := by
        show (Function.update fs.inode (fs.icache ip).inum _ i).nlink = m
        rw [hj, Function.update_self]
      obtain ⟨hpos, hvalid⟩ := horphan (hm.symm.trans hzero)
      exact ⟨ip, hpos, hj.symm, hvalid⟩
    · have hsame : (fs.setNlink ip m).inode i = fs.inode i := Function.update_of_ne hj _ _
      rw [Allocated, hsame] at hi
      rw [hsame] at hzero
      exact h.orphan i hi hzero

theorem Exact.bump (hrefs : Refs fs O H) (hip : ip ∈ H) (h : Exact fs P)
    (hlt : (fs.node ip).nlink < 32767) :
    Exact (fs.setNlink ip (short ((fs.node ip).nlink + 1))) ((fs.icache ip).inum ::ₘ P) := by
  refine h.setNlink (h.tree.bump (hrefs.held _ hip) hlt) fun hzero => ?_
  have hlinks := (h.tree.links _ (hrefs.held _ hip)).1
  have hnode : (fs.inode (fs.icache ip).inum).nlink = (fs.node ip).nlink := rfl
  rw [surplus] at hlinks
  rw [short] at hzero
  omega

/-- An inode without links is not the root, and if it is a directory it is empty. -/
theorem Exact.entries_zero (h : Exact fs P) (hi : Allocated fs.inode i)
    (hzero : (fs.inode i).nlink = 0) :
    i ≠ rootIno ∧ ∀ de ∈ (fs.inode i).entries.drop 2, de.inum = 0 := by
  have hsurplus := (h.tree.links i hi).1
  rw [surplus] at hsurplus
  have hroot : i ≠ rootIno := by
    intro heq
    rw [if_pos heq] at hsurplus
    omega
  refine ⟨hroot, ?_⟩
  by_cases hdir : (fs.inode i).type = .dir
  · exact h.emptied i hdir hroot (by omega)
  · rw [h.tree.flat i hdir]
    exact fun _ hde => absurd hde (List.not_mem_nil)

/-- Freeing an inode that has no links. -/
theorem Exact.free (hrefs : Refs fs (ip ::ₘ O) H) (h : Exact fs P) (hvalid : (fs.icache ip).valid)
    (hzero : (fs.node ip).nlink = 0) (hone : (fs.icache ip).ref = 1) :
    Exact ((fs.freeInode ip).decref ip) P := by
  have halloc := hrefs.valid ip (by omega) hvalid
  obtain ⟨hroot, hnone⟩ := h.entries_zero halloc hzero
  have hrange := h.tree.range _ halloc
  have hnode : ∀ j, j ≠ (fs.icache ip).inum →
      ((fs.freeInode ip).decref ip).inode j = fs.inode j := by
    intro j hj
    rw [freeInode_inode, Function.update_of_ne hj]
  have hfree : (((fs.freeInode ip).decref ip).inode (fs.icache ip).inum).type = .free := by
    rw [freeInode_inode, Function.update_self]
  have hne : ∀ j, Allocated ((fs.freeInode ip).decref ip).inode j → j ≠ (fs.icache ip).inum := by
    rintro j hj rfl
    exact hj hfree
  have hlinks : ∀ j, j ≠ 0 → linksTo fs.ninodes ((fs.freeInode ip).decref ip).inode j
      = linksTo fs.ninodes fs.inode j := by
    intro j hj
    have hsum := linksTo_update fs.inode { fs.node ip with type := .free, entries := [] } j hrange.2
    have hold : linksIn (fs.inode (fs.icache ip).inum).entries j = 0 := by
      rw [linksIn, List.countP_eq_zero]
      intro de hde
      rw [hnone de hde, decide_eq_true_eq]
      exact fun h => hj h.symm
    rw [hold, add_zero] at hsum
    exact hsum
  refine ⟨h.tree.free halloc hzero rfl rfl (h.tree.top _) (fun _ => hnone), ?_, ?_, ?_, ?_⟩
  · rw [hnode _ (Ne.symm hroot)]
    exact h.root
  · intro d hd
    have hd' := hne d (Allocated.of_dir hd)
    rw [hnode d hd'] at hd
    have hd0 := (h.tree.range d (Allocated.of_dir hd)).1
    show linksTo fs.ninodes _ d ≤ 1
    rw [hlinks d (by omega)]
    exact h.once d hd
  · intro d hd hdroot hdzero
    have hd' := hne d (Allocated.of_dir hd)
    rw [hnode d hd'] at hd ⊢
    have hd0 := (h.tree.range d (Allocated.of_dir hd)).1
    have hdzero : linksTo fs.ninodes ((fs.freeInode ip).decref ip).inode d = 0 := hdzero
    rw [hlinks d (by omega)] at hdzero
    exact h.emptied d hd hdroot hdzero
  · intro i hi hizero
    have hi' := hne i hi
    rw [Allocated, hnode i hi'] at hi
    rw [hnode i hi'] at hizero
    obtain ⟨jp, hpos, rfl, hv⟩ := h.orphan i hi hizero
    have hjp : jp ≠ ip := fun heq => hi' (by rw [heq])
    refine ⟨jp, ?_⟩
    rw [freeInode_icache_of_ne fs hjp]
    exact ⟨hpos, rfl, hv⟩

/-- The links after one entry of a directory is written. -/
theorem linksTo_setEntries {exact : Bool} {off : Nat} (ht : Tree exact fs.ninodes fs.inode P)
    (hd : (fs.node dp).type = .dir) (h2 : 2 ≤ off) (hlen : off ≤ (fs.node dp).entries.length)
    (de : Dirent) {j : Nat} (hj : j ≠ 0) :
    linksTo fs.ninodes (fs.setEntries dp (writeEntry (fs.node dp).entries off de)).inode j
        + (if inumAt (fs.node dp).entries off = j then 1 else 0)
      = linksTo fs.ninodes fs.inode j + if de.inum = j then 1 else 0 := by
  have hrange := (ht.range _ (Allocated.of_dir hd)).2
  have hsum := linksTo_update fs.inode
    { fs.node dp with entries := writeEntry (fs.node dp).entries off de } j hrange
  have hin := linksIn_writeEntry de h2 hlen hj
  have hsum : linksTo fs.ninodes
      (fs.setEntries dp (writeEntry (fs.node dp).entries off de)).inode j
        + linksIn (fs.node dp).entries j
      = linksTo fs.ninodes fs.inode j + linksIn (writeEntry (fs.node dp).entries off de) j := hsum
  omega

/-- One entry of a directory is written. -/
theorem Exact.write {off : Nat} {de : Dirent} (h : Exact fs P) (hd : (fs.node dp).type = .dir)
    (h2 : 2 ≤ off) (hlen : off ≤ (fs.node dp).entries.length)
    (htree : Tree true fs.ninodes
      (fs.setEntries dp (writeEntry (fs.node dp).entries off de)).inode P')
    (honce : ∀ j, (fs.inode j).type = .dir → de.inum = j → linksTo fs.ninodes fs.inode j = 0)
    (hempty : ∀ j, (fs.inode j).type = .dir → j ≠ rootIno →
      linksTo fs.ninodes (fs.setEntries dp (writeEntry (fs.node dp).entries off de)).inode j = 0 →
      ∀ x ∈ ((fs.setEntries dp (writeEntry (fs.node dp).entries off de)).inode j).entries.drop 2,
        x.inum = 0) :
    Exact (fs.setEntries dp (writeEntry (fs.node dp).entries off de)) P' := by
  have hlinks := fun j hj => linksTo_setEntries (j := j) h.tree hd h2 hlen de hj
  generalize hfs : fs.setEntries dp (writeEntry (fs.node dp).entries off de) = fs' at *
  have hself : fs'.inode (fs.icache dp).inum
      = { fs.node dp with entries := writeEntry (fs.node dp).entries off de } := by
    rw [← hfs]
    exact Function.update_self _ _ _
  have hother : ∀ j, j ≠ (fs.icache dp).inum → fs'.inode j = fs.inode j := by
    intro j hj
    rw [← hfs]
    exact Function.update_of_ne hj _ _
  have hfields : ∀ j, (fs'.inode j).type = (fs.inode j).type ∧
      (fs'.inode j).nlink = (fs.inode j).nlink ∧
      dotdot (fs'.inode j).entries = dotdot (fs.inode j).entries := by
    intro j
    by_cases hj : j = (fs.icache dp).inum
    · rw [hj, hself]
      exact ⟨rfl, rfl, dotdot_writeEntry de h2 hlen⟩
    · rw [hother j hj]
      exact ⟨rfl, rfl, rfl⟩
  have hninodes : fs'.ninodes = fs.ninodes := by
    rw [← hfs]
    rfl
  have hicache : fs'.icache = fs.icache := by
    rw [← hfs]
    rfl
  refine ⟨by rw [hninodes]; exact htree, ?_, ?_, ?_, ?_⟩
  · rw [(hfields _).1, (hfields _).2.2]
    exact h.root
  · intro j hj
    rw [(hfields j).1] at hj
    have hj0 := (h.tree.range j (Allocated.of_dir hj)).1
    have hsum := hlinks j (by omega)
    have hold := h.once j hj
    rw [hninodes]
    by_cases hde : de.inum = j
    · have hzero := honce j hj hde
      rw [if_pos hde] at hsum
      omega
    · rw [if_neg hde] at hsum
      omega
  · intro j hj hroot hzero
    rw [(hfields j).1] at hj
    rw [hninodes] at hzero
    exact hempty j hj hroot hzero
  · intro i hi hzero
    rw [Allocated, (hfields i).1] at hi
    rw [(hfields i).2.1] at hzero
    rw [hicache]
    exact h.orphan i hi hzero

/-- `dirlink` in a directory that is itself linked. -/
theorem Exact.enter {name : Name} (hrefs : Refs fs O O) (hip : ip ∈ O)
    (hdir : (fs.node dp).type = .dir)
    (hnone : ∀ de ∈ (fs.node dp).entries, de.inum ≠ 0 → ¬ namecmp name de.name)
    (hnew : (fs.node ip).type = .dir → (fs.node ip).nlink = 1 ∧
      (fs.node ip).entries = dots (fs.icache ip).inum (fs.icache dp).inum)
    (hok : (Mark.enters fs dp name).Entered)
    (h : Exact fs ((fs.icache ip).inum ::ₘ
      if (fs.node ip).type = .dir then (fs.icache dp).inum ::ₘ P else P)) :
    Exact (fs.setEntries dp (writeEntry (fs.node dp).entries
      ((fs.node dp).entries.findIdx fun de => de.inum = 0)
      { inum := (fs.icache ip).inum % 65536, name := name.take dirsiz })) P := by
  have htree := Tree.enter (hrefs.held _ hip) hdir hnone (fun hd => (hnew hd).2) h.tree
  have hshape : Shape (fs.icache dp).inum (fs.node dp).entries := h.tree.shape _ hdir
  have hd0 : (fs.icache dp).inum ≠ 0 := h.tree.inum_ne_zero (by rw [hdir]; nofun)
  have h2 := hshape.two_le_findIdx hd0
  have hmod := h.tree.inum_mod (hrefs.held _ hip)
  rw [hmod] at htree ⊢
  refine h.write hdir h2 List.findIdx_le_length htree ?_ ?_
  · -- a directory is entered when it is new, and then its one link is to spare
    intro j hj heq
    obtain rfl : (fs.icache ip).inum = j := heq
    have hdir' : (fs.node ip).type = .dir := hj
    have hlinks := (h.tree.links _ (Allocated.of_dir hj)).2 rfl
    have hnlink : (fs.inode (fs.icache ip).inum).nlink = 1 := (hnew hdir').1
    rw [surplus, hnlink, Multiset.count_cons_self] at hlinks
    omega
  · intro j hj hroot hzero
    have hj0 := (h.tree.range j (Allocated.of_dir hj)).1
    have hsum := linksTo_setEntries (j := j) h.tree hdir h2 List.findIdx_le_length
      ⟨(fs.icache ip).inum, name.take dirsiz⟩ (by omega)
    rw [inumAt_findIdx, hzero, if_neg (by omega)] at hsum
    have hold : linksTo fs.ninodes fs.inode j = 0 := by omega
    -- the directory that is written to is linked, so it is another one
    have hne : j ≠ (fs.icache dp).inum := by
      rintro rfl
      obtain ⟨hdot, hdots⟩ := hshape.name_ne hd0 hnone
      rw [namecmp_take] at hdot hdots
      rcases hok with hok | hok | hok | hok
      · exact hdot hok
      · exact hdots hok
      · exact hroot hok
      · omega
    have hsame : (fs.setEntries dp (writeEntry (fs.node dp).entries
        ((fs.node dp).entries.findIdx fun de => de.inum = 0)
        { inum := (fs.icache ip).inum, name := name.take dirsiz })).inode j = fs.inode j :=
      Function.update_of_ne hne _ _
    rw [hsame]
    exact h.emptied j hj hroot hold

/-- The erasure of an entry; a directory that is removed is empty. -/
theorem Exact.erase {off : Nat} {de : Dirent} (h : Exact fs P) (hdir : (fs.node dp).type = .dir)
    (hget : (fs.node dp).entries[off]? = some de) (hne : de.inum ≠ 0)
    (hdot : ¬ namecmp de.name ['.']) (hdots : ¬ namecmp de.name ['.', '.'])
    (hempty : (fs.inode de.inum).type = .dir → isdirempty (fs.inode de.inum).entries) :
    Exact (fs.setEntries dp ((fs.node dp).entries.set off { inum := 0, name := [] }))
      (de.inum ::ₘ if (fs.inode de.inum).type = .dir then (fs.icache dp).inum ::ₘ P else P) := by
  obtain ⟨hlt, -⟩ := List.getElem?_eq_some_iff.1 hget
  have h2 := (h.tree.shape _ hdir).two_le hget hdot hdots
  have htree := h.tree.eraseEntry hdir hget hne hdot hdots
  have hwrite : (fs.node dp).entries.set off { inum := 0, name := [] }
      = writeEntry (fs.node dp).entries off ⟨0, []⟩ := by rw [writeEntry, if_pos hlt]
  have hat : inumAt (fs.node dp).entries off = de.inum := by
    rw [inumAt, hget, Option.elim_some]
  have hmem : de ∈ (fs.node dp).entries.drop 2 := by
    apply List.mem_of_getElem? (i := off - 2)
    rw [List.getElem?_drop, show 2 + (off - 2) = off by omega, hget]
  rw [hwrite] at htree ⊢
  refine h.write hdir h2 (by omega) htree ?_ ?_
  · rintro j hj rfl
    exact absurd (h.tree.range 0 (Allocated.of_dir hj)).1 (lt_irrefl 0)
  · intro j hj hroot hzero
    have hj0 := (h.tree.range j (Allocated.of_dir hj)).1
    have hsum := linksTo_setEntries (j := j) h.tree hdir h2 (by omega) ⟨0, []⟩ (by omega)
    have hnot : ¬ (0 = j) := by omega
    rw [hat, hzero, if_neg hnot] at hsum
    -- either the directory had no entry before, or its last one was erased and it is empty
    have hold : ∀ x ∈ (fs.inode j).entries.drop 2, x.inum = 0 := by
      by_cases heq : de.inum = j
      · subst heq
        intro x hx
        have hall := hempty hj
        rw [isdirempty, List.all_eq_true] at hall
        exact of_decide_eq_true (hall x hx)
      · rw [if_neg heq] at hsum
        exact h.emptied j hj hroot (by omega)
    by_cases hjd : j = (fs.icache dp).inum
    · subst hjd
      exact absurd (hold de hmem) hne
    · have hsame : (fs.setEntries dp (writeEntry (fs.node dp).entries off ⟨0, []⟩)).inode j
          = fs.inode j := Function.update_of_ne hjd _ _
      rw [hsame]
      exact hold

/-- A new inode. -/
theorem Exact.alloc (hrefs : Refs fs O O) (h : Exact fs P) (hP : P.count i = 0)
    (hfree : (fs.inode i).type = .free) (hpos : 0 < i) (hlt : i < fs.ninodes)
    (hzero : (fs.icache ip).ref = 0) (hnlink : node.nlink = 1)
    (hflat : node.type ≠ .dir → node.entries = [])
    (hdots : node.type = .dir → ∃ dp ∈ O, node.entries = dots i (fs.icache dp).inum) :
    Exact (fs.withNew i ip node) (i ::ₘ P) := by
  have hroot : i ≠ rootIno := by
    rintro rfl
    rw [h.root.1] at hfree
    cases hfree
  have hself : (fs.withNew i ip node).inode i = node := Function.update_self _ _ _
  have hother : ∀ j, j ≠ i → (fs.withNew i ip node).inode j = fs.inode j :=
    fun j hj => Function.update_of_ne hj _ _
  have hdrop : node.entries.drop 2 = [] := by
    by_cases hdir : node.type = .dir
    · obtain ⟨dp, hdp, hes⟩ := hdots hdir
      have hrange := (h.tree.range _ (hrefs.held dp hdp)).2
      have hsmall := h.tree.small
      rw [hes, dots_eq hpos (by omega) (by omega)]
      rfl
    · rw [hflat hdir]
      rfl
  have hlinks : ∀ j, linksTo fs.ninodes (fs.withNew i ip node).inode j
      = linksTo fs.ninodes fs.inode j := by
    intro j
    have hsum := linksTo_update fs.inode node j hlt
    have hold : linksIn (fs.inode i).entries j = 0 := by
      rw [h.tree.flat i (by rw [hfree]; nofun)]
      rfl
    have hnew : linksIn node.entries j = 0 := by
      rw [linksIn, hdrop]
      rfl
    rw [hold, hnew] at hsum
    exact hsum
  have hunnamed : linksTo fs.ninodes fs.inode i = 0 := by
    apply Finset.sum_eq_zero
    intro d _
    rw [linksIn, List.countP_eq_zero]
    intro de hde heq
    rw [decide_eq_true_eq] at heq
    subst heq
    exact (h.tree.names d de hde (by omega)).1 hfree
  refine ⟨h.tree.allocNew hP hfree hpos hlt hroot hnlink hflat ?_, ?_, ?_, ?_, ?_⟩
  · intro hdir
    obtain ⟨dp, hdp, hes⟩ := hdots hdir
    exact ⟨dp, hrefs.held dp hdp, hes⟩
  · rw [hother _ (Ne.symm hroot)]
    exact h.root
  · intro d hd
    show linksTo fs.ninodes (fs.withNew i ip node).inode d ≤ 1
    rw [hlinks]
    by_cases hdi : d = i
    · rw [hdi, hunnamed]
      omega
    · rw [hother d hdi] at hd
      exact h.once d hd
  · intro d hd hdroot hdzero
    by_cases hdi : d = i
    · rw [hdi, hself, hdrop]
      exact fun _ hde => absurd hde List.not_mem_nil
    · rw [hother d hdi] at hd ⊢
      have hdzero : linksTo fs.ninodes (fs.withNew i ip node).inode d = 0 := hdzero
      rw [hlinks] at hdzero
      exact h.emptied d hd hdroot hdzero
  · intro j hj hjzero
    have hji : j ≠ i := by
      rintro rfl
      rw [hself, hnlink] at hjzero
      cases hjzero
    rw [Allocated, hother j hji] at hj
    rw [hother j hji] at hjzero
    obtain ⟨kp, hkpos, rfl, hkv⟩ := h.orphan j hj hjzero
    have hkp : kp ≠ ip := by
      rintro rfl
      omega
    refine ⟨kp, ?_⟩
    rw [withNew_icache_of_ne fs i node hkp]
    exact ⟨hkpos, rfl, hkv⟩

/-- Under the condition on the marks, link counts are exact. -/
theorem laws_exact : Laws Mark.Entered (fun e => e ≠ .stuck) Exact where
  halts _ _ hne := hne
  typed _ _ _ _ := nofun
  slot slot h hslot _ := h.setSlot slot fun hpos hvalid _ =>
    ⟨(hslot hpos).1, (hslot hpos).2.1, (hslot hpos).2.2 hvalid⟩
  decref _ h hnot := h.decref hnot
  free hrefs h hvalid hzero hone _ := h.free hrefs hvalid hzero hone
  bump hrefs hip _ h hok := h.bump hrefs hip hok
  lower hrefs hip hvalid h :=
    h.setNlink (h.tree.lower (hrefs.held _ hip)) fun _ => ⟨hrefs.ref_pos (hrefs.sub hip), hvalid⟩
  enter hrefs hip _ hdir hnone hnew hok h := h.enter hrefs hip hdir hnone hnew hok
  erase _ _ hdir hget hne hdot hdots hempty h := h.erase hdir hget hne hdot hdots hempty
  alloc hrefs h hP hfree hpos hlt hzero _ hnlink hflat hdots :=
    h.alloc hrefs hP hfree hpos hlt hzero hnlink hflat hdots

end Laws

/-! ## Counting entries -/

/-- Entries of directory `d` that name `i`, without `.` and, if the directory has no links, without
    `..`. -/
def namesIn (inode : Nat → Inode) (d i : Nat) : Nat :=
  (inode d).entries.countP fun de => de.inum = i ∧ ¬ namecmp de.name ['.'] ∧
    (namecmp de.name ['.', '.'] → (inode d).nlink ≠ 0)

/-- The same over all directories. -/
def entriesNaming (fs : Fs) (i : Nat) : Nat :=
  ∑ d ∈ Finset.range fs.ninodes, if (fs.inode d).type = .dir then namesIn fs.inode d i else 0

section Counting

variable {fs : Fs} {d i n : Nat}

/-- A list counted by the inodes it names. -/
theorem countP_eq_sum (p : Nat → Prop) [DecidablePred p] (l : List Dirent)
    (hl : ∀ de ∈ l, p de.inum → de.inum < n) :
    l.countP (fun de => p de.inum)
      = ∑ d ∈ Finset.range n, if p d then l.countP (fun de => de.inum = d) else 0 := by
  induction l with
  | nil => simp
  | cons de l ih =>
      have hde := hl de List.mem_cons_self
      have hsplit : ∀ d, (if p d then (de :: l).countP (fun de => de.inum = d) else 0)
          = (if p d then l.countP (fun de => de.inum = d) else 0)
            + if de.inum = d then (if p d then 1 else 0) else 0 := by
        intro d
        rw [List.countP_cons]
        by_cases hp : p d <;> by_cases heq : de.inum = d <;> simp [hp, heq]
      rw [List.countP_cons, ih fun x hx => hl x (List.mem_cons_of_mem de hx),
        Finset.sum_congr rfl fun d _ => hsplit d, Finset.sum_add_distrib, Finset.sum_ite_eq]
      by_cases hp : p de.inum
      · simp [hp, hde hp]
      · simp [hp]

/-- The entries of a well-formed directory, with the first two apart. -/
theorem Shape.namesIn_eq (h : Shape d (fs.inode d).entries) (hi : i ≠ 0) :
    namesIn fs.inode d i = linksIn (fs.inode d).entries i
      + if (fs.inode d).nlink ≠ 0 ∧ dotdot (fs.inode d).entries = i then 1 else 0 := by
  obtain ⟨p, rest, hes, -, hrest⟩ := h
  have hcount : rest.countP (fun de => de.inum = i ∧ ¬ namecmp de.name ['.'] ∧
      (namecmp de.name ['.', '.'] → (fs.inode d).nlink ≠ 0))
        = rest.countP fun de => de.inum = i := by
    apply List.countP_congr
    intro de hde
    by_cases heq : de.inum = i
    · have hne := hrest de hde (by omega)
      simp [heq, hne.1, hne.2]
    · simp [heq]
  have hdot : namecmp ['.'] ['.'] := by decide
  have hdots : ¬ namecmp ['.', '.'] ['.'] := by decide
  have hdots' : namecmp ['.', '.'] ['.', '.'] := by decide
  rw [namesIn, hes, List.countP_cons, List.countP_cons, hcount]
  simp [linksIn, dotdot, hdot, hdots, hdots']
  by_cases hp : p = i <;> by_cases hn : (fs.inode d).nlink = 0 <;> simp [hp, hn]

/-- Every entry that names a directory is in the one that its `..` points to. -/
theorem Tree.linksIn_dir {exact : Bool} {P : Multiset Nat} (ht : Tree exact fs.ninodes fs.inode P)
    (hd : (fs.inode d).type = .dir) (i : Nat) :
    linksIn (fs.inode i).entries d
      = if dotdot (fs.inode d).entries = i then linksTo fs.ninodes fs.inode d else 0 := by
  have hd0 := (ht.range d (Allocated.of_dir hd)).1
  have hzero : ∀ j, dotdot (fs.inode d).entries ≠ j → linksIn (fs.inode j).entries d = 0 := by
    intro j hj
    rw [linksIn, List.countP_eq_zero]
    intro de hde heq
    rw [decide_eq_true_eq] at heq
    subst heq
    exact hj ((ht.names j de hde (by omega)).2 hd)
  by_cases hi : dotdot (fs.inode d).entries = i
  · rw [if_pos hi, linksTo]
    by_cases hrange : i < fs.ninodes
    · rw [Finset.sum_eq_single_of_mem i (Finset.mem_range.2 hrange)]
      intro j _ hj
      exact hzero j (by rw [hi]; exact Ne.symm hj)
    · -- an inode out of range is not allocated, so it has no entries
      have hnot : (fs.inode i).type ≠ .dir := by
        intro hdir
        exact hrange (ht.range i (Allocated.of_dir hdir)).2
      rw [ht.flat i hnot, Finset.sum_eq_zero]
      · rfl
      · intro j hj
        apply hzero
        rw [hi]
        have := Finset.mem_range.1 hj
        omega
  · rw [if_neg hi, hzero i hi]

/-- A directory has a link as long as it is entered somewhere. -/
theorem Exact.nlink_eq_zero_iff (h : Exact fs 0) (hd : (fs.inode d).type = .dir)
    (hroot : d ≠ rootIno) : (fs.inode d).nlink = 0 ↔ linksTo fs.ninodes fs.inode d = 0 := by
  have hlinks := (h.tree.links d (Allocated.of_dir hd)).2 rfl
  rw [surplus, if_neg hroot, Multiset.count_zero] at hlinks
  constructor
  · intro hzero
    omega
  · intro hzero
    have hsub : subdirs fs.inode d = 0 := by
      rw [subdirs, List.countP_eq_zero]
      intro de hde
      simp [h.emptied d hd hroot hzero de hde]
    omega

/-- A directory counts as many subdirectories as there are directories with links that have it as
    their `..`. -/
theorem Exact.subdirs_eq (h : Exact fs 0) (hi : i ≠ rootIno) :
    subdirs fs.inode i = ∑ d ∈ Finset.range fs.ninodes,
      if (fs.inode d).type = .dir then
        (if (fs.inode d).nlink ≠ 0 ∧ dotdot (fs.inode d).entries = i then 1 else 0) else 0 := by
  have hsum := countP_eq_sum (n := fs.ninodes) (fun j => j ≠ 0 ∧ (fs.inode j).type = .dir)
    ((fs.inode i).entries.drop 2) fun de _ hde => (h.tree.range _ (Allocated.of_dir hde.2)).2
  rw [subdirs, hsum]
  apply Finset.sum_congr rfl
  intro d _
  by_cases hdir : (fs.inode d).type = .dir
  · have hd0 := (h.tree.range d (Allocated.of_dir hdir)).1
    have hne : d ≠ 0 := by omega
    have hin := h.tree.linksIn_dir hdir i
    rw [linksIn] at hin
    rw [if_pos ⟨hne, hdir⟩, if_pos hdir, hin]
    by_cases hdots : dotdot (fs.inode d).entries = i
    · have hroot : d ≠ rootIno := by
        rintro rfl
        exact hi (hdots.symm.trans h.root.2)
      have honce := h.once d hdir
      have hiff := h.nlink_eq_zero_iff hdir hroot
      by_cases hzero : linksTo fs.ninodes fs.inode d = 0
      · simp [hdots, hzero, hiff.2 hzero]
      · have hone : linksTo fs.ninodes fs.inode d = 1 := by omega
        have hnz : (fs.inode d).nlink ≠ 0 := fun hn => hzero (hiff.1 hn)
        simp [hdots, hone, hnz]
    · simp [hdots]
  · simp [hdir]

/-- The link count of an inode is the number of entries that name it. -/
theorem Exact.nlink_eq (h : Exact fs 0) (hi : Allocated fs.inode i) (hroot : i ≠ rootIno) :
    (fs.inode i).nlink = entriesNaming fs i := by
  have hi0 := (h.tree.range i hi).1
  have hlinks := (h.tree.links i hi).2 rfl
  have hsplit : entriesNaming fs i = linksTo fs.ninodes fs.inode i + subdirs fs.inode i := by
    rw [entriesNaming, h.subdirs_eq hroot, linksTo, ← Finset.sum_add_distrib]
    apply Finset.sum_congr rfl
    intro d _
    by_cases hdir : (fs.inode d).type = .dir
    · rw [if_pos hdir, if_pos hdir]
      exact (h.tree.shape d hdir).namesIn_eq (by omega)
    · rw [if_neg hdir, if_neg hdir, h.tree.flat d hdir]
      rfl
  rw [surplus, if_neg hroot, Multiset.count_zero] at hlinks
  rw [hsplit]
  omega

end Counting

/-! ## Runs -/

/-- Link counts are exact, and an inode that no entry names is held by a process or an open file. -/
def LinksExact : Machine → Prop
  | .running st => ∀ i, Allocated st.fs.inode i → i ≠ rootIno →
      (st.fs.inode i).nlink = entriesNaming st.fs i ∧ (entriesNaming st.fs i = 0 → Held st i)
  | .panicked _ => True

theorem Boundary.held {T : Fs → Multiset Nat → Prop} {st : St} {ip : Ip} (h : Boundary T st)
    (hpos : 0 < (st.fs.icache ip).ref) : Held st (st.fs.icache ip).inum := by
  have hmem := h.inv.refs.mem_of_pos hpos
  refine ⟨ip, rfl, ?_⟩
  rcases Multiset.mem_add.1 hmem with hcwd | hfile
  · obtain ⟨p, -, hp⟩ := Multiset.mem_sum.1 hcwd
    refine Or.inl ⟨p, ?_⟩
    cases hc : st.cwd p with
    | none =>
        rw [hc] at hp
        exact absurd hp (Multiset.notMem_zero ip)
    | some jp =>
        rw [hc] at hp
        rw [Multiset.mem_singleton.1 hp]
  · obtain ⟨f, -, hf⟩ := Multiset.mem_sum.1 hfile
    refine Or.inr ⟨f, ?_⟩
    cases hk : (st.file f).kind with
    | none =>
        rw [hk] at hf
        exact absurd hf (Multiset.notMem_zero ip)
    | pipe page =>
        rw [hk] at hf
        exact absurd hf (Multiset.notMem_zero ip)
    | inode jp =>
        rw [hk] at hf
        rw [Multiset.mem_singleton.1 hf]

theorem Boundary.linksExact {st : St} (h : Boundary Exact st) : LinksExact (.running st) := by
  intro i hi hroot
  have hnlink := h.inv.kept.nlink_eq hi hroot
  refine ⟨hnlink, fun hzero => ?_⟩
  obtain ⟨ip, hpos, rfl, -⟩ := h.inv.kept.orphan i hi (by rw [hnlink, hzero]; rfl)
  exact h.held hpos

/-- **Link counts are exact**, in every run in which no call enters a name in a directory that has
    been removed, nor increments a link count beyond a `short`. -/
theorem links_exact {st : St} {tr : List (Machine × (Pid × Call))} {s : Machine}
    (hst : Boundary Exact st) (hrun : Run Step (.running st) tr s)
    (hmeets : ∀ x ∈ tr, Call.Meets Mark.Entered x.1 x.2) : Along LinksExact tr s := by
  have hkept : ∀ s : Machine, Kept (fun e => e ≠ .stuck) Exact s → LinksExact s := by
    intro s hs
    cases s with
    | running st => exact Boundary.linksExact hs
    | panicked e => trivial
  obtain ⟨hall, hlast⟩ := run_keeps laws_exact hst hrun hmeets
  exact ⟨fun x hx => hkept _ (hall x hx), hkept _ hlast⟩

theorem boot_exact : Exact boot.fs 0 := by
  have hroot : ∀ i, Allocated boot.fs.inode i → i = rootIno := by
    intro i hi
    by_contra hne
    have hnode : (boot.fs.inode i).type = .free := congrArg Inode.type (if_neg hne)
    exact hi hnode
  refine ⟨boot_tree true, ⟨rfl, rfl⟩, ?_, ?_, ?_⟩
  · intro d hd
    rw [hroot d (Allocated.of_dir hd)]
    decide +kernel
  · intro d hd hne
    exact absurd (hroot d (Allocated.of_dir hd)) hne
  · intro i hi hzero
    rw [hroot i hi] at hzero
    cases hzero

instance (w : Mark) : Decidable w.Entered :=
  match w with
  | .frees _ _ => .isTrue trivial
  | .bumps nlink => inferInstanceAs (Decidable (nlink < 32767))
  | .enters fs dp name => inferInstanceAs (Decidable (namecmp name ['.'] ∨
      namecmp name ['.', '.'] ∨ (fs.icache dp).inum = rootIno ∨
        0 < linksTo fs.ninodes fs.inode (fs.icache dp).inum))

/-- A directory with two names of a file, all of them removed again. -/
def madeAndRemoved : List (Pid × Call) :=
  [(0, .mkdir ['a']), (0, .chdir ['a']), (0, .open ['f'] oCreate), (0, .link ['f'] ['g']),
    (0, .unlink ['f']), (0, .unlink ['g']), (0, .unlink ['/', 'a']), (0, .close 0),
    (0, .chdir ['/'])]

theorem links_exact_made_and_removed :
    ∃ tr s, tr.map Prod.snd = madeAndRemoved ∧ Run Step (.running boot) tr s ∧
      Along LinksExact tr s := by
  have hsome : ((play next (.running boot) madeAndRemoved).map fun r =>
      decide (∀ x ∈ r.1, ∀ w ∈ x.1.marks x.2, w.Entered)) = some true := by decide +kernel
  obtain ⟨⟨tr, s⟩, hplay, hmarks⟩ := Option.map_eq_some_iff.1 hsome
  obtain ⟨hrun, hlabels⟩ := play_run hplay
  refine ⟨tr, s, hlabels, hrun, links_exact (boot_boundary boot_exact) hrun ?_⟩
  intro x hx
  exact Call.Meets.of_marks (of_decide_eq_true hmarks x hx)

/-- A file made in a directory that has been removed, and that the process then leaves. -/
def madeInRemoved : List (Pid × Call) :=
  [(0, .mkdir ['a']), (0, .chdir ['a']), (0, .unlink ['/', 'a']), (0, .open ['f'] oCreate),
    (0, .close 0), (0, .chdir ['/'])]

theorem made_in_removed_leaks :
    ¬ ∀ (st : St) (tr : List (Machine × (Pid × Call))) (s : Machine), Boundary Exact st →
      Run Step (.running st) tr s → Along LinksExact tr s := by
  intro hclaim
  -- the file is inode 3: it has one link, and no entry names it
  have hsome : ((play next (.running boot) madeInRemoved).map fun r =>
      match r.2 with
      | .running st => decide ((st.fs.inode 3).type = .file ∧ (st.fs.inode 3).nlink = 1 ∧
          entriesNaming st.fs 3 = 0)
      | .panicked _ => false) = some true := by decide +kernel
  obtain ⟨⟨tr, s⟩, hplay, hlast⟩ := Option.map_eq_some_iff.1 hsome
  obtain ⟨hrun, -⟩ := play_run hplay
  have hexact := (hclaim boot tr s (boot_boundary boot_exact) hrun).2
  cases s with
  | panicked e => cases hlast
  | running st =>
      obtain ⟨htype, hnlink, hzero⟩ := of_decide_eq_true hlast
      have halloc : Allocated st.fs.inode 3 := by
        rw [Allocated, htype]
        decide
      obtain ⟨hcount, -⟩ := hexact 3 halloc (by decide)
      rw [hnlink, hzero] at hcount
      cases hcount

end Cs350.FileSys
