import Cs350.FileSys.Walk

set_option autoImplicit false

/-! # `create`

A new directory is not well formed before its `.` and `..` entries are in place, so the steps of
`create` up to there are followed exactly: `Fs.withNew` is the state in which the new inode has
the entries written so far. From there on the invariant holds, with a link of the new inode to spare
and, for a directory, one of its parent. -/

namespace Cs350.FileSys

open Prog

section Exact

variable {C : Mark → Prop} {E : Panic → Prop} {fs : Fs} {O : Multiset Ip} {ip dp : Ip} {i : Nat}

/-- The slot that `ialloc` returns, before the inode is locked. -/
theorem newSlot_node (fs : Fs) (i : Nat) (ip : Ip) (n : Inode) :
    ((fs.setInode i n).setSlot ip { inum := i, ref := 1, valid := false }).node ip = n := by
  rw [Fs.node, setSlot_icache_self]
  exact Function.update_self _ _ _

theorem newSlot_locked (fs : Fs) (i : Nat) (ip : Ip) (n : Inode) :
    ((fs.setInode i n).setSlot ip { inum := i, ref := 1, valid := false }).setSlot ip
      { inum := i, ref := 1, valid := true } = fs.withNew i ip n := by
  unfold Fs.withNew Fs.setSlot
  simp only [Function.update_idem]

/-- The new inode, changed once more. -/
theorem withNew_setInode (fs : Fs) (i : Nat) (ip : Ip) (node node' : Inode) :
    (fs.withNew i ip node).setInode ((fs.withNew i ip node).icache ip).inum node'
      = fs.withNew i ip node' := by
  rw [withNew_icache]
  unfold Fs.withNew Fs.setInode Fs.setSlot
  simp only [Function.update_idem]

theorem withNew_setEntries (fs : Fs) (i : Nat) (ip : Ip) (node : Inode) (es : List Dirent) :
    (fs.withNew i ip node).setEntries ip es = fs.withNew i ip { node with entries := es } := by
  rw [Fs.setEntries, withNew_setInode, withNew_node]

/-- A change of the parent's link count does not interfere with the new inode. -/
theorem withNew_setNlink (fs : Fs) (node : Inode) (m : Int) (hne : dp ≠ ip)
    (hinum : (fs.icache dp).inum ≠ i) :
    (fs.withNew i ip node).setNlink dp m = (fs.setNlink dp m).withNew i ip node := by
  rw [Fs.setNlink, withNew_node_of_ne fs node hne hinum, withNew_icache_of_ne fs i node hne]
  unfold Fs.setNlink Fs.withNew Fs.setInode Fs.setSlot
  simp only
  rw [Function.update_comm hinum]

/-- `ialloc` marks the first free inode and holds it in a free slot. -/
theorem ialloc_spec (hE : E .iallocNoInodes) (hE' : E .igetNoInodes) (hrefs : Refs fs O O)
    (type : IType) :
    wp C E (ialloc type) fs fun ip fs' => ∃ i, (fs.inode i).type = .free ∧ 0 < i ∧
      i < fs.ninodes ∧ (fs.icache ip).ref = 0 ∧
      fs' = (fs.setInode i { type := type, major := 0, minor := 0, nlink := 0, entries := [] }).setSlot
        ip { inum := i, ref := 1, valid := false } := by
  unfold ialloc
  apply wp_get_bind
  split
  next i hfind =>
    have hfree := List.find?_some hfind
    rw [decide_eq_true_eq] at hfree
    have hmem := List.mem_range'_1.1 (List.mem_of_find?_eq_some hfind)
    apply wp_modify_bind
    apply wp_mono (iget_cases hE' _ i)
    rintro ip fs' (⟨hpos, hi, -⟩ | ⟨-, hzero, rfl⟩)
    · exact absurd ⟨ip, hpos, hi⟩ (hrefs.not_inUse hfree)
    · exact ⟨i, hfree, by omega, by omega, hzero, rfl⟩
  next => exact wp_stop hE

/-- Locking an inode that has just been taken into the cache. -/
theorem ilock_fresh (fs : Fs) (href : (fs.icache ip).ref = 1)
    (hvalid : (fs.icache ip).valid = false) (htype : (fs.node ip).type ≠ .free) :
    wp C E (ilock ip) fs fun _ fs' =>
      fs' = fs.setSlot ip { fs.icache ip with valid := true } := by
  unfold ilock
  apply wp_get_bind
  rw [if_neg (by omega), if_neg (by simp [hvalid]), if_neg htype]
  exact wp_modify rfl

/-- `dirlink` into the new directory, which does not have the name. -/
theorem dirlink_new (hE : E .dirlink) (fs : Fs) (i : Nat) (ip : Ip) {node : Inode} (name : Name)
    (j : Nat) (hdir : node.type = .dir) (hnone : ∀ de ∈ node.entries, ¬ namecmp name de.name) :
    wp C E (dirlink ip name j) (fs.withNew i ip node) fun r fs' => r = 0 ∧
      fs' = fs.withNew i ip
        { node with
          entries := writeEntry node.entries (node.entries.findIdx fun de => de.inum = 0)
            ⟨j % 65536, name.take dirsiz⟩ } := by
  have hself := withNew_node fs i ip node
  have hfind : node.entries.zipIdx.find? (fun p => p.1.inum ≠ 0 ∧ namecmp name p.1.name)
      = none := by
    rw [List.find?_eq_none]
    intro p hp
    have := hnone p.1 (List.fst_mem_of_mem_zipIdx hp)
    simp [this]
  unfold dirlink dirlookup
  refine wp_bind (P := fun r fs' => r = none ∧ fs' = fs.withNew i ip node) ?_ ?_
  · apply wp_get_bind
    rw [hself, if_neg (not_not.2 hdir), hfind]
    exact wp_pure ⟨rfl, rfl⟩
  · rintro _ _ ⟨rfl, rfl⟩
    apply wp_get_bind
    dsimp only
    rw [hself]
    apply wp_ite
    · intro _
      exact wp_stop hE
    · intro _
      apply wp_mark_bind
      intro _
      apply wp_modify_bind
      rw [withNew_setEntries]
      exact wp_pure ⟨rfl, rfl⟩

end Exact

section Create

variable {C : Mark → Prop} {E : Panic → Prop} {T : Fs → Multiset Nat → Prop}
  {fs : Fs} {O : Multiset Ip} {P : Multiset Nat} {ip dp cwd : Ip} {i : Nat}

/-- What holds once the new inode is ready to be entered in its parent. -/
structure Ready (T : Fs → Multiset Nat → Prop) (fs fs' : Fs) (dp ip : Ip) (O : Multiset Ip)
    (P : Multiset Nat) : Prop where
  inv : Inv T fs' (ip ::ₘ O) (ip ::ₘ O) ((fs'.icache ip).inum ::ₘ
    if (fs'.node ip).type = .dir then (fs'.icache dp).inum ::ₘ P else P)
  new : (fs'.node ip).type = .dir → (fs'.node ip).nlink = 1 ∧
    (fs'.node ip).entries = dots (fs'.icache ip).inum (fs'.icache dp).inum
  keeps : Keeps fs fs' O

theorem Refs.keeps_withNew (hrefs : Refs fs O O) (hfree : (fs.inode i).type = .free)
    (hzero : (fs.icache ip).ref = 0) (node : Inode) : Keeps fs (fs.withNew i ip node) O := by
  intro jp hjp
  obtain ⟨hne, hinum⟩ := hrefs.new_ne hjp hfree hzero
  rw [withNew_icache_of_ne fs i node hne, withNew_node_of_ne fs node hne hinum]
  exact ⟨rfl, rfl, id⟩

/-- A new inode that is no directory needs nothing else. -/
theorem Inv.ready_file {node : Inode} (laws : Laws C E T) (hinv : Inv T fs O O P)
    (hP : P.count i = 0) (hfree : (fs.inode i).type = .free) (hpos : 0 < i) (hlt : i < fs.ninodes)
    (hzero : (fs.icache ip).ref = 0) (htype : node.type ≠ .free) (hdir : node.type ≠ .dir)
    (hnlink : node.nlink = 1) (hes : node.entries = []) :
    Ready T fs (fs.withNew i ip node) dp ip O P := by
  have hkept := laws.alloc hinv.refs hinv.kept hP hfree hpos hlt hzero htype hnlink
    (fun _ => hes) (fun h => absurd h hdir)
  refine ⟨⟨hinv.refs.withNew hfree hzero htype, ?_⟩, ?_, hinv.refs.keeps_withNew hfree hzero node⟩
  · rw [withNew_icache, withNew_node, if_neg hdir]
    exact hkept
  · rw [withNew_node]
    exact fun h => absurd h hdir

/-- A new directory with its two entries, once the parent's link count is incremented. -/
theorem Inv.ready_dir {fs₁ : Fs} {node : Inode} (laws : Laws C E T)
    (hinv : Inv T fs₁ O O ((fs₁.icache dp).inum ::ₘ P)) (hkeeps : Keeps fs fs₁ O) (hdp : dp ∈ O)
    (hP : P.count i = 0) (hfree : (fs₁.inode i).type = .free) (hpos : 0 < i)
    (hlt : i < fs₁.ninodes) (hzero : (fs₁.icache ip).ref = 0) (hdir : node.type = .dir)
    (hnlink : node.nlink = 1) (hes : node.entries = dots i (fs₁.icache dp).inum) :
    Ready T fs (fs₁.withNew i ip node) dp ip O P := by
  obtain ⟨hne, hinum⟩ := hinv.refs.new_ne hdp hfree hzero
  have htype : node.type ≠ .free := by
    rw [hdir]
    nofun
  have hcount : ((fs₁.icache dp).inum ::ₘ P).count i = 0 := by
    rw [Multiset.count_cons_of_ne (Ne.symm hinum), hP]
  have hkept := laws.alloc hinv.refs hinv.kept hcount hfree hpos hlt hzero htype hnlink
    (fun h => absurd hdir h) (fun _ => ⟨dp, hdp, hes⟩)
  refine ⟨⟨hinv.refs.withNew hfree hzero htype, ?_⟩, ?_,
    hkeeps.trans (hinv.refs.keeps_withNew hfree hzero node)⟩
  · rw [withNew_icache, withNew_node, if_pos hdir, withNew_icache_of_ne fs₁ i node hne]
    exact hkept
  · rw [withNew_node, withNew_icache, withNew_icache_of_ne fs₁ i node hne]
    exact fun _ => ⟨hnlink, hes⟩

theorem createDots_spec {node : Inode} (laws : Laws C E T) (hinv : Inv T fs O O P) (hdp : dp ∈ O)
    (hvalid : (fs.icache dp).valid) (hP : P.count i = 0) (hfree : (fs.inode i).type = .free)
    (hpos : 0 < i) (hlt : i < fs.ninodes)
    (hzero : (fs.icache ip).ref = 0) (hdir : node.type = .dir) (hnlink : node.nlink = 1)
    (hes : node.entries = []) :
    wp C E (createDots dp ip) (fs.withNew i ip node) fun _ fs' => Ready T fs fs' dp ip O P := by
  obtain ⟨hne, hinum⟩ := hinv.refs.new_ne hdp hfree hzero
  have hself := withNew_node_of_ne fs node hne hinum
  have hstop : E .dirlink := laws.halts _ nofun nofun
  unfold createDots addLink
  refine wp_bind (P := fun _ fs' =>
    fs' = (fs.setNlink dp (short ((fs.node dp).nlink + 1))).withNew i ip node ∧
      Inv T (fs.setNlink dp (short ((fs.node dp).nlink + 1))) O O ((fs.icache dp).inum ::ₘ P)) ?_ ?_
  · apply wp_mark_bind
    rw [hself]
    intro hok
    refine wp_modify ⟨?_, hinv.refs.setInode rfl, laws.bump hinv.refs hdp hvalid hinv.kept hok⟩
    rw [hself, withNew_setNlink fs node _ hne hinum]
  · rintro _ _ ⟨rfl, hinv₁⟩
    have hkeeps : Keeps fs (fs.setNlink dp (short ((fs.node dp).nlink + 1))) O :=
      Keeps.setInode fs rfl
    have hfree₁ : ((fs.setNlink dp (short ((fs.node dp).nlink + 1))).inode i).type = .free := by
      show (Function.update fs.inode (fs.icache dp).inum _ i).type = .free
      rw [Function.update_of_ne (Ne.symm hinum)]
      exact hfree
    apply wp_get_bind
    apply wp_bind (dirlink_new hstop _ i ip ['.'] _ hdir (by rw [hes]; simp))
    rintro _ _ ⟨rfl, rfl⟩
    rw [if_neg (by decide), withNew_icache, withNew_icache_of_ne _ i node hne, hes]
    have hnone : ∀ de ∈ ([⟨i % 65536, ['.']⟩] : List Dirent), ¬ namecmp ['.', '.'] de.name := by
      intro de hde
      have hcmp : ¬ namecmp ['.', '.'] ['.'] := by decide
      rw [List.mem_singleton.1 hde]
      exact hcmp
    apply wp_bind (dirlink_new hstop _ i ip ['.', '.'] _ (by exact hdir) hnone)
    rintro _ _ ⟨rfl, rfl⟩
    rw [if_neg (by decide)]
    apply wp_pure
    refine hinv₁.ready_dir laws hkeeps hdp hP hfree₁ hpos hlt hzero ?_ ?_ ?_
    · exact hdir
    · exact hnlink
    · rfl

theorem createNew_spec (laws : Laws C E T) (hinv : Inv T fs (dp ::ₘ O) (dp ::ₘ O) 0)
    (hvalid : (fs.icache dp).valid) (name : Name) {type : IType} (htype : type ≠ .free)
    (major minor : Int) :
    wp C E (createNew dp name type major minor) fs fun ip fs' =>
      Inv T fs' (ip ::ₘ O) (ip ::ₘ O) 0 ∧ Keeps fs fs' O := by
  have hdp := Multiset.mem_cons_self dp O
  unfold createNew
  apply wp_bind (ialloc_spec (laws.halts _ nofun nofun) (laws.halts _ nofun nofun) hinv.refs type)
  rintro ip _ ⟨i, hfree, hpos, hlt, hzero, rfl⟩
  apply wp_bind (ilock_fresh _ (by rw [setSlot_icache_self]) (by rw [setSlot_icache_self])
    (by rw [newSlot_node]; exact htype))
  rintro _ _ rfl
  rw [setSlot_icache_self]
  simp only [newSlot_locked]
  apply wp_modify_bind
  rw [withNew_setInode, withNew_node]
  -- from here on the new inode is ready, at once or after its first two entries
  have hrest : ∀ fs', Ready T fs fs' dp ip (dp ::ₘ O) 0 →
      wp C E (do
        let fs ← Prog.get
        let r ← dirlink dp name (fs.icache ip).inum
        if r < 0 then
          Prog.stop .createDirlink
        else do
          iunlockput dp
          pure ip) fs' fun ip fs' => Inv T fs' (ip ::ₘ O) (ip ::ₘ O) 0 ∧ Keeps fs fs' O := by
    intro fs₁ hready
    apply wp_get_bind
    apply wp_bind (dirlink_spec laws hready.inv (Multiset.mem_cons_self ip _)
      (Multiset.mem_cons_of_mem hdp) name hready.new)
    rintro r fs₂ ⟨hkeeps₂, ⟨rfl, hinv₂⟩ | ⟨rfl, -⟩⟩
    · rw [if_neg (by decide)]
      rw [Multiset.cons_swap] at hinv₂
      apply wp_bind (iput_held laws hinv₂)
      rintro _ fs₃ ⟨hinv₃, hkeeps₃⟩
      have hback : Keeps fs fs₂ O := (hready.keeps.trans hkeeps₂.of_cons).of_cons
      exact wp_pure ⟨hinv₃, hback.trans hkeeps₃.of_cons⟩
    · rw [if_pos (by decide)]
      exact wp_stop (laws.halts _ nofun nofun)
  by_cases hdir : type = .dir
  · rw [if_pos hdir]
    apply wp_bind (createDots_spec laws hinv hdp hvalid rfl hfree hpos hlt hzero hdir rfl rfl)
    rintro _ fs' hready
    exact hrest fs' hready
  · rw [if_neg hdir]
    exact hrest _ (hinv.ready_file laws rfl hfree hpos hlt hzero htype hdir rfl rfl)

/-- `create` returns a locked inode. -/
theorem create_spec (laws : Laws C E T) (hinv : Inv T fs O O 0) (hcwd : cwd ∈ O)
    (path : List Char) (type : IType) (htype : type ≠ .free) (major minor : Int) :
    wp C E (create cwd path type major minor) fs fun r fs' => Keeps fs fs' O ∧
      Inv T fs' (r.elim O (· ::ₘ O)) (r.elim O (· ::ₘ O)) 0 := by
  unfold create
  apply wp_bind (nameiparent_spec laws path hinv hcwd)
  intro r fs₁ hr
  split
  next => exact wp_pure ⟨hr.keeps, hr.inv⟩
  next dp name =>
    have hdp := Multiset.mem_cons_self dp O
    have hinv₁ : Inv T fs₁ (dp ::ₘ O) O 0 := hr.inv
    apply wp_bind (ilock_spec laws hinv₁ hdp)
    rintro _ fs₂ ⟨hinv₂, hsame₂, hvalid₂⟩
    have hkeeps₂ := hr.keeps.trans hsame₂.keeps.of_cons
    apply wp_bind (dirlookup_spec laws hinv₂ hdp name)
    rintro r fs₃ ⟨-, hr₃⟩
    split
    next ip off =>
      obtain ⟨hinv₃, hsame₃, -⟩ := hr₃
      have hrefs₃ := hinv₃.refs.mono (Multiset.subset_cons O dp)
      rw [Multiset.cons_swap] at hrefs₃
      apply wp_bind (iput_spec laws ⟨hrefs₃, hinv₃.kept⟩ (Multiset.subset_cons O ip))
      rintro _ fs₄ ⟨hinv₄, hkeeps₄⟩
      apply wp_bind (ilock_spec laws hinv₄ (Multiset.mem_cons_self ip O))
      rintro _ fs₅ ⟨hinv₅, hsame₅, -⟩
      have hkeeps₅ : Keeps fs fs₅ O :=
        ((hkeeps₂.trans hsame₃.keeps.of_cons).trans hkeeps₄.of_cons).trans hsame₅.keeps.of_cons
      apply wp_get_bind
      apply wp_ite
      · intro _
        exact wp_pure ⟨hkeeps₅, hinv₅⟩
      · intro _
        apply wp_bind (iput_held laws hinv₅)
        rintro _ fs₆ ⟨hinv₆, hkeeps₆⟩
        exact wp_pure ⟨hkeeps₅.trans hkeeps₆, hinv₆⟩
    next =>
      obtain ⟨rfl, -⟩ := hr₃
      apply wp_bind (createNew_spec laws hinv₂ hvalid₂ name htype major minor)
      rintro ip fs₄ ⟨hinv₄, hkeeps₄⟩
      exact wp_pure ⟨hkeeps₂.trans hkeeps₄, hinv₄⟩

end Create

end Cs350.FileSys
