import Cs350.Mkfs.Mount
import Cs350.Sysfile.Counts

set_option autoImplicit false

/-! # From a new image on

The names on an image that `mkfs` has made are a tree with exact link counts: one directory, whose
entries name every file once. So the link counts on the disk stay exact from the first boot on. -/

namespace Cs350.Sysfile

open Block (Fs Dinode Sound direntSize direntInum bsize)
open FileSys (IType Ip Dirent Exact Tree Allocated rootIno rootSlot linksIn linksTo subdirs surplus)
open Mkfs (File State Exits Made ImageArg mounted nodes nInodes rootEntry entryInum fixedSize rootBytes)
open Prog Transition

/-! ## A tree with one directory -/

section Flat

/-- The root is the only directory, and every file has one link and one entry there. -/
structure Flat (fs : FileSys.Fs) (rest : List Dirent) : Prop where
  small : fs.ninodes ≤ 65536
  root_lt : rootIno < fs.ninodes
  root : (fs.inode rootIno).type = .dir ∧ (fs.inode rootIno).nlink = 1 ∧
    (fs.inode rootIno).entries = ⟨rootIno, ['.']⟩ :: ⟨rootIno, ['.', '.']⟩ :: rest
  others : ∀ i, i ≠ rootIno → (fs.inode i).type ≠ .dir ∧ (fs.inode i).entries = []
  files : ∀ i, i ≠ rootIno → Allocated fs.inode i → 0 < i ∧ i < fs.ninodes ∧
    (fs.inode i).nlink = 1 ∧ rest.countP (fun de => de.inum = i) = 1
  free : ∀ i, (fs.inode i).type = .free → (fs.inode i).nlink = 0
  entries : ∀ de ∈ rest, de.inum ≠ 0 → Allocated fs.inode de.inum ∧ de.inum ≠ rootIno ∧
    ¬ FileSys.namecmp de.name ['.'] ∧ ¬ FileSys.namecmp de.name ['.', '.']

variable {fs : FileSys.Fs} {rest : List Dirent} {i : Nat}

theorem Flat.linksTo_eq (h : Flat fs rest) (i : Nat) :
    linksTo fs.ninodes fs.inode i = rest.countP fun de => de.inum = i := by
  have hsum : linksTo fs.ninodes fs.inode i = linksIn (fs.inode rootIno).entries i := by
    refine Finset.sum_eq_single_of_mem rootIno (Finset.mem_range.2 h.root_lt) fun d _ hd => ?_
    rw [(h.others d hd).2]
    rfl
  rw [hsum, h.root.2.2]
  rfl

theorem Flat.subdirs_eq (h : Flat fs rest) (d : Nat) : subdirs fs.inode d = 0 := by
  by_cases hd : d = rootIno
  · rw [subdirs, hd, h.root.2.2, List.countP_eq_zero]
    intro de hde
    have hno : de.inum ≠ 0 → (fs.inode de.inum).type ≠ .dir := fun hne =>
      (h.others _ (h.entries de hde hne).2.1).1
    simpa using hno
  · rw [subdirs, (h.others d hd).2]
    rfl

theorem Flat.surplus_eq (h : Flat fs rest) (hi : Allocated fs.inode i) :
    surplus fs.ninodes fs.inode 0 i = 0 := by
  rw [surplus, h.linksTo_eq, h.subdirs_eq, Multiset.count_zero]
  by_cases hroot : i = rootIno
  · have hnone : rest.countP (fun de => de.inum = i) = 0 := by
      rw [List.countP_eq_zero]
      intro de hde hinum
      have heq : de.inum = i := by simpa using hinum
      exact (h.entries de hde (by rw [heq, hroot]; decide)).2.1 (heq.trans hroot)
    rw [hnone, if_pos hroot, hroot, h.root.2.1]
    rfl
  · obtain ⟨-, -, hnlink, hone⟩ := h.files i hroot hi
    rw [hone, hnlink, if_neg hroot]
    rfl

theorem Flat.exact (h : Flat fs rest) : Exact fs 0 := by
  have hdir : ∀ d, (fs.inode d).type = .dir → d = rootIno := fun d hd => by
    by_contra hne
    exact (h.others d hne).1 hd
  have hone : ∀ i, Allocated fs.inode i → (fs.inode i).nlink = 1 := fun i hi => by
    by_cases hroot : i = rootIno
    · rw [hroot]
      exact h.root.2.1
    · exact (h.files i hroot hi).2.2.1
  have hsurplus := fun i => h.surplus_eq (i := i)
  refine ⟨⟨h.small, fun i hi => ?_, fun i hi => ?_, fun d hd => ?_, fun d de hde hne => ?_,
    fun i hi => ⟨(hsurplus i hi).ge, fun _ => hsurplus i hi⟩, fun i => ?_⟩, ⟨h.root.1, ?_⟩,
    fun d hd => ?_, fun d hd hne => absurd (hdir d hd) hne, fun i hi hzero => ?_⟩
  · by_cases hroot : i = rootIno
    · rw [hroot]
      exact ⟨by decide, h.root_lt⟩
    · exact ⟨(h.files i hroot hi).1, (h.files i hroot hi).2.1⟩
  · refine (h.others i ?_).2
    rintro rfl
    exact hi h.root.1
  · rw [hdir d hd]
    exact ⟨rootIno, rest, h.root.2.2, by decide, fun de hde hne => (h.entries de hde hne).2.2⟩
  · by_cases hd : d = rootIno
    · rw [hd, h.root.2.2] at hde
      have hentry := h.entries de hde hne
      exact ⟨hentry.1, fun htype => absurd htype (h.others _ hentry.2.1).1⟩
    · rw [(h.others d hd).2] at hde
      cases hde
  · by_cases hi : Allocated fs.inode i
    · rw [hone i hi]
      decide
    · rw [h.free i (not_not.1 hi)]
      decide
  · rw [h.root.2.2]
    rfl
  · have hroot := h.surplus_eq (i := rootIno) (FileSys.Allocated.of_dir h.root.1)
    rw [surplus, h.root.2.1, if_pos rfl] at hroot
    rw [hdir d hd]
    omega
  · rw [hone i hi] at hzero
    cases hzero

end Flat

/-! ## The image -/

section Image

variable {σ : State} {files : List File} {j : Nat}

/-- The entries of the root directory lie in its blocks. -/
theorem root_block (hroom : ¬ bsize ∣ (rootBytes files).length)
    (hj : j < fixedSize (rootBytes files).length / direntSize) :
    j * direntSize / bsize < Block.nblocks (rootBytes files).length := by
  have hfixed := Mkfs.nblocks_fixedSize (rootBytes files).length
  rw [if_neg hroom] at hfixed
  rw [← hfixed]
  unfold fixedSize Block.nblocks bsize direntSize at *
  omega

/-- The entries of the root directory after the first two. -/
def fileEntries (σ : State) (files : List File) : List Dirent :=
  (List.range' 2 (fixedSize (rootBytes files).length / direntSize - 2)).map fun j =>
    direntOf (rootEntry σ j)

theorem fileEntry_inum (h : Made files σ) (hn : files.length + 2 ≤ nInodes)
    (hroom : ¬ bsize ∣ (rootBytes files).length)
    (hj : j ∈ List.range' 2 (fixedSize (rootBytes files).length / direntSize - 2)) :
    (direntOf (rootEntry σ j)).inum = if j < files.length + 2 then j else 0 := by
  obtain ⟨hlo, hhi⟩ := List.mem_range'_1.1 hj
  refine (h.entry hn (root_block hroom (by omega))).trans (if_congr Iff.rfl ?_ rfl)
  rw [entryInum, if_neg (by omega)]

/-- No file is called `.` or `..`. -/
theorem fileEntry_name (h : Made files σ) (hdots : ∀ f ∈ files, f.shortName ≠ dot ∧ f.shortName ≠ dotdot)
    (hlo : 2 ≤ j) (hj : j < files.length + 2) :
    ¬ FileSys.namecmp (direntOf (rootEntry σ j)).name ['.'] ∧
      ¬ FileSys.namecmp (direntOf (rootEntry σ j)).name ['.', '.'] := by
  have hlt : j - 2 < files.length := by omega
  have hname : (Mkfs.entryName files j).take Block.dirsiz = (files[j - 2]).shortName := by
    rw [Mkfs.entryName, if_neg (by omega), if_neg (by omega), List.getElem?_eq_getElem hlt]
    rfl
  obtain ⟨hdot, hdotdot⟩ := hdots _ (List.getElem_mem hlt)
  rw [← hname] at hdot hdotdot
  constructor
  · rw [show ['.'] = nameOf dot from rfl, namecmp_swap (by decide)]
    exact fun hcmp => hdot ((h.namecmp_entry (j := 0) hj).1 hcmp).symm
  · rw [show ['.', '.'] = nameOf dotdot from rfl, namecmp_swap (by decide)]
    exact fun hcmp => hdotdot ((h.namecmp_entry (j := 1) hj).1 hcmp).symm

/-- The entries of the root directory on the image. -/
theorem root_entries (h : Made files σ) (hroom : ¬ bsize ∣ (rootBytes files).length)
    (hcount : 2 ≤ fixedSize (rootBytes files).length / direntSize) :
    entriesOf (nodes σ rootIno) σ.blocks =
      ⟨rootIno, ['.']⟩ :: ⟨rootIno, ['.', '.']⟩ :: fileEntries σ files := by
  have hentry : ∀ j, j < 2 → direntOf (rootEntry σ j) =
      direntOf fun a => (Mkfs.dirent (entryInum j) (Mkfs.entryName files j)).getD a 0 := fun j hj =>
    direntOf_congr fun _ ha => (h.rootEntry_apply (root_block hroom (by omega)) ha).trans
      (Mkfs.rootBytes_entry (by omega) ha)
  have hzero : direntOf (rootEntry σ 0) = ⟨rootIno, ['.']⟩ := by
    refine (hentry 0 (by decide)).trans ?_
    show direntOf (fun a => (Mkfs.dirent 1 [46]).getD a 0) = _
    decide
  have hone : direntOf (rootEntry σ 1) = ⟨rootIno, ['.', '.']⟩ := by
    refine (hentry 1 (by decide)).trans ?_
    show direntOf (fun a => (Mkfs.dirent 1 [46, 46]).getD a 0) = _
    decide
  obtain ⟨k, hk⟩ := Nat.exists_eq_add_of_le' hcount
  have hmap : entriesOf (nodes σ rootIno) σ.blocks =
      (List.range' 0 (k + 2)).map fun j => direntOf (rootEntry σ j) := by
    rw [entriesOf, h.root_size, hk, List.range_eq_range']
    rfl
  rw [hmap, List.range'_succ, List.range'_succ, List.map_cons, List.map_cons, hzero, hone, fileEntries, hk]
  rfl

/-- The names on a new image. -/
theorem flat_mounted (h : Made files σ) (hneat : Mkfs.Neat σ) (hn : files.length + 2 ≤ nInodes)
    (hroom : ¬ bsize ∣ (rootBytes files).length)
    (hdots : ∀ f ∈ files, f.shortName ≠ dot ∧ f.shortName ≠ dotdot) :
    Flat (names (mounted σ)) (fileEntries σ files) := by
  have hfree := h.freeinode
  have hroot : rootIno = 1 := rfl
  have hninodes : (names (mounted σ)).ninodes = nInodes := by
    show (mounted σ).sb.ninodes.toNat = nInodes
    rw [show (mounted σ).sb = Mkfs.sb from h.sb_eq]
    rfl
  have hcount : files.length + 2 ≤ fixedSize (rootBytes files).length / direntSize := by
    rw [Mkfs.rootBytes_length]
    unfold fixedSize direntSize bsize
    omega
  have htype : ∀ i, ((names (mounted σ)).inode i).type = Mkfs.typeAt (files.length + 2) i := fun i => by
    rw [← hfree]
    exact h.type i
  have hother : ∀ i, i ≠ rootIno → ((names (mounted σ)).inode i).type ≠ .dir := fun i hi => by
    rw [htype, Mkfs.typeAt]
    split_ifs <;> decide
  have hrootType : ((names (mounted σ)).inode rootIno).type = .dir := by
    rw [htype, Mkfs.typeAt, if_neg (by omega), if_pos rfl]
  refine ⟨by rw [hninodes]; decide, by rw [hninodes]; decide,
    ⟨hrootType, hneat.nlink _ h.root_type, ?_⟩, fun i hi => ⟨hother i hi, if_neg (hother i hi)⟩,
    fun i hi halloc => ?_, fun i hi => ?_, fun de hde hne => ?_⟩
  · rw [← root_entries h hroom (by omega)]
    exact if_pos hrootType
  · have hbounds := halloc
    rw [Allocated, htype, Mkfs.typeAt_ne] at hbounds
    refine ⟨by omega, by rw [hninodes]; omega, hneat.nlink i halloc, ?_⟩
    -- the only entry with this number is the one at this index
    have hmem : i ∈ List.range' 2 (fixedSize (rootBytes files).length / direntSize - 2) :=
      List.mem_range'_1.2 (by omega)
    rw [fileEntries, List.countP_map]
    refine Eq.trans (List.countP_congr fun j hj => ?_) (List.count_eq_one_of_mem List.nodup_range' hmem)
    rw [Function.comp_apply, fileEntry_inum h hn hroom hj, decide_eq_true_eq, beq_iff_eq]
    split_ifs <;> omega
  · show (nodes σ i).nlink = 0
    rw [h.free i hi]
    rfl
  · obtain ⟨j, hj, rfl⟩ := List.mem_map.1 hde
    have hinum := fileEntry_inum h hn hroom hj
    have hlo := (List.mem_range'_1.1 hj).1
    rw [hinum] at hne ⊢
    split_ifs at hne ⊢ with hlt
    · refine ⟨?_, by omega, fileEntry_name h hdots hlo hlt⟩
      rw [Allocated, htype, Mkfs.typeAt_ne]
      omega
    · exact absurd rfl hne

end Image

/-! ## The first process -/

section Boot

variable {σ : State} {files : List File}

/-- The file system after `namei("/")` in `userinit`. -/
def booted (σ : State) : Fs :=
  (mounted σ).setSlot rootSlot ⟨rootIno, 1, false, Dinode.fresh .free⟩

theorem namei_root (de : Mem) (cwd : Ip) (σ : State) :
    (namei de cwd [slash] (mounted σ)).2 = .ok (some rootSlot, booted σ) := by
  rfl

theorem mounted_good (h : Made files σ) (hroom : ¬ bsize ∣ (rootBytes files).length) :
    Good (mounted σ) := by
  refine ⟨h.sound hroom, fun _ => le_rfl, fun i hi => ?_⟩
  have hroot : i = rootIno := by
    change (nodes σ i).type = .dir at hi
    rw [h.type, Mkfs.typeAt] at hi
    split_ifs at hi with h0 h1
    exact h1
  show (nodes σ i).size % direntSize = 0
  rw [hroot, h.root_size]
  unfold fixedSize bsize direntSize
  omega

theorem booted_good (h : Made files σ) (hroom : ¬ bsize ∣ (rootBytes files).length) :
    Good (booted σ) := by
  have hnone : Holds (mounted σ) 0 [] := ⟨fun _ => le_rfl, by simp⟩
  have hstarts : Starts 0 rootSlot [slash] := ⟨by decide, fun hhead => absurd rfl hhead⟩
  have hsim := namei_sim (fun _ => 0) (mounted_good h hroom) hnone hstarts
  obtain ⟨_, _, -, -, hg, -⟩ := refines_ok hsim (namei_root _ _ σ)
  exact hg

theorem booted_refs (h : Made files σ) : FileSys.Refs (names (booted σ)) {rootSlot} {rootSlot} := by
  have hself : (names (booted σ)).icache rootSlot = ⟨rootIno, 1, false⟩ :=
    congrArg slotOf (setSlot_self (mounted σ) rootSlot _)
  have hother : ∀ ip, ip ≠ rootSlot → (names (booted σ)).icache ip = ⟨0, 0, false⟩ := fun ip hip =>
    congrArg slotOf (setSlot_of_ne (mounted σ) hip _)
  have hheld : ∀ ip, 0 < ((names (booted σ)).icache ip).ref → ip = rootSlot := by
    intro ip hpos
    by_contra hip
    rw [hother ip hip] at hpos
    cases hpos
  have htype : ((names (booted σ)).node rootSlot).type ≠ .free := by
    rw [FileSys.Fs.node, hself]
    exact h.root_type
  refine ⟨fun ip => ?_, fun ip jp hip hjp _ => by rw [hheld ip hip, hheld jp hjp],
    Multiset.Subset.refl _, fun ip hip => ?_, fun ip hip hvalid => ?_⟩
  · rw [Multiset.count_singleton]
    split_ifs with hip
    · rw [hip, hself]
    · rw [hother ip hip]
  · rw [Multiset.mem_singleton.1 hip]
    exact htype
  · rw [hheld ip hip]
    exact htype

/-- **From `mkfs` to any run.** On an image that `mkfs` has made of files none of which is called `.` or
    `..`, and whose root directory does not fill its last block, the first process finds the root
    directory; and from then on link counts on the disk are exact, in every run of calls in which no
    call enters a name in a directory that has been removed, nor increments a link count beyond a
    `short`: that of every inode in use but the root's is the number of entries that name it, without
    `.` and without the `..` of directories that have no links themselves. -/
theorem image_link_counts {image : ImageArg} (h : Exits image files σ)
    (hn : files.length + 2 ≤ nInodes) (hroom : ¬ bsize ∣ (files.length + 2) * direntSize)
    (hdots : ∀ f ∈ files, f.shortName ≠ dot ∧ f.shortName ≠ dotdot) (de : Mem) (cwd : Ip) :
    ∃ s, (namei de cwd [slash] (mounted σ)).2 = .ok (some rootSlot, s) ∧
      s.inum rootSlot = rootIno ∧
      ∀ (tr : List (Machine Fs Panic × (Op × Option Reply))) (m : Machine Fs Panic),
        Run Step (.running s {rootSlot}) tr m →
        (∀ x ∈ tr, Meets FileSys.Mark.Entered x.1 x.2) → Along LinksExact tr m := by
  have hmade := h.made hn
  rw [← Mkfs.rootBytes_length] at hroom
  have hflat := flat_mounted hmade (h.neat hn) hn hroom hdots
  have hexact : Exact (names (booted σ)) 0 :=
    Flat.exact ⟨hflat.small, hflat.root_lt, hflat.root, hflat.others, hflat.files, hflat.free,
      hflat.entries⟩
  have hinum : (booted σ).inum rootSlot = rootIno :=
    congrArg Block.Inode.inum (setSlot_self (mounted σ) rootSlot _)
  exact ⟨booted σ, namei_root de cwd σ, hinum, fun tr m hrun hmeets =>
    link_counts_on_disk (booted_good hmade hroom) ⟨booted_refs hmade, hexact⟩ hrun hmeets⟩

/-- An image with one file; the first process forks. -/
theorem image_link_counts_hiFile : ∃ σ s m, Exits .opened [Mkfs.hiFile] σ ∧
    (namei (fun _ => 0) rootSlot [slash] (mounted σ)).2 = .ok (some rootSlot, s) ∧
    Step (.running s {rootSlot}) (.idup rootSlot, some (.inode (some rootSlot))) m ∧ LinksExact m := by
  obtain ⟨σ, h, -⟩ := Mkfs.hiFile_acceptable.exits
  obtain ⟨s, hs, -, hruns⟩ := image_link_counts h (by decide) (by decide) (by decide) (fun _ => 0) rootSlot
  have hfork : Step (.running s {rootSlot}) (.idup rootSlot, some (.inode (some rootSlot))) _ :=
    .ret (fun _ => 0) (Multiset.mem_singleton_self rootSlot) rfl
  refine ⟨σ, s, _, h, hs, hfork, (hruns _ _ (Run.nil.snoc hfork) ?_).2⟩
  intro x hx
  obtain rfl := List.mem_singleton.1 hx
  show ∀ w ∈ ((Op.idup rootSlot).names (names s)).1, FileSys.Mark.Entered w
  exact fun w hw => absurd hw List.not_mem_nil

end Boot

end Cs350.Sysfile
