import Cs350.Mkfs.Consistent
import Cs350.Block.Lookup

set_option autoImplicit false

/-! # The kernel reads what `mkfs` wrote

The image is the disk of a kernel that has the root directory open. `dirlookup` goes through the
entries that `iappend` wrote, in the order of the files after `.` and `..`, and `readi` through the
blocks. -/

namespace Cs350.Mkfs

open Block (bsize dirsiz direntSize Dinode lblock direntInum namecmp dirlookup ilock readi Fs FsM Total
  HasEntries Cached Coherent Locked)
open FileSys (Ip rootIno)
open Prog

/-! ## A kernel on the image -/

/-- The disk of the kernel is the image, `dp` is the root directory, which it has locked, and there
    is a free slot for another inode. -/
structure Rooted (σ : State) (s : Fs) (dp : Ip) : Prop where
  sb : s.sb = superblockAt σ.blocks
  bitmap : s.bitmap = bitAt σ.blocks
  data : s.data = σ.blocks
  dinode : s.dinode = inodeAt σ.blocks
  cache : Coherent s
  locked : Locked s dp
  root : s.inum dp = rootIno
  slot : ∃ ip, (s.icache ip).ref = 0

/-- `dirlookup`, and then `readi` of the whole file. -/
def lookupRead (dp : Ip) (name : List UInt8) (de dst : Mem) : FsM (Option (Int × Mem)) := do
  match ← dirlookup dp name de with
  | none => pure none
  | some (ip, _) => do
      ilock ip
      let s ← Prog.get
      let r ← readi ip dst 0 (UInt32.ofNat (s.node ip).size)
      pure (some r)

/-- The name of the file on the image. -/
def File.shortName (f : File) : List UInt8 := f.name.take dirsiz

/-! ## Names -/

section Names

theorem File.nul_name (f : File) : 0 ∉ f.name := by
  unfold File.name
  split_ifs
  · exact fun h => f.nul (List.mem_of_mem_tail h)
  · exact f.nul

theorem nul_entryName (files : List File) (j : Nat) : 0 ∉ entryName files j := by
  unfold entryName
  split_ifs
  · decide
  · decide
  · cases files[j - 2]? with
    | none => exact List.not_mem_nil
    | some f => exact f.nul_name

/-- `strncpy` keeps the first `DIRSIZ` characters. -/
theorem dirent_name (inum : Nat) (name : List UInt8) (k : Nat) :
    (dirent inum name).getD (2 + k) 0 = (name.take dirsiz).getD k 0 := by
  have hidx : 2 + k = k + 1 + 1 := by omega
  rw [dirent, hidx, List.getD_cons_succ, List.getD_cons_succ, strncpy]
  rcases Nat.lt_or_ge k (name.take dirsiz).length with hlt | hge
  · exact getD_append_left _ _ hlt
  · rw [List.getD_eq_getElem?_getD, List.getElem?_append_right hge, List.getElem?_replicate,
      getD_of_length_le _ hge]
    split_ifs <;> rfl

end Names

/-! ## Looking up an entry -/

section Lookup

variable {σ : State} {files : List File} {s : Fs} {dp : Ip} {j : Nat}

theorem Rooted.node (hs : Rooted σ s dp) : s.node dp = nodes σ rootIno := by
  rw [hs.cache.copy dp hs.locked.ref hs.locked.valid, hs.root, hs.dinode]
  rfl

theorem Rooted.direntAt (hs : Rooted σ s dp) (j : Nat) : s.direntAt dp j = rootEntry σ j := by
  funext a
  rw [Fs.direntAt, Fs.byteAt, hs.node, hs.data]
  rfl

/-- The bytes of the entries lie in blocks of the root directory. -/
theorem entry_block (hj : j < files.length + 2) {x : Nat} (hx : x < (j + 1) * direntSize) :
    x / bsize < Block.nblocks (rootBytes files).length := by
  have hle : (j + 1) * direntSize ≤ (files.length + 2) * direntSize :=
    Nat.mul_le_mul_right _ (by omega)
  rw [rootBytes_length]
  unfold Block.nblocks bsize
  omega

theorem Rooted.hasEntries (hs : Rooted σ s dp) (h : Made files σ) (hn : files.length + 2 ≤ nInodes)
    (hj : j < files.length + 2) : HasEntries s dp j := by
  have hle : (j + 1) * direntSize ≤ (files.length + 2) * direntSize :=
    Nat.mul_le_mul_right _ (by omega)
  refine ⟨?_, ?_, ?_, fun x hx => ?_⟩
  · have hfree := h.freeinode
    have hroot : rootIno = 1 := rfl
    rw [hs.node, h.type, typeAt, if_neg (by omega), if_pos rfl]
  · rw [hs.node, h.root_size, rootBytes_length]
    unfold nInodes at hn
    unfold fixedSize direntSize bsize
    omega
  · rw [hs.node, h.root_size, rootBytes_length]
    unfold fixedSize bsize
    omega
  · rw [hs.node, hs.data, h.core.mapped _ h.root_type, counts, contentOf_root]
    exact entry_block hj hx

theorem Made.namecmp_entry (h : Made files σ) {i : Nat} (hi : i < files.length + 2) :
    namecmp ((entryName files j).take dirsiz) (rootEntry σ i) = true ↔
      (entryName files j).take dirsiz = (entryName files i).take dirsiz := by
  refine Block.namecmp_iff (fun hmem => nul_entryName files j (List.mem_of_mem_take hmem))
    (fun hmem => nul_entryName files i (List.mem_of_mem_take hmem)) (List.length_take_le ..)
    (List.length_take_le ..) fun k hk => ?_
  have ha : 2 + k < direntSize := by
    unfold dirsiz at hk
    unfold direntSize
    omega
  have hblock : i * direntSize / bsize < Block.nblocks (rootBytes files).length :=
    entry_block hi (by unfold direntSize; omega)
  rw [h.rootEntry_apply hblock ha, rootBytes_entry hi ha, dirent_name]

/-- The first entry with a name is found, and the file that it names is read, if its size is
    right. -/
theorem Rooted.lookupRead (hs : Rooted σ s dp) (h : Made files σ) (hn : files.length + 2 ≤ nInodes)
    (hj : j < files.length + 2)
    (hfirst : ∀ i, i < j → (entryName files j).take dirsiz ≠ (entryName files i).take dirsiz)
    (hsize : Block.nblocks (sizeAt files (entryInum j)) = counts (contentOf files) (entryInum j))
    (hlt : sizeAt files (entryInum j) < 2 ^ 32) (de dst : Mem) :
    Total (lookupRead dp ((entryName files j).take dirsiz) de dst) s fun r _ =>
      ∃ dst', r = some (((sizeAt files (entryInum j) : Nat) : Int), dst') ∧
        ∀ a, a < sizeAt files (entryInum j) →
          dst' a = (contentOf files (entryInum j)).getD a 0 := by
  have hroot : rootIno = 1 := rfl
  have hblock : ∀ i, i < files.length + 2 →
      i * direntSize / bsize < Block.nblocks (rootBytes files).length :=
    fun i hi => entry_block hi (by unfold direntSize; omega)
  have hinum : ∀ i, i < files.length + 2 → direntInum (s.direntAt dp i) = entryInum i := by
    intro i hi
    rw [hs.direntAt, h.entry hn (hblock i hi), if_pos hi]
  have hpos : 1 ≤ entryInum j ∧ entryInum j < files.length + 2 := by
    unfold entryInum
    split_ifs <;> omega
  have htype : (nodes σ (entryInum j)).type ≠ .free := by
    rw [h.type, typeAt_ne, h.freeinode]
    exact hpos
  have hnode : nodes σ (entryInum j) = inodeAt σ.blocks (entryInum j) := if_pos (by omega)
  have hget := Block.iget_there hs.cache.copy hs.slot (entryInum j)
  rw [← hinum j hj] at hget
  apply wp_bind (Block.dirlookup_first (hs.hasEntries h hn hj) _ (fun i hi => Or.inr ?_) ?_ ?_
    (Q := fun r s' => ∃ ip off, r = some (ip, off) ∧ Cached (entryInum j) s' ip ∧
      s'.data = s.data ∧ s'.dinode = s.dinode)
    (wp_mono hget fun ip s' h' => ⟨ip, _, rfl, hinum j hj ▸ h'⟩) de)
  · rintro _ s₁ ⟨ip, off, rfl, hcached, hdata, hdinode⟩
    dsimp only
    apply wp_bind (Block.ilock_there hcached (by rw [hdinode, hs.dinode, ← hnode]; exact htype))
    rintro _ s₂ ⟨hloaded, hdata'⟩
    have hnode₂ : s₂.node ip = nodes σ (entryInum j) := by
      rw [hloaded, hdinode, hs.dinode, hnode]
    have hdata₂ : s₂.data = σ.blocks := (hdata'.trans hdata).trans hs.data
    have hsz : (s₂.node ip).size = sizeAt files (entryInum j) := by
      rw [hnode₂]
      exact h.size _ htype
    have hn32 : (UInt32.ofNat (sizeAt files (entryInum j))).toNat = sizeAt files (entryInum j) :=
      UInt32.toNat_ofNat_of_lt' hlt
    apply wp_get_bind
    rw [hsz]
    have hthere : ∀ x, x < sizeAt files (entryInum j) →
        x / bsize < counts (contentOf files) (entryInum j) := by
      intro x hx
      rw [← hsize]
      unfold Block.nblocks bsize
      omega
    -- the whole file is read
    have hcnt : min (UInt32.ofNat (sizeAt files (entryInum j))).toNat
        ((s₂.node ip).size - UInt32.toNat 0) = sizeAt files (entryInum j) := by
      rw [hn32, hsz]
      exact Nat.min_self _
    apply wp_bind (Block.readi_there ?_ dst ?_ ?_ ?_)
    · rintro ⟨r, dst'⟩ s₃ ⟨rfl, hr, hdst⟩
      rw [hcnt] at hr hdst
      dsimp only at hr hdst
      refine wp_pure ⟨dst', by rw [hr], fun a ha => ?_⟩
      rw [hdst, if_pos ha, Fs.byteAt, hnode₂, hdata₂, Dinode.byteAt,
        h.core.bytes _ htype _ (hthere _ (by simpa using ha)) _ (Nat.mod_lt _ (by decide)),
        Nat.div_add_mod']
      simp
    · rw [hnode₂, h.type, typeAt]
      split_ifs <;> decide
    · exact Nat.zero_le _
    · rw [hn32]
      simpa using hlt
    · intro x _ hx
      rw [hcnt] at hx
      rw [hnode₂, hdata₂, h.core.mapped _ htype]
      exact hthere x (by simpa using hx)
  · rw [hinum j hj]
    omega
  · rw [hs.direntAt]
    exact (h.namecmp_entry hj).2 rfl
  · have hne := hfirst i hi
    rw [hs.direntAt]
    by_contra hcmp
    exact hne ((h.namecmp_entry (by omega)).1 (by simpa using hcmp))

end Lookup

/-! ## The files -/

section Agree

variable {σ : State} {files : List File} {s : Fs} {dp : Ip}

/-- A file is the inode and the entry after those of `.`, `..` and the files before it. -/
theorem contentOf_file {k : Nat} {f : File} (hf : files[k]? = some f) :
    entryInum (k + 2) = k + 2 ∧ entryName files (k + 2) = f.name ∧
      contentOf files (k + 2) = f.content ∧ sizeAt files (k + 2) = f.content.length := by
  have hroot : rootIno = 1 := rfl
  have hcontent : contentOf files (k + 2) = f.content := by
    rw [contentOf, if_neg (by omega), if_neg (by omega), Nat.add_sub_cancel, hf]
    rfl
  refine ⟨if_neg (by omega), ?_, hcontent, ?_⟩
  · rw [entryName, if_neg (by omega), if_neg (by omega), Nat.add_sub_cancel, hf]
    rfl
  · rw [sizeAt, if_neg (by omega), hcontent]

/-- No entry before that of the file has its name. -/
theorem entryName_ne (hnames : (files.map File.shortName).Nodup)
    (hdots : ∀ f ∈ files, f.shortName ≠ [46] ∧ f.shortName ≠ [46, 46]) {k : Nat} {f : File}
    (hf : files[k]? = some f) {i : Nat} (hi : i < k + 2) :
    f.shortName ≠ (entryName files i).take dirsiz := by
  obtain ⟨hdot, hdotdot⟩ := hdots f (List.mem_of_getElem? hf)
  unfold entryName
  split_ifs with h0 h1
  · exact hdot
  · exact hdotdot
  · obtain ⟨hk, rfl⟩ := List.getElem?_eq_some_iff.1 hf
    have hi' : i - 2 < files.length := by omega
    rw [List.getElem?_eq_getElem hi']
    intro heq
    have hlen : (files.map File.shortName).length = files.length := List.length_map _
    have hsame : (files.map File.shortName)[k] = (files.map File.shortName)[i - 2] := by
      rw [List.getElem_map, List.getElem_map]
      exact heq
    have hidx := (hnames.getElem_inj_iff).1 hsame
    omega

/-- What the kernel reads under the name of a file. -/
theorem Rooted.lookupRead_file (hs : Rooted σ s dp) (h : Made files σ) (hfiles : Acceptable files)
    (hnames : (files.map File.shortName).Nodup)
    (hdots : ∀ f ∈ files, f.shortName ≠ [46] ∧ f.shortName ≠ [46, 46]) {f : File} (hf : f ∈ files)
    (de dst : Mem) :
    Total (Mkfs.lookupRead dp f.shortName de dst) s fun r _ => ∃ dst',
      r = some ((f.content.length : Int), dst') ∧
        ∀ a, a < f.content.length → dst' a = f.content.getD a 0 := by
  obtain ⟨k, hk⟩ := List.mem_iff_getElem?.1 hf
  obtain ⟨hinum, hname, hcontent, hsize⟩ := contentOf_file hk
  obtain ⟨hlt, -⟩ := List.getElem?_eq_some_iff.1 hk
  have hmax := hfiles.small f hf
  have hread := hs.lookupRead h hfiles.inodes (j := k + 2) (by omega)
    (fun i hi => by rw [hname]; exact entryName_ne hnames hdots hk hi)
    (by rw [hinum, hsize, counts, hcontent])
    (by rw [hinum, hsize]; exact Nat.lt_of_le_of_lt hmax (by decide)) de dst
  rw [hinum, hname, hsize, hcontent] at hread
  exact hread

end Agree

/-! ## `mkfs` and the kernel agree -/

/-- Under the name of each file the kernel finds the bytes of the file. -/
theorem format_agrees {files : List File} (h : Acceptable files)
    (hnames : (files.map File.shortName).Nodup)
    (hdots : ∀ f ∈ files, f.shortName ≠ [46] ∧ f.shortName ≠ [46, 46]) :
    ∃ σ, Exits .opened files σ ∧ ∀ s dp, Rooted σ s dp → ∀ f ∈ files, ∀ de dst,
      ∃ dst' s', (lookupRead dp f.shortName de dst s).2 =
          .ok (some ((f.content.length : Int), dst'), s') ∧
        ∀ a, a < f.content.length → dst' a = f.content.getD a 0 := by
  obtain ⟨σ, hσ, hmade⟩ := h.exits
  refine ⟨σ, hσ, fun s dp hs f hf de dst => ?_⟩
  obtain ⟨r, s', hrun, dst', rfl, hbytes⟩ := wp_runs
    (hs.lookupRead_file hmade h hnames hdots hf de dst) (fun _ _ => trivial) fun _ => id
  exact ⟨dst', s', hrun, hbytes⟩

/-- A kernel that has opened the root directory, and nothing else. -/
def rootFs (σ : State) : Fs where
  sb := superblockAt σ.blocks
  devsw _ := ⟨none, none⟩
  bitmap := bitAt σ.blocks
  data := σ.blocks
  dinode := inodeAt σ.blocks
  icache ip :=
    if ip.val = 0 then ⟨rootIno, 1, true, inodeAt σ.blocks rootIno⟩
    else ⟨0, 0, false, Dinode.fresh .free⟩

def rootIp : Ip := ⟨0, FileSys.nInode_pos⟩

theorem rootFs_rooted {σ : State} {files : List File} (h : Made files σ) :
    Rooted σ (rootFs σ) rootIp := by
  have hzero : ∀ ip, 0 < ((rootFs σ).icache ip).ref → ip = rootIp := by
    intro ip hip
    by_contra hne
    have hval : ip.val ≠ 0 := fun h0 => hne (Fin.ext h0)
    simp [rootFs, hval] at hip
  have hroot : (inodeAt σ.blocks rootIno).type ≠ .free := h.root_type
  refine ⟨rfl, rfl, rfl, rfl, ⟨fun ip jp hip hjp _ => ?_, fun ip hip _ => ?_, fun ip hip _ => ?_⟩,
    ⟨Int.one_pos, rfl⟩, rfl, ⟨⟨1, by decide⟩, rfl⟩⟩
  · rw [hzero ip hip, hzero jp hjp]
  · rw [hzero ip hip]
    rfl
  · rw [hzero ip hip]
    exact hroot

theorem format_agrees_hiFile : ∃ σ s dp, Exits .opened [hiFile] σ ∧ Rooted σ s dp ∧
    ∃ dst' s', (lookupRead dp [97] zeroes zeroes s).2 = .ok (some (2, dst'), s') ∧
      dst' 0 = 104 ∧ dst' 1 = 105 := by
  obtain ⟨σ, hσ, hread⟩ := format_agrees hiFile_acceptable (by decide) (by decide)
  have hs := rootFs_rooted (hσ.made (by decide))
  obtain ⟨dst', s', hrun, hbytes⟩ := hread _ _ hs hiFile List.mem_cons_self zeroes zeroes
  exact ⟨σ, _, _, hσ, hs, dst', s', hrun, hbytes 0 (by decide), hbytes 1 (by decide)⟩

/-- `_.`, which contains `hi`. -/
def dotFile : File where
  arg := [95, 46]
  nul := by decide
  reads := hiFile.reads

theorem dotFile_acceptable : Acceptable [dotFile] where
  readable f hf := by
    rw [List.mem_singleton] at hf
    subst hf
    exact ⟨by decide, by decide⟩
  inodes := by decide
  small f hf := by
    rw [List.mem_singleton] at hf
    subst hf
    decide
  room := by decide +kernel

/-- Under its name the kernel finds the root directory itself. -/
theorem dotFile_hidden : ∃ σ s dp, Acceptable [dotFile] ∧ ([dotFile].map File.shortName).Nodup ∧
    Exits .opened [dotFile] σ ∧ Rooted σ s dp ∧
      ¬ ∃ dst' s', (lookupRead dp dotFile.shortName zeroes zeroes s).2 =
        .ok (some ((dotFile.content.length : Int), dst'), s') := by
  obtain ⟨σ, hσ, hmade⟩ := dotFile_acceptable.exits
  have hs := rootFs_rooted hmade
  refine ⟨σ, _, _, dotFile_acceptable, by decide, hσ, hs, ?_⟩
  rintro ⟨dst', s', hrun⟩
  have hread := hs.lookupRead hmade (by decide) (j := 0) (by decide) (by simp) (by decide +kernel)
    (by decide +kernel) zeroes zeroes
  obtain ⟨dst'', hsize, -⟩ := wp_of_run hread (fun _ _ => trivial) hrun
  have hlen : ((dotFile.content.length : Nat) : Int) = (sizeAt [dotFile] (entryInum 0) : Nat) :=
    congrArg (fun r => (r.map Prod.fst).getD 0) hsize
  exact absurd hlen (by decide +kernel)

end Cs350.Mkfs
