import Cs350.Mkfs.Files
import Cs350.Block.Run

set_option autoImplicit false

/-! # When the image is a consistent file system

Two things can go wrong. `freeinode` grows past the inodes that there are, and the size of the root
directory is raised by a whole block when its entries end with one: the directory then has a block
less than its size says. -/

namespace Cs350.Mkfs

open Block (bsize nDirect maxFile direntSize Dinode indirectAddr lblock refs Filled direntInum)
open FileSys (rootIno)
open Prog

/-! ## The free map -/

section Bitmap

theorem or_bit (c : UInt8) {i j : Nat} (hi : i < 8) :
    (c ||| UInt8.ofNat (1 <<< i)).toNat.testBit j = (c.toNat.testBit j || decide (i = j)) := by
  have hlt : 1 <<< i < 2 ^ 8 := by
    rw [Nat.one_shiftLeft]
    exact Nat.pow_lt_pow_right (by decide) hi
  rw [UInt8.toNat_or, UInt8.toNat_ofNat', Nat.mod_eq_of_lt hlt, Nat.testBit_or, Nat.one_shiftLeft,
    Nat.testBit_two_pow]

/-- `balloc` sets the bits of the blocks that are in use and no others. -/
theorem bit_bitmap (used b : Nat) : bit (bitmap used) b = decide (b < used) := by
  induction used with
  | zero => simp [bit, bitmap, zeroes]
  | succ n ih =>
      have hfold : bitmap (n + 1) = Function.update (bitmap n) (n / 8)
          (bitmap n (n / 8) ||| UInt8.ofNat (1 <<< (n % 8))) := by
        simp [bitmap, List.range_succ]
      rw [bit] at ih ⊢
      rw [hfold]
      by_cases hb : b / 8 = n / 8
      · have hiff : n % 8 = b % 8 ↔ b = n := by omega
        rw [hb, Function.update_self, or_bit _ (by omega), ← hb, ih]
        by_cases hbn : b = n
        · simp [hbn]
        · have hlt : b < n ↔ b < n + 1 := by omega
          simp [hiff, hbn, hlt]
      · have hlt : b < n ↔ b < n + 1 := by omega
        rw [Function.update_of_ne hb, ih]
        simp [hlt]

end Bitmap

/-! ## Consistency -/

/-- Entry `j` of the root directory. -/
def rootEntry (σ : State) (j : Nat) : Mem := fun a =>
  (nodes σ rootIno).byteAt σ.blocks (j * direntSize + a)

structure Consistent (σ : State) : Prop where
  /-- inode numbers that have been used -/
  inums : ∀ i, 1 ≤ i → i < σ.freeinode → i < nInodes
  /-- the logical blocks of an inode below its size are there, and no address is set besides -/
  filled : ∀ i, Filled (nodes σ i) σ.blocks (Block.nblocks (nodes σ i).size)
  once : ∀ x y b, refs (nodes σ) σ.blocks x = some b → refs (nodes σ) σ.blocks y = some b → x = y
  area : ∀ x b, refs (nodes σ) σ.blocks x = some b → nmeta ≤ b ∧ b < fsSize
  bitmap : ∀ b, b < bsize * 8 → (bitAt σ.blocks b = true ↔ b < σ.freeblock)
  entries : ∀ j, j * direntSize < (nodes σ rootIno).size → direntInum (rootEntry σ j) ≠ 0 →
    (nodes σ (direntInum (rootEntry σ j))).type ≠ .free

/-! ## The entries of the root directory -/

section Entries

variable {σ : State} {files : List File} {j a : Nat}

/-- The inode number of entry `j`. -/
def entryInum (j : Nat) : Nat := if j < 2 then rootIno else j

/-- The name in entry `j`. -/
def entryName (files : List File) (j : Nat) : List UInt8 :=
  if j = 0 then [46] else if j = 1 then [46, 46] else ((files[j - 2]?).map File.name).getD []

theorem rootBytes_entry (hj : j < files.length + 2) (ha : a < direntSize) :
    (rootBytes files).getD (j * direntSize + a) 0 =
      (dirent (entryInum j) (entryName files j)).getD a 0 := by
  induction files using List.reverseRecOn with
  | nil =>
      rcases (by simp at hj; omega : j = 0 ∨ j = 1) with rfl | rfl
      · revert a
        decide
      · revert a
        decide
  | append_singleton files f ih =>
      rw [rootBytes_snoc]
      rcases Nat.lt_or_ge j (files.length + 2) with hlt | hge
      · have hbound : j * direntSize + a < (rootBytes files).length := by
          rw [rootBytes_length]
          unfold direntSize at *
          omega
        have hname : entryName (files ++ [f]) j = entryName files j := by
          unfold entryName
          split_ifs with h0 h1
          · rfl
          · rfl
          · rw [List.getElem?_append_left (by omega)]
        rw [getD_append_left _ _ hbound, ih hlt, hname]
      · rw [List.length_append, List.length_singleton] at hj
        have hj' : j = files.length + 2 := by omega
        have hname : entryName (files ++ [f]) j = f.name := by
          rw [entryName, if_neg (by omega), if_neg (by omega), hj']
          simp
        have hinum : entryInum j = files.length + 2 := by
          rw [entryInum, if_neg (by omega), hj']
        have hoff : j * direntSize + a - (rootBytes files).length = a := by
          rw [rootBytes_length, hj']
          omega
        rw [hname, hinum, List.getD_eq_getElem?_getD, List.getElem?_append_right, hoff,
          ← List.getD_eq_getElem?_getD]
        rw [rootBytes_length, hj']
        omega

theorem direntInum_dirent {m : Mem} {inum : Nat} {name : List UInt8}
    (h : ∀ a, a < direntSize → m a = (dirent inum name).getD a 0) (hinum : inum < 2 ^ 16) :
    direntInum m = inum := by
  have h0 : (m 0).toNat = inum % 256 := by
    rw [h 0 (by decide)]
    exact UInt8.toNat_ofNat'
  have h1 : (m 1).toNat = inum / 256 % 256 := by
    have hshift : inum >>> 8 = inum / 256 := Nat.shiftRight_eq_div_pow ..
    rw [h 1 (by decide)]
    show (UInt8.ofNat (inum >>> 8)).toNat = _
    rw [hshift]
    exact UInt8.toNat_ofNat'
  rw [direntInum, Mem.load, Mem.load, Mem.load, h0, h1]
  omega

/-- The bytes of the root directory. -/
theorem Made.rootEntry_apply (h : Made files σ) (hj : j * direntSize / bsize <
      Block.nblocks (rootBytes files).length) (ha : a < direntSize) :
    rootEntry σ j a = (rootBytes files).getD (j * direntSize + a) 0 := by
  have hfree := h.freeinode
  have htype : (nodes σ rootIno).type ≠ .free := by
    have hroot : rootIno = 1 := rfl
    rw [h.type, typeAt_ne]
    omega
  have hdiv : (j * direntSize + a) / bsize = j * direntSize / bsize := by
    unfold direntSize bsize at *
    omega
  have hk : (j * direntSize + a) / bsize < counts (contentOf files) rootIno := by
    rw [hdiv, counts, contentOf_root]
    exact hj
  rw [rootEntry, Dinode.byteAt, h.core.bytes _ htype _ hk _ (Nat.mod_lt _ (by decide)), contentOf_root,
    Nat.div_add_mod']

/-- The entries of the root directory name allocated inodes. -/
theorem Made.entry (h : Made files σ) (hn : files.length + 2 ≤ nInodes)
    (hj : j * direntSize / bsize < Block.nblocks (rootBytes files).length) :
    direntInum (rootEntry σ j) = if j < files.length + 2 then entryInum j else 0 := by
  split_ifs with hlt
  · refine direntInum_dirent (fun a ha => (h.rootEntry_apply hj ha).trans (rootBytes_entry hlt ha)) ?_
    have hroot : rootIno = 1 := rfl
    unfold nInodes at hn
    unfold entryInum
    split_ifs <;> omega
  · have hzero : ∀ a, a < direntSize → rootEntry σ j a = 0 := by
      intro a ha
      rw [h.rootEntry_apply hj ha, getD_of_length_le]
      rw [rootBytes_length]
      unfold direntSize
      omega
    rw [direntInum, Mem.load, Mem.load, Mem.load, hzero 0 (by decide), hzero 1 (by decide)]
    rfl

end Entries

/-! ## Few files -/

section Few

variable {σ : State} {files : List File}

/-- The blocks of inode `i`. -/
theorem Made.filled (h : Made files σ) {i : Nat} (htype : (nodes σ i).type ≠ .free) :
    Filled (nodes σ i) σ.blocks (counts (contentOf files) i) where
  block := h.core.mapped i htype
  indirect := h.indirect i htype

/-- The size of the root directory is right unless its entries fill whole blocks. -/
theorem nblocks_fixedSize (n : Nat) :
    Block.nblocks (fixedSize n) = if bsize ∣ n then Block.nblocks n + 1 else Block.nblocks n := by
  unfold Block.nblocks fixedSize bsize
  split_ifs <;> omega

theorem Made.root_type (h : Made files σ) : (nodes σ rootIno).type ≠ .free := by
  have hfree := h.freeinode
  have hroot : rootIno = 1 := rfl
  rw [h.type, typeAt_ne]
  omega

theorem Made.root_size (h : Made files σ) :
    (nodes σ rootIno).size = fixedSize (rootBytes files).length := by
  rw [h.size _ h.root_type, sizeAt, if_pos rfl, contentOf_root]

theorem Made.bitmap (h : Made files σ) {b : Nat} (hb : b < bsize * 8) :
    bitAt σ.blocks b = true ↔ b < σ.freeblock := by
  have hstart : superblock.load 24 4 = bmapstart := by decide
  rw [bitAt, h.super, hstart, Nat.div_eq_of_lt hb, Nat.mod_eq_of_lt hb, Nat.zero_add, h.map,
    bit_bitmap, decide_eq_true_eq]

theorem Made.consistent (h : Made files σ) (hn : files.length + 2 ≤ nInodes)
    (hlen : ¬ bsize ∣ (rootBytes files).length) : Consistent σ := by
  have hfree := h.freeinode
  refine ⟨fun i _ hi => by omega, fun i => ?_, h.core.books.once,
    fun x b hx => isData_iff.1 (h.core.books.within x b hx), fun b hb => h.bitmap hb,
    fun j hj hne => ?_⟩
  · by_cases htype : (nodes σ i).type = .free
    · rw [h.free i htype]
      have hheld := Block.held_fresh .free σ.blocks
      have hsize : Block.nblocks (Dinode.fresh .free).size = 0 := by decide
      rw [hsize]
      refine ⟨fun k => ?_, ?_⟩
      · have hk : lblock (Dinode.fresh .free) σ.blocks k = 0 := hheld (.block k)
        simp [hk]
      · simp [Dinode.fresh]
    · have hblocks : Block.nblocks (nodes σ i).size = counts (contentOf files) i := by
        rw [h.size i htype, sizeAt, counts]
        split_ifs with hi
        · rw [hi, contentOf_root, nblocks_fixedSize, if_neg hlen]
        · rfl
      rw [hblocks]
      exact h.filled htype
  · have hk : j * direntSize / bsize < Block.nblocks (rootBytes files).length := by
      rw [h.root_size] at hj
      have hfixed := nblocks_fixedSize (rootBytes files).length
      rw [if_neg hlen] at hfixed
      rw [← hfixed]
      unfold fixedSize Block.nblocks bsize at *
      omega
    rw [h.entry hn hk] at hne ⊢
    have hroot : rootIno = 1 := rfl
    rw [h.type, typeAt_ne, hfree]
    unfold entryInum at *
    split_ifs at hne ⊢ <;> omega

/-- The last block that the size of the root directory asks for is not there. -/
theorem Made.not_consistent (h : Made files σ) (hlen : bsize ∣ (rootBytes files).length) :
    ¬ Consistent σ := by
  intro hc
  have hfilled := (hc.filled rootIno).block (Block.nblocks (rootBytes files).length)
  have hmap := h.core.mapped rootIno h.root_type (Block.nblocks (rootBytes files).length)
  rw [h.root_size, nblocks_fixedSize, if_pos hlen, hmap, counts, contentOf_root] at hfilled
  omega

end Few

/-! ## Many files -/

/-- `m` does not allocate inodes. -/
def Keeps {α : Type} (m : MkM α) : Prop :=
  ∀ s, Ensures False m s fun _ s' => s'.freeinode = s.freeinode

section Keeps

variable {α β : Type} {m : MkM α} {f : α → MkM β} {s σ : State} {files : List File}
  {image : ImageArg}

theorem Keeps.pure (a : α) : Keeps (pure a : MkM α) := fun _ => wp_pure rfl

theorem Keeps.stop (e : Exit) : Keeps (stop e : MkM α) := fun _ => wp_stop id

theorem Keeps.modify {g : State → State} (h : ∀ s, (g s).freeinode = s.freeinode) :
    Keeps (modify g) := fun s => wp_modify (h s)

theorem Keeps.get_bind {f : State → MkM β} (h : ∀ s, Keeps (f s)) : Keeps (get >>= f) :=
  fun s => wp_get_bind (h s s)

theorem Keeps.bind (hm : Keeps m) (hf : ∀ a, Keeps (f a)) : Keeps (m >>= f) := fun s =>
  wp_bind (hm s) fun a s' hs' => wp_mono (hf a s') fun _ _ hs'' => hs''.trans hs'

theorem Keeps.ite {c : Prop} [Decidable c] {m' : MkM α} (hm : Keeps m) (hm' : Keeps m') :
    Keeps (if c then m else m') := fun s => wp_ite (fun _ => hm s) fun _ => hm' s

theorem Keeps.each {ι : Type} {g : ι → MkM Unit} (h : ∀ i, Keeps (g i)) (is : List ι) :
    Keeps (each g is) := by
  induction is with
  | nil => exact Keeps.pure ()
  | cons i is ih => exact Keeps.bind (h i) fun _ => ih

theorem wsect_keeps (sec : Nat) (buf : Mem) : Keeps (wsect sec buf) := Keeps.modify fun _ => rfl

theorem rsect_keeps (sec : Nat) : Keeps (rsect sec) :=
  Keeps.get_bind fun _ => Keeps.ite (Keeps.pure _) (Keeps.stop _)

theorem winode_keeps (inum : Nat) (din : Mem) : Keeps (winode inum din) :=
  Keeps.bind (rsect_keeps _) fun _ => wsect_keeps _ _

theorem rinode_keeps (inum : Nat) : Keeps (rinode inum) :=
  Keeps.bind (rsect_keeps _) fun _ => Keeps.pure _

theorem takeBlock_keeps : Keeps takeBlock :=
  Keeps.get_bind fun _ => Keeps.bind (Keeps.modify fun _ => rfl) fun _ => Keeps.pure _

theorem fillAddr_keeps (din : Mem) (k : Nat) : Keeps (fillAddr din k) :=
  Keeps.ite (Keeps.bind takeBlock_keeps fun _ => Keeps.pure _) (Keeps.pure _)

theorem fileBlock_keeps (din : Mem) (fbn : Nat) : Keeps (fileBlock din fbn) := by
  refine Keeps.ite (Keeps.bind (fillAddr_keeps _ _) fun _ => Keeps.pure _)
    (Keeps.bind (fillAddr_keeps _ _) fun _ => Keeps.bind (rsect_keeps _) fun _ => Keeps.ite ?_
      (Keeps.pure _))
  exact Keeps.bind takeBlock_keeps fun _ => Keeps.bind (wsect_keeps _ _) fun _ => Keeps.pure _

theorem iappendLoop_keeps (fuel : Nat) (p : List UInt8) (din : Mem) (off : Nat) :
    Keeps (iappendLoop fuel p din off) := by
  induction fuel generalizing p din off with
  | zero => exact Keeps.pure _
  | succ fuel ih =>
      refine Keeps.ite (Keeps.ite ?_ (Keeps.stop _)) (Keeps.pure _)
      exact Keeps.bind (fileBlock_keeps _ _) fun _ => Keeps.bind (rsect_keeps _) fun _ =>
        Keeps.bind (wsect_keeps _ _) fun _ => ih _ _ _

theorem iappend_keeps (inum : Nat) (p : List UInt8) : Keeps (iappend inum p) :=
  Keeps.bind (rinode_keeps _) fun _ => Keeps.bind (iappendLoop_keeps _ _ _ _) fun _ =>
    winode_keeps _ _

theorem ialloc_freeinode (type : Nat) :
    Ensures False (ialloc type) s fun _ s' => s'.freeinode = s.freeinode + 1 := by
  apply wp_get_bind
  apply wp_modify_bind
  exact wp_bind (winode_keeps _ _ _) fun _ _ hs' => wp_pure hs'

theorem addFile_freeinode (rootino : Nat) (f : File) :
    Ensures False (addFile rootino f) s fun _ s' => s'.freeinode = s.freeinode + 1 := by
  apply wp_ite
  · exact fun _ => wp_stop id
  · intro _
    cases f.reads with
    | none => exact wp_stop id
    | some reads =>
        apply wp_bind (ialloc_freeinode tFile)
        intro inum s₁ h₁
        have hkeeps := Keeps.bind (iappend_keeps rootino (dirent inum f.name)) fun _ =>
          Keeps.each (fun c : Chunk => iappend_keeps inum c.bytes) reads
        exact wp_mono (hkeeps s₁) fun _ _ h₂ => h₂.trans h₁

/-- Every file has an inode number of its own, whether there is an inode with it or not. -/
theorem Exits.freeinode (h : Exits image files σ) : σ.freeinode = files.length + 2 := by
  have hmain : Ensures False (main image files) start fun _ σ => σ.freeinode = files.length + 2 := by
    cases image with
    | missing => exact wp_stop id
    | unopened => exact wp_stop id
    | opened =>
        apply wp_modify_bind
        apply wp_bind (Keeps.each (fun i => wsect_keeps i zeroes) _ _)
        intro _ s₁ h₁
        apply wp_bind (wsect_keeps _ _ _)
        intro _ s₂ h₂
        apply wp_bind (ialloc_freeinode tDir)
        intro rootino s₃ h₃
        apply wp_ite
        · intro _
          apply wp_bind (iappend_keeps _ _ _)
          intro _ s₄ h₄
          apply wp_bind (iappend_keeps _ _ _)
          intro _ s₅ h₅
          have hstart : s₅.freeinode = 2 := by
            rw [h₅, h₄, h₃, h₂, h₁]
            rfl
          apply wp_bind (wp_each (I := fun rest s => s.freeinode + rest.length = files.length + 2) ?_
            files (by rw [hstart, Nat.add_comm]))
          · intro _ s₆ h₆
            have hkeeps := Keeps.bind (m := fixRoot rootino) (f := fun _ => get >>= fun s =>
              balloc s.freeblock) (Keeps.bind (rinode_keeps _) fun _ => winode_keeps _ _)
              fun _ => Keeps.get_bind fun _ => Keeps.ite (wsect_keeps _ _) (Keeps.stop _)
            exact wp_mono (hkeeps s₆) fun _ _ h₇ => h₇.trans h₆
          · intro f rest s hs
            refine wp_mono (addFile_freeinode _ f) fun _ s' hs' => ?_
            rw [List.length_cons] at hs
            omega
        · exact fun _ => wp_stop id
  have hfree := wp_of_run hmain (fun _ _ => trivial) h
  exact hfree

end Keeps

/-! ## The image -/

/-- The image is consistent exactly if there are inodes for the files and the entries of the root
    directory do not fill its last block. -/
theorem image_consistent_iff {image : ImageArg} {files : List File} {σ : State}
    (h : Exits image files σ) :
    Consistent σ ↔ files.length + 2 ≤ nInodes ∧ ¬ bsize ∣ (files.length + 2) * direntSize := by
  constructor
  · intro hc
    have hn : files.length + 2 ≤ nInodes := by
      have hlast := hc.inums (files.length + 1) (by omega) (by rw [h.freeinode]; omega)
      omega
    refine ⟨hn, fun hlen => ?_⟩
    rw [← rootBytes_length] at hlen
    exact (h.made hn).not_consistent hlen hc
  · rintro ⟨hn, hlen⟩
    rw [← rootBytes_length] at hlen
    exact (h.made hn).consistent hn hlen

/-- `_a`, which contains `hi`. -/
def hiFile : File where
  arg := [95, 97]
  nul := by decide
  reads := some [⟨[104, 105], by decide, by decide⟩]

theorem hiFile_acceptable : Acceptable [hiFile] where
  readable f hf := by
    rw [List.mem_singleton] at hf
    subst hf
    exact ⟨by decide, by decide⟩
  inodes := by decide
  small f hf := by
    rw [List.mem_singleton] at hf
    subst hf
    decide
  room := by decide +kernel

theorem image_consistent_iff_hiFile : ∃ σ, Exits .opened [hiFile] σ ∧ Consistent σ := by
  obtain ⟨σ, h, -⟩ := hiFile_acceptable.exits
  exact ⟨σ, h, (image_consistent_iff h).2 ⟨by decide, by decide⟩⟩

/-- 30 empty files, `a` and so on. -/
def thirtyFiles : List File := (List.finRange 30).map fun i : Fin 30 =>
  { arg := [UInt8.ofNat (97 + i)], nul := by revert i; decide, reads := some [] }

theorem thirtyFiles_acceptable : Acceptable thirtyFiles where
  readable f hf := by
    obtain ⟨i, -, rfl⟩ := List.mem_map.1 hf
    have hslash : ∀ i : Fin 30, (47 : UInt8) ∉ [UInt8.ofNat (97 + i)] := by decide
    exact ⟨hslash i, by simp⟩
  inodes := by decide
  small f hf := by
    obtain ⟨i, -, rfl⟩ := List.mem_map.1 hf
    exact Nat.zero_le _
  room := by decide +kernel

/-- The entries fill the block of the root directory, which then has a size of two blocks. -/
theorem thirtyFiles_inconsistent : ∃ σ, Exits .opened thirtyFiles σ ∧ ¬ Consistent σ := by
  obtain ⟨σ, h, hmade⟩ := thirtyFiles_acceptable.exits
  refine ⟨σ, h, hmade.not_consistent ?_⟩
  rw [rootBytes_length]
  decide

end Cs350.Mkfs
