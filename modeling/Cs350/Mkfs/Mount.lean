import Cs350.Block.Image
import Cs350.Log.Sequence
import Cs350.Mkfs.Meta

set_option autoImplicit false

/-! # The kernel on a new image

What the kernel does when it first sees the image: `iinit` reads the super block, `initlog` looks for
a committed transaction and finds none, and everything that the file system code relies on holds, if
the entries of the root directory do not fill its last block. -/

namespace Cs350.Mkfs

open Block (bsize nDirect maxFile Fs Dinode Sound Regions OnDisk Filled refs wordsOf bytesOf img)
open Block (direntSize held lblock indirectAddr)
open FileSys (IType rootIno)
open Prog

/-! ## The first boot -/

/-- The regions of the image. -/
def regions : Regions := ⟨inodestart, bmapstart⟩

/-- The disk with the image. -/
def disk (σ : State) : Log.Disk := fun b => wordsOf (σ.blocks b)

/-- The block of the log header: `sb.logstart`. -/
def logStart : Nat := 2

/-- What the kernel finds on the disk, with nothing in its inode cache. -/
def mounted (σ : State) : Fs where
  sb := superblockAt σ.blocks
  devsw _ := ⟨none, none⟩
  bitmap := bitAt σ.blocks
  data := σ.blocks
  dinode := nodes σ
  icache _ := ⟨0, 0, false, Dinode.fresh .free⟩

section Mount

variable {σ : State} {files : List File}

theorem img_disk (σ : State) (b : Nat) : Block.SameBytes (σ.blocks b) (img (disk σ) b) :=
  fun _ ha => (Block.bytesOf_wordsOf (σ.blocks b) ha).symm

theorem Made.sb_eq (h : Made files σ) : superblockAt σ.blocks = sb := by
  rw [superblockAt, h.super]
  rfl

theorem Made.onDisk (h : Made files σ) : OnDisk regions (disk σ) (mounted σ) := by
  have hsb : (mounted σ).sb = sb := h.sb_eq
  refine ⟨?_, fun b hb => ?_, fun i hi => ?_, fun b _ a ha => ?_⟩
  · have hsuper : Block.Super regions sb superblock := ⟨rfl, rfl, rfl, rfl, rfl⟩
    rw [hsb]
    exact (h.super ▸ hsuper).congr (img_disk σ 1)
  · have hstart : superblock.load 24 4 = bmapstart := by decide
    rw [← (img_disk σ _).bit (Nat.mod_lt b (by decide))]
    show _ = bitAt σ.blocks b
    rw [bitAt, h.super, hstart]
    rfl
  · have hlt : i < nInodes := by
      rw [hsb] at hi
      exact hi
    rw [← (img_disk σ _).dinode]
    show _ = nodes σ i
    rw [nodes, if_pos hlt, inodeAt_eq h.super]
    rfl
  · exact (img_disk σ b a ha).symm

theorem regions_ordered : regions.Ordered sb (2 + nlog) where
  super := by decide
  inodes := by decide
  inodes_lt i hi := (iblock_bounds hi).2
  map := by decide
  map_lt b hb := by
    have hlt : b < 1000 := hb
    have hstart : sb.dataStart = 59 := rfl
    have hmap : regions.bmapstart = 58 := rfl
    rw [Regions.bblock, hstart, hmap]
    unfold bsize
    omega
  data := by decide

theorem Made.sound (h : Made files σ) (hlen : ¬bsize ∣ (rootBytes files).length) :
    Sound (mounted σ) := by
  have hsb : (mounted σ).sb = sb := h.sb_eq
  have hmap : ∀ b, b < fsSize → (bitAt σ.blocks b = true ↔ usedMap σ.freeblock b = true) := by
    intro b hb
    have hsize : fsSize < bsize * 8 := by decide
    rw [h.bitmap (Nat.lt_trans hb hsize), usedMap, decide_eq_true_eq]
  have hbooks := h.core.books
  refine ⟨⟨?_, fun b hb => ?_⟩, ⟨hbooks.once, fun x b hx => ?_, fun b hb => ?_⟩, fun i htype => ?_,
    ⟨fun ip _ hip => absurd hip (by simp [mounted]), fun ip hip => absurd hip (by simp [mounted]),
      fun ip hip => absurd hip (by simp [mounted])⟩⟩
  · rw [hsb]
    decide
  · rw [hsb] at hb
    have hstart : sb.dataStart = nmeta := rfl
    have hmeta : nmeta < fsSize := by decide
    have hlo := h.core.bounds.1
    exact (h.bitmap (by unfold bsize; unfold fsSize at hmeta; omega)).2 (by omega)
  · rw [hsb]
    exact hbooks.within x b hx
  · rw [hsb] at hb
    exact (hmap b (isData_iff.1 hb).2).trans (hbooks.covered b hb)
  · have hblocks : Block.nblocks (nodes σ i).size = counts (contentOf files) i := by
      rw [h.size i htype, sizeAt, counts]
      split_ifs with hi
      · rw [hi, contentOf_root, nblocks_fixedSize, if_neg hlen]
      · rfl
    show Filled (nodes σ i) σ.blocks (Block.nblocks (nodes σ i).size)
    rw [hblocks]
    exact h.filled htype

/-- The last block of the root directory is missing. -/
theorem Made.not_sound (h : Made files σ) (hlen : bsize ∣ (rootBytes files).length) :
    ¬ Sound (mounted σ) := by
  intro hs
  have hfilled := (hs.filled rootIno h.root_type).block (Block.nblocks (rootBytes files).length)
  have hmap := h.core.mapped rootIno h.root_type (Block.nblocks (rootBytes files).length)
  change lblock (nodes σ rootIno) σ.blocks _ ≠ 0 ↔ _ < Block.nblocks (nodes σ rootIno).size at hfilled
  rw [h.root_size, nblocks_fixedSize, if_pos hlen, hmap, counts, contentOf_root] at hfilled
  omega

/-- `recover_from_log` finds no transaction, and the header that it writes is the one it has read. -/
theorem Neat.recovers (h : Neat σ) : Log.completeRecovery logStart (disk σ) = some (disk σ) := by
  have hblock : σ.blocks logStart = zeroes := h.log logStart (Nat.le_refl 2) (by decide)
  have hzero : disk σ logStart 0 = 0 := by
    rw [disk, hblock]
    rfl
  have hput : Log.LogHeader.empty.put (disk σ logStart) = disk σ logStart := by
    funext i
    rw [Log.LogHeader.put]
    split_ifs with hi
    · rw [hi, hzero]
      rfl
    · rfl
  have hrecover : Log.recoverFromLog logStart (Log.Io.boot (disk σ)) =
      some (Log.writeHead logStart .empty (Log.Io.boot (disk σ))) := by
    rw [Log.recoverFromLog, Log.readHead, Log.Io.boot, Log.LogHeader.get_of_zero hzero]
    rfl
  rw [Log.completeRecovery, hrecover, Option.map_some]
  congr 1
  show Function.update (disk σ) logStart (Log.LogHeader.empty.put (disk σ logStart)) = disk σ
  rw [hput, Function.update_eq_self]

/-- What `initlog` takes from the super block. -/
theorem Made.log (h : Made files σ) :
    (img (disk σ) 1).load 16 4 = logStart ∧ (img (disk σ) 1).load 12 4 = nlog := by
  rw [← (img_disk σ 1).load (by decide), ← (img_disk σ 1).load (by decide), h.super]
  exact ⟨by decide, by decide⟩

/-- Inode `k + 2` is that of the `k`-th file. -/
theorem Made.contents_file (h : Made files σ) {k : Nat} {f : File} (hf : files[k]? = some f) :
    ((mounted σ).dinode (k + 2)).type = .file ∧ (mounted σ).contents (k + 2) = f.content := by
  have hroot : rootIno = 1 := rfl
  have hfree := h.freeinode
  obtain ⟨-, -, hcontent, hsize⟩ := contentOf_file hf
  obtain ⟨hlt, -⟩ := List.getElem?_eq_some_iff.1 hf
  have htype : (nodes σ (k + 2)).type = .file := by
    rw [h.type, typeAt, if_neg (by omega), if_neg (by omega)]
  have hne : (nodes σ (k + 2)).type ≠ .free := by
    rw [htype]
    decide
  have hlen : (nodes σ (k + 2)).size = f.content.length := (h.size _ hne).trans hsize
  refine ⟨htype, List.ext_getElem (by rw [Fs.contents, Block.length_contents]; exact hlen) fun x _ hx => ?_⟩
  have hblock : x / bsize < counts (contentOf files) (k + 2) := by
    rw [counts, hcontent]
    unfold Block.nblocks bsize
    omega
  have hbyte := h.core.bytes _ hne _ hblock (x % bsize) (Nat.mod_lt x (by decide))
  rw [Nat.div_add_mod', hcontent] at hbyte
  simp only [Fs.contents, Dinode.contents, List.getElem_map, List.getElem_range]
  show Dinode.byteAt (nodes σ (k + 2)) σ.blocks x = _
  rw [Dinode.byteAt, hbyte]
  simp [hx]

end Mount

/-- **The first boot.** On an image that `mkfs` has finished, `recover_from_log` finds the log empty
    and changes nothing, the bytes are those of the state with the super block that `iinit` reads,
    with every file under its inode number, and the state is one that the file system code expects
    exactly if the entries of the root directory do not fill its last block. -/
theorem first_boot {image : ImageArg} {files : List File} {σ : State} (h : Exits image files σ)
    (hn : files.length + 2 ≤ nInodes) :
    Log.completeRecovery logStart (disk σ) = some (disk σ) ∧
      (img (disk σ) 1).load 16 4 = logStart ∧ (img (disk σ) 1).load 12 4 = nlog ∧
      superblockAt (img (disk σ)) = sb ∧ regions.Ordered sb (logStart + nlog) ∧
      OnDisk regions (disk σ) (mounted σ) ∧
      (∀ k f, files[k]? = some f →
        ((mounted σ).dinode (k + 2)).type = .file ∧ (mounted σ).contents (k + 2) = f.content) ∧
      (Sound (mounted σ) ↔ ¬ bsize ∣ (files.length + 2) * direntSize) := by
  have hmade := h.made hn
  refine ⟨(h.neat hn).recovers, hmade.log.1, hmade.log.2, ?_, regions_ordered, hmade.onDisk,
    fun k f hf => hmade.contents_file hf, fun hs hlen => ?_, fun hlen => ?_⟩
  · exact hmade.onDisk.reads.1.trans hmade.sb_eq
  · exact hmade.not_sound (by rwa [rootBytes_length]) hs
  · exact hmade.sound (by rwa [rootBytes_length])

theorem first_boot_hiFile : ∃ σ, Exits .opened [hiFile] σ ∧ OnDisk regions (disk σ) (mounted σ) ∧
    Sound (mounted σ) ∧ (mounted σ).contents 2 = [104, 105] := by
  obtain ⟨σ, h, -⟩ := hiFile_acceptable.exits
  obtain ⟨-, -, -, -, -, hdisk, hfiles, hsound⟩ := first_boot h (by decide)
  exact ⟨σ, h, hdisk, hsound.2 (by decide), (hfiles 0 hiFile rfl).2⟩

end Cs350.Mkfs
