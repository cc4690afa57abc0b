import Cs350.Mkfs.Defs
import Cs350.Block.Bytes

set_option autoImplicit false

/-! # The disk format as the kernel reads it

`ilock` copies the fields of a `struct dinode` out of its block, `readsb` those of the super block,
and `balloc` looks at the bits of the free map. What `mkfs` does to a `struct dinode` and to the
blocks of inodes is what these functions make of it. -/

namespace Cs350.Mkfs

open Block (bsize nDirect maxFile Dinode indirectAddr lblock memmove)
open FileSys (IType)

/-! ## Reading the disk -/

/-- `short`, of two bytes -/
def short (v : Nat) : Int := if v < 2 ^ 15 then v else v - 2 ^ 16

/-- `ip->type = dip->type`. The kernel treats an inode of any other type as it does a file; `mkfs`
    writes no other. -/
def typeOf (v : Nat) : IType :=
  match v with
  | 0 => .free
  | 1 => .dir
  | 2 => .file
  | 3 => .dev
  | _ => .file

/-- What `ilock` makes of the bytes of a `struct dinode`. -/
def dinode (dip : Mem) : Dinode where
  type := typeOf (dip.load 0 2)
  major := short (dip.load 2 2)
  minor := short (dip.load 4 2)
  nlink := short (dip.load 6 2)
  size := dip.load 8 4
  addrs k := dip.load (12 + 4 * k) 4

/-- `(struct dinode*)bp->data + inum%IPB` -/
def dip (block : Mem) (inum : Nat) : Mem := fun a => block (inum % ipb * dinodeSize + a)

/-- The inode with number `inum` on a disk. -/
def inodeAt (blocks : Nat → Mem) (inum : Nat) : Dinode :=
  dinode (dip (blocks (inum / ipb + (blocks 1).load 20 4)) inum)

/-- `bp->data[bi/8] & (1 << (bi % 8))` -/
def bit (block : Mem) (bi : Nat) : Bool := (block (bi / 8)).toNat.testBit (bi % 8)

/-- The bit of a block in the free map of a disk. -/
def bitAt (blocks : Nat → Mem) (b : Nat) : Bool :=
  bit (blocks (b / (bsize * 8) + (blocks 1).load 24 4)) (b % (bsize * 8))

/-- The fields of the super block of a disk. -/
def superblockAt (blocks : Nat → Mem) : Block.Superblock where
  size := UInt32.ofNat ((blocks 1).load 0 4)
  nblocks := UInt32.ofNat ((blocks 1).load 4 4)
  ninodes := UInt32.ofNat ((blocks 1).load 8 4)

/-! ## What `mkfs` writes, as the kernel reads it -/

section Dinode

variable {din din' : Mem} {b : Nat}

/-- The bytes of a `struct dinode`. -/
def SameDinode (din din' : Mem) : Prop := ∀ a, a < dinodeSize → din a = din' a

theorem SameDinode.load (h : SameDinode din din') {a w : Nat} (hle : a + w ≤ dinodeSize) :
    din.load a w = din'.load a w :=
  Mem.load_congr fun i hi => h (a + i) (by omega)

theorem dinode_congr (h : SameDinode din din') : dinode din = dinode din' := by
  have haddrs : ∀ k : Fin (nDirect + 1), din.load (12 + 4 * k) 4 = din'.load (12 + 4 * k) 4 := by
    intro k
    have hk : (k : Nat) < 13 := k.isLt
    exact h.load (by simp only [dinodeSize]; omega)
  simp only [dinode, Dinode.mk.injEq]
  refine ⟨?_, ?_, ?_, ?_, ?_, funext haddrs⟩ <;>
  · rw [h.load (by simp only [dinodeSize]; omega)]

theorem dinode_indirect : (dinode din).addrs indirectAddr = addr din nDirect := rfl

theorem dinode_setAddr (din : Mem) (k : Fin (nDirect + 1)) (hb : b < 2 ^ 32) :
    dinode (setAddr din k b) = (dinode din).setAddr k b := by
  have hk : (k : Nat) < 13 := k.isLt
  have hother : ∀ a w, a + w ≤ 12 → (setAddr din k b).load a w = din.load a w := fun a w hle =>
    Mem.load_store_of_disjoint _ _ _ _ _ _ (by omega)
  simp only [dinode, Dinode.setAddr, Dinode.mk.injEq]
  refine ⟨?_, ?_, ?_, ?_, ?_, funext fun l => ?_⟩
  · rw [hother _ _ (by omega)]
  · rw [hother _ _ (by omega)]
  · rw [hother _ _ (by omega)]
  · rw [hother _ _ (by omega)]
  · rw [hother _ _ (by omega)]
  · by_cases hlk : l = k
    · subst hlk
      rw [Function.update_self]
      exact (Mem.load_store _ _ _ _).trans (Nat.mod_eq_of_lt hb)
    · rw [Function.update_of_ne hlk]
      have hne : (l : Nat) ≠ k := fun h => hlk (Fin.ext h)
      exact Mem.load_store_of_disjoint _ _ _ _ _ _ (by omega)

theorem dinode_setSize {n : Nat} (hn : n < 2 ^ 32) :
    dinode (setSize din n) = { dinode din with size := n } := by
  have hbelow : ∀ a w, a + w ≤ 8 → (setSize din n).load a w = din.load a w := fun a w hle =>
    Mem.load_store_of_disjoint _ _ _ _ _ _ (by omega)
  simp only [dinode, Dinode.mk.injEq]
  refine ⟨?_, ?_, ?_, ?_, ?_, funext fun k => ?_⟩
  · rw [hbelow _ _ (by omega)]
  · rw [hbelow _ _ (by omega)]
  · rw [hbelow _ _ (by omega)]
  · rw [hbelow _ _ (by omega)]
  · exact (Mem.load_store _ _ _ _).trans (Nat.mod_eq_of_lt hn)
  · exact Mem.load_store_of_disjoint _ _ _ _ _ _ (by omega)

theorem load_zeroes (a w : Nat) : zeroes.load a w = 0 := by
  induction w generalizing a with
  | zero => rfl
  | succ w ih =>
      rw [Mem.load, ih]
      rfl

/-- An inode without blocks. -/
theorem dinode_newDinode (type : Nat) (htype : type < 2 ^ 16) :
    dinode (newDinode type) =
      { type := typeOf type, major := 0, minor := 0, nlink := 1, size := 0, addrs := fun _ => 0 } := by
  have hrest : ∀ a w, 12 ≤ a → (newDinode type).load a w = 0 := by
    intro a w ha
    rw [newDinode, Mem.load_store_of_disjoint _ _ _ _ _ _ (by omega),
      Mem.load_store_of_disjoint _ _ _ _ _ _ (by omega),
      Mem.load_store_of_disjoint _ _ _ _ _ _ (by omega), load_zeroes]
  have hmid : ∀ a, 2 ≤ a → a + 2 ≤ 6 → (newDinode type).load a 2 = 0 := by
    intro a hlo hhi
    rw [newDinode, Mem.load_store_of_disjoint _ _ _ _ _ _ (by omega),
      Mem.load_store_of_disjoint _ _ _ _ _ _ (by omega),
      Mem.load_store_of_disjoint _ _ _ _ _ _ (by omega), load_zeroes]
  simp only [dinode, Dinode.mk.injEq]
  refine ⟨?_, ?_, ?_, ?_, ?_, funext fun k => hrest _ _ (by omega)⟩
  · rw [newDinode, Mem.load_store_of_disjoint _ _ _ _ _ _ (by omega),
      Mem.load_store_of_disjoint _ _ _ _ _ _ (by omega), Mem.load_store]
    exact congrArg typeOf (Nat.mod_eq_of_lt htype)
  · rw [hmid 2 (by omega) (by omega)]
    rfl
  · rw [hmid 4 (by omega) (by omega)]
    rfl
  · rw [newDinode, Mem.load_store_of_disjoint _ _ _ _ _ _ (by omega), Mem.load_store]
    rfl
  · exact Mem.load_store ((zeroes.store 0 2 type).store 6 2 1) 8 4 0

/-- The bytes of an inode that is not allocated. -/
theorem dinode_zeroes : dinode zeroes = Dinode.fresh .free := by
  simp only [dinode, load_zeroes, Dinode.fresh]
  rfl

end Dinode

end Cs350.Mkfs
