import Cs350.Block.Quota
import Cs350.Mkfs.Consistent
import Mathlib.Algebra.Group.Int.Defs

set_option autoImplicit false

/-! # The file system on the disk

The super block, the inodes, the free map and the data are bytes of blocks, and the log moves whole
blocks. `OnDisk r d s` says what the bytes of the disk `d` have to be for the state `s`. What `balloc`,
`bfree` and `iupdate` do to the bytes of one block is the change of one bit, or of one inode, of the
state. -/

namespace Cs350.Block

open FileSys (IType Ip)
open Mkfs (short typeOf dip bit bitAt inodeAt superblockAt)

/-! ## Bytes and words -/

/-- The bytes of a block. -/
def bytesOf (b : Log.Block) : Mem := fun a =>
  UInt8.ofNat ((b ⟨a / 4 % 128, Nat.mod_lt _ (Nat.succ_pos 127)⟩ % 2 ^ 32).toNat / 256 ^ (a % 4))

/-- The block with the given bytes. -/
def wordsOf (m : Mem) : Log.Block := fun w => (m.load (4 * w) 4 : Nat)

/-- The bytes of the blocks of a disk. -/
def img (d : Log.Disk) (b : Nat) : Mem := bytesOf (d b)

/-- A block holds its bytes. -/
theorem bytesOf_wordsOf (m : Mem) {a : Nat} (ha : a < bsize) : bytesOf (wordsOf m) a = m a := by
  have hw : a / 4 % 128 = a / 4 := Nat.mod_eq_of_lt (by unfold bsize at ha; omega)
  have hlt : m.load (4 * (a / 4)) 4 < 2 ^ 32 := m.load_lt _ 4
  have hmod : (((m.load (4 * (a / 4)) 4 : Nat) : Int) % 2 ^ 32).toNat = m.load (4 * (a / 4)) 4 := by
    omega
  simp only [bytesOf, wordsOf, hw]
  rw [hmod, Mem.load_byte m _ (Nat.mod_lt a (by decide)), Nat.div_add_mod]

/-- The functions that read the disk look at the bytes of blocks only. -/
def SameBytes (m m' : Mem) : Prop := ∀ a < bsize, m a = m' a

theorem SameBytes.load {m m' : Mem} (h : SameBytes m m') {a w : Nat} (hle : a + w ≤ bsize) :
    m.load a w = m'.load a w :=
  Mem.load_congr fun i hi => h (a + i) (by omega)

theorem SameBytes.bit {m m' : Mem} (h : SameBytes m m') {bi : Nat} (hbi : bi < bsize * 8) :
    bit m bi = bit m' bi := by
  rw [Mkfs.bit, Mkfs.bit, h _ (by omega)]

theorem SameBytes.dinode {m m' : Mem} (h : SameBytes m m') (i : Nat) :
    Mkfs.dinode (dip m i) = Mkfs.dinode (dip m' i) := by
  refine Mkfs.dinode_congr fun a ha => h _ ?_
  have hipb : Mkfs.ipb = 8 := rfl
  have hsize : Mkfs.dinodeSize = 64 := rfl
  rw [hsize] at ha
  rw [hipb, hsize]
  unfold bsize
  omega

/-! ## One bit, one inode -/

/-- `bp->data[bi/8] |= 1 << (bi % 8)` -/
def markBit (m : Mem) (bi : Nat) : Mem :=
  Function.update m (bi / 8) (m (bi / 8) ||| UInt8.ofNat (1 <<< (bi % 8)))

/-- `bp->data[bi/8] &= ~(1 << (bi % 8))` -/
def clearBit (m : Mem) (bi : Nat) : Mem :=
  Function.update m (bi / 8) (m (bi / 8) &&& ~~~ UInt8.ofNat (1 <<< (bi % 8)))

/-- The two bytes of a `short`. -/
def ofShort (v : Int) : Nat := (v % 2 ^ 16).toNat

/-- The number of a type. -/
def typeNum : IType → Nat
  | .free => 0
  | .dir => 1
  | .file => 2
  | .dev => 3

/-- `memmove(dip->addrs, ip->addrs, sizeof(ip->addrs))`, the first `k` of them. -/
def putAddrs (m : Mem) (at₀ : Nat) (addrs : Nat → Nat) : Nat → Mem
  | 0 => m
  | k + 1 => (putAddrs m at₀ addrs k).store (at₀ + 4 * k) 4 (addrs k)

/-- The assignments of `iupdate` to the fields of `dip`, which is at `at₀` in its block. -/
def putDinode (m : Mem) (at₀ : Nat) (n : Dinode) : Mem :=
  let m := m.store at₀ 2 (typeNum n.type)
  let m := m.store (at₀ + 2) 2 (ofShort n.major)
  let m := m.store (at₀ + 4) 2 (ofShort n.minor)
  let m := m.store (at₀ + 6) 2 (ofShort n.nlink)
  let m := m.store (at₀ + 8) 4 n.size
  putAddrs m (at₀ + 12) (fun k => n.addrs (Fin.ofNat (nDirect + 1) k)) (nDirect + 1)

/-- The fields have values of their types. -/
structure Dinode.Representable (n : Dinode) : Prop where
  major : -2 ^ 15 ≤ n.major ∧ n.major < 2 ^ 15
  minor : -2 ^ 15 ≤ n.minor ∧ n.minor < 2 ^ 15
  nlink : -2 ^ 15 ≤ n.nlink ∧ n.nlink < 2 ^ 15
  size : n.size < 2 ^ 32
  addrs : ∀ k, n.addrs k < 2 ^ 32

section Bits

theorem bit_markBit (m : Mem) (i j : Nat) : bit (markBit m i) j = (bit m j || decide (i = j)) := by
  rw [bit, markBit, bit]
  by_cases hbyte : j / 8 = i / 8
  · have hiff : i % 8 = j % 8 ↔ i = j := by omega
    rw [hbyte, Function.update_self, Mkfs.or_bit _ (by omega)]
    simp [hiff]
  · have hne : i ≠ j := fun h => hbyte (by rw [h])
    rw [Function.update_of_ne hbyte]
    simp [hne]

theorem and_not_bit (c : UInt8) {i j : Nat} (hi : i < 8) (hj : j < 8) :
    (c &&& ~~~ UInt8.ofNat (1 <<< i)).toNat.testBit j = (c.toNat.testBit j && !decide (i = j)) := by
  have hlt : 1 <<< i < 2 ^ 8 := by
    rw [Nat.one_shiftLeft]
    exact Nat.pow_lt_pow_right (by decide) hi
  have hnot : (~~~ UInt8.ofNat (1 <<< i)).toNat.testBit j = !decide (i = j) := by
    rw [← UInt8.toNat_toBitVec, UInt8.toBitVec_not, BitVec.testBit_toNat, BitVec.getLsbD_not,
      UInt8.toBitVec_ofNat']
    simp only [BitVec.getLsbD_ofNat, Nat.one_shiftLeft, Nat.testBit_two_pow]
    simp [hj]
  rw [UInt8.toNat_and, Nat.testBit_and, hnot]

theorem bit_clearBit (m : Mem) (i j : Nat) :
    bit (clearBit m i) j = (bit m j && !decide (i = j)) := by
  rw [bit, clearBit, bit]
  by_cases hbyte : j / 8 = i / 8
  · have hiff : i % 8 = j % 8 ↔ i = j := by omega
    rw [hbyte, Function.update_self, and_not_bit _ (by omega) (by omega)]
    simp [hiff]
  · have hne : i ≠ j := fun h => hbyte (by rw [h])
    rw [Function.update_of_ne hbyte]
    simp [hne]

end Bits

section Dinode

variable {m : Mem} {a w at₀ : Nat} {n : Dinode}

theorem load_dip (block : Mem) (inum a w : Nat) :
    (dip block inum).load a w = block.load (inum % Mkfs.ipb * Mkfs.dinodeSize + a) w := by
  induction w generalizing a with
  | zero => rfl
  | succ w ih => rw [Mem.load, Mem.load, ih, dip, Nat.add_assoc]

theorem short_ofShort {v : Int} (h : -2 ^ 15 ≤ v ∧ v < 2 ^ 15) : short (ofShort v % 256 ^ 2) = v := by
  unfold short ofShort
  split_ifs <;> omega

theorem typeOf_typeNum (t : IType) : typeOf (typeNum t % 256 ^ 2) = t := by
  cases t <;> rfl

theorem short_bounds {v : Nat} (h : v < 256 ^ 2) : -2 ^ 15 ≤ short v ∧ short v < 2 ^ 15 := by
  unfold short
  split_ifs <;> omega

/-- What `ilock` reads can be written. -/
theorem dinode_representable (m : Mem) : (Mkfs.dinode m).Representable where
  major := short_bounds (m.load_lt 2 2)
  minor := short_bounds (m.load_lt 4 2)
  nlink := short_bounds (m.load_lt 6 2)
  size := m.load_lt 8 4
  addrs k := m.load_lt (12 + 4 * k) 4

theorem putAddrs_apply (m : Mem) (addrs : Nat → Nat) {x : Nat} (k : Nat)
    (h : x < at₀ ∨ at₀ + 4 * k ≤ x) : putAddrs m at₀ addrs k x = m x := by
  induction k with
  | zero => rfl
  | succ k ih =>
      rw [putAddrs, Mem.store_apply _ _ _ _ _ (by omega), ih (by omega)]

theorem load_putAddrs (m : Mem) (addrs : Nat → Nat) {j k : Nat} (hj : j < k) :
    (putAddrs m at₀ addrs k).load (at₀ + 4 * j) 4 = addrs j % 256 ^ 4 := by
  induction k with
  | zero => exact absurd hj (Nat.not_lt_zero j)
  | succ k ih =>
      rw [putAddrs]
      rcases Nat.lt_succ_iff_lt_or_eq.1 hj with hlt | rfl
      · rw [Mem.load_store_of_disjoint _ _ _ _ _ _ (by omega), ih hlt]
      · exact Mem.load_store ..

/-- A field before the addresses. -/
theorem load_putAddrs_before (m : Mem) (addrs : Nat → Nat) (k : Nat) (h : a + w ≤ at₀) :
    (putAddrs m at₀ addrs k).load a w = m.load a w :=
  Mem.load_congr fun _ _ => putAddrs_apply m addrs k (by omega)

theorem putDinode_apply (m : Mem) (n : Dinode) {x : Nat}
    (h : x < at₀ ∨ at₀ + Mkfs.dinodeSize ≤ x) : putDinode m at₀ n x = m x := by
  have hsize : Mkfs.dinodeSize = 64 := rfl
  rw [hsize] at h
  rw [putDinode, putAddrs_apply _ _ _ (by unfold nDirect; omega), Mem.store_apply _ _ _ _ _ (by omega),
    Mem.store_apply _ _ _ _ _ (by omega), Mem.store_apply _ _ _ _ _ (by omega),
    Mem.store_apply _ _ _ _ _ (by omega), Mem.store_apply _ _ _ _ _ (by omega)]

/-- `ilock` reads what `iupdate` has written. -/
theorem dinode_putDinode (m : Mem) (i : Nat) (h : n.Representable) :
    Mkfs.dinode (dip (putDinode m (i % Mkfs.ipb * Mkfs.dinodeSize) n) i) = n := by
  generalize hat : i % Mkfs.ipb * Mkfs.dinodeSize = at₀
  have hload : ∀ a w, (dip (putDinode m at₀ n) i).load a w = (putDinode m at₀ n).load (at₀ + a) w := by
    intro a w
    rw [load_dip, hat]
  obtain ⟨type, major, minor, nlink, size, addrs⟩ := n
  simp only [Mkfs.dinode, Dinode.mk.injEq, hload]
  refine ⟨?_, ?_, ?_, ?_, ?_, funext fun k => ?_⟩
  · rw [putDinode, load_putAddrs_before _ _ _ (by omega), Mem.load_store_of_disjoint _ _ _ _ _ _ (by omega),
      Mem.load_store_of_disjoint _ _ _ _ _ _ (by omega), Mem.load_store_of_disjoint _ _ _ _ _ _ (by omega),
      Mem.load_store_of_disjoint _ _ _ _ _ _ (by omega), Nat.add_zero, Mem.load_store]
    exact typeOf_typeNum type
  · rw [putDinode, load_putAddrs_before _ _ _ (by omega), Mem.load_store_of_disjoint _ _ _ _ _ _ (by omega),
      Mem.load_store_of_disjoint _ _ _ _ _ _ (by omega), Mem.load_store_of_disjoint _ _ _ _ _ _ (by omega),
      Mem.load_store]
    exact short_ofShort h.major
  · rw [putDinode, load_putAddrs_before _ _ _ (by omega), Mem.load_store_of_disjoint _ _ _ _ _ _ (by omega),
      Mem.load_store_of_disjoint _ _ _ _ _ _ (by omega), Mem.load_store]
    exact short_ofShort h.minor
  · rw [putDinode, load_putAddrs_before _ _ _ (by omega), Mem.load_store_of_disjoint _ _ _ _ _ _ (by omega),
      Mem.load_store]
    exact short_ofShort h.nlink
  · rw [putDinode, load_putAddrs_before _ _ _ (by omega), Mem.load_store]
    exact Nat.mod_eq_of_lt h.size
  · have hk : (k : Nat) < nDirect + 1 := k.isLt
    have hfin : Fin.ofNat (nDirect + 1) k = k := Fin.ext (Nat.mod_eq_of_lt hk)
    rw [putDinode, ← Nat.add_assoc, load_putAddrs _ _ hk, hfin]
    exact Nat.mod_eq_of_lt (h.addrs k)

/-- The other inodes of the block. -/
theorem dinode_putDinode_of_ne (m : Mem) (n : Dinode) {i j : Nat} (h : j % Mkfs.ipb ≠ i % Mkfs.ipb) :
    Mkfs.dinode (dip (putDinode m (i % Mkfs.ipb * Mkfs.dinodeSize) n) j) = Mkfs.dinode (dip m j) := by
  refine Mkfs.dinode_congr fun a ha => putDinode_apply m n ?_
  unfold Mkfs.dinodeSize at *
  omega

end Dinode

/-! ## A state on the disk -/

/-- The fields of the super block in block 1. -/
structure Super (r : Regions) (sb : Superblock) (m : Mem) : Prop where
  size : UInt32.ofNat (m.load 0 4) = sb.size
  nblocks : UInt32.ofNat (m.load 4 4) = sb.nblocks
  ninodes : UInt32.ofNat (m.load 8 4) = sb.ninodes
  inodestart : m.load 20 4 = r.inodestart
  bmapstart : m.load 24 4 = r.bmapstart

structure OnDisk (r : Regions) (d : Log.Disk) (s : Fs) : Prop where
  super : Super r s.sb (img d 1)
  bitmap : ∀ b, b < s.sb.size.toNat → bit (img d (r.bblock b)) (b % (bsize * 8)) = s.bitmap b
  dinode : ∀ i, i < s.sb.ninodes.toNat → Mkfs.dinode (dip (img d (r.iblock i)) i) = s.dinode i
  data : ∀ b, s.sb.IsData b → ∀ a < bsize, img d b a = s.data b a

/-- As `mkfs` lays the disk out: the super block, then what else comes before `lo`, the inodes, the
    free map, and the data. -/
structure Regions.Ordered (r : Regions) (sb : Superblock) (lo : Nat) : Prop where
  super : 1 < lo
  inodes : lo ≤ r.inodestart
  inodes_lt : ∀ i, i < sb.ninodes.toNat → r.iblock i < r.bmapstart
  map : r.inodestart ≤ r.bmapstart
  map_lt : ∀ b, b < sb.size.toNat → r.bblock b < sb.dataStart
  data : r.bmapstart ≤ sb.dataStart

section OnDisk

variable {r : Regions} {d d' : Log.Disk} {s s' : Fs} {lo : Nat}

theorem Super.congr {sb : Superblock} {m m' : Mem} (h : Super r sb m) (hm : SameBytes m m') :
    Super r sb m' := by
  constructor
  · rw [← hm.load (by decide), h.size]
  · rw [← hm.load (by decide), h.nblocks]
  · rw [← hm.load (by decide), h.ninodes]
  · rw [← hm.load (by decide), h.inodestart]
  · rw [← hm.load (by decide), h.bmapstart]

/-- The functions that read the disk find the state. -/
theorem OnDisk.reads (h : OnDisk r d s) : superblockAt (img d) = s.sb ∧
    (∀ b, b < s.sb.size.toNat → bitAt (img d) b = s.bitmap b) ∧
    ∀ i, i < s.sb.ninodes.toNat → inodeAt (img d) i = s.dinode i := by
  refine ⟨?_, fun b hb => ?_, fun i hi => ?_⟩
  · rw [superblockAt, h.super.size, h.super.nblocks, h.super.ninodes]
  · rw [bitAt, h.super.bmapstart]
    exact h.bitmap b hb
  · rw [inodeAt, h.super.inodestart]
    exact h.dinode i hi

/-- The cache and the drivers are not on the disk. -/
theorem OnDisk.congr (h : OnDisk r d s) (hsb : s'.sb = s.sb) (hbitmap : s'.bitmap = s.bitmap)
    (hdinode : s'.dinode = s.dinode) (hdata : s'.data = s.data) : OnDisk r d s' := by
  obtain ⟨hsuper, hb, hi, hd⟩ := h
  constructor
  · rw [hsb]
    exact hsuper
  · rw [hsb, hbitmap]
    exact hb
  · rw [hsb, hdinode]
    exact hi
  · rw [hsb, hdata]
    exact hd

theorem img_self (d : Log.Disk) (b : Nat) (m : Mem) :
    SameBytes m (img (Function.update d b (wordsOf m)) b) := by
  intro a ha
  rw [img, Function.update_self, bytesOf_wordsOf m ha]

theorem img_of_ne (d : Log.Disk) {b c : Nat} (v : Log.Block) (h : c ≠ b) :
    img (Function.update d b v) c = img d c := by
  rw [img, Function.update_of_ne h, img]

/-- The block of the free map is rewritten. -/
theorem OnDisk.writeMap (h : OnDisk r d s) (ho : r.Ordered s.sb lo) {b : Nat}
    (hb : b < s.sb.size.toNat) {m : Mem} {v : Bool} (hm : ∀ j, bit m j =
      if j = b % (bsize * 8) then v else bit (img d (r.bblock b)) j) :
    OnDisk r (Function.update d (r.bblock b) (wordsOf m)) (s.setBit b v) := by
  have hlo : r.bmapstart ≤ r.bblock b := Nat.le_add_left ..
  have hin := ho.inodes
  have hle := ho.map
  have hone := ho.super
  refine ⟨?_, fun c hc => ?_, fun i hi => ?_, fun c hc a ha => ?_⟩
  · rw [img_of_ne _ _ (by omega)]
    exact h.super
  · change c < s.sb.size.toNat at hc
    by_cases hblock : r.bblock c = r.bblock b
    · rw [hblock, ← (img_self d (r.bblock b) m).bit (Nat.mod_lt c (by decide)), hm]
      have hdiv : c / (bsize * 8) = b / (bsize * 8) := Nat.add_right_cancel hblock
      by_cases hcb : c = b
      · rw [hcb, if_pos rfl]
        exact (Function.update_self (f := s.bitmap) ..).symm
      · have hmod : c % (bsize * 8) ≠ b % (bsize * 8) := by
          unfold bsize at *
          omega
        rw [if_neg hmod, ← hblock, h.bitmap c hc]
        exact (Function.update_of_ne hcb ..).symm
    · have hcb : c ≠ b := fun heq => hblock (by rw [heq])
      rw [img_of_ne _ _ hblock, h.bitmap c hc]
      exact (Function.update_of_ne hcb ..).symm
  · have hlt := ho.inodes_lt i hi
    rw [img_of_ne _ _ (by omega)]
    exact h.dinode i hi
  · have hlt := ho.map_lt b hb
    have hdata : s.sb.dataStart ≤ c := hc.1
    rw [img_of_ne _ _ (by omega)]
    exact h.data c hc a ha

/-- `balloc` marks a block as used. -/
theorem OnDisk.markBit (h : OnDisk r d s) (ho : r.Ordered s.sb lo) {b : Nat}
    (hb : b < s.sb.size.toNat) :
    OnDisk r (Function.update d (r.bblock b)
      (wordsOf (markBit (img d (r.bblock b)) (b % (bsize * 8))))) (s.setBit b true) := by
  refine h.writeMap ho hb fun j => ?_
  rw [bit_markBit]
  by_cases hj : j = b % (bsize * 8)
  · simp [hj]
  · rw [if_neg hj]
    simp [Ne.symm hj]

/-- `bfree` marks a block as free. -/
theorem OnDisk.clearBit (h : OnDisk r d s) (ho : r.Ordered s.sb lo) {b : Nat}
    (hb : b < s.sb.size.toNat) :
    OnDisk r (Function.update d (r.bblock b)
      (wordsOf (clearBit (img d (r.bblock b)) (b % (bsize * 8))))) (s.setBit b false) := by
  refine h.writeMap ho hb fun j => ?_
  rw [bit_clearBit]
  by_cases hj : j = b % (bsize * 8)
  · simp [hj]
  · rw [if_neg hj]
    simp [Ne.symm hj]

/-- `iupdate` writes an inode. -/
theorem OnDisk.putDinode (h : OnDisk r d s) (ho : r.Ordered s.sb lo) {i : Nat}
    (hi : i < s.sb.ninodes.toNat) {n : Dinode} (hn : n.Representable) :
    OnDisk r (Function.update d (r.iblock i)
      (wordsOf (putDinode (img d (r.iblock i)) (i % Mkfs.ipb * Mkfs.dinodeSize) n)))
      (s.setDinode i n) := by
  have hin : r.inodestart ≤ r.iblock i := Nat.le_add_left ..
  have hlt := ho.inodes_lt i hi
  have hlo := ho.inodes
  have hone := ho.super
  have hdata := ho.data
  refine ⟨?_, fun c hc => ?_, fun j hj => ?_, fun c hc a ha => ?_⟩
  · rw [img_of_ne _ _ (by omega)]
    exact h.super
  · have hmap : r.bmapstart ≤ r.bblock c := Nat.le_add_left ..
    rw [img_of_ne _ _ (by omega)]
    exact h.bitmap c hc
  · change j < s.sb.ninodes.toNat at hj
    by_cases hblock : r.iblock j = r.iblock i
    · rw [hblock, ← (img_self d (r.iblock i) _).dinode]
      by_cases hji : j = i
      · rw [hji, dinode_putDinode _ _ hn]
        exact (Function.update_self (f := s.dinode) ..).symm
      · have hmod : j % Mkfs.ipb ≠ i % Mkfs.ipb := by
          have hipb : bsize / 64 = 8 := rfl
          have hdiv : j / (bsize / 64) = i / (bsize / 64) := Nat.add_right_cancel hblock
          have hipb' : Mkfs.ipb = 8 := rfl
          rw [hipb] at hdiv
          rw [hipb']
          omega
        rw [dinode_putDinode_of_ne _ _ hmod, ← hblock, h.dinode j hj]
        exact (Function.update_of_ne hji ..).symm
    · have hji : j ≠ i := fun heq => hblock (by rw [heq])
      rw [img_of_ne _ _ hblock, h.dinode j hj]
      exact (Function.update_of_ne hji ..).symm
  · have hstart : s.sb.dataStart ≤ c := hc.1
    rw [img_of_ne _ _ (by omega)]
    exact h.data c hc a ha

/-- A block of data is written. -/
theorem OnDisk.putData (h : OnDisk r d s) (ho : r.Ordered s.sb lo) {b : Nat} (hb : s.sb.IsData b)
    (m : Mem) : OnDisk r (Function.update d b (wordsOf m)) (s.setData b m) := by
  have hstart : s.sb.dataStart ≤ b := hb.1
  have hin := ho.inodes
  have hle := ho.map
  have hone := ho.super
  have hdata := ho.data
  refine ⟨?_, fun c hc => ?_, fun i hi => ?_, fun c hc a ha => ?_⟩
  · rw [img_of_ne _ _ (by omega)]
    exact h.super
  · have hlt := ho.map_lt c hc
    rw [img_of_ne _ _ (by omega)]
    exact h.bitmap c hc
  · have hlt := ho.inodes_lt i hi
    rw [img_of_ne _ _ (by omega)]
    exact h.dinode i hi
  · by_cases hcb : c = b
    · rw [hcb, ← img_self d b m a ha]
      exact (congrFun (Function.update_self (f := s.data) ..) a).symm
    · rw [img_of_ne _ _ hcb, h.data c hc a ha]
      exact (congrFun (Function.update_of_ne hcb (f := s.data) ..) a).symm

/-! ### Files -/

/-- The block of data at a place. -/
theorem Sound.isData (hs : Sound s) {i : Nat} (htype : (s.dinode i).type ≠ .free) {p : Place}
    (hp : held (s.dinode i) s.data p ≠ 0) : s.sb.IsData (held (s.dinode i) s.data p) :=
  hs.books.within _ _ (refs_of_held htype hp)

theorem OnDisk.lblock (h : OnDisk r d s) (hs : Sound s) {i : Nat}
    (htype : (s.dinode i).type ≠ .free) (k : Nat) :
    lblock (s.dinode i) (img d) k = lblock (s.dinode i) s.data k := by
  by_cases hdir : k < nDirect
  · rw [lblock_direct hdir, lblock_direct hdir]
  · by_cases hind : (s.dinode i).addrs indirectAddr = 0
    · rw [lblock_none (by omega) hind, lblock_none (by omega) hind]
    · by_cases hmax : k < maxFile
      · rw [lblock_entry (by omega) hmax hind, lblock_entry (by omega) hmax hind]
        have hsame : SameBytes (img d ((s.dinode i).addrs indirectAddr))
            (s.data ((s.dinode i).addrs indirectAddr)) :=
          fun a ha => h.data _ (hs.isData htype (p := .indirect) hind) a ha
        refine hsame.load ?_
        unfold maxFile nDirect nIndirect bsize at *
        omega
      · rw [Block.lblock, Block.lblock, dif_neg hdir, dif_neg hdir, if_neg (by omega),
          if_neg (by omega)]

/-- A file on the disk has the bytes that it has in the state. -/
theorem OnDisk.contents (h : OnDisk r d s) (hs : Sound s) {i : Nat} (hi : i < s.sb.ninodes.toNat)
    (htype : (s.dinode i).type ≠ .free) :
    (inodeAt (img d) i).contents (img d) = s.contents i := by
  rw [h.reads.2.2 i hi]
  refine contents_congr rfl fun x hx => ?_
  have hne : Block.lblock (s.dinode i) s.data (x / bsize) ≠ 0 := by
    refine ((hs.filled i htype).block _).2 ?_
    unfold nblocks bsize
    omega
  rw [Dinode.byteAt, Dinode.byteAt, h.lblock hs htype]
  exact h.data _ (hs.isData htype (p := .block _) hne) _ (Nat.mod_lt _ (by decide))

/-- **The format of the disk.** The bytes of a block that `balloc`, `bfree` or `iupdate` changes are
    those of the state with one bit or one inode changed: what is read back for every other block of
    the free map, inode and file is what was there. -/
theorem disk_format (h : OnDisk r d s) (ho : r.Ordered s.sb lo) :
    (∀ b, b < s.sb.size.toNat →
      OnDisk r (Function.update d (r.bblock b)
        (wordsOf (Block.markBit (img d (r.bblock b)) (b % (bsize * 8))))) (s.setBit b true) ∧
      OnDisk r (Function.update d (r.bblock b)
        (wordsOf (Block.clearBit (img d (r.bblock b)) (b % (bsize * 8))))) (s.setBit b false)) ∧
    ∀ i n, i < s.sb.ninodes.toNat → n.Representable →
      OnDisk r (Function.update d (r.iblock i)
        (wordsOf (Block.putDinode (img d (r.iblock i)) (i % Mkfs.ipb * Mkfs.dinodeSize) n)))
        (s.setDinode i n) :=
  ⟨fun _ hb => ⟨h.markBit ho hb, h.clearBit ho hb⟩, fun _ _ hi hn => h.putDinode ho hi hn⟩

end OnDisk

/-! A disk of 64 blocks with an empty file, laid out like an image of `mkfs`. -/

/-- The same file with a larger part before the data. -/
def roomyFile : Fs :=
  { lockedFile with
    sb := { size := 64, nblocks := 29, ninodes := 16 }
    bitmap := fun b => decide (b < 35) }

def roomyRegions : Regions := ⟨32, 34⟩

def roomySuper : Mem :=
  ((((Mkfs.zeroes.store 0 4 64).store 4 4 29).store 8 4 16).store 20 4 32).store 24 4 34

def roomyDisk : Log.Disk := fun b =>
  wordsOf (if b = 1 then roomySuper else if b = 34 then Mkfs.bitmap 35 else
    if b = 32 then putDinode Mkfs.zeroes 64 (Dinode.fresh .file) else Mkfs.zeroes)

theorem roomyFile_sound : Sound roomyFile := by
  have hold := lockedFile_sound
  have hnone : ∀ x, refs roomyFile.dinode roomyFile.data x = none := by
    intro x
    by_contra hsome
    obtain ⟨b, hb⟩ := Option.ne_none_iff_exists'.1 hsome
    have hlo : 8 ≤ b := (hold.books.within x b hb).1
    have hhi : b < 8 := of_decide_eq_true (hold.books.used_of_own hb)
    omega
  refine ⟨⟨by decide, fun b hb => decide_eq_true hb⟩, ⟨fun x y b hx => ?_, fun x b hx => ?_,
    fun b hb => ⟨fun hbit => ?_, fun ⟨x, hx⟩ => ?_⟩⟩, hold.filled, ?_⟩
  · rw [hnone] at hx
    cases hx
  · rw [hnone] at hx
    cases hx
  · exact absurd (of_decide_eq_true hbit) (Nat.not_lt.2 hb.1)
  · rw [hnone] at hx
    cases hx
  · exact ⟨hold.cache.uniq, hold.cache.copy, hold.cache.allocated⟩

theorem roomyDisk_block (b : Nat) : SameBytes (if b = 1 then roomySuper else
    if b = 34 then Mkfs.bitmap 35 else
      if b = 32 then putDinode Mkfs.zeroes 64 (Dinode.fresh .file) else Mkfs.zeroes)
    (img roomyDisk b) :=
  fun _ ha => (bytesOf_wordsOf _ ha).symm

theorem roomyDisk_onDisk : OnDisk roomyRegions roomyDisk roomyFile := by
  have hfile : (Dinode.fresh .file).Representable :=
    ⟨by decide, by decide, by decide, by decide, fun _ => Nat.two_pow_pos 32⟩
  have hzero : ∀ i, Mkfs.dinode (Mkfs.dip Mkfs.zeroes i) = Dinode.fresh .free := fun _ =>
    Mkfs.dinode_zeroes
  refine ⟨?_, fun b hb => ?_, fun i hi => ?_, fun b hb a ha => ?_⟩
  · refine Super.congr ?_ (roomyDisk_block 1)
    exact ⟨by decide, by decide, by decide, by decide, by decide⟩
  · have hb : b < 64 := hb
    have hmod : b % (bsize * 8) = b := Nat.mod_eq_of_lt (Nat.lt_trans hb (by decide))
    have hblock : roomyRegions.bblock b = 34 := by
      have hdiv : b / (bsize * 8) = 0 := Nat.div_eq_of_lt (Nat.lt_trans hb (by decide))
      rw [Regions.bblock, hdiv]
      rfl
    rw [hblock, hmod, ← (roomyDisk_block 34).bit (Nat.lt_trans hb (by decide))]
    exact Mkfs.bit_bitmap 35 b
  · have hi : i < 16 := hi
    have hblock : roomyRegions.iblock i = i / 8 + 32 := rfl
    have hipb : Mkfs.ipb = 8 := rfl
    rw [hblock, ← (roomyDisk_block (i / 8 + 32)).dinode, if_neg (by omega), if_neg (by omega)]
    by_cases hone : i = 1
    · subst hone
      exact dinode_putDinode Mkfs.zeroes 1 hfile
    · have hfree : roomyFile.dinode i = Dinode.fresh .free := Function.update_of_ne hone ..
      rw [hfree]
      split_ifs with hfirst
      · rw [← hzero i]
        refine dinode_putDinode_of_ne (i := 1) Mkfs.zeroes _ ?_
        rw [hipb]
        omega
      · exact hzero i
  · have hlo : 35 ≤ b := hb.1
    rw [← roomyDisk_block b a ha, if_neg (by omega), if_neg (by omega), if_neg (by omega)]
    rfl

theorem roomyRegions_ordered : roomyRegions.Ordered roomyFile.sb 32 := by
  refine ⟨by decide, by decide, fun i hi => ?_, by decide, fun b hb => ?_, by decide⟩
  · have hi : i < 16 := hi
    have hblock : roomyRegions.iblock i = i / 8 + 32 := rfl
    have hmap : roomyRegions.bmapstart = 34 := rfl
    omega
  · have hb : b < 64 := hb
    have hblock : roomyRegions.bblock b = b / 4096 + 34 := rfl
    have hdata : roomyFile.sb.dataStart = 35 := rfl
    omega

/-- An inode with one block is written beside the one that is there. -/
theorem disk_format_roomyFile :
    OnDisk roomyRegions (Function.update roomyDisk 32 (wordsOf (putDinode (img roomyDisk 32) 128
      ⟨.file, 0, 0, 1, 3, fun k => if k = 0 then 35 else 0⟩)))
      (roomyFile.setDinode 2 ⟨.file, 0, 0, 1, 3, fun k => if k = 0 then 35 else 0⟩) := by
  refine (disk_format roomyDisk_onDisk roomyRegions_ordered).2 2 _ (by decide) ?_
  refine ⟨by decide, by decide, by decide, by decide, fun k => ?_⟩
  dsimp only
  split_ifs <;> decide

end Cs350.Block
