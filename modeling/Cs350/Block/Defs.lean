import Cs350.FileSys.Inode
import Cs350.Lib.ByteMemory

set_option autoImplicit false

/-! # Blocks of files (`fs.c`)

The functions of `fs.c` that allocate, use and free disk blocks: `balloc`, `bfree`, `bmap`,
`itrunc`, `readi`, `writei`, and with them `ialloc`, `iget`, `ilock`, `iput`, `iupdate`,
`dirlookup` and `dirlink`, down to the bytes of the blocks.

The disk has three regions that change: the inodes, the free map with one bit for each block, and
the blocks themselves. An inode in the cache is a copy of the one on disk, and the two may differ
inside an operation. Operations run one after another, so the locks are left out; what `ilock` does
apart from locking is kept. -/

namespace Cs350.Block

open FileSys (IType Ip nInode)

/-! ## Data -/

/-- `BSIZE` -/
def bsize : Nat := 512

/-- `NDIRECT` -/
def nDirect : Nat := 12

/-- `NINDIRECT` -/
def nIndirect : Nat := bsize / 4

/-- `MAXFILE` -/
def maxFile : Nat := nDirect + nIndirect

/-- `NDEV` -/
def nDev : Nat := 10

/-- `DIRSIZ` -/
def dirsiz : Nat := 14

/-- `sizeof(struct dirent)` -/
def direntSize : Nat := 16

/-- The fields of `struct superblock` that the functions below use, or that say where the data
    blocks are. -/
structure Superblock where
  size : UInt32
  nblocks : UInt32
  ninodes : UInt32

/-- Data blocks are the last `nblocks` blocks. -/
def Superblock.dataStart (sb : Superblock) : Nat := sb.size.toNat - sb.nblocks.toNat

/-- `struct dinode`; also the fields of `struct inode` that live on disk. -/
structure Dinode where
  type : IType
  major : Int
  minor : Int
  nlink : Int
  size : Nat
  addrs : Fin (nDirect + 1) → Nat

/-- `ip->addrs[k] = b` -/
def Dinode.setAddr (n : Dinode) (k : Fin (nDirect + 1)) (b : Nat) : Dinode :=
  { n with addrs := Function.update n.addrs k b }

/-- The place of the indirect block in `addrs`. -/
def indirectAddr : Fin (nDirect + 1) := Fin.last nDirect

/-- `struct inode`, a slot of the cache. -/
structure Inode where
  inum : Nat
  ref : Int
  valid : Bool
  node : Dinode

/-- `struct devsw`: the drivers of a device, which do not touch the disk. -/
structure Devsw where
  read : Option (Mem → UInt32 → Int × Mem)
  write : Option (Mem → UInt32 → Int)

structure Fs where
  sb : Superblock
  devsw : Fin nDev → Devsw
  /-- the free map -/
  bitmap : Nat → Bool
  /-- the bytes of each block -/
  data : Nat → Mem
  /-- the inodes on disk -/
  dinode : Nat → Dinode
  icache : Ip → Inode

inductive Panic
  /-- `panic("balloc: out of blocks")` -/
  | outOfBlocks
  /-- `panic("freeing free block")` -/
  | freeingFree
  /-- `panic("ialloc: no inodes")` -/
  | iallocNoInodes
  /-- `panic("iget: no inodes")` -/
  | igetNoInodes
  /-- `panic("ilock")` -/
  | ilock
  /-- `panic("ilock: no type")` -/
  | noType
  /-- `panic("bmap: out of range")` -/
  | bmapRange
  /-- `panic("dirlookup not DIR")` -/
  | dirlookupNotDir
  /-- `panic("dirlookup read")` -/
  | dirlookupRead
  /-- `panic("dirlink read")` -/
  | dirlinkRead
  /-- `panic("dirlink")` -/
  | dirlink
deriving DecidableEq

abbrev FsM := Prog Panic Empty Fs

namespace Fs

def setBit (s : Fs) (b : Nat) (v : Bool) : Fs :=
  { s with bitmap := Function.update s.bitmap b v }

def setData (s : Fs) (b : Nat) (m : Mem) : Fs :=
  { s with data := Function.update s.data b m }

def setDinode (s : Fs) (i : Nat) (n : Dinode) : Fs :=
  { s with dinode := Function.update s.dinode i n }

def setSlot (s : Fs) (ip : Ip) (slot : Inode) : Fs :=
  { s with icache := Function.update s.icache ip slot }

def inum (s : Fs) (ip : Ip) : Nat := (s.icache ip).inum

/-- The in-memory copy of the inode. -/
def node (s : Fs) (ip : Ip) : Dinode := (s.icache ip).node

def setNode (s : Fs) (ip : Ip) (n : Dinode) : Fs :=
  s.setSlot ip { s.icache ip with node := n }

def setAddr (s : Fs) (ip : Ip) (k : Fin (nDirect + 1)) (b : Nat) : Fs :=
  s.setNode ip ((s.node ip).setAddr k b)

end Fs

/-- Entry `j` of an array of `uint`s. -/
def entry (m : Mem) (j : Nat) : Nat := m.load (4 * j) 4

/-- `memmove(dst + at, src + from, n)` between two memories. -/
def memmove (dst : Mem) (d : Nat) (src : Mem) (s n : Nat) : Mem :=
  fun a => if d ≤ a ∧ a < d + n then src (s + (a - d)) else dst a

/-! ## Blocks -/

/-- Zero a block. -/
def bzero (b : Nat) : FsM Unit :=
  Prog.modify (·.setData b fun _ => 0)

/-- Allocate a zeroed disk block. The two loops, over the blocks of the free map and over the bits
    of each, go through the block numbers in order. -/
def balloc : FsM Nat := do
  let s ← Prog.get
  match (List.range s.sb.size.toNat).find? (fun b => s.bitmap b = false) with
  | some b => do
      Prog.modify (·.setBit b true)
      bzero b
      pure b
  | none => Prog.stop .outOfBlocks

/-- Free a disk block. -/
def bfree (b : Nat) : FsM Unit := do
  let s ← Prog.get
  if s.bitmap b = false then
    Prog.stop .freeingFree
  else
    Prog.modify (·.setBit b false)

/-! ## Inodes -/

/-- Copy a modified in-memory inode to disk. -/
def iupdate (ip : Ip) : FsM Unit :=
  Prog.modify fun s => s.setDinode (s.inum ip) (s.node ip)

/-- Find the inode with number `inum` and return the in-memory copy. -/
def iget (inum : Nat) : FsM Ip := do
  let s ← Prog.get
  match (List.finRange nInode).find?
      (fun ip => 0 < (s.icache ip).ref ∧ (s.icache ip).inum = inum) with
  | some ip => do
      Prog.modify (·.setSlot ip { s.icache ip with ref := (s.icache ip).ref + 1 })
      pure ip
  | none =>
      match (List.finRange nInode).find? (fun ip => (s.icache ip).ref = 0) with
      | some ip => do
          Prog.modify (·.setSlot ip
            { inum := inum, ref := 1, valid := false, node := (s.icache ip).node })
          pure ip
      | none => Prog.stop .igetNoInodes

/-- What `memset(dip, 0, sizeof(*dip)); dip->type = type` leaves. -/
def Dinode.fresh (type : IType) : Dinode :=
  { type := type, major := 0, minor := 0, nlink := 0, size := 0, addrs := fun _ => 0 }

/-- Allocate an inode and give it a type. Returns an allocated and referenced inode. -/
def ialloc (type : IType) : FsM Ip := do
  let s ← Prog.get
  match (List.range' 1 (s.sb.ninodes.toNat - 1)).find? (fun i => (s.dinode i).type = .free) with
  | some i => do
      Prog.modify (·.setDinode i (Dinode.fresh type))
      iget i
  | none => Prog.stop .iallocNoInodes

/-- Increment reference count for `ip`. -/
def idup (ip : Ip) : FsM Ip := do
  Prog.modify fun s => s.setSlot ip { s.icache ip with ref := (s.icache ip).ref + 1 }
  pure ip

/-- Lock the given inode; reads the inode from disk if necessary. -/
def ilock (ip : Ip) : FsM Unit := do
  let s ← Prog.get
  if (s.icache ip).ref < 1 then
    Prog.stop .ilock
  else if (s.icache ip).valid then
    pure ()
  else do
    let dip := s.dinode (s.inum ip)
    Prog.modify (·.setSlot ip { s.icache ip with valid := true, node := dip })
    if dip.type = .free then
      Prog.stop .noType
    else
      pure ()

/-! ## Inode content -/

/-- `if((addr = ip->addrs[k]) == 0) ip->addrs[k] = addr = balloc(ip->dev);` -/
def addrOf (ip : Ip) (k : Fin (nDirect + 1)) : FsM Nat := do
  let s ← Prog.get
  if (s.node ip).addrs k = 0 then do
    let addr ← balloc
    Prog.modify (·.setAddr ip k addr)
    pure addr
  else
    pure ((s.node ip).addrs k)

/-- `if((addr = a[j]) == 0){ a[j] = addr = balloc(ip->dev); log_write(bp); }`, where `bp` is the
    indirect block. -/
def entryOf (ind j : Nat) : FsM Nat := do
  let s ← Prog.get
  if entry (s.data ind) j = 0 then do
    let addr ← balloc
    -- `bp` holds the contents of the block from before `balloc`
    Prog.modify (·.setData ind ((s.data ind).store (4 * j) 4 addr))
    pure addr
  else
    pure (entry (s.data ind) j)

/-- Return the disk block address of the `bn`th block in inode `ip`. If there is no such block,
    `bmap` allocates one. -/
def bmap (ip : Ip) (bn : Nat) : FsM Nat :=
  if h : bn < nDirect then
    addrOf ip ⟨bn, Nat.lt_succ_of_lt h⟩
  else if bn - nDirect < nIndirect then do
    -- Load indirect block, allocating if necessary.
    let ind ← addrOf ip indirectAddr
    entryOf ind (bn - nDirect)
  else
    Prog.stop .bmapRange

/-- The body of the first loop of `itrunc`. -/
def itruncDirect (ip : Ip) (i : Fin nDirect) : FsM Unit := do
  let s ← Prog.get
  if (s.node ip).addrs i.castSucc = 0 then
    pure ()
  else do
    bfree ((s.node ip).addrs i.castSucc)
    Prog.modify (·.setAddr ip i.castSucc 0)

/-- The body of the second loop of `itrunc`, over the entries of the indirect block. -/
def itruncEntry (a : Mem) (j : Nat) : FsM Unit :=
  if entry a j = 0 then
    pure ()
  else
    bfree (entry a j)

/-- The second half of `itrunc`. -/
def itruncIndirect (ip : Ip) : FsM Unit := do
  let s ← Prog.get
  if (s.node ip).addrs indirectAddr = 0 then
    pure ()
  else do
    let ind := (s.node ip).addrs indirectAddr
    Prog.each (itruncEntry (s.data ind)) (List.range nIndirect)
    bfree ind
    Prog.modify (·.setAddr ip indirectAddr 0)

/-- Truncate inode (discard contents). -/
def itrunc (ip : Ip) : FsM Unit := do
  Prog.each (itruncDirect ip) (List.finRange nDirect)
  itruncIndirect ip
  Prog.modify fun s => s.setNode ip { s.node ip with size := 0 }
  iupdate ip

/-- The first half of `iput`: if the inode has no links and no other references, truncate and
    free. -/
def iputFree (ip : Ip) : FsM Unit := do
  let s ← Prog.get
  if (s.icache ip).valid ∧ (s.node ip).nlink = 0 ∧ (s.icache ip).ref = 1 then do
    itrunc ip
    Prog.modify fun s => s.setNode ip { s.node ip with type := .free }
    iupdate ip
    Prog.modify fun s => s.setSlot ip { s.icache ip with valid := false }
  else
    pure ()

/-- Drop a reference to an in-memory inode. If that was the last reference and the inode has no
    links to it, free the inode (and its content) on disk. -/
def iput (ip : Ip) : FsM Unit := do
  iputFree ip
  Prog.modify fun s => s.setSlot ip { s.icache ip with ref := (s.icache ip).ref - 1 }

/-- The driver of a device inode, if there is one. -/
def Fs.driver (s : Fs) (ip : Ip) : Option Devsw :=
  let major := (s.node ip).major
  if h : 0 ≤ major ∧ major < nDev then
    some (s.devsw ⟨major.toNat, by omega⟩)
  else
    none

/-- The loop of `readi`: `fuel` rounds at most, and every round reads a byte or more. -/
def readLoop (ip : Ip) (n : Nat) : Nat → Mem → Nat → Nat → FsM Mem
  | 0, dst, _, _ => pure dst
  | fuel + 1, dst, tot, off =>
      if tot < n then do
        let b ← bmap ip (off / bsize)
        let s ← Prog.get
        let m := min (n - tot) (bsize - off % bsize)
        readLoop ip n fuel (memmove dst tot (s.data b) (off % bsize) m) (tot + m) (off + m)
      else
        pure dst

/-- Read data from inode: the number of bytes, or -1, and the buffer after. The sums that the code
    forms wrap around in 32 bits. -/
def readi (ip : Ip) (dst : Mem) (off n : UInt32) : FsM (Int × Mem) := do
  let s ← Prog.get
  if (s.node ip).type = .dev then
    match (s.driver ip).bind Devsw.read with
    | none => pure (-1, dst)
    | some f => pure (f dst n)
  else if off.toNat > (s.node ip).size ∨ off + n < off then
    pure (-1, dst)
  else do
    let len :=
      if (off + n).toNat > (s.node ip).size then (s.node ip).size - off.toNat else n.toNat
    let dst ← readLoop ip len len dst 0 off.toNat
    pure (len, dst)

/-- The loop of `writei`, which returns the final `off`. -/
def writeLoop (ip : Ip) (src : Mem) (n : Nat) : Nat → Nat → Nat → FsM Nat
  | 0, _, off => pure off
  | fuel + 1, tot, off =>
      if tot < n then do
        let b ← bmap ip (off / bsize)
        let m := min (n - tot) (bsize - off % bsize)
        Prog.modify fun s => s.setData b (memmove (s.data b) (off % bsize) src tot m)
        writeLoop ip src n fuel (tot + m) (off + m)
      else
        pure off

/-- Write data to inode. -/
def writei (ip : Ip) (src : Mem) (off n : UInt32) : FsM Int := do
  let s ← Prog.get
  if (s.node ip).type = .dev then
    match (s.driver ip).bind Devsw.write with
    | none => pure (-1)
    | some f => pure (f src n)
  else if off.toNat > (s.node ip).size ∨ off + n < off then
    pure (-1)
  else if (off + n).toNat > maxFile * bsize then
    pure (-1)
  else do
    let off ← writeLoop ip src n.toNat n.toNat 0 off.toNat
    let s ← Prog.get
    if n > 0 ∧ off > (s.node ip).size then do
      Prog.modify (·.setNode ip { s.node ip with size := off })
      iupdate ip
      pure n.toNat
    else
      pure n.toNat

/-! ## Directories -/

/-- `de.inum` -/
def direntInum (de : Mem) : Nat := de.load 0 2

/-- The bytes of a C string, and zeros after it. -/
def cstr (name : List UInt8) : Mem := fun k => (name.takeWhile (· ≠ 0)).getD k 0

/-- `strncmp(s, t, n) == 0`, for the characters of `s` from `i` and of `t` from `j`. -/
def strncmp (s t : Mem) : Nat → Nat → Nat → Bool
  | _, _, 0 => true
  | i, j, n + 1 => if s i ≠ t j then false else if s i = 0 then true else strncmp s t (i + 1) (j + 1) n

/-- `namecmp(name, de.name) == 0` -/
def namecmp (name : List UInt8) (de : Mem) : Bool := strncmp (cstr name) de 0 2 dirsiz

/-- The offsets of the entries of a directory of the given size. -/
def direntOffs (size : Nat) : List Nat :=
  (List.range ((size + direntSize - 1) / direntSize)).map (· * direntSize)

/-- The loop of `dirlookup` from the given offsets on. -/
def dirlookupLoop (dp : Ip) (name : List UInt8) : List Nat → Mem → FsM (Option (Ip × Nat))
  | [], _ => pure none
  | off :: offs, de => do
      let (r, de) ← readi dp de (UInt32.ofNat off) (UInt32.ofNat direntSize)
      if r ≠ direntSize then
        Prog.stop .dirlookupRead
      else if direntInum de = 0 then
        dirlookupLoop dp name offs de
      else if namecmp name de then do
        let ip ← iget (direntInum de)
        pure (some (ip, off))
      else
        dirlookupLoop dp name offs de

/-- Look for a directory entry in a directory. `de` is what is on the stack for it. -/
def dirlookup (dp : Ip) (name : List UInt8) (de : Mem) : FsM (Option (Ip × Nat)) := do
  let s ← Prog.get
  if (s.node dp).type ≠ .dir then
    Prog.stop .dirlookupNotDir
  else
    dirlookupLoop dp name (direntOffs (s.node dp).size) de

/-- The loop of `dirlink` that looks for an empty entry; `last` is the offset after all of them. -/
def dirlinkLoop (dp : Ip) (last : Nat) : List Nat → Mem → FsM (Nat × Mem)
  | [], de => pure (last, de)
  | off :: offs, de => do
      let (r, de) ← readi dp de (UInt32.ofNat off) (UInt32.ofNat direntSize)
      if r ≠ direntSize then
        Prog.stop .dirlinkRead
      else if direntInum de = 0 then
        pure (off, de)
      else
        dirlinkLoop dp last offs de

/-- Write a new directory entry `(name, inum)` into the directory `dp`. -/
def dirlink (dp : Ip) (name : List UInt8) (inum : Nat) (de : Mem) : FsM Int := do
  match ← dirlookup dp name de with
  | some (ip, _) => do
      iput ip
      pure (-1)
  | none => do
      let s ← Prog.get
      let offs := direntOffs (s.node dp).size
      let (off, de) ← dirlinkLoop dp (offs.length * direntSize) offs de
      -- `strncpy(de.name, name, DIRSIZ); de.inum = inum`
      let de := (memmove de 2 (cstr name) 0 dirsiz).store 0 2 inum
      let r ← writei dp de (UInt32.ofNat off) (UInt32.ofNat direntSize)
      if r ≠ direntSize then
        Prog.stop .dirlink
      else
        pure 0

/-! ## Runs -/

/-- The operations. `iget`, `idup` and `ilock` are how a caller comes by an inode it may pass to the
    others, and `setLinks` is what the system calls do when they change the other fields of an
    inode: assign to them and call `iupdate`. -/
inductive Op
  | ialloc (type : IType)
  | iget (inum : Nat)
  | idup (ip : Ip)
  | ilock (ip : Ip)
  | readi (ip : Ip) (dst : Mem) (off n : UInt32)
  | writei (ip : Ip) (src : Mem) (off n : UInt32)
  | dirlink (dp : Ip) (name : List UInt8) (inum : Nat) (de : Mem)
  | setLinks (ip : Ip) (major minor nlink : Int)
  | iput (ip : Ip)

/-- What callers have to ensure: they hold a reference to the inode, and where the contents are
    used, they have locked it. -/
def Op.legal (s : Fs) : Op → Bool
  | .ialloc _ => true
  | .iget _ => true
  | .idup ip | .ilock ip | .iput ip => 0 < (s.icache ip).ref
  | .readi ip _ _ _ | .writei ip _ _ _ | .dirlink ip _ _ _ | .setLinks ip _ _ _ =>
      0 < (s.icache ip).ref ∧ (s.icache ip).valid

def setLinks (ip : Ip) (major minor nlink : Int) : FsM Unit := do
  Prog.modify fun s =>
    s.setNode ip { s.node ip with major := major, minor := minor, nlink := nlink }
  iupdate ip

def Op.run : Op → FsM Unit
  | .ialloc type => do
      let _ ← Block.ialloc type
      pure ()
  | .iget inum => do
      let _ ← Block.iget inum
      pure ()
  | .idup ip => do
      let _ ← Block.idup ip
      pure ()
  | .ilock ip => Block.ilock ip
  | .readi ip dst off n => do
      let _ ← Block.readi ip dst off n
      pure ()
  | .writei ip src off n => do
      let _ ← Block.writei ip src off n
      pure ()
  | .dirlink dp name inum de => do
      let _ ← Block.dirlink dp name inum de
      pure ()
  | .setLinks ip major minor nlink => Block.setLinks ip major minor nlink
  | .iput ip => Block.iput ip

inductive Machine
  | running (s : Fs)
  | panicked (e : Panic)

/-- The machine after an operation. -/
def next : Machine → Op → Option Machine
  | .panicked _, _ => none
  | .running s, op =>
      if op.legal s then
        match (op.run s).2 with
        | .ok (_, s') => some (.running s')
        | .error e => some (.panicked e)
      else
        none

def Step (m : Machine) (op : Op) (m' : Machine) : Prop := next m op = some m'

end Cs350.Block
