import Cs350.Block.Defs
import Mathlib.Algebra.Group.Int.Defs

set_option autoImplicit false

/-! # Building the disk image (`mkfs.c`)

`mkfs` writes the image block by block: zeros everywhere, the super block, the inode of the root
directory, and then for each file its inode, an entry in the root directory and its bytes. An inode
is read from its block and written back for every change of a file, and the blocks of files are
taken one after another from `freeblock` on.

The host is little-endian, so `xshort` and `xint` are the identity and a field holds its value in
little-endian order. Writes to the image succeed; reads of it fail past its end. -/

namespace Cs350.Mkfs

open Block (bsize nDirect maxFile dirsiz direntSize entry memmove)
open FileSys (rootIno)

/-! ## Disk layout -/

/-- `FSSIZE` -/
def fsSize : Nat := 1000

/-- `LOGSIZE` -/
def logSize : Nat := 10 * 3

/-- `NINODES` -/
def nInodes : Nat := 200

/-- `sizeof(struct dinode)` -/
def dinodeSize : Nat := 64

/-- `IPB` -/
def ipb : Nat := bsize / dinodeSize

def nbitmap : Nat := fsSize / (bsize * 8) + 1

def ninodeblocks : Nat := nInodes / ipb + 1

def nlog : Nat := logSize

/-- Number of meta blocks (boot, sb, log, inode, bitmap) -/
def nmeta : Nat := 2 + nlog + ninodeblocks + nbitmap

/-- Number of data blocks -/
def nblocks : Nat := fsSize - nmeta

/-- `sb.inodestart` -/
def inodestart : Nat := 2 + nlog

/-- `sb.bmapstart` -/
def bmapstart : Nat := 2 + nlog + ninodeblocks

/-- `IBLOCK` -/
def iblock (inum : Nat) : Nat := inum / ipb + inodestart

def zeroes : Mem := fun _ => 0

/-- The bytes of `sb`: `size`, `nblocks`, `ninodes`, `nlog`, `logstart`, `inodestart` and
    `bmapstart`. -/
def superblock : Mem :=
  ((((((zeroes.store 0 4 fsSize).store 4 4 nblocks).store 8 4 nInodes).store 12 4 nlog).store
    16 4 2).store 20 4 inodestart).store 24 4 bmapstart

/-! ## `struct dinode` -/

/-- `T_DIR` -/
def tDir : Nat := 1

/-- `T_FILE` -/
def tFile : Nat := 2

/-- `din.size` -/
def size (din : Mem) : Nat := din.load 8 4

/-- `din.size = size` -/
def setSize (din : Mem) (size : Nat) : Mem := din.store 8 4 size

/-- `din.addrs[k]` -/
def addr (din : Mem) (k : Nat) : Nat := din.load (12 + 4 * k) 4

/-- `din.addrs[k] = b` -/
def setAddr (din : Mem) (k b : Nat) : Mem := din.store (12 + 4 * k) 4 b

/-- What `ialloc` fills in: `type`, `nlink` and `size`. -/
def newDinode (type : Nat) : Mem := ((zeroes.store 0 2 type).store 6 2 1).store 8 4 0

/-! ## The image -/

/-- How the program ends other than by `exit(0)`. -/
inductive Exit
  /-- the usage message -/
  | usage
  /-- the image cannot be opened -/
  | openImage
  /-- `assert(rootino == ROOTINO)` -/
  | rootino
  /-- `assert(index(argv[i], '/') == 0)` -/
  | slash
  /-- a file cannot be opened -/
  | openFile
  /-- `perror("read")` -/
  | read
  /-- `assert(fbn < MAXFILE)` -/
  | maxFile
  /-- `assert(used < BSIZE*8)` -/
  | used
deriving DecidableEq

/-- The image, and the globals. -/
structure State where
  /-- the length of the image in blocks -/
  len : Nat
  blocks : Nat → Mem
  freeinode : Nat
  freeblock : Nat

abbrev MkM := Prog Exit Empty State

/-- The block at `sec * BSIZE`, which is computed in 32 bits. -/
def sector (sec : Nat) : Nat := sec * bsize % 2 ^ 32 / bsize

def wsect (sec : Nat) (buf : Mem) : MkM Unit :=
  Prog.modify fun s =>
    { s with
      len := max s.len (sector sec + 1)
      blocks := Function.update s.blocks (sector sec) buf }

def rsect (sec : Nat) : MkM Mem := do
  let s ← Prog.get
  if sector sec < s.len then
    pure (s.blocks (sector sec))
  else
    Prog.stop .read

def winode (inum : Nat) (din : Mem) : MkM Unit := do
  let buf ← rsect (iblock inum)
  wsect (iblock inum) (memmove buf (inum % ipb * dinodeSize) din 0 dinodeSize)

def rinode (inum : Nat) : MkM Mem := do
  let buf ← rsect (iblock inum)
  pure (memmove zeroes 0 buf (inum % ipb * dinodeSize) dinodeSize)

def ialloc (type : Nat) : MkM Nat := do
  let s ← Prog.get
  let inum := s.freeinode
  Prog.modify fun s => { s with freeinode := s.freeinode + 1 }
  winode inum (newDinode type)
  pure inum

/-- The block of the free map that says that the first `used` blocks are in use. -/
def bitmap (used : Nat) : Mem :=
  (List.range used).foldl
    (fun buf i => Function.update buf (i / 8) (buf (i / 8) ||| UInt8.ofNat (1 <<< (i % 8)))) zeroes

def balloc (used : Nat) : MkM Unit :=
  if used < bsize * 8 then
    wsect bmapstart (bitmap used)
  else
    Prog.stop .used

/-- `freeblock++` -/
def takeBlock : MkM Nat := do
  let s ← Prog.get
  Prog.modify fun s => { s with freeblock := s.freeblock + 1 }
  pure s.freeblock

/-! ## `iappend` -/

/-- `if(xint(din.addrs[k]) == 0) din.addrs[k] = xint(freeblock++);` -/
def fillAddr (din : Mem) (k : Nat) : MkM Mem :=
  if addr din k = 0 then do
    let b ← takeBlock
    pure (setAddr din k b)
  else
    pure din

/-- The `if` of the loop of `iappend`, which finds the block `x` for block `fbn` of the file. -/
def fileBlock (din : Mem) (fbn : Nat) : MkM (Mem × Nat) :=
  if fbn < nDirect then do
    let din ← fillAddr din fbn
    pure (din, addr din fbn)
  else do
    let din ← fillAddr din nDirect
    let indirect ← rsect (addr din nDirect)
    if entry indirect (fbn - nDirect) = 0 then do
      let b ← takeBlock
      let indirect := indirect.store (4 * (fbn - nDirect)) 4 b
      wsect (addr din nDirect) indirect
      pure (din, entry indirect (fbn - nDirect))
    else
      pure (din, entry indirect (fbn - nDirect))

/-- The bytes of a buffer. -/
def bytes (p : List UInt8) : Mem := fun k => p.getD k 0

/-- The loop of `iappend`, where `p` is what is left: `fuel` rounds at most, and every round takes a
    byte or more. -/
def iappendLoop : Nat → List UInt8 → Mem → Nat → MkM (Mem × Nat)
  | 0, _, din, off => pure (din, off)
  | fuel + 1, p, din, off =>
      if p.length > 0 then
        let fbn := off / bsize
        if fbn < maxFile then do
          let (din, x) ← fileBlock din fbn
          let n1 := min p.length ((fbn + 1) * bsize - off)
          let buf ← rsect x
          wsect x (memmove buf (off - fbn * bsize) (bytes p) 0 n1)
          iappendLoop fuel (p.drop n1) din (off + n1)
        else
          Prog.stop .maxFile
      else
        pure (din, off)

/-- Append the bytes `p` to the file. -/
def iappend (inum : Nat) (p : List UInt8) : MkM Unit := do
  let din ← rinode inum
  let (din, off) ← iappendLoop p.length p din (size din)
  winode inum (setSize din off)

/-! ## `main` -/

/-- What a call of `read(fd, buf, sizeof(buf))` returns if it is positive. -/
structure Chunk where
  bytes : List UInt8
  pos : 0 < bytes.length
  le : bytes.length ≤ bsize

/-- An argument after the image. -/
structure File where
  /-- `argv[i]` -/
  arg : List UInt8
  /-- it is a C string -/
  nul : 0 ∉ arg
  /-- what the calls of `read` return until one returns 0 or -1, if the file can be opened -/
  reads : Option (List Chunk)

/-- `argv[1]` -/
inductive ImageArg
  | missing
  | unopened
  | opened

/-- The bytes that are read from the file. -/
def File.content (f : File) : List UInt8 := (f.reads.getD []).flatMap Chunk.bytes

/-- Skip leading _ in name when writing to file system. -/
def File.name (f : File) : List UInt8 := if f.arg.head? = some 95 then f.arg.tail else f.arg

/-- `strncpy(dst, s, n)`, as the bytes of `dst`. -/
def strncpy (s : List UInt8) (n : Nat) : List UInt8 := s.take n ++ List.replicate (n - s.length) 0

/-- The bytes of `de`. -/
def dirent (inum : Nat) (name : List UInt8) : List UInt8 :=
  UInt8.ofNat inum :: UInt8.ofNat (inum >>> 8) :: strncpy name dirsiz

/-- The body of the loop of `main`. -/
def addFile (rootino : Nat) (f : File) : MkM Unit :=
  -- '/'
  if 47 ∈ f.arg then
    Prog.stop .slash
  else
    match f.reads with
    | none => Prog.stop .openFile
    | some reads => do
        let inum ← ialloc tFile
        iappend rootino (dirent inum f.name)
        Prog.each (fun c => iappend inum c.bytes) reads

/-- Fix size of root inode dir. -/
def fixRoot (rootino : Nat) : MkM Unit := do
  let din ← rinode rootino
  let off := size din
  let off := (off / bsize + 1) * bsize
  winode rootino (setSize din off)

def main (image : ImageArg) (files : List File) : MkM Unit :=
  match image with
  | .missing => Prog.stop .usage
  | .unopened => Prog.stop .openImage
  | .opened => do
      -- `O_TRUNC`
      Prog.modify fun s => { s with len := 0, blocks := fun _ => zeroes, freeblock := nmeta }
      Prog.each (fun i => wsect i zeroes) (List.range fsSize)
      wsect 1 superblock
      let rootino ← ialloc tDir
      if rootino = rootIno then do
        -- "." and ".."
        iappend rootino (dirent rootino [46])
        iappend rootino (dirent rootino [46, 46])
        Prog.each (addFile rootino) files
        fixRoot rootino
        let s ← Prog.get
        balloc s.freeblock
      else
        Prog.stop .rootino

/-- Before `main`. -/
def start : State := { len := 0, blocks := fun _ => zeroes, freeinode := 1, freeblock := 0 }

/-- `mkfs` with these arguments exits with status 0 and leaves the image of `σ`. -/
def Exits (image : ImageArg) (files : List File) (σ : State) : Prop :=
  (main image files start).2 = .ok ((), σ)

end Cs350.Mkfs
