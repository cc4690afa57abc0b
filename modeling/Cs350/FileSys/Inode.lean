import Cs350.Lib.Prog
import Mathlib.Data.List.FinRange
import Mathlib.Logic.Function.Basic
import Mathlib.Algebra.GroupWithZero.Nat

set_option autoImplicit false

/-! # Inodes, directories and paths (`fs.c`)

The inode layer, as far as names and link counts go: `iget`, `idup`, `ilock`, `iput`, `ialloc`,
`dirlookup`, `dirlink` and `namex`. There is one device. System calls run one after another, so the
sleep-locks are always free and are left out; what `ilock` does apart from locking is kept.

The cached copy of an inode is written through to the disk at once wherever it is changed, so that
the two agree whenever the copy is valid. `Fs.inode` is that common contents; a slot of the cache
adds which inode it holds, its `ref` and whether it is `valid`. A directory is the list of its
entries, 16 bytes each; the data of other files is left out. -/

namespace Cs350.FileSys

/-! ## Data -/

/-- `NINODE`, the number of slots of the inode cache. -/
def nInode : Nat := 50

theorem nInode_pos : 0 < nInode := by decide

/-- `ROOTINO`. -/
def rootIno : Nat := 1

/-- `DIRSIZ`. -/
def dirsiz : Nat := 14

/-- The number of entries that fit in a file of `MAXFILE * BSIZE` bytes. -/
def maxDirents : Nat := (12 + 128) * 512 / 16

abbrev Name := List Char

/-- `short type`: zero, `T_DIR`, `T_FILE` or `T_DEV`. -/
inductive IType
  | free
  | dir
  | file
  | dev
deriving DecidableEq

/-- `struct dirent`; an entry with `inum = 0` is not in use. -/
structure Dirent where
  inum : Nat
  name : Name
deriving DecidableEq

/-- `struct dinode`, with the contents of a directory. -/
structure Inode where
  type : IType
  major : Int
  minor : Int
  nlink : Int
  entries : List Dirent

/-- A slot of the inode cache. -/
structure Slot where
  inum : Nat
  ref : Nat
  valid : Bool

/-- A `struct inode *`. -/
abbrev Ip := Fin nInode

/-- The inodes, the cache, and `sb.ninodes`. -/
structure Fs where
  ninodes : Nat
  inode : Nat → Inode
  icache : Ip → Slot

namespace Fs

/-- The inode that a slot holds. -/
def node (fs : Fs) (ip : Ip) : Inode := fs.inode (fs.icache ip).inum

def setSlot (fs : Fs) (ip : Ip) (slot : Slot) : Fs :=
  { fs with icache := Function.update fs.icache ip slot }

def setInode (fs : Fs) (i : Nat) (n : Inode) : Fs :=
  { fs with inode := Function.update fs.inode i n }

end Fs

/-- The panics of the modelled functions, and two ways to leave the model. -/
inductive Panic
  /-- `panic("ilock: no type")` -/
  | noType
  /-- `panic("ilock")` -/
  | ilock
  /-- `panic("iget: no inodes")` -/
  | igetNoInodes
  /-- `panic("ialloc: no inodes")` -/
  | iallocNoInodes
  /-- `panic("dirlookup not DIR")` -/
  | dirlookupNotDir
  /-- `panic("dirlink")` -/
  | dirlink
  /-- `panic("unlink: nlink < 1")` -/
  | unlinkNlink
  /-- `panic("create dots")` -/
  | createDots
  /-- `panic("create: dirlink")` -/
  | createDirlink
  /-- `panic("filedup")` -/
  | filedup
  /-- `panic("fileclose")` -/
  | fileclose
  /-- `panic("init exiting")` -/
  | initExiting
  /-- not a panic: more path elements than characters, or use of a pipe that is no more -/
  | stuck
deriving DecidableEq

/-- Points of the execution that the specification refers to: `iput` is about to free the inode of
    a slot, a link count is about to be incremented, and a name is about to be entered in a
    directory. -/
inductive Mark
  | frees (fs : Fs) (ip : Ip)
  | bumps (nlink : Int)
  | enters (fs : Fs) (dp : Ip) (name : Name)

abbrev FsM := Prog Panic Mark Fs

/-! ## The inode cache -/

/-- Find the inode with number `inum` and return the in-memory copy. -/
def iget (inum : Nat) : FsM Ip := do
  let fs ← Prog.get
  match (List.finRange nInode).find?
      (fun ip => 0 < (fs.icache ip).ref ∧ (fs.icache ip).inum = inum) with
  | some ip => do
      Prog.modify (·.setSlot ip { fs.icache ip with ref := (fs.icache ip).ref + 1 })
      pure ip
  | none =>
      match (List.finRange nInode).find? (fun ip => (fs.icache ip).ref = 0) with
      | some ip => do
          Prog.modify (·.setSlot ip { inum := inum, ref := 1, valid := false })
          pure ip
      | none => Prog.stop .igetNoInodes

/-- Increment reference count for `ip`. -/
def idup (ip : Ip) : FsM Ip := do
  Prog.modify fun fs => fs.setSlot ip { fs.icache ip with ref := (fs.icache ip).ref + 1 }
  pure ip

/-- Lock the given inode; reads the inode from disk if necessary. -/
def ilock (ip : Ip) : FsM Unit := do
  let fs ← Prog.get
  if (fs.icache ip).ref < 1 then
    Prog.stop .ilock
  else if (fs.icache ip).valid then
    pure ()
  else if (fs.node ip).type = .free then
    Prog.stop .noType
  else
    Prog.modify (·.setSlot ip { fs.icache ip with valid := true })

/-- The freeing branch of `iput`: `itrunc`, `type = 0`, `valid = 0`. -/
def Fs.freeInode (fs : Fs) (ip : Ip) : Fs :=
  (fs.setInode (fs.icache ip).inum { fs.node ip with type := .free, entries := [] }).setSlot ip
    { fs.icache ip with valid := false }

/-- `ip->ref--`. -/
def Fs.decref (fs : Fs) (ip : Ip) : Fs :=
  fs.setSlot ip { fs.icache ip with ref := (fs.icache ip).ref - 1 }

/-- Drop a reference to an in-memory inode. If that was the last reference and the inode has no
    links to it, free the inode. -/
def iput (ip : Ip) : FsM Unit := do
  let fs ← Prog.get
  if (fs.icache ip).valid ∧ (fs.node ip).nlink = 0 ∧ (fs.icache ip).ref = 1 then do
    Prog.mark (.frees · ip)
    Prog.modify (·.freeInode ip)
    Prog.modify (·.decref ip)
  else
    Prog.modify (·.decref ip)

/-- `iunlockput`: without locks, `iput`. -/
def iunlockput (ip : Ip) : FsM Unit := iput ip

/-- Allocate an inode and give it a type. Returns an allocated and referenced inode. -/
def ialloc (type : IType) : FsM Ip := do
  let fs ← Prog.get
  match (List.range' 1 (fs.ninodes - 1)).find? (fun i => (fs.inode i).type = .free) with
  | some i => do
      Prog.modify (·.setInode i { type := type, major := 0, minor := 0, nlink := 0, entries := [] })
      iget i
  | none => Prog.stop .iallocNoInodes

/-! ## Fields that live on disk -/

/-- The value of a `short`. -/
def short (x : Int) : Int := (x + 32768) % 65536 - 32768

def Fs.setNlink (fs : Fs) (ip : Ip) (n : Int) : Fs :=
  fs.setInode (fs.icache ip).inum { fs.node ip with nlink := n }

/-- `ip->nlink++; iupdate(ip)`. -/
def addLink (ip : Ip) : FsM Unit := do
  Prog.mark fun fs => .bumps (fs.node ip).nlink
  Prog.modify fun fs => fs.setNlink ip (short ((fs.node ip).nlink + 1))

/-- `ip->nlink--; iupdate(ip)`. -/
def dropLink (ip : Ip) : FsM Unit :=
  Prog.modify fun fs => fs.setNlink ip (short ((fs.node ip).nlink - 1))

/-- The entries of directory `ip`, replaced. -/
def Fs.setEntries (fs : Fs) (ip : Ip) (es : List Dirent) : Fs :=
  fs.setInode (fs.icache ip).inum { fs.node ip with entries := es }

/-! ## Directories -/

/-- `namecmp(s, t) == 0`. -/
def namecmp (s t : Name) : Bool := s.take dirsiz = t.take dirsiz

/-- Look for a directory entry in a directory: the inode and the index of the entry. -/
def dirlookup (dp : Ip) (name : Name) : FsM (Option (Ip × Nat)) := do
  let fs ← Prog.get
  if (fs.node dp).type ≠ .dir then
    Prog.stop .dirlookupNotDir
  else
    match (fs.node dp).entries.zipIdx.find? (fun p => p.1.inum ≠ 0 ∧ namecmp name p.1.name) with
    | some (de, off) => do
        let ip ← iget de.inum
        pure (some (ip, off))
    | none => pure none

/-- Write an entry at index `off`, which may be just past the end. -/
def writeEntry (es : List Dirent) (off : Nat) (de : Dirent) : List Dirent :=
  if off < es.length then es.set off de else es ++ [de]

/-- Write a new directory entry `(name, inum)` into the directory `dp`. -/
def dirlink (dp : Ip) (name : Name) (inum : Nat) : FsM Int := do
  match ← dirlookup dp name with
  | some (ip, _) => do
      iput ip
      pure (-1)
  | none => do
      let fs ← Prog.get
      let es := (fs.node dp).entries
      let off := es.findIdx (fun de => de.inum = 0)
      if off + 1 > maxDirents then
        Prog.stop .dirlink
      else do
        Prog.mark (.enters · dp name)
        Prog.modify (·.setEntries dp
          (writeEntry es off { inum := inum % 65536, name := name.take dirsiz }))
        pure 0

/-- Is the directory empty except for "." and ".." ? -/
def isdirempty (es : List Dirent) : Bool := (es.drop 2).all fun de => de.inum = 0

/-! ## Paths -/

/-- The next path element and the rest of the path. -/
def skipelem (path : List Char) : Option (Name × List Char) :=
  let s := path.dropWhile (· = '/')
  if s = [] then
    none
  else
    some ((s.takeWhile (· ≠ '/')).take dirsiz, (s.dropWhile (· ≠ '/')).dropWhile (· = '/'))

/-- The loop of `namex`. Every element takes at least one character, so the length of the path
    bounds the number of rounds. -/
def namexLoop (nameiparent : Bool) : Nat → List Char → Name → Ip → FsM (Option (Ip × Name))
  | 0, _, _, _ => Prog.stop .stuck
  | n + 1, path, name, ip =>
      match skipelem path with
      | none =>
          if nameiparent then do
            iput ip
            pure none
          else
            pure (some (ip, name))
      | some (name, path) => do
          ilock ip
          let fs ← Prog.get
          if (fs.node ip).type ≠ .dir then do
            iunlockput ip
            pure none
          else if nameiparent ∧ path = [] then
            pure (some (ip, name))
          else do
            match ← dirlookup ip name with
            | none => do
                iunlockput ip
                pure none
            | some (next, _) => do
                iunlockput ip
                namexLoop nameiparent n path name next

/-- Look up and return the inode for a path name, or for its parent together with the final path
    element. -/
def namex (cwd : Ip) (path : List Char) (nameiparent : Bool) : FsM (Option (Ip × Name)) := do
  let ip ← if path.head? = some '/' then iget rootIno else idup cwd
  namexLoop nameiparent (path.length + 1) path [] ip

def namei (cwd : Ip) (path : List Char) : FsM (Option Ip) := do
  let r ← namex cwd path false
  pure (r.map Prod.fst)

def nameiparent (cwd : Ip) (path : List Char) : FsM (Option (Ip × Name)) :=
  namex cwd path true

end Cs350.FileSys
