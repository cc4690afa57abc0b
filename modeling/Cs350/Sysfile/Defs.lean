import Cs350.Block.Directory
import Cs350.FileSys.Syscall
import Cs350.Lib.CString
import Cs350.Lib.Refines

set_option autoImplicit false

/-! # Names and calls over the bytes of the disk (`fs.c`, `sysfile.c`)

`namex`, `create` and the calls that change names, as they run on inodes and blocks. System calls run
one after another, and the sleep-locks are left out, as in the functions that these call.

Paths and names are the bytes of C strings. `de` is what is on the stack for a directory entry; every
function reads the whole entry before it looks at it. -/

namespace Cs350.Sysfile

open Block (Fs direntSize dirsiz direntInum)
open FileSys (IType Ip rootIno short oCreate)

/-- The panics of `fs.c`, and those of the calls. -/
inductive Panic
  | fs (e : Block.Panic)
  /-- `panic("isdirempty: readi")` -/
  | isdiremptyRead
  /-- `panic("unlink: nlink < 1")` -/
  | unlinkNlink
  /-- `panic("unlink: writei")` -/
  | unlinkWrite
  /-- `panic("create dots")` -/
  | createDots
  /-- `panic("create: dirlink")` -/
  | createDirlink
  /-- not a panic: more path elements than characters -/
  | stuck
deriving DecidableEq

abbrev FsM := Prog Panic Empty Fs

/-- Run a function of `fs.c`. -/
def call {α : Type} (m : Block.FsM α) : FsM α := m.mapError .fs

def ilock (ip : Ip) : FsM Unit := call (Block.ilock ip)

def iput (ip : Ip) : FsM Unit := call (Block.iput ip)

def idup (ip : Ip) : FsM Ip := call (Block.idup ip)

/-- `iunlockput`: without locks, `iput`. -/
def iunlockput (ip : Ip) : FsM Unit := iput ip

/-- `ip->nlink++; iupdate(ip)` -/
def addLink (ip : Ip) : FsM Unit := do
  let s ← Prog.get
  call (Block.setLinks ip (s.node ip).major (s.node ip).minor (short ((s.node ip).nlink + 1)))

/-- `ip->nlink--; iupdate(ip)` -/
def dropLink (ip : Ip) : FsM Unit := do
  let s ← Prog.get
  call (Block.setLinks ip (s.node ip).major (s.node ip).minor (short ((s.node ip).nlink - 1)))

/-- `namecmp(s, t) == 0` -/
def namecmp (s t : List UInt8) : Bool := Block.strncmp (Block.cstr s) (Block.cstr t) 0 0 dirsiz

/-! ## Paths -/

/-- `'/'` -/
def slash : UInt8 := 47

/-- `"."` -/
def dot : List UInt8 := [46]

/-- `".."` -/
def dotdot : List UInt8 := [46, 46]

/-- The next path element and the rest of the path. -/
def skipelem (path : List UInt8) : Option (List UInt8 × List UInt8) :=
  let s := path.dropWhile (· = slash)
  if s = [] then
    none
  else
    some ((s.takeWhile (· ≠ slash)).take dirsiz, (s.dropWhile (· ≠ slash)).dropWhile (· = slash))

/-- The loop of `namex`. Every element takes at least one character, so the length of the path
    bounds the number of rounds. -/
def namexLoop (de : Mem) (nameiparent : Bool) :
    Nat → List UInt8 → List UInt8 → Ip → FsM (Option (Ip × List UInt8))
  | 0, _, _, _ => Prog.stop .stuck
  | n + 1, path, name, ip =>
      match skipelem path with
      | none =>
          if nameiparent then do
            iput ip
            pure none
          else
            pure (some (ip, name))
      | some (name, path) => do
          ilock ip
          let s ← Prog.get
          if (s.node ip).type ≠ .dir then do
            iunlockput ip
            pure none
          else if nameiparent ∧ path = [] then
            -- Stop one level early.
            pure (some (ip, name))
          else do
            match ← call (Block.dirlookup ip name de) with
            | none => do
                iunlockput ip
                pure none
            | some (next, _) => do
                iunlockput ip
                namexLoop de nameiparent n path name next

/-- Look up and return the inode for a path name, or for its parent together with the final path
    element. -/
def namex (de : Mem) (cwd : Ip) (path : List UInt8) (nameiparent : Bool) :
    FsM (Option (Ip × List UInt8)) := do
  let ip ← if path.head? = some slash then call (Block.iget rootIno) else idup cwd
  namexLoop de nameiparent (path.length + 1) path [] ip

def namei (de : Mem) (cwd : Ip) (path : List UInt8) : FsM (Option Ip) := do
  let r ← namex de cwd path false
  pure (r.map Prod.fst)

def nameiparent (de : Mem) (cwd : Ip) (path : List UInt8) : FsM (Option (Ip × List UInt8)) :=
  namex de cwd path true

/-! ## `sys_link` -/

/-- The part of `sys_link` after `bad:`. -/
def linkBad (ip : Ip) : FsM Int := do
  ilock ip
  dropLink ip
  iunlockput ip
  pure (-1)

/-- Create the path `new` as a link to the same inode as `old`. -/
def sysLink (de : Mem) (cwd : Ip) (old new : List UInt8) : FsM Int := do
  match ← namei de cwd old with
  | none => pure (-1)
  | some ip => do
      ilock ip
      let s ← Prog.get
      if (s.node ip).type = .dir then do
        iunlockput ip
        pure (-1)
      else do
        addLink ip
        match ← nameiparent de cwd new with
        | none => linkBad ip
        | some (dp, name) => do
            ilock dp
            let s ← Prog.get
            let r ← call (Block.dirlink dp name (s.inum ip) de)
            if r < 0 then do
              iunlockput dp
              linkBad ip
            else do
              iunlockput dp
              iput ip
              pure 0

/-! ## `sys_unlink` -/

/-- The loop of `isdirempty` over the offsets of the entries after the first two. -/
def isdiremptyLoop (dp : Ip) : List Nat → Mem → FsM Bool
  | [], _ => pure true
  | off :: offs, de => do
      let (r, de) ← call (Block.readi dp de (UInt32.ofNat off) (UInt32.ofNat direntSize))
      if r ≠ direntSize then
        Prog.stop .isdiremptyRead
      else if direntInum de ≠ 0 then
        pure false
      else
        isdiremptyLoop dp offs de

/-- Is the directory empty except for "." and ".." ? -/
def isdirempty (dp : Ip) (de : Mem) : FsM Bool := do
  let s ← Prog.get
  isdiremptyLoop dp ((Block.direntOffs (s.node dp).size).drop 2) de

/-- `sys_unlink` once the entry is found and may go: the entry at `off` is overwritten with zeros. -/
def unlinkEntry (dp ip : Ip) (off : Nat) : FsM Int := do
  let r ← call (Block.writei dp (fun _ => 0) (UInt32.ofNat off) (UInt32.ofNat direntSize))
  if r ≠ direntSize then
    Prog.stop .unlinkWrite
  else do
    let s ← Prog.get
    if (s.node ip).type = .dir then dropLink dp else pure ()
    iunlockput dp
    dropLink ip
    iunlockput ip
    pure 0

def sysUnlink (de : Mem) (cwd : Ip) (path : List UInt8) : FsM Int := do
  match ← nameiparent de cwd path with
  | none => pure (-1)
  | some (dp, name) => do
      ilock dp
      -- Cannot unlink "." or "..".
      if namecmp name dot ∨ namecmp name dotdot then do
        iunlockput dp
        pure (-1)
      else do
        match ← call (Block.dirlookup dp name de) with
        | none => do
            iunlockput dp
            pure (-1)
        | some (ip, off) => do
            ilock ip
            let s ← Prog.get
            if (s.node ip).nlink < 1 then
              Prog.stop .unlinkNlink
            else do
              -- `ip->type == T_DIR && !isdirempty(ip)`
              let empty ← if (s.node ip).type = .dir then isdirempty ip de else pure true
              if empty = false then do
                iunlockput ip
                iunlockput dp
                pure (-1)
              else
                unlinkEntry dp ip off

/-! ## `create` -/

/-- The `.` and `..` entries of a new directory. -/
def createDots (de : Mem) (dp ip : Ip) : FsM Unit := do
  addLink dp
  let s ← Prog.get
  let r ← call (Block.dirlink ip dot (s.inum ip) de)
  if r < 0 then
    Prog.stop .createDots
  else do
    let r ← call (Block.dirlink ip dotdot (s.inum dp) de)
    if r < 0 then Prog.stop .createDots else pure ()

/-- The part of `create` that makes a new inode and enters it in `dp`. -/
def createNew (de : Mem) (dp : Ip) (name : List UInt8) (type : IType) (major minor : Int) :
    FsM Ip := do
  let ip ← call (Block.ialloc type)
  ilock ip
  call (Block.setLinks ip major minor 1)
  if type = .dir then createDots de dp ip else pure ()
  let s ← Prog.get
  let r ← call (Block.dirlink dp name (s.inum ip) de)
  if r < 0 then
    Prog.stop .createDirlink
  else do
    iunlockput dp
    pure ip

def create (de : Mem) (cwd : Ip) (path : List UInt8) (type : IType) (major minor : Int) :
    FsM (Option Ip) := do
  match ← nameiparent de cwd path with
  | none => pure none
  | some (dp, name) => do
      ilock dp
      match ← call (Block.dirlookup dp name de) with
      | some (ip, _) => do
          iunlockput dp
          ilock ip
          let s ← Prog.get
          if type = .file ∧ (s.node ip).type = .file then
            pure (some ip)
          else do
            iunlockput ip
            pure none
      | none => do
          let ip ← createNew de dp name type major minor
          pure (some ip)

def sysMkdir (de : Mem) (cwd : Ip) (path : List UInt8) : FsM Int := do
  match ← create de cwd path .dir 0 0 with
  | none => pure (-1)
  | some ip => do
      iunlockput ip
      pure 0

def sysMknod (de : Mem) (cwd : Ip) (path : List UInt8) (major minor : Int) : FsM Int := do
  match ← create de cwd path .dev (short major) (short minor) with
  | none => pure (-1)
  | some ip => do
      iunlockput ip
      pure 0

/-- The inode that `sys_open` opens. -/
def openInode (de : Mem) (cwd : Ip) (path : List UInt8) (omode : BitVec 32) :
    FsM (Option Ip) := do
  if omode &&& oCreate ≠ 0 then
    create de cwd path .file 0 0
  else do
    match ← namei de cwd path with
    | none => pure none
    | some ip => do
        ilock ip
        let s ← Prog.get
        if (s.node ip).type = .dir ∧ omode ≠ 0 then do
          iunlockput ip
          pure none
        else
          pure (some ip)

/-! ## The other calls, as far as inodes go -/

/-- The directory that `sys_chdir` goes to from `cwd`. -/
def chdir (de : Mem) (cwd : Ip) (path : List UInt8) : FsM (Option Ip) := do
  match ← namei de cwd path with
  | none => pure none
  | some ip => do
      ilock ip
      let s ← Prog.get
      if (s.node ip).type ≠ .dir then do
        iunlockput ip
        pure none
      else do
        iput cwd
        pure (some ip)

/-- `exec`, as far as inodes go: it reads from the file (destination, offset and length of each
    `readi`), and every way out after `ilock` passes one `iunlockput`. -/
def exec (de : Mem) (cwd : Ip) (path : List UInt8) (reads : List (Mem × UInt32 × UInt32))
    (ok : Bool) : FsM Int := do
  match ← namei de cwd path with
  | none => pure (-1)
  | some ip => do
      ilock ip
      Prog.each (fun r => do
        let _ ← call (Block.readi ip r.1 r.2.1 r.2.2)
        pure ()) reads
      iunlockput ip
      pure (if ok then 0 else -1)

/-- `filestat`: the number, the type and the link count that `stati` copies. -/
def filestat (ip : Ip) : FsM (Nat × IType × Int) := do
  ilock ip
  let s ← Prog.get
  pure (s.inum ip, (s.node ip).type, (s.node ip).nlink)

/-- `fileread` of an inode. -/
def fileread (ip : Ip) (dst : Mem) (off n : UInt32) : FsM (Int × Mem) := do
  ilock ip
  call (Block.readi ip dst off n)

/-- A round of the loop of `filewrite`. -/
def filewriteRound (ip : Ip) (src : Mem) (off n : UInt32) : FsM Int := do
  ilock ip
  call (Block.writei ip src off n)

end Cs350.Sysfile
