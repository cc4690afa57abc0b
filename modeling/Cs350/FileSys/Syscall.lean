import Cs350.FileSys.Inode

set_option autoImplicit false

/-! # File-system calls (`sysfile.c`, `file.c`, `pipe.c`, `fork` and `exit` of `proc.c`)

The calls that create, remove and hold names: `link`, `unlink`, `open`, `mkdir`, `mknod`, `chdir`,
`close`, `dup`, `pipe`, `exec`, `fork` and `exit`. Arguments are taken to be fetched already (a call
whose arguments cannot be fetched returns -1 before it looks at the file system), and a call runs
without interruption. What a call does not decide by itself is part of its label: the page that
`kalloc` finds for a pipe, the slot that `fork` finds for the child, and whether `exec` succeeds with
the file it opens. -/

namespace Cs350.FileSys

/-! ## Processes and open files -/

/-- A slot of the process table. -/
abbrev Pid := Fin 64

instance pid_neZero : NeZero 64 := ⟨by decide⟩

/-- A file descriptor below `NOFILE`. -/
abbrev Fd := Fin 16

/-- A `struct file *` into `ftable`, which has `NFILE` entries. -/
abbrev FileId := Fin 100

/-- `f->type`, with the page of an `FD_PIPE` file and the inode of an `FD_INODE` file. -/
inductive FileKind
  | none
  | pipe (page : Nat)
  | inode (ip : Ip)
deriving DecidableEq

/-- `struct file`. -/
structure File where
  ref : Nat
  kind : FileKind
  readable : Bool
  writable : Bool
  off : Nat

/-- `struct pipe`, without the data. -/
structure Pipe where
  readopen : Bool
  writeopen : Bool

/-- The file system, `ftable`, the pages in use as pipes, and what processes hold: `ofile` and `cwd`
    (none in a slot that is not in use, and after `exit`). -/
structure St where
  fs : Fs
  file : FileId → File
  pipe : Nat → Option Pipe
  ofile : Pid → Fd → Option FileId
  cwd : Pid → Option Ip
  initproc : Pid

abbrev SysM := Prog Panic Mark St

/-- Run a function of `fs.c`. -/
def onFs {α : Type} (m : FsM α) : SysM α :=
  m.zoom St.fs (fun st fs => { st with fs := fs })

def St.setFile (st : St) (f : FileId) (file : File) : St :=
  { st with file := Function.update st.file f file }

def St.setOfile (st : St) (p : Pid) (fd : Fd) (f : Option FileId) : St :=
  { st with ofile := Function.update st.ofile p (Function.update (st.ofile p) fd f) }

def St.setCwd (st : St) (p : Pid) (cwd : Option Ip) : St :=
  { st with cwd := Function.update st.cwd p cwd }

def St.setPipe (st : St) (page : Nat) (pipe : Option Pipe) : St :=
  { st with pipe := Function.update st.pipe page pipe }

/-! ## `file.c` and `pipe.c` -/

/-- Allocate a file structure. -/
def filealloc : SysM (Option FileId) := do
  let st ← Prog.get
  match (List.finRange 100).find? (fun f => (st.file f).ref = 0) with
  | some f => do
      Prog.modify (·.setFile f { st.file f with ref := 1 })
      pure (some f)
  | none => pure none

/-- Increment ref count for file `f`. -/
def filedup (f : FileId) : SysM FileId := do
  let st ← Prog.get
  if (st.file f).ref < 1 then
    Prog.stop .filedup
  else do
    Prog.modify (·.setFile f { st.file f with ref := (st.file f).ref + 1 })
    pure f

/-- Close one end of a pipe; the page is freed when both are closed. -/
def pipeclose (page : Nat) (writable : Bool) : SysM Unit := do
  let st ← Prog.get
  match st.pipe page with
  | none => Prog.stop .stuck
  | some p =>
      let p' : Pipe :=
        if writable then { p with writeopen := false } else { p with readopen := false }
      if p'.readopen = false ∧ p'.writeopen = false then
        Prog.modify (·.setPipe page none)
      else
        Prog.modify (·.setPipe page (some p'))

/-- Close file `f`: decrement ref count, close when it reaches 0. -/
def fileclose (f : FileId) : SysM Unit := do
  let st ← Prog.get
  let ff := st.file f
  if ff.ref < 1 then
    Prog.stop .fileclose
  else if 0 < ff.ref - 1 then
    Prog.modify (·.setFile f { ff with ref := ff.ref - 1 })
  else do
    Prog.modify (·.setFile f { ff with ref := 0, kind := .none })
    match ff.kind with
    | .pipe page => pipeclose page ff.writable
    | .inode ip => onFs (iput ip)
    | .none => pure ()

/-- Allocate a pipe and its two files; `page` is the result of `kalloc`. -/
def pipealloc (page : Option Nat) : SysM (Option (FileId × FileId)) := do
  match ← filealloc with
  | none => pure none
  | some f0 => do
      match ← filealloc with
      | none => do
          fileclose f0
          pure none
      | some f1 => do
          match page with
          | none => do
              fileclose f0
              fileclose f1
              pure none
          | some page => do
              Prog.modify (·.setPipe page (some { readopen := true, writeopen := true }))
              Prog.modify fun st => st.setFile f0
                { st.file f0 with kind := .pipe page, readable := true, writable := false }
              Prog.modify fun st => st.setFile f1
                { st.file f1 with kind := .pipe page, readable := false, writable := true }
              pure (some (f0, f1))

/-! ## `sysfile.c` -/

/-- Fetch a file descriptor and the corresponding file structure. -/
def argfd (st : St) (p : Pid) (fd : Int) : Option (Fd × FileId) :=
  if h : 0 ≤ fd ∧ fd < 16 then
    let fd : Fd := ⟨fd.toNat, by omega⟩
    (st.ofile p fd).map fun f => (fd, f)
  else
    none

/-- Allocate a file descriptor for the given file. -/
def fdalloc (p : Pid) (f : FileId) : SysM (Option Fd) := do
  let st ← Prog.get
  match (List.finRange 16).find? (fun fd => st.ofile p fd = none) with
  | some fd => do
      Prog.modify (·.setOfile p fd (some f))
      pure (some fd)
  | none => pure none

def sysDup (p : Pid) (fd : Int) : SysM Int := do
  let st ← Prog.get
  match argfd st p fd with
  | none => pure (-1)
  | some (_, f) => do
      match ← fdalloc p f with
      | none => pure (-1)
      | some fd => do
          let _ ← filedup f
          pure fd.val

def sysClose (p : Pid) (fd : Int) : SysM Int := do
  let st ← Prog.get
  match argfd st p fd with
  | none => pure (-1)
  | some (fd, f) => do
      Prog.modify (·.setOfile p fd none)
      fileclose f
      pure 0

/-- The part of `sys_link` after `bad:`. -/
def linkBad (ip : Ip) : FsM Int := do
  ilock ip
  dropLink ip
  iunlockput ip
  pure (-1)

/-- Create the path `new` as a link to the same inode as `old`. -/
def sysLink (cwd : Ip) (old new : List Char) : FsM Int := do
  match ← namei cwd old with
  | none => pure (-1)
  | some ip => do
      ilock ip
      let fs ← Prog.get
      if (fs.node ip).type = .dir then do
        iunlockput ip
        pure (-1)
      else do
        addLink ip
        match ← nameiparent cwd new with
        | none => linkBad ip
        | some (dp, name) => do
            ilock dp
            let fs ← Prog.get
            let r ← dirlink dp name (fs.icache ip).inum
            if r < 0 then do
              iunlockput dp
              linkBad ip
            else do
              iunlockput dp
              iput ip
              pure 0

/-- `sys_unlink` once the entry is found and may go: entry `off` of `dp` is erased. -/
def unlinkEntry (dp ip : Ip) (off : Nat) : FsM Int := do
  Prog.modify fun fs => fs.setEntries dp ((fs.node dp).entries.set off { inum := 0, name := [] })
  let fs ← Prog.get
  if (fs.node ip).type = .dir then dropLink dp else pure ()
  iunlockput dp
  dropLink ip
  iunlockput ip
  pure 0

def sysUnlink (cwd : Ip) (path : List Char) : FsM Int := do
  match ← nameiparent cwd path with
  | none => pure (-1)
  | some (dp, name) => do
      ilock dp
      if namecmp name ['.'] ∨ namecmp name ['.', '.'] then do
        iunlockput dp
        pure (-1)
      else do
        match ← dirlookup dp name with
        | none => do
            iunlockput dp
            pure (-1)
        | some (ip, off) => do
            ilock ip
            let fs ← Prog.get
            if (fs.node ip).nlink < 1 then
              Prog.stop .unlinkNlink
            else if (fs.node ip).type = .dir ∧ ¬ isdirempty (fs.node ip).entries then do
              iunlockput ip
              iunlockput dp
              pure (-1)
            else
              unlinkEntry dp ip off

/-- The `.` and `..` entries of a new directory. -/
def createDots (dp ip : Ip) : FsM Unit := do
  addLink dp
  let fs ← Prog.get
  let r ← dirlink ip ['.'] (fs.icache ip).inum
  if r < 0 then
    Prog.stop .createDots
  else do
    let r ← dirlink ip ['.', '.'] (fs.icache dp).inum
    if r < 0 then Prog.stop .createDots else pure ()

/-- The part of `create` that makes a new inode and enters it in `dp`. -/
def createNew (dp : Ip) (name : Name) (type : IType) (major minor : Int) : FsM Ip := do
  let ip ← ialloc type
  ilock ip
  Prog.modify fun fs =>
    fs.setInode (fs.icache ip).inum { fs.node ip with major := major, minor := minor, nlink := 1 }
  if type = .dir then createDots dp ip else pure ()
  let fs ← Prog.get
  let r ← dirlink dp name (fs.icache ip).inum
  if r < 0 then
    Prog.stop .createDirlink
  else do
    iunlockput dp
    pure ip

def create (cwd : Ip) (path : List Char) (type : IType) (major minor : Int) :
    FsM (Option Ip) := do
  match ← nameiparent cwd path with
  | none => pure none
  | some (dp, name) => do
      ilock dp
      match ← dirlookup dp name with
      | some (ip, _) => do
          iunlockput dp
          ilock ip
          let fs ← Prog.get
          if type = .file ∧ (fs.node ip).type = .file then
            pure (some ip)
          else do
            iunlockput ip
            pure none
      | none => do
          let ip ← createNew dp name type major minor
          pure (some ip)

def oWronly : BitVec 32 := 0x001

def oRdwr : BitVec 32 := 0x002

def oCreate : BitVec 32 := 0x200

/-- The inode that `sys_open` opens. -/
def openInode (cwd : Ip) (path : List Char) (omode : BitVec 32) : FsM (Option Ip) := do
  if omode &&& oCreate ≠ 0 then
    create cwd path .file 0 0
  else do
    match ← namei cwd path with
    | none => pure none
    | some ip => do
        ilock ip
        let fs ← Prog.get
        if (fs.node ip).type = .dir ∧ omode ≠ 0 then do
          iunlockput ip
          pure none
        else
          pure (some ip)

def sysOpen (p : Pid) (cwd : Ip) (path : List Char) (omode : BitVec 32) : SysM Int := do
  match ← onFs (openInode cwd path omode) with
  | none => pure (-1)
  | some ip => do
      match ← filealloc with
      | none => do
          onFs (iunlockput ip)
          pure (-1)
      | some f => do
          match ← fdalloc p f with
          | none => do
              fileclose f
              onFs (iunlockput ip)
              pure (-1)
          | some fd => do
              Prog.modify fun st => st.setFile f
                { st.file f with
                  kind := .inode ip
                  off := 0
                  readable := omode &&& oWronly = 0
                  writable := omode &&& oWronly ≠ 0 ∨ omode &&& oRdwr ≠ 0 }
              pure fd.val

def sysMkdir (cwd : Ip) (path : List Char) : FsM Int := do
  match ← create cwd path .dir 0 0 with
  | none => pure (-1)
  | some ip => do
      iunlockput ip
      pure 0

def sysMknod (cwd : Ip) (path : List Char) (major minor : Int) : FsM Int := do
  match ← create cwd path .dev (short major) (short minor) with
  | none => pure (-1)
  | some ip => do
      iunlockput ip
      pure 0

def sysChdir (p : Pid) (cwd : Ip) (path : List Char) : SysM Int := do
  match ← onFs (namei cwd path) with
  | none => pure (-1)
  | some ip => do
      onFs (ilock ip)
      let st ← Prog.get
      if (st.fs.node ip).type ≠ .dir then do
        onFs (iunlockput ip)
        pure (-1)
      else do
        onFs (iput cwd)
        Prog.modify (·.setCwd p (some ip))
        pure 0

/-- `exec`, as far as files go: every way out after `ilock` passes one `iunlockput`. -/
def exec (cwd : Ip) (path : List Char) (ok : Bool) : FsM Int := do
  match ← namei cwd path with
  | none => pure (-1)
  | some ip => do
      ilock ip
      iunlockput ip
      pure (if ok then 0 else -1)

def sysPipe (p : Pid) (page : Option Nat) : SysM Int := do
  match ← pipealloc page with
  | none => pure (-1)
  | some (rf, wf) => do
      match ← fdalloc p rf with
      | none => do
          fileclose rf
          fileclose wf
          pure (-1)
      | some fd0 => do
          match ← fdalloc p wf with
          | none => do
              Prog.modify (·.setOfile p fd0 none)
              fileclose rf
              fileclose wf
              pure (-1)
          | some _ => pure 0

/-! ## `fork` and `exit` -/

/-- The loop of `fork` over the open files of the parent `p`. -/
def dupAll (p np : Pid) : List Fd → SysM Unit
  | [] => pure ()
  | fd :: fds => do
      let st ← Prog.get
      match st.ofile p fd with
      | some f => do
          let f ← filedup f
          Prog.modify (·.setOfile np fd (some f))
          dupAll p np fds
      | none => dupAll p np fds

/-- `fork` with the slot of the child; none if `allocproc` or `copyuvm` fails. -/
def fork (p : Pid) (cwd : Ip) (child : Option Pid) : SysM Int := do
  match child with
  | none => pure (-1)
  | some np => do
      dupAll p np (List.finRange 16)
      let cwd ← onFs (idup cwd)
      Prog.modify (·.setCwd np (some cwd))
      pure np.val

/-- The loop of `exit` over the open files. -/
def closeAll (p : Pid) : List Fd → SysM Unit
  | [] => pure ()
  | fd :: fds => do
      let st ← Prog.get
      match st.ofile p fd with
      | some f => do
          fileclose f
          Prog.modify (·.setOfile p fd none)
          closeAll p fds
      | none => closeAll p fds

def exit (p : Pid) (cwd : Ip) : SysM Unit := do
  let st ← Prog.get
  if p = st.initproc then
    Prog.stop .initExiting
  else do
    closeAll p (List.finRange 16)
    onFs (iput cwd)
    Prog.modify (·.setCwd p none)

/-! ## Runs of calls -/

/-- A call with its arguments and the outcomes it does not decide by itself. -/
inductive Call
  | link (old new : List Char)
  | unlink (path : List Char)
  | mkdir (path : List Char)
  | mknod (path : List Char) (major minor : Int)
  | open (path : List Char) (omode : BitVec 32)
  | chdir (path : List Char)
  | close (fd : Int)
  | dup (fd : Int)
  | pipe (page : Option Nat)
  | exec (path : List Char) (ok : Bool)
  | fork (child : Option Pid)
  | exit

/-- The outcome is one that `kalloc` and `allocproc` can have: a page that is not in use, a slot that
    is not in use. (`wait` is left out: the slot of an exited process may be found at once.) -/
def Call.possible (st : St) : Call → Bool
  | .pipe (some page) => (st.pipe page).isNone
  | .fork (some child) => (st.cwd child).isNone
  | _ => true

/-- The call, made by process `p` with current directory `cwd`. -/
def Call.run (p : Pid) (cwd : Ip) : Call → SysM Int
  | .link old new => onFs (sysLink cwd old new)
  | .unlink path => onFs (sysUnlink cwd path)
  | .mkdir path => onFs (sysMkdir cwd path)
  | .mknod path major minor => onFs (sysMknod cwd path major minor)
  | .open path omode => sysOpen p cwd path omode
  | .chdir path => sysChdir p cwd path
  | .close fd => sysClose p fd
  | .dup fd => sysDup p fd
  | .pipe page => sysPipe p page
  | .exec path ok => onFs (FileSys.exec cwd path ok)
  | .fork child => FileSys.fork p cwd child
  | .exit => do
      FileSys.exit p cwd
      pure 0

/-- The machine between calls. -/
inductive Machine
  | running (st : St)
  | panicked (e : Panic)

/-- The machine after a call of process `p`; a slot that is not in use makes no calls. -/
def next : Machine → Pid × Call → Option Machine
  | .panicked _, _ => none
  | .running st, (p, call) =>
      match st.cwd p with
      | none => none
      | some cwd =>
          if call.possible st then
            match (call.run p cwd st).2 with
            | .ok (_, st') => some (.running st')
            | .error e => some (.panicked e)
          else
            none

/-- The step relation of the calls. -/
def Step (s : Machine) (a : Pid × Call) (s' : Machine) : Prop := next s a = some s'

/-- The first slot of the inode cache. -/
def rootSlot : Ip := ⟨0, nInode_pos⟩

/-- The first process, in the root directory of a file system that holds nothing else. -/
def boot : St where
  fs :=
    { ninodes := 200
      inode := fun i =>
        if i = rootIno then
          { type := .dir, major := 0, minor := 0, nlink := 1,
            entries := [⟨rootIno, ['.']⟩, ⟨rootIno, ['.', '.']⟩] }
        else
          { type := .free, major := 0, minor := 0, nlink := 0, entries := [] }
      icache := fun ip =>
        if ip = rootSlot then { inum := rootIno, ref := 1, valid := false }
        else { inum := 0, ref := 0, valid := false } }
  file := fun _ => { ref := 0, kind := .none, readable := false, writable := false, off := 0 }
  pipe := fun _ => none
  ofile := fun _ _ => none
  cwd := fun p => if p = 0 then some rootSlot else none
  initproc := 0

end Cs350.FileSys
