import Cs350.Lib.ByteMemory
import Cs350.Lib.Prog
import Cs350.Lib.Transition
import Cs350.Sched.Table

set_option autoImplicit false

/-! # Physical pages and address spaces (`kalloc.c`, `vm.c`, and what uses them)

The physical memory byte by byte, the list of free pages, and the functions that build, copy and
free address spaces, down to the words of page directories and page tables: `kalloc` and `kfree`,
`walkpgdir`, `mappages`, `setupkvm`, `allocuvm`, `deallocuvm`, `freevm`, `copyuvm`, `loaduvm`,
`clearpteu`, `copyout`; and the system calls on top of them, `fork`, `exec`, `growproc`, `exit`,
`wait`, and the two functions that allocate and free the page of a pipe.

Pages are given by their physical page number. The free list is a list: the pointers in the first
bytes of the free pages are left out. Calls run one after another, and a call of `kalloc` may fail
while pages are left. Scheduling, pids, files and trap frames are not part of this model. -/

namespace Cs350.Vm

open Sched (Slot slots ProcState)
open Prog (get modify stop each)

/-! ## Addresses -/

/-- `PGSIZE` -/
def pgSize : Nat := 4096

/-- `EXTMEM` -/
def extMem : Nat := 0x100000

/-- `PHYSTOP` -/
def phyStop : Nat := 0xE000000

/-- `DEVSPACE` -/
def devSpace : Nat := 0xFE000000

/-- `KERNBASE` -/
def kernBase : Nat := 0x80000000

/-- `MAXARG` -/
def maxArg : Nat := 32

/-- Wrap-around of `uint`. -/
def uint (x : Nat) : Nat := x % 2 ^ 32

/-- `PGROUNDUP` -/
def pgRoundUp (x : Nat) : Nat := uint (x + pgSize - 1) / pgSize * pgSize

/-- `PGROUNDDOWN` -/
def pgRoundDown (x : Nat) : Nat := x / pgSize * pgSize

/-- `PDX` -/
def pdx (va : Nat) : Nat := va / 2 ^ 22 % 1024

/-- `PTX` -/
def ptx (va : Nat) : Nat := va / 2 ^ 12 % 1024

/-- Where the linker puts the kernel, in pages of physical memory. -/
structure Layout where
  /-- `V2P(data)` -/
  data : Nat
  /-- the first page after `end` -/
  fin : Nat
  text : extMem / pgSize < data
  data_lt : data < phyStop / pgSize
  fin_le : data ≤ fin ∧ fin ≤ phyStop / pgSize

/-! ## Entries of page directories and page tables -/

/-- `PTE_P` -/
def pteP : Nat := 1

/-- `PTE_W` -/
def pteW : Nat := 2

/-- `PTE_U` -/
def pteU : Nat := 4

/-- `w & PTE_P` -/
def Present (w : Nat) : Prop := w % 2 = 1

/-- `w & PTE_U` -/
def User (w : Nat) : Prop := w / 4 % 2 = 1

instance (w : Nat) : Decidable (Present w) := inferInstanceAs (Decidable (_ = _))

instance (w : Nat) : Decidable (User w) := inferInstanceAs (Decidable (_ = _))

/-- `PTE_ADDR`, as a page number. -/
def pageOf (w : Nat) : Nat := w / pgSize

/-- `PTE_FLAGS` -/
def flagsOf (w : Nat) : Nat := w % pgSize

/-- `w & ~PTE_U` -/
def clearU (w : Nat) : Nat := if User w then w - pteU else w

/-- The page of an entry that is present and open to the user. -/
def userPage (w : Nat) : Option Nat := if Present w ∧ User w then some (pageOf w) else none

/-- The word at index `i` of a page. -/
def entry (m : Mem) (i : Nat) : Nat := m.load (4 * i) 4

/-! ## State -/

/-- The fields of `struct proc` that are used here. -/
structure Proc where
  state : ProcState
  kstack : Nat
  pgdir : Nat
  sz : Nat
  parent : Option Slot

/-- `readopen` and `writeopen` of a pipe. -/
structure Ends where
  readopen : Bool
  writeopen : Bool
deriving DecidableEq

structure State where
  /-- the bytes of each page -/
  mem : Nat → Mem
  /-- `kmem.freelist` -/
  freelist : List Nat
  /-- whether the next calls of `kalloc` fail although there are free pages -/
  fails : List Bool
  proc : Slot → Proc
  initproc : Slot
  kpgdir : Option Nat
  /-- the pipes, by the page that each occupies -/
  pipe : Nat → Option Ends

inductive Panic
  /-- `panic("kfree")` -/
  | kfree
  /-- `panic("remap")` -/
  | remap
  /-- `panic("freevm: no pgdir")` -/
  | freevm
  /-- `panic("copyuvm: pte should exist")` -/
  | copyuvmExist
  /-- `panic("copyuvm: page not present")` -/
  | copyuvmPresent
  /-- `panic("loaduvm: addr must be page aligned")` -/
  | loaduvmAligned
  /-- `panic("loaduvm: address should exist")` -/
  | loaduvmExist
  /-- `panic("clearpteu")` -/
  | clearpteu
  /-- `panic("init exiting")` -/
  | initExiting
  /-- `panic("userinit: out of memory?")` -/
  | userinit
  /-- a page fault or another trap in the kernel -/
  | fault
deriving DecidableEq

abbrev VmM := Prog Panic Empty State

namespace State

/-- The word at index `i` of page `p`. -/
def entry (s : State) (p i : Nat) : Nat := Vm.entry (s.mem p) i

def setEntry (s : State) (p i w : Nat) : State :=
  { s with mem := Function.update s.mem p ((s.mem p).store (4 * i) 4 w) }

/-- Replace the contents of a page. -/
def setPage (s : State) (p : Nat) (m : Mem) : State :=
  { s with mem := Function.update s.mem p m }

def setProc (s : State) (p : Slot) (f : Proc → Proc) : State :=
  { s with proc := Function.update s.proc p (f (s.proc p)) }

end State

/-- `memset(p, v, PGSIZE)` -/
def filled (v : UInt8) : Mem := fun _ => v

/-- Write bytes into a page. -/
def write (m : Mem) (off : Nat) (bytes : List UInt8) : Mem := fun a =>
  if off ≤ a ∧ a < off + bytes.length then bytes.getD (a - off) 0 else m a

/-! ## `kalloc.c` -/

def kalloc : VmM (Option Nat) :=
  get >>= fun s =>
    modify (fun s => { s with fails := s.fails.tail }) >>= fun _ =>
      if s.fails.head? = some true then pure none
      else
        match s.freelist with
        | [] => pure none
        | p :: rest => modify (fun s => { s with freelist := rest }) >>= fun _ => pure (some p)

section Layout

variable (L : Layout)

def kfree (p : Nat) : VmM Unit :=
  if p < L.fin ∨ phyStop / pgSize ≤ p then stop .kfree
  else modify fun s =>
    { s with mem := Function.update s.mem p (filled 1), freelist := p :: s.freelist }

/-! ## `vm.c` -/

/-- `walkpgdir`; the result is the page of the page table and the index in it. -/
def walkpgdir (pgdir va : Nat) (alloc : Bool) : VmM (Option (Nat × Nat)) :=
  get >>= fun s =>
    let pde := s.entry pgdir (pdx va)
    if Present pde then pure (some (pageOf pde, ptx va))
    else if alloc then
      kalloc >>= fun
        | none => pure none
        | some pgtab =>
            modify (fun s => (s.setPage pgtab (filled 0)).setEntry pgdir (pdx va)
              (pgtab * pgSize ||| (pteP ||| pteW ||| pteU))) >>= fun _ =>
              pure (some (pgtab, ptx va))
    else pure none

/-- The loop of `mappages`, for `n` pages. -/
def mapLoop (pgdir perm : Nat) : Nat → Nat → Nat → VmM Bool
  | 0, _, _ => pure true
  | n + 1, a, pa =>
      walkpgdir pgdir a true >>= fun
        | none => pure false
        | some (pgtab, i) =>
            get >>= fun s =>
              if Present (s.entry pgtab i) then stop .remap
              else
                modify (fun s => s.setEntry pgtab i (pa ||| (perm ||| pteP))) >>= fun _ =>
                  mapLoop pgdir perm n (uint (a + pgSize)) (uint (pa + pgSize))

/-- `mappages`; `false` is -1. The loop goes from `a` to `last` in steps of a page. -/
def mappages (pgdir va size pa perm : Nat) : VmM Bool :=
  let a := pgRoundDown va
  let last := pgRoundDown (uint (va + size + (2 ^ 32 - 1)))
  mapLoop pgdir perm (uint (last + (2 ^ 32 - a)) / pgSize + 1) a pa

/-- The loop of `deallocuvm`. There are no more rounds than pages in the address space. -/
def deallocLoop (pgdir oldsz : Nat) : Nat → Nat → VmM Unit
  | 0, _ => pure ()
  | n + 1, a =>
      if a < oldsz then
        walkpgdir pgdir a false >>= fun
          | none => deallocLoop pgdir oldsz n (uint ((pdx a + 1) * 2 ^ 22 - pgSize + pgSize))
          | some (pgtab, i) =>
              get >>= fun s =>
                if Present (s.entry pgtab i) then
                  if pageOf (s.entry pgtab i) = 0 then stop .kfree
                  else
                    kfree L (pageOf (s.entry pgtab i)) >>= fun _ =>
                      modify (fun s => s.setEntry pgtab i 0) >>= fun _ =>
                        deallocLoop pgdir oldsz n (uint (a + pgSize))
                else deallocLoop pgdir oldsz n (uint (a + pgSize))
      else pure ()

def deallocuvm (pgdir oldsz newsz : Nat) : VmM Nat :=
  if newsz ≥ oldsz then pure oldsz
  else deallocLoop L pgdir oldsz (2 ^ 20) (pgRoundUp newsz) >>= fun _ => pure newsz

/-- One round of the second loop of `freevm`. -/
def freeTable (pgdir i : Nat) : VmM Unit :=
  get >>= fun s =>
    if Present (s.entry pgdir i) then kfree L (pageOf (s.entry pgdir i)) else pure ()

def freevm (pgdir : Nat) : VmM Unit :=
  if pgdir = 0 then stop .freevm
  else
    deallocuvm L pgdir kernBase 0 >>= fun _ =>
      each (freeTable L pgdir) (List.range 1024) >>= fun _ => kfree L pgdir

/-- `struct kmap` -/
structure Kmap where
  virt : Nat
  physStart : Nat
  physEnd : Nat
  perm : Nat

/-- `kmap` -/
def kmap : List Kmap :=
  [⟨kernBase, 0, extMem, pteW⟩,
    ⟨kernBase + extMem, extMem, L.data * pgSize, 0⟩,
    ⟨kernBase + L.data * pgSize, L.data * pgSize, phyStop, pteW⟩,
    ⟨devSpace, devSpace, 0, pteW⟩]

/-- The loop of `setupkvm`. -/
def mapKernel (pgdir : Nat) : List Kmap → VmM (Option Nat)
  | [] => pure (some pgdir)
  | k :: ks =>
      mappages pgdir k.virt (uint (k.physEnd + (2 ^ 32 - k.physStart))) k.physStart k.perm >>=
        fun ok =>
          if ok then mapKernel pgdir ks else freevm L pgdir >>= fun _ => pure none

def setupkvm : VmM (Option Nat) :=
  kalloc >>= fun
    | none => pure none
    | some pgdir =>
        modify (fun s => s.setPage pgdir (filled 0)) >>= fun _ => mapKernel L pgdir (kmap L)

/-- The loop of `allocuvm`, for `n` pages from `a` on. -/
def allocLoop (pgdir oldsz newsz : Nat) : Nat → Nat → VmM Nat
  | 0, _ => pure newsz
  | n + 1, a =>
      kalloc >>= fun
        | none => deallocuvm L pgdir newsz oldsz >>= fun _ => pure 0
        | some page =>
            modify (fun s => s.setPage page (filled 0)) >>= fun _ =>
              mappages pgdir a pgSize (page * pgSize) (pteW ||| pteU) >>= fun ok =>
                if ok then allocLoop pgdir oldsz newsz n (a + pgSize)
                else
                  deallocuvm L pgdir newsz oldsz >>= fun _ =>
                    kfree L page >>= fun _ => pure 0

def allocuvm (pgdir oldsz newsz : Nat) : VmM Nat :=
  if newsz ≥ kernBase then pure 0
  else if newsz < oldsz then pure oldsz
  else
    let a := pgRoundUp oldsz
    allocLoop L pgdir oldsz newsz ((newsz - a + (pgSize - 1)) / pgSize) a

/-- The loop of `copyuvm`, for `n` pages from `i` on. -/
def copyLoop (pgdir d : Nat) : Nat → Nat → VmM (Option Nat)
  | 0, _ => pure (some d)
  | n + 1, i =>
      walkpgdir pgdir i false >>= fun
        | none => stop .copyuvmExist
        | some (pgtab, j) =>
            get >>= fun s =>
              let pte := s.entry pgtab j
              if Present pte then
                kalloc >>= fun
                  | none => freevm L d >>= fun _ => pure none
                  | some page =>
                      modify (fun s => s.setPage page (s.mem (pageOf pte))) >>= fun _ =>
                        mappages d i pgSize (page * pgSize) (flagsOf pte) >>= fun ok =>
                          if ok then copyLoop pgdir d n (i + pgSize)
                          else freevm L d >>= fun _ => pure none
              else stop .copyuvmPresent

def copyuvm (pgdir sz : Nat) : VmM (Option Nat) :=
  setupkvm L >>= fun
    | none => pure none
    | some d => copyLoop L pgdir d ((sz + (pgSize - 1)) / pgSize) 0

def clearpteu (pgdir uva : Nat) : VmM Unit :=
  walkpgdir pgdir uva false >>= fun
    | none => stop .clearpteu
    | some (pgtab, i) => modify fun s => s.setEntry pgtab i (clearU (s.entry pgtab i))

/-- `uva2ka`. It reads `*pte` without looking whether `walkpgdir` has found one. If it has not, the
    kernel panics: with the flags of the `Makefile` the compiler ends the path of the null pointer
    in a trap. -/
def uva2ka (pgdir uva : Nat) : VmM (Option Nat) :=
  walkpgdir pgdir uva false >>= fun
    | none => stop .fault
    | some (pgtab, i) => get >>= fun s => pure (userPage (s.entry pgtab i))

/-- The loop of `copyout`. Every round writes at least one byte. -/
def copyoutLoop (pgdir : Nat) : Nat → Nat → List UInt8 → VmM Bool
  | 0, _, _ => pure true
  | n + 1, va, buf =>
      if buf = [] then pure true
      else
        uva2ka pgdir (pgRoundDown va) >>= fun
          | none => pure false
          | some page =>
              let k := min (pgSize - va % pgSize) buf.length
              modify (fun s => s.setPage page (write (s.mem page) (va % pgSize) (buf.take k))) >>=
                fun _ => copyoutLoop pgdir n (uint (pgRoundDown va + pgSize)) (buf.drop k)

/-- `copyout`; `false` is -1. -/
def copyout (pgdir va : Nat) (buf : List UInt8) : VmM Bool :=
  copyoutLoop pgdir buf.length va buf

/-! ## `exec` -/

/-- A program header, and what `readi` gets from the file: of the header itself, and of the segment
    for each of its pages. -/
structure Phdr where
  readOk : Bool
  /-- `ph.type == ELF_PROG_LOAD` -/
  load : Bool
  vaddr : UInt32
  memsz : UInt32
  filesz : UInt32
  data : Nat → List UInt8

/-- The file: whether it is found, whether it has a good header, and its program headers. -/
structure Image where
  found : Bool
  magic : Bool
  phdrs : List Phdr

/-- The loop of `loaduvm`, for `n` pages from page `k` of the segment on. -/
def loadLoop (pgdir addr : Nat) (data : Nat → List UInt8) (sz : Nat) : Nat → Nat → VmM Bool
  | 0, _ => pure true
  | n + 1, k =>
      walkpgdir pgdir (uint (addr + k * pgSize)) false >>= fun
        | none => stop .loaduvmExist
        | some (pgtab, i) =>
            get >>= fun s =>
              let page := pageOf (s.entry pgtab i)
              let want := min pgSize (sz - k * pgSize)
              let got := (data k).take want
              modify (fun s => s.setPage page (write (s.mem page) 0 got)) >>= fun _ =>
                if got.length = want then loadLoop pgdir addr data sz n (k + 1) else pure false

/-- `loaduvm`; `false` is -1. -/
def loaduvm (pgdir addr : Nat) (data : Nat → List UInt8) (sz : Nat) : VmM Bool :=
  if addr % pgSize ≠ 0 then stop .loaduvmAligned
  else loadLoop pgdir addr data sz ((sz + (pgSize - 1)) / pgSize) 0

/-- The loop of `exec` over the program headers; `none` is `goto bad`. -/
def execLoad (pgdir : Nat) : List Phdr → Nat → VmM (Option Nat)
  | [], sz => pure (some sz)
  | ph :: phs, sz =>
      if ph.readOk = false then pure none
      else if ph.load = false then execLoad pgdir phs sz
      else if ph.memsz < ph.filesz then pure none
      else if ph.vaddr + ph.memsz < ph.vaddr then pure none
      else
        allocuvm L pgdir sz (ph.vaddr + ph.memsz).toNat >>= fun sz =>
          if sz = 0 then pure none
          else if ph.vaddr.toNat % pgSize ≠ 0 then pure none
          else
            loaduvm pgdir ph.vaddr.toNat ph.data ph.filesz.toNat >>= fun ok =>
              if ok then execLoad pgdir phs sz else pure none

/-- The loop of `exec` over `argv`: the stack pointer and what goes into `ustack`. -/
def pushArgs (pgdir : Nat) : List (List UInt8) → Nat → List Nat → VmM (Option (Nat × List Nat))
  | [], sp, ustack => pure (some (sp, ustack))
  | arg :: args, sp, ustack =>
      if ustack.length ≥ maxArg then pure none
      else
        let sp := uint (sp + (2 ^ 32 - (arg.length + 1))) / 4 * 4
        copyout pgdir sp (arg ++ [0]) >>= fun ok =>
          if ok then pushArgs pgdir args sp (ustack ++ [sp]) else pure none

/-- The bytes of a word. -/
def bytesOf (w : Nat) : List UInt8 :=
  [UInt8.ofNat w, UInt8.ofNat (w / 2 ^ 8), UInt8.ofNat (w / 2 ^ 16), UInt8.ofNat (w / 2 ^ 24)]

/-- `exec` from the stack on; `none` is `goto bad`. -/
def execStack (pgdir sz : Nat) (argv : List (List UInt8)) : VmM (Option Nat) :=
  let sz := pgRoundUp sz
  allocuvm L pgdir sz (uint (sz + 2 * pgSize)) >>= fun sz =>
    if sz = 0 then pure none
    else
      clearpteu pgdir (sz - 2 * pgSize) >>= fun _ =>
        pushArgs pgdir argv sz [] >>= fun
          | none => pure none
          | some (sp, ustack) =>
              let argc := ustack.length
              let words := [0xffffffff, argc, uint (sp + (2 ^ 32 - (argc + 1) * 4))] ++ ustack ++ [0]
              copyout pgdir (uint (sp + (2 ^ 32 - (3 + argc + 1) * 4)))
                (words.flatMap bytesOf) >>= fun ok =>
                if ok then pure (some sz) else pure none

/-- The label `bad`, with `pgdir` set. -/
def execBad (pgdir : Nat) : VmM Int := freevm L pgdir >>= fun _ => pure (-1)

def exec (cur : Slot) (im : Image) (argv : List (List UInt8)) : VmM Int :=
  if im.found = false ∨ im.magic = false then pure (-1)
  else
    setupkvm L >>= fun
      | none => pure (-1)
      | some pgdir =>
          execLoad L pgdir im.phdrs 0 >>= fun
            | none => execBad L pgdir
            | some sz =>
                execStack L pgdir sz argv >>= fun
                  | none => execBad L pgdir
                  | some sz =>
                      get >>= fun s =>
                        let oldpgdir := (s.proc cur).pgdir
                        modify (fun s => s.setProc cur fun p =>
                          { p with pgdir := pgdir, sz := sz }) >>= fun _ =>
                          freevm L oldpgdir >>= fun _ => pure 0

/-! ## `proc.c` -/

/-- `allocproc` -/
def allocproc : VmM (Option Slot) :=
  get >>= fun s =>
    match slots.find? fun p => (s.proc p).state = .unused with
    | none => pure none
    | some p =>
        modify (fun s => s.setProc p fun q => { q with state := .embryo }) >>= fun _ =>
          kalloc >>= fun
            | none => modify (fun s => s.setProc p fun q =>
                { q with kstack := 0, state := .unused }) >>= fun _ => pure none
            | some page => modify (fun s => s.setProc p fun q =>
                { q with kstack := page }) >>= fun _ => pure (some p)

/-- `fork`: the new process, `none` for -1. -/
def fork (cur : Slot) : VmM (Option Slot) :=
  allocproc >>= fun
    | none => pure none
    | some np =>
        get >>= fun s =>
          copyuvm L (s.proc cur).pgdir (s.proc cur).sz >>= fun
            | none =>
                modify (fun s => s.setProc np fun q => { q with pgdir := 0 }) >>= fun _ =>
                  kfree L (s.proc np).kstack >>= fun _ =>
                    modify (fun s => s.setProc np fun q =>
                      { q with kstack := 0, state := .unused }) >>= fun _ => pure none
            | some d =>
                modify (fun s => s.setProc np fun q =>
                  { q with
                    pgdir := d
                    sz := (s.proc cur).sz
                    parent := some cur
                    state := .runnable }) >>= fun _ => pure (some np)

/-- `growproc`; `false` is -1. -/
def growproc (cur : Slot) (n : Int) : VmM Bool :=
  get >>= fun s =>
    let sz := (s.proc cur).sz
    let newsz := ((sz + n) % 2 ^ 32).toNat
    if n > 0 then
      allocuvm L (s.proc cur).pgdir sz newsz >>= fun sz =>
        if sz = 0 then pure false
        else modify (fun s => s.setProc cur fun q => { q with sz := sz }) >>= fun _ => pure true
    else if n < 0 then
      deallocuvm L (s.proc cur).pgdir sz newsz >>= fun sz =>
        if sz = 0 then pure false
        else modify (fun s => s.setProc cur fun q => { q with sz := sz }) >>= fun _ => pure true
    else pure true

/-- The part of `exit` after the files are closed. -/
def exit (cur : Slot) : VmM Unit :=
  get >>= fun s =>
    if cur = s.initproc then stop .initExiting
    else modify fun s =>
      { s with proc := fun p =>
          let q := if (s.proc p).parent = some cur then { s.proc p with parent := some s.initproc }
            else s.proc p
          if p = cur then { q with state := .zombie } else q }

/-- `wait`, when there is an exited child: its entry. -/
def wait (cur : Slot) : VmM (Option Slot) :=
  get >>= fun s =>
    match slots.find? fun p => (s.proc p).parent = some cur ∧ (s.proc p).state = .zombie with
    | none => pure none
    | some p =>
        kfree L (s.proc p).kstack >>= fun _ =>
          modify (fun s => s.setProc p fun q => { q with kstack := 0 }) >>= fun _ =>
            freevm L (s.proc p).pgdir >>= fun _ =>
              modify (fun s => s.setProc p fun q =>
                { q with parent := none, state := .unused }) >>= fun _ => pure (some p)

/-- `inituvm`. The result of `mappages` is not looked at. -/
def inituvm (pgdir : Nat) (init : List UInt8) : VmM Unit :=
  kalloc >>= fun
    | none => stop .fault
    | some page =>
        modify (fun s => s.setPage page (filled 0)) >>= fun _ =>
          mappages pgdir 0 pgSize (page * pgSize) (pteW ||| pteU) >>= fun _ =>
            modify fun s => s.setPage page (write (s.mem page) 0 init)

/-- `userinit` -/
def userinit (init : List UInt8) : VmM Unit :=
  allocproc >>= fun
    | none => stop .fault
    | some p =>
        modify (fun s => { s with initproc := p }) >>= fun _ =>
          setupkvm L >>= fun
            | none => stop .userinit
            | some d =>
                inituvm d init >>= fun _ =>
                  modify fun s => s.setProc p fun q =>
                    { q with pgdir := d, sz := pgSize, state := .runnable }

/-- `kvmalloc` -/
def kvmalloc : VmM Unit :=
  setupkvm L >>= fun d => modify fun s => { s with kpgdir := d }

/-! ## `pipe.c` -/

/-- `pipealloc`, where `files` says whether there were two free `struct file`s; `false` is -1. -/
def pipealloc (files : Bool) : VmM Bool :=
  if files = false then pure false
  else
    kalloc >>= fun
      | none => pure false
      | some page =>
          modify (fun s => { s with pipe := Function.update s.pipe page (some ⟨true, true⟩) }) >>=
            fun _ => pure true

/-- The ends of a pipe after one of them is closed. -/
def Ends.close (e : Ends) (writable : Bool) : Ends :=
  if writable then { e with writeopen := false } else { e with readopen := false }

/-- `pipeclose` -/
def pipeclose (page : Nat) (writable : Bool) : VmM Unit :=
  get >>= fun s =>
    match s.pipe page with
    | none => pure ()
    | some e =>
        let e := e.close writable
        if e.readopen = false ∧ e.writeopen = false then
          modify (fun s => { s with pipe := Function.update s.pipe page none }) >>= fun _ =>
            kfree L page
        else modify fun s => { s with pipe := Function.update s.pipe page (some e) }

end Layout

end Cs350.Vm
