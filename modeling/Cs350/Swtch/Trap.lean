import Cs350.Swtch.Machine

set_option autoImplicit false

/-! # Entering and leaving the kernel (`vectors.S`, `trapasm.S`)

A trap pushes the registers that the hardware saves, the entry point pushes the trap number, and
`alltraps` pushes the rest, in the order of `struct trapframe`; `trapret` pops them again. What
`trap` and the code under it do in between is not fixed: the theorems say what holds if they return
to `alltraps` and leave the frame alone, but for the fields they mean to change. -/

namespace Cs350.Swtch

@[ext]
structure Cpu where
  edi : UInt32
  esi : UInt32
  ebp : UInt32
  esp : UInt32
  ebx : UInt32
  edx : UInt32
  ecx : UInt32
  eax : UInt32
  gs : UInt16
  fs : UInt16
  es : UInt16
  ds : UInt16
  ss : UInt16
  cs : UInt16
  eip : UInt32
  eflags : UInt32

structure Core where
  cpu : Cpu
  mem : Mem

/-- `SEG_KCODE << 3` -/
def segKcode : UInt16 := 8

/-- `SEG_KDATA << 3` -/
def segKdata : UInt16 := 16

/-- `FL_IF` -/
def flIf : UInt32 := 0x200

namespace Core

def word (c : Core) (a : UInt32) : UInt32 := UInt32.ofNat (c.mem.load a.toNat 4)

def pushl (c : Core) (v : UInt32) : Core where
  cpu := { c.cpu with esp := c.cpu.esp - 4 }
  mem := c.mem.store (c.cpu.esp - 4).toNat 4 v.toNat

/-- The word on top of the stack, and the core without it. -/
def popl (c : Core) : UInt32 × Core :=
  (c.word c.cpu.esp, { c with cpu := { c.cpu with esp := c.cpu.esp + 4 } })

/-- The code runs with the rights of a user program. -/
def user (c : Core) : Bool := c.cpu.cs &&& 3 != 0

end Core

/-! ## The way in -/

/-- The processor pushes an error code with these traps. -/
def hasErr (i : UInt32) : Bool := i == 8 || (10 ≤ i && i ≤ 14) || i == 17

/-- What the processor does on a trap: it comes to the kernel stack that ends at `esp0`, or stays on
    the one that it is on, and goes on at the gate. -/
def intr (esp0 : UInt32) (istrap : Bool) (gate i err : UInt32) (c : Core) : Core :=
  let u := c.cpu
  let c := if c.user then
      ({ c with cpu := { u with ss := segKdata, esp := esp0 } }.pushl u.ss.toUInt32).pushl u.esp
    else c
  let c := c.pushl u.eflags
  let c := c.pushl u.cs.toUInt32
  let c := c.pushl u.eip
  let c := { c with
    cpu := { c.cpu with
      cs := segKcode
      eip := gate
      eflags := if istrap then u.eflags else u.eflags &&& ~~~flIf } }
  if hasErr i then c.pushl err else c

/-- `vector0`, `vector1`, ... -/
def vector (i : UInt32) (c : Core) : Core :=
  let c := if !hasErr i then c.pushl 0 else c
  c.pushl i

def pushal (c : Core) : Core :=
  let u := c.cpu
  let c := c.pushl u.eax
  let c := c.pushl u.ecx
  let c := c.pushl u.edx
  let c := c.pushl u.ebx
  let c := c.pushl u.esp
  let c := c.pushl u.ebp
  let c := c.pushl u.esi
  c.pushl u.edi

/-- `alltraps`, up to the call of `trap`; `ret` is the address behind it. -/
def alltraps (ret : UInt32) (c : Core) : Core :=
  -- Build trap frame.
  let c := c.pushl c.cpu.ds.toUInt32
  let c := c.pushl c.cpu.es.toUInt32
  let c := c.pushl c.cpu.fs.toUInt32
  let c := c.pushl c.cpu.gs.toUInt32
  let c := pushal c
  -- Set up data segments.
  let ax := segKdata
  let c := { c with
    cpu := { c.cpu with
      eax := (c.cpu.eax &&& 0xffff0000) ||| ax.toUInt32
      ds := ax
      es := ax } }
  -- Call trap(tf), where tf=%esp
  let c := c.pushl c.cpu.esp
  c.pushl ret

/-- From a trap to the first instruction of `trap`. -/
def enter (esp0 : UInt32) (istrap : Bool) (gate ret i err : UInt32) (c : Core) : Core :=
  alltraps ret (vector i (intr esp0 istrap gate i err c))

/-! ## The way out -/

def popal (c : Core) : Core :=
  let (v, c) := c.popl
  let c := { c with cpu := { c.cpu with edi := v } }
  let (v, c) := c.popl
  let c := { c with cpu := { c.cpu with esi := v } }
  let (v, c) := c.popl
  let c := { c with cpu := { c.cpu with ebp := v } }
  -- the stack pointer is skipped
  let (_, c) := c.popl
  let (v, c) := c.popl
  let c := { c with cpu := { c.cpu with ebx := v } }
  let (v, c) := c.popl
  let c := { c with cpu := { c.cpu with edx := v } }
  let (v, c) := c.popl
  let c := { c with cpu := { c.cpu with ecx := v } }
  let (v, c) := c.popl
  { c with cpu := { c.cpu with eax := v } }

/-- It pops a new stack only when it leaves the kernel. -/
def iret (c : Core) : Core :=
  let (v, c) := c.popl
  let c := { c with cpu := { c.cpu with eip := v } }
  let (v, c) := c.popl
  let c := { c with cpu := { c.cpu with cs := v.toUInt16 } }
  let (v, c) := c.popl
  let c := { c with cpu := { c.cpu with eflags := v } }
  if c.user then
    let (sp, c) := c.popl
    let (v, c) := c.popl
    { c with cpu := { c.cpu with esp := sp, ss := v.toUInt16 } }
  else c

def trapret (c : Core) : Core :=
  let c := popal c
  let (v, c) := c.popl
  let c := { c with cpu := { c.cpu with gs := v.toUInt16 } }
  let (v, c) := c.popl
  let c := { c with cpu := { c.cpu with fs := v.toUInt16 } }
  let (v, c) := c.popl
  let c := { c with cpu := { c.cpu with es := v.toUInt16 } }
  let (v, c) := c.popl
  let c := { c with cpu := { c.cpu with ds := v.toUInt16 } }
  -- trapno and errcode
  let c := { c with cpu := { c.cpu with esp := c.cpu.esp + 8 } }
  iret c

/-- What `alltraps` does when `trap` has returned to it. -/
def leave (c : Core) : Core :=
  trapret { c with cpu := { c.cpu with esp := c.cpu.esp + 4 } }

/-! ## The frame -/

/-- `struct trapframe` -/
structure Trapframe where
  edi : UInt32
  esi : UInt32
  ebp : UInt32
  oesp : UInt32
  ebx : UInt32
  edx : UInt32
  ecx : UInt32
  eax : UInt32
  gs : UInt16
  fs : UInt16
  es : UInt16
  ds : UInt16
  trapno : UInt32
  err : UInt32
  eip : UInt32
  cs : UInt16
  eflags : UInt32
  esp : UInt32
  ss : UInt16

/-- The structure at an address, with two bytes of padding behind each of the short fields. -/
def trapframeAt (mem : Mem) (a : Nat) : Trapframe where
  edi := UInt32.ofNat (mem.load a 4)
  esi := UInt32.ofNat (mem.load (a + 4) 4)
  ebp := UInt32.ofNat (mem.load (a + 8) 4)
  oesp := UInt32.ofNat (mem.load (a + 12) 4)
  ebx := UInt32.ofNat (mem.load (a + 16) 4)
  edx := UInt32.ofNat (mem.load (a + 20) 4)
  ecx := UInt32.ofNat (mem.load (a + 24) 4)
  eax := UInt32.ofNat (mem.load (a + 28) 4)
  gs := UInt16.ofNat (mem.load (a + 32) 2)
  fs := UInt16.ofNat (mem.load (a + 36) 2)
  es := UInt16.ofNat (mem.load (a + 40) 2)
  ds := UInt16.ofNat (mem.load (a + 44) 2)
  trapno := UInt32.ofNat (mem.load (a + 48) 4)
  err := UInt32.ofNat (mem.load (a + 52) 4)
  eip := UInt32.ofNat (mem.load (a + 56) 4)
  cs := UInt16.ofNat (mem.load (a + 60) 2)
  eflags := UInt32.ofNat (mem.load (a + 64) 4)
  esp := UInt32.ofNat (mem.load (a + 68) 4)
  ss := UInt16.ofNat (mem.load (a + 72) 2)

end Cs350.Swtch
