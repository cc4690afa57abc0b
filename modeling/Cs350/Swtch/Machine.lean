import Cs350.Lib.ByteMemory
import Cs350.Lib.Transition

set_option autoImplicit false

/-! # The context switch (`swtch.S`, and the stack that `allocproc` makes)

`swtch` pushes four registers on the stack of its caller, records the stack pointer, and pops the
registers of another thread from the stack of that one. The machine has the registers that are
involved and a memory of bytes. What a thread does between two calls is not fixed, except that it
leaves alone what belongs to the threads that are not running: their stacks from the saved frame on,
and the pointers to these frames (`fork` still writes the trap frame of the new thread). Only one CPU
is modelled; interrupts are off around a switch. -/

namespace Cs350.Swtch

structure Regs where
  eip : UInt32
  esp : UInt32
  ebp : UInt32
  ebx : UInt32
  esi : UInt32
  edi : UInt32
  eax : UInt32
  edx : UInt32

structure Machine where
  regs : Regs
  mem : Mem

namespace Machine

/-- The word at an address. -/
def word (m : Machine) (a : UInt32) : UInt32 := UInt32.ofNat (m.mem.load a.toNat 4)

def put (m : Machine) (a v : UInt32) : Machine :=
  { m with mem := m.mem.store a.toNat 4 v.toNat }

def pushl (m : Machine) (v : UInt32) : Machine :=
  let esp := m.regs.esp - 4
  { m with regs := { m.regs with esp := esp } }.put esp v

/-- The word on top of the stack, and the machine without it. -/
def popl (m : Machine) : UInt32 × Machine :=
  (m.word m.regs.esp, { m with regs := { m.regs with esp := m.regs.esp + 4 } })

end Machine

/-- `swtch`, up to the switch of the stacks. -/
def saveRegs (m : Machine) : Machine :=
  let m := { m with regs := { m.regs with eax := m.word (m.regs.esp + 4) } }
  let m := { m with regs := { m.regs with edx := m.word (m.regs.esp + 8) } }
  -- Save old callee-save registers
  let m := m.pushl m.regs.ebp
  let m := m.pushl m.regs.ebx
  let m := m.pushl m.regs.esi
  let m := m.pushl m.regs.edi
  -- Switch stacks
  m.put m.regs.eax m.regs.esp

/-- The rest of `swtch`. -/
def loadRegs (m : Machine) : Machine :=
  let m := { m with regs := { m.regs with esp := m.regs.edx } }
  -- Load new callee-save registers
  let (v, m) := m.popl
  let m := { m with regs := { m.regs with edi := v } }
  let (v, m) := m.popl
  let m := { m with regs := { m.regs with esi := v } }
  let (v, m) := m.popl
  let m := { m with regs := { m.regs with ebx := v } }
  let (v, m) := m.popl
  let m := { m with regs := { m.regs with ebp := v } }
  let (v, m) := m.popl
  { m with regs := { m.regs with eip := v } }

def swtch (m : Machine) : Machine := loadRegs (saveRegs m)

/-- `swtch(old, new)`, called from where `ret` is next. -/
def callSwtch (m : Machine) (old new ret : UInt32) : Machine :=
  swtch (((m.pushl new).pushl old).pushl ret)

/-! ## Threads -/

/-- `KSTACKSIZE` -/
def kstackSize : Nat := 4096

/-- `sizeof *p->tf` -/
def trapframeSize : Nat := 76

/-- `sizeof *p->context` -/
def contextSize : Nat := 20

/-- Where the threads have their stacks, and the pointers to their contexts: `p->context`, and
    `c->scheduler` for the scheduler. A page that is freed may become the stack of another thread. -/
structure Layout (T : Type) where
  kstack : T → Nat
  context : T → Nat
  kstack_lt : ∀ t, kstack t + kstackSize < 2 ^ 32
  context_lt : ∀ t, context t + 4 < 2 ^ 32
  outside : ∀ t u, context t + 4 ≤ kstack u ∨ kstack u + kstackSize ≤ context t

/-- The top of the stack. -/
def Layout.top {T : Type} (L : Layout T) (t : T) : Nat := L.kstack t + kstackSize

/-- The threads share neither a stack nor a pointer. -/
structure Layout.Apart {T : Type} (L : Layout T) (t u : T) : Prop where
  kstack : L.kstack t + kstackSize ≤ L.kstack u ∨ L.kstack u + kstackSize ≤ L.kstack t
  context : L.context t + 4 ≤ L.context u ∨ L.context u + 4 ≤ L.context t

/-- What `allocproc` writes for a new thread: the address of `trapret` under the trap frame, and a
    context that begins in `forkret`. -/
def allocproc {T : Type} (L : Layout T) (forkret trapret : UInt32) (t : T) (mem : Mem) : Mem :=
  let sp := L.top t
  -- Leave room for trap frame.
  let sp := sp - trapframeSize
  -- Set up new context to start executing at forkret, which returns to trapret.
  let sp := sp - 4
  let mem := mem.store sp 4 trapret.toNat
  let sp := sp - contextSize
  let mem := mem.store (L.context t) 4 sp
  (mem.memset sp 0 contextSize).store (sp + 16) 4 forkret.toNat

/-- A thread that is not running: the registers and the stack that it goes on with. The stack is kept
    up to `bound`. -/
structure Saved where
  bound : Nat
  eip : UInt32
  esp : UInt32
  ebp : UInt32
  ebx : UInt32
  esi : UInt32
  edi : UInt32
  mem : Mem

/-- `saved` is history: no step computes with it. -/
structure St (T : Type) where
  m : Machine
  running : T
  saved : T → Option Saved

inductive Act (T : Type)
  /-- the running thread gets to its next call -/
  | compute
  /-- it makes a new thread -/
  | allocproc (t : T)
  /-- it switches to another thread, and would go on at `ret` -/
  | swtch (t : T) (ret : UInt32)
  /-- it frees the stack of a thread that has exited -/
  | kfree (t : T)

section Steps

variable {T : Type} [DecidableEq T]

/-- The thread has a stack. -/
def St.Live (s : St T) (t : T) : Prop := t = s.running ∨ (s.saved t).isSome

/-- What the code of the running thread leaves alone. -/
def Kept (L : Layout T) (s : St T) (mem : Mem) : Prop :=
  ∀ t σ, s.saved t = some σ →
    (∀ a, σ.esp.toNat - contextSize ≤ a → a < σ.bound → mem a = s.m.mem a) ∧
    ∀ a, L.context t ≤ a → a < L.context t + 4 → mem a = s.m.mem a

/-- What is kept of the running thread when it calls `swtch` and would go on at `ret`. -/
def St.save (L : Layout T) (s : St T) (ret : UInt32) (mem : Mem) : Saved where
  bound := L.top s.running
  eip := ret
  esp := s.m.regs.esp - 8
  ebp := s.m.regs.ebp
  ebx := s.m.regs.ebx
  esi := s.m.regs.esi
  edi := s.m.regs.edi
  mem := mem

/-- What a new thread begins with. Its trap frame is filled in by its parent. -/
def newThread (L : Layout T) (forkret : UInt32) (t : T) (mem : Mem) : Saved where
  bound := L.top t - trapframeSize
  eip := forkret
  esp := UInt32.ofNat (L.top t - trapframeSize - 4)
  ebp := 0
  ebx := 0
  esi := 0
  edi := 0
  mem := mem

/-- The machine after the switch to `t`. -/
def St.switch (L : Layout T) (s : St T) (t : T) (ret : UInt32) : Machine :=
  callSwtch s.m (UInt32.ofNat (L.context s.running))
    (s.m.word (UInt32.ofNat (L.context t))) ret

inductive Step (L : Layout T) (forkret trapret : UInt32) : St T → Act T → St T → Prop
  | compute {s : St T} {m : Machine} (hkept : Kept L s m.mem) :
      Step L forkret trapret s .compute { s with m := m }
  /-- the stack is a page that was free -/
  | allocproc {s : St T} {t : T} {mem : Mem} (hnew : ¬s.Live t) (hapart : ∀ u, s.Live u → L.Apart t u)
      (hmem : mem = Swtch.allocproc L forkret trapret t s.m.mem) :
      Step L forkret trapret s (.allocproc t)
        { s with
          m := { s.m with mem := mem }
          saved := Function.update s.saved t (some (newThread L forkret t mem)) }
  /-- there is room on the stack for the call -/
  | swtch {s : St T} {t : T} {ret : UInt32} {m : Machine} (hsaved : (s.saved t).isSome)
      (hroom : L.kstack s.running + 28 ≤ s.m.regs.esp.toNat)
      (htop : s.m.regs.esp.toNat ≤ L.top s.running) (hm : m = s.switch L t ret) :
      Step L forkret trapret s (.swtch t ret)
        { m := m
          running := t
          saved := Function.update (Function.update s.saved s.running (some (s.save L ret m.mem))) t
            none }
  | kfree {s : St T} {t : T} (hne : t ≠ s.running) :
      Step L forkret trapret s (.kfree t) { s with saved := Function.update s.saved t none }

end Steps

end Cs350.Swtch
