import Cs350.Lib.ByteMemory
import Cs350.Lib.LinkedCycle
import Cs350.Lib.Transition

set_option autoImplicit false

/-! # The allocator of the user library (`umalloc.c`)

A translation of `malloc`, `free` and `morecore` onto a byte memory. Pointers are addresses, `0` is
the null pointer, and `base` and `freep` are the globals. A `Header` occupies 8 bytes, `ptr` at
offset 0 and `size`, in units of a header, at offset 4. Arithmetic is modulo `2 ^ 32`.

`sbrk` is a parameter: from the end of the process's memory and the number of bytes it gives the
address of the new memory, or `none` if it fails. The loops are fuelled; `none` stands for a call
that does not return within the fuel. -/

namespace Cs350.Umalloc

open Transition

/-- `sizeof(Header)` -/
def hdrSize : Nat := 8

/-- Wrap-around of `uint`. -/
def uint (x : Nat) : Nat := x % 2 ^ 32

/-- A block: the address of its header, and its size in units, header included. -/
structure Block where
  addr : Nat
  size : Nat
deriving DecidableEq

/-- The first address behind the block. -/
def Block.stop (b : Block) : Nat := b.addr + hdrSize * b.size

structure Heap where
  mem : Mem
  /-- `&base` -/
  base : Nat
  freep : Nat
  /-- the end of the process's memory -/
  brk : Nat
  /-- what `morecore` has got from `sbrk` -/
  got : List Block

namespace Heap

/-- `p->s.ptr` -/
def ptr (h : Heap) (p : Nat) : Nat := h.mem.load p 4

/-- `p->s.size` -/
def size (h : Heap) (p : Nat) : Nat := h.mem.load (p + 4) 4

/-- `p->s.ptr = v` -/
def setPtr (h : Heap) (p v : Nat) : Heap := { h with mem := h.mem.store p 4 v }

/-- `p->s.size = v` -/
def setSize (h : Heap) (p v : Nat) : Heap := { h with mem := h.mem.store (p + 4) 4 v }

/-- `p + p->s.size` -/
def upper (h : Heap) (p : Nat) : Nat := uint (p + hdrSize * h.size p)

/-- The loop of `free` ends at `p`: the block `bp` belongs behind it. -/
def Brackets (h : Heap) (bp p : Nat) : Prop :=
  (bp > p ∧ bp < h.ptr p) ∨ (p ≥ h.ptr p ∧ (bp > p ∨ bp < h.ptr p))

instance (h : Heap) (bp p : Nat) : Decidable (h.Brackets bp p) :=
  inferInstanceAs (Decidable (_ ∨ _))

/-- In `free`, join `bp` to the block above it, or link it there. -/
def linkUpper (h : Heap) (bp p : Nat) : Heap :=
  if h.upper bp = h.ptr p then
    let h := h.setSize bp (uint (h.size bp + h.size (h.ptr p)))
    h.setPtr bp (h.ptr (h.ptr p))
  else h.setPtr bp (h.ptr p)

/-- In `free`, join `bp` to the block below it, or link it there. -/
def linkLower (h : Heap) (bp p : Nat) : Heap :=
  if h.upper p = bp then
    let h := h.setSize p (uint (h.size p + h.size bp))
    h.setPtr p (h.ptr bp)
  else h.setPtr p bp

end Heap

/-- `free` -/
def free (fuel ap : Nat) (h : Heap) : Option Heap :=
  let bp := uint (ap + (2 ^ 32 - hdrSize))
  (walk h.ptr (fun p => decide (h.Brackets bp p)) fuel h.freep).map fun p =>
    { (h.linkUpper bp p).linkLower bp p with freep := p }

/-- `morecore` -/
def morecore (fuel nu : Nat) (sbrk : Nat → Nat → Option Nat) (h : Heap) : Option (Nat × Heap) :=
  let nu := if nu < 4096 then 4096 else nu
  match sbrk h.brk (uint (nu * hdrSize)) with
  | none => some (0, h)
  | some p =>
      let h := { h with brk := p + nu * hdrSize, got := ⟨p, nu⟩ :: h.got }
      (free fuel (uint (p + hdrSize)) (h.setSize p nu)).map fun h => (h.freep, h)

/-- What `malloc` does when it has found the block `p`, with `prevp` before it in the list. -/
def take (h : Heap) (prevp p nunits : Nat) : Nat × Heap :=
  if h.size p = nunits then
    let h := h.setPtr prevp (h.ptr p)
    (uint (p + hdrSize), { h with freep := prevp })
  else
    let h := h.setSize p (h.size p - nunits)
    let p := h.upper p
    let h := h.setSize p nunits
    (uint (p + hdrSize), { h with freep := prevp })

/-- The loop of `malloc`; `k` bounds its rounds, `fuel` those of `free`. -/
def mallocLoop (fuel nunits : Nat) (sbrk : Nat → Nat → Option Nat) :
    Nat → Heap → Nat → Nat → Option (Nat × Heap)
  | 0, _, _, _ => none
  | k + 1, h, prevp, p =>
      if h.size p ≥ nunits then some (take h prevp p nunits)
      else if p = h.freep then
        (morecore fuel nunits sbrk h).bind fun (p, h) =>
          if p = 0 then some (0, h) else mallocLoop fuel nunits sbrk k h p (h.ptr p)
      else mallocLoop fuel nunits sbrk k h p (h.ptr p)

/-- `(nbytes + sizeof(Header) - 1)/sizeof(Header) + 1` -/
def nunits (nbytes : Nat) : Nat := uint (nbytes + hdrSize - 1) / hdrSize + 1

/-- `base.s.ptr = freep = &base; base.s.size = 0` -/
def Heap.initList (h : Heap) : Heap :=
  { (h.setPtr h.base h.base).setSize h.base 0 with freep := h.base }

/-- `malloc` -/
def malloc (fuel nbytes : Nat) (sbrk : Nat → Nat → Option Nat) (h : Heap) : Option (Nat × Heap) :=
  let h := if h.freep = 0 then h.initList else h
  mallocLoop fuel (nunits nbytes) sbrk fuel h h.freep (h.ptr h.freep)

/-! ## The program that uses it -/

/-- The heap, and the blocks that are handed out, with the number of bytes asked for. -/
structure State where
  heap : Heap
  live : List (Block × Nat)

/-- The block whose user pointer is `p`. -/
def Block.IsAt (b : Block) (p : Nat) : Prop := b.addr + hdrSize = p

instance (b : Block) (p : Nat) : Decidable (b.IsAt p) := inferInstanceAs (Decidable (_ = _))

inductive Event
  | malloc (nbytes : Nat) (sbrk : Nat → Nat → Option Nat)
  | free (ap : Nat)
  /-- the program writes into a block of its own -/
  | write (a : Nat) (v : UInt8)

namespace State

/-- `malloc` has returned `p`. -/
def hand (s : State) (nbytes p : Nat) (h : Heap) : State :=
  if p = 0 then { s with heap := h }
  else { heap := h, live := (⟨p - hdrSize, h.size (p - hdrSize)⟩, nbytes) :: s.live }

def next (fuel : Nat) (s : State) : Event → Option State
  | .malloc nbytes sbrk =>
      (malloc fuel nbytes sbrk s.heap).map fun (p, h) => s.hand nbytes p h
  | .free ap =>
      (free fuel ap s.heap).map fun h =>
        { heap := h, live := s.live.eraseP fun x => decide (x.1.IsAt ap) }
  | .write a v => some { s with heap := { s.heap with mem := Function.update s.heap.mem a v } }

end State

/-- `sbrk` fails, or returns new memory above everything that the process has, within its address
    space. -/
def Fresh (sbrk : Nat → Nat → Option Nat) : Prop :=
  ∀ brk n p, sbrk brk n = some p → brk ≤ p ∧ p + n < 2 ^ 32

/-- The units asked for do not overflow the `int` argument of `sbrk`; a pointer that is given back
    is that of a block handed out; what is written is behind the header of such a block. -/
def Proper (s : State) : Event → Prop
  | .malloc nbytes sbrk => ((nbytes + 7) / 8 + 1) * hdrSize < 2 ^ 31 ∧ Fresh sbrk
  | .free ap => ∃ x ∈ s.live, x.1.IsAt ap
  | .write a _ => ∃ x ∈ s.live, x.1.addr + hdrSize ≤ a ∧ a < x.1.stop

/-- A step of the program; a call that does not return makes none. -/
def Step (s : State) (e : Event) (s' : State) : Prop := Proper s e ∧ ∃ fuel, s.next fuel e = some s'

/-- The program starts: `base` is a static variable below the end of its memory. -/
structure Start (s : State) : Prop where
  base : 0 < s.heap.base
  brk : s.heap.base + hdrSize ≤ s.heap.brk
  top : s.heap.brk < 2 ^ 32
  freep : s.heap.freep = 0
  got : s.heap.got = []
  live : s.live = []

end Cs350.Umalloc
