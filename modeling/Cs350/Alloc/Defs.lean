import Cs350.Lib.ByteMemory

set_option autoImplicit false

/-! # The first-fit heap allocator (`my_malloc`, `my_free`, `my_realloc`)

A translation of `my_mem_allocator.c`, `my_malloc.c`, `my_free.c` and `my_realloc.c` onto a byte
memory. Pointers are addresses, `0` is `NULL`, and the two globals `my_heap` and `fl_head` are the
other fields of `Heap`. A `BLOCK_HDR` occupies 16 bytes: `int size` at offset 0 and `void *next` at
offset 8. Address and `size_t` arithmetic is modulo `2 ^ 64`, stores to `size` keep the low 32 bits,
and reading `size` in a `size_t` expression sign-extends it.

The walks over the free list are fuelled; `none` stands for a call that does not return (the walk
does not end within the fuel, or `coalesce` dereferences a null `fl_head`). -/

namespace Cs350.Alloc

/-- `MY_HEAP_SIZE`: the heap is 1 MB. -/
def myHeapSize : Nat := 0x100000

/-- `MAGIC_NUM`, kept in the `next` field of an allocated block. -/
def magicNum : Nat := 0x87654321

/-- `sizeof(BLOCK_HDR)`. -/
def hdrSize : Nat := 16

/-- Wrap-around of `unsigned long` and `size_t` arithmetic. -/
def ulong (x : Nat) : Nat := x % 2 ^ 64

/-- The conversion of an `int` (given by its 32 bits) to `size_t`: sign extension. -/
def sizeT (v : Nat) : Nat := if v < 2 ^ 31 then v else v + (2 ^ 64 - 2 ^ 32)

/-- The memory and the allocator's globals. -/
structure Heap where
  mem : Mem
  myHeap : Nat
  flHead : Nat

namespace Heap

/-- `b->size`, as stored. -/
def size (h : Heap) (b : Nat) : Nat := h.mem.load b 4

/-- `b->next`. -/
def next (h : Heap) (b : Nat) : Nat := h.mem.load (b + 8) 8

/-- `b->size = v`. -/
def setSize (h : Heap) (b v : Nat) : Heap := { h with mem := h.mem.store b 4 v }

/-- `b->next = v`. -/
def setNext (h : Heap) (b v : Nat) : Heap := { h with mem := h.mem.store (b + 8) 8 v }

/-- `fl_head = b`. -/
def setFlHead (h : Heap) (b : Nat) : Heap := { h with flHead := b }

end Heap

/-- `my_mem_allocator_init`, given the memory and the pointer that the C library's `malloc`
    returned for the heap; `none` is the failure return. -/
def myMemAllocatorInit (m : Mem) (p : Nat) : Option Heap :=
  if p = 0 then none
  else
    let h : Heap :=
      { mem := fun a => if p ≤ a ∧ a < p + myHeapSize then 0 else m a, myHeap := p, flHead := p }
    some ((h.setSize p (myHeapSize - hdrSize)).setNext p 0)

/-- `split`: cut `b` after `size` usable bytes; the rest becomes a block of its own. -/
def split (b size : Nat) (h : Heap) : Nat × Heap :=
  let newBlock := ulong (ulong (b + hdrSize) + size)
  let h := h.setSize newBlock (ulong (sizeT (h.size b) + (2 ^ 64 - ulong (hdrSize + size))))
  (newBlock, h.setSize b size)

/-- `fl_remove`. -/
def flRemove (b prev : Nat) (h : Heap) : Heap :=
  if prev = 0 then
    if h.next b ≠ 0 then h.setFlHead (h.next b) else h.setFlHead 0
  else h.setNext prev (h.next b)

/-- The walk of `fl_insert` to the last list node below `b`. -/
def flInsertWalk (b : Nat) (h : Heap) : Nat → Nat → Option Nat
  | 0, _ => none
  | fuel + 1, p => if h.next p ≠ 0 ∧ h.next p < b then flInsertWalk b h fuel (h.next p) else some p

/-- `fl_insert`. Its parameter `prev` is overwritten before use, and `my_free` does not pass it. -/
def flInsert (fuel b : Nat) (h : Heap) : Option Heap :=
  let h := h.setNext b 0
  if h.flHead = 0 ∨ h.flHead > b then some ((h.setNext b h.flHead).setFlHead b)
  else
    (flInsertWalk b h fuel h.flHead).map fun p => (h.setNext b (h.next p)).setNext p b

/-- The search loop of `my_malloc`; the result is `usr_ptr` and the heap. The loop counter `k`
    bounds the search, `fuel` the walks of `fl_insert`. -/
def myMallocLoop (fuel size : Nat) (h : Heap) : Nat → Nat → Nat → Option (Nat × Heap)
  | 0, _, _ => none
  | k + 1, p, prev =>
    if p = 0 then some (0, h)
    else if sizeT (h.size p) ≥ ulong (size + hdrSize) then
      let usrPtr := ulong (p + hdrSize)
      let h := (flRemove p prev h).setNext p magicNum
      if sizeT (h.size p) = size then some (usrPtr, h)
      else
        let (newBlock, h) := split p size h
        (flInsert fuel newBlock h).map fun h => (usrPtr, h)
    else myMallocLoop fuel size h k (h.next p) p

/-- `my_malloc`. -/
def myMalloc (fuel size : Nat) (h : Heap) : Option (Nat × Heap) :=
  if h.flHead = 0 then some (0, h) else myMallocLoop fuel size h fuel h.flHead 0

/-- Add the block `next` (header included) to `p` and unlink it. -/
def absorb (p next : Nat) (h : Heap) : Heap :=
  let h := h.setSize p (sizeT (h.size p) + (sizeT (h.size next) + hdrSize))
  h.setNext p (h.next next)

/-- The merging loop of `coalesce`. -/
def coalesceLoop : Nat → Nat → Heap → Option Heap
  | 0, _, _ => none
  | fuel + 1, p, h =>
    if h.next p = 0 then some h
    else
      let headerNext := h.next p
      let h := if p < h.flHead then h.setFlHead p else h
      let h :=
        if ulong (p + sizeT (h.size p) + hdrSize) = headerNext then absorb p (h.next p) h else h
      if h.next p = 0 then some h else coalesceLoop fuel (h.next p) h

/-- `coalesce`: the loop, then one more merge at the head of the list, which is not guarded by
    any comparison of addresses. -/
def coalesce (fuel : Nat) (h : Heap) : Option Heap :=
  if h.flHead = 0 then none
  else
    (coalesceLoop fuel h.flHead h).map fun h =>
      if h.next h.flHead ≠ 0 then absorb h.flHead (h.next h.flHead) h else h

/-- `my_free`. -/
def myFree (fuel ptr : Nat) (h : Heap) : Option Heap :=
  (flInsert fuel (ulong (ptr + (2 ^ 64 - hdrSize))) h).bind (coalesce fuel)

/-- `my_realloc`. -/
def myRealloc (fuel ptr size : Nat) (h : Heap) : Option (Nat × Heap) :=
  if ptr = 0 then myMalloc fuel size h
  else
    let bsize := sizeT (h.size (ulong (ptr + (2 ^ 64 - hdrSize))))
    if size > bsize then
      (myMalloc fuel size h).bind fun (usrPtr, h) =>
        if usrPtr = 0 then some (0, h)
        else
          let h := { h with mem := h.mem.copy usrPtr ptr bsize }
          (myFree fuel ptr h).map fun h => (usrPtr, h)
    else some (ptr, h)

end Cs350.Alloc
