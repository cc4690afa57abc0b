import Cs350.Alloc.Defs
import Mathlib.Data.List.Pairwise
import Mathlib.Tactic.Common

set_option autoImplicit false

/-! # The free list as a list of blocks

`Block` is a header address with a usable size. `Seg h p bs q` says that following `next` from `p`
visits exactly the blocks `bs` and ends at `q`; `FreeList h bs` is the segment from `fl_head` to
`NULL`. The lemmas here give one specification for each list operation of the allocator in terms
of the lists: `fl_insert` puts a block at its sorted place, `fl_remove` takes one out, `coalesce`
computes `mergeHead (mergePass bs)`, together with the bytes they leave alone. -/

namespace Cs350.Alloc

/-- A block: its header address and the size of its usable space. -/
structure Block where
  addr : Nat
  size : Nat
  deriving DecidableEq, Repr

namespace Block

/-- One past the last byte of the block. -/
def stop (b : Block) : Nat := b.addr + hdrSize + b.size

/-- The two blocks (headers included) have no byte in common. -/
def Apart (b c : Block) : Prop := b.stop ≤ c.addr ∨ c.stop ≤ b.addr

instance (b c : Block) : Decidable (b.Apart c) := inferInstanceAs (Decidable (_ ∨ _))

/-- The block lies in `[base, base + MY_HEAP_SIZE)`. -/
def Inside (base : Nat) (b : Block) : Prop := base ≤ b.addr ∧ b.stop ≤ base + myHeapSize

instance : Std.Symm Block.Apart := ⟨fun _ _ => Or.symm⟩

end Block

/-- The 16 header bytes at `a` and at `b` are disjoint. -/
def HdrApart (a b : Nat) : Prop := a + hdrSize ≤ b ∨ b + hdrSize ≤ a

theorem HdrApart.symm {a b : Nat} (h : HdrApart a b) : HdrApart b a := Or.symm h

/-! ## Reading a header after a write -/

namespace Heap

variable (h : Heap) {a b v : Nat}

@[simp] theorem flHead_setSize : (h.setSize b v).flHead = h.flHead := rfl
@[simp] theorem flHead_setNext : (h.setNext b v).flHead = h.flHead := rfl
@[simp] theorem flHead_setFlHead : (h.setFlHead b).flHead = b := rfl
@[simp] theorem myHeap_setSize : (h.setSize b v).myHeap = h.myHeap := rfl
@[simp] theorem myHeap_setNext : (h.setNext b v).myHeap = h.myHeap := rfl
@[simp] theorem myHeap_setFlHead : (h.setFlHead b).myHeap = h.myHeap := rfl
@[simp] theorem mem_setFlHead : (h.setFlHead b).mem = h.mem := rfl
@[simp] theorem size_setFlHead : (h.setFlHead b).size a = h.size a := rfl
@[simp] theorem next_setFlHead : (h.setFlHead b).next a = h.next a := rfl

theorem size_setSize_self (hv : v < 2 ^ 32) : (h.setSize b v).size b = v := by
  rw [size, setSize, Mem.load_store, Nat.mod_eq_of_lt (by omega)]

theorem size_setSize_of_apart (hab : HdrApart a b) : (h.setSize b v).size a = h.size a :=
  Mem.load_store_of_disjoint _ _ _ _ _ _ (by simp only [HdrApart, hdrSize] at hab; omega)

theorem next_setSize (hab : a = b ∨ HdrApart a b) : (h.setSize b v).next a = h.next a :=
  Mem.load_store_of_disjoint _ _ _ _ _ _ (by simp only [HdrApart, hdrSize] at hab; omega)

theorem next_setNext_self (hv : v < 2 ^ 64) : (h.setNext b v).next b = v := by
  rw [next, setNext, Mem.load_store, Nat.mod_eq_of_lt (by omega)]

theorem next_setNext_of_apart (hab : HdrApart a b) : (h.setNext b v).next a = h.next a :=
  Mem.load_store_of_disjoint _ _ _ _ _ _ (by simp only [HdrApart, hdrSize] at hab; omega)

theorem size_setNext (hab : a = b ∨ HdrApart a b) : (h.setNext b v).size a = h.size a :=
  Mem.load_store_of_disjoint _ _ _ _ _ _ (by simp only [HdrApart, hdrSize] at hab; omega)

theorem next_lt (b : Nat) : h.next b < 2 ^ 64 := Mem.load_lt _ _ _

theorem mem_setSize_of_outside {x : Nat} (hx : x < b ∨ b + 4 ≤ x) : (h.setSize b v).mem x = h.mem x :=
  Mem.store_apply _ _ _ _ _ hx

theorem mem_setNext_of_outside {x : Nat} (hx : x < b + 8 ∨ b + 16 ≤ x) :
    (h.setNext b v).mem x = h.mem x :=
  Mem.store_apply _ _ _ _ _ (by omega)

/-- A header is read from its own 16 bytes only. -/
theorem size_congr {h h' : Heap} {b : Nat} (hm : ∀ x, b ≤ x → x < b + hdrSize → h'.mem x = h.mem x) :
    h'.size b = h.size b :=
  Mem.load_congr fun i hi => hm _ (by omega) (by simp only [hdrSize]; omega)

theorem next_congr {h h' : Heap} {b : Nat} (hm : ∀ x, b ≤ x → x < b + hdrSize → h'.mem x = h.mem x) :
    h'.next b = h.next b :=
  Mem.load_congr fun i hi => hm _ (by omega) (by simp only [hdrSize]; omega)

end Heap

/-! ## List segments -/

/-- Following `next` from `p` visits the blocks `bs`, in order, and arrives at `q`. -/
def Seg (h : Heap) : Nat → List Block → Nat → Prop
  | p, [], q => p = q
  | p, b :: bs, q => p = b.addr ∧ h.size b.addr = b.size ∧ Seg h (h.next b.addr) bs q

/-- The free list consists of the blocks `bs`. -/
def FreeList (h : Heap) (bs : List Block) : Prop := Seg h h.flHead bs 0

theorem Seg.append {h : Heap} {bs cs : List Block} {p q : Nat} :
    Seg h p (bs ++ cs) q ↔ ∃ r, Seg h p bs r ∧ Seg h r cs q := by
  induction bs generalizing p with
  | nil => simp [Seg]
  | cons b bs ih => simp only [List.cons_append, Seg, ih]; grind

theorem Seg.snoc {h : Heap} {bs : List Block} {l : Block} {p q : Nat} :
    Seg h p (bs ++ [l]) q ↔
      Seg h p bs l.addr ∧ h.size l.addr = l.size ∧ h.next l.addr = q := by
  rw [Seg.append]
  simp only [Seg]
  grind

theorem Seg.congr {h h' : Heap} {bs : List Block} {p q : Nat} (hs : Seg h p bs q)
    (hb : ∀ b ∈ bs, h'.size b.addr = h.size b.addr ∧ h'.next b.addr = h.next b.addr) :
    Seg h' p bs q := by
  induction bs generalizing p with
  | nil => exact hs
  | cons b bs ih =>
      obtain ⟨hp, hsize, hrest⟩ := hs
      obtain ⟨hsize', hnext'⟩ := hb b (by simp)
      refine ⟨hp, hsize'.trans hsize, ?_⟩
      rw [hnext']
      exact ih hrest (fun c hc => hb c (by simp [hc]))

/-- A segment reads only the headers of its blocks. -/
theorem Seg.congr_mem {h h' : Heap} {bs : List Block} {p q : Nat} (hs : Seg h p bs q)
    (hm : ∀ b ∈ bs, ∀ x, b.addr ≤ x → x < b.addr + hdrSize → h'.mem x = h.mem x) :
    Seg h' p bs q :=
  hs.congr fun b hb => ⟨Heap.size_congr (hm b hb), Heap.next_congr (hm b hb)⟩

/-- Redirecting the last block of a segment. -/
theorem Seg.setNext_last {h : Heap} {bs : List Block} {l : Block} {p q v : Nat}
    (hs : Seg h p (bs ++ [l]) q) (hv : v < 2 ^ 64) (hap : ∀ b ∈ bs, HdrApart b.addr l.addr) :
    Seg (h.setNext l.addr v) p (bs ++ [l]) v := by
  obtain ⟨hpre, hsize, -⟩ := Seg.snoc.1 hs
  refine Seg.snoc.2 ⟨hpre.congr fun b hb => ?_, ?_, h.next_setNext_self hv⟩
  · exact ⟨h.size_setNext (Or.inr (hap b hb)), h.next_setNext_of_apart (hap b hb)⟩
  · rw [h.size_setNext (Or.inl rfl), hsize]

/-- A write to `next` of a block outside the segment. -/
theorem Seg.setNext_of_apart {h : Heap} {bs : List Block} {a p q v : Nat} (hs : Seg h p bs q)
    (hap : ∀ b ∈ bs, HdrApart b.addr a) : Seg (h.setNext a v) p bs q :=
  hs.congr fun b hb => ⟨h.size_setNext (Or.inr (hap b hb)), h.next_setNext_of_apart (hap b hb)⟩

theorem Seg.setSize_of_apart {h : Heap} {bs : List Block} {a p q v : Nat} (hs : Seg h p bs q)
    (hap : ∀ b ∈ bs, HdrApart b.addr a) : Seg (h.setSize a v) p bs q :=
  hs.congr fun b hb => ⟨h.size_setSize_of_apart (hap b hb), h.next_setSize (Or.inr (hap b hb))⟩

/-! ## Sorted lists of blocks inside the heap -/

/-- The blocks are in increasing address order and do not overlap. -/
def Sorted (bs : List Block) : Prop := bs.Pairwise fun b c => b.stop ≤ c.addr

/-- The address range of a heap that starts at `base` does not wrap around or contain `NULL`. -/
structure Addressable (base : Nat) : Prop where
  pos : 0 < base
  noWrap : base + myHeapSize ≤ 2 ^ 64

theorem Block.Inside.addr_pos {base : Nat} {b : Block} (hb : b.Inside base)
    (ha : Addressable base) : 0 < b.addr := by
  have := ha.pos
  have := hb.1
  omega

theorem Block.Inside.addr_lt {base : Nat} {b : Block} (hb : b.Inside base)
    (ha : Addressable base) : b.addr + hdrSize + b.size ≤ 2 ^ 64 := by
  have := ha.noWrap
  have := hb.2
  simp only [Block.stop] at this
  omega

theorem Block.Inside.size_lt {base : Nat} {b : Block} (hb : b.Inside base) :
    b.size + hdrSize ≤ myHeapSize := by
  obtain ⟨hlo, hhi⟩ := hb
  simp only [Block.stop] at hhi
  omega

/-- A size below `2 ^ 31` converts to `size_t` unchanged. -/
theorem sizeT_of_lt {v : Nat} (h : v < 2 ^ 31) : sizeT v = v := if_pos h

theorem ulong_of_lt {v : Nat} (h : v < 2 ^ 64) : ulong v = v := Nat.mod_eq_of_lt h

theorem Block.Inside.sizeT_eq {base : Nat} {b : Block} (hb : b.Inside base) :
    sizeT b.size = b.size :=
  sizeT_of_lt (by have := hb.size_lt; simp only [myHeapSize] at this; omega)

/-- The header of the pointer that was handed out for a block. -/
theorem ulong_ptr {a : Nat} (h : a + hdrSize ≤ 2 ^ 64) :
    ulong (a + hdrSize + (2 ^ 64 - hdrSize)) = a := by
  simp only [ulong, hdrSize] at *
  omega

theorem Block.Inside.ulong_ptr {base : Nat} {b : Block} (hb : b.Inside base)
    (ha : Addressable base) : ulong (b.addr + hdrSize + (2 ^ 64 - hdrSize)) = b.addr :=
  Alloc.ulong_ptr (by have := hb.addr_lt ha; omega)

/-- The address of the last block of a list, `NULL` for the empty list. -/
def lastAddr (bs : List Block) : Nat := (bs.getLast?.map Block.addr).getD 0

@[simp] theorem lastAddr_nil : lastAddr [] = 0 := rfl

@[simp] theorem lastAddr_append_singleton (bs : List Block) (b : Block) :
    lastAddr (bs ++ [b]) = b.addr := by simp [lastAddr]

end Cs350.Alloc
