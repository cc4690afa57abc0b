import Cs350.Umalloc.Defs

set_option autoImplicit false

/-! # Blocks, headers and what a heap consists of

`Sound h free live` is what holds between the calls: the free list is one cycle through `free`, in
increasing order, and the free and the live blocks make up what has been got from `sbrk`. -/

namespace Cs350.Umalloc

/-- Two headers do not overlap. -/
def HdrApart (p q : Nat) : Prop := p + hdrSize ≤ q ∨ q + hdrSize ≤ p

theorem HdrApart.symm {p q : Nat} (h : HdrApart p q) : HdrApart q p := Or.symm h

namespace Heap

variable {h : Heap} {p q v : Nat}

theorem ptr_setPtr_self (hv : v < 2 ^ 32) : (h.setPtr p v).ptr p = v := by
  rw [ptr, setPtr, Mem.load_store, Nat.mod_eq_of_lt (by omega)]

theorem ptr_setPtr_of_apart (hpq : HdrApart p q) : (h.setPtr p v).ptr q = h.ptr q :=
  Mem.load_store_of_disjoint _ _ _ _ _ _ (by simp only [HdrApart, hdrSize] at hpq; omega)

theorem size_setPtr (hpq : p = q ∨ HdrApart p q) : (h.setPtr p v).size q = h.size q :=
  Mem.load_store_of_disjoint _ _ _ _ _ _ (by simp only [HdrApart, hdrSize] at hpq; omega)

theorem size_setSize_self (hv : v < 2 ^ 32) : (h.setSize p v).size p = v := by
  rw [size, setSize, Mem.load_store, Nat.mod_eq_of_lt (by omega)]

theorem size_setSize_of_apart (hpq : HdrApart p q) : (h.setSize p v).size q = h.size q :=
  Mem.load_store_of_disjoint _ _ _ _ _ _ (by simp only [HdrApart, hdrSize] at hpq; omega)

theorem ptr_setSize (hpq : p = q ∨ HdrApart p q) : (h.setSize p v).ptr q = h.ptr q :=
  Mem.load_store_of_disjoint _ _ _ _ _ _ (by simp only [HdrApart, hdrSize] at hpq; omega)

theorem size_lt : h.size p < 2 ^ 32 := Mem.load_lt _ _ _

theorem ptr_lt : h.ptr p < 2 ^ 32 := Mem.load_lt _ _ _

/-- What is written outside a header leaves it alone. -/
theorem header_update {a : Nat} {v : UInt8} (ha : a < p ∨ p + hdrSize ≤ a) :
    ({ h with mem := Function.update h.mem a v } : Heap).size p = h.size p ∧
      ({ h with mem := Function.update h.mem a v } : Heap).ptr p = h.ptr p := by
  simp only [hdrSize] at ha
  constructor <;>
  · refine Mem.load_congr fun i hi => Function.update_of_ne ?_ _ _
    omega

end Heap

/-! ## Blocks -/

/-- Two blocks do not overlap. -/
def Block.Apart (a b : Block) : Prop := a.stop ≤ b.addr ∨ b.stop ≤ a.addr

/-- A block and the one right above it. -/
def Block.join (a b : Block) : Block := ⟨a.addr, a.size + b.size⟩

/-- The address is in one of the blocks. -/
def Covers (bs : List Block) (x : Nat) : Prop := ∃ b ∈ bs, b.addr ≤ x ∧ x < b.stop

/-- The blocks make up `got`. -/
structure Partition (bs got : List Block) : Prop where
  nonempty : ∀ b ∈ bs, 0 < b.size
  apart : bs.Pairwise Block.Apart
  covers : ∀ x, Covers bs x ↔ Covers got x

section Blocks

variable {a b c : Block} {bs bs' got : List Block} {x : Nat}

theorem Block.Apart.symm (h : a.Apart b) : b.Apart a := Or.symm h

instance : Std.Symm Block.Apart := ⟨fun _ _ h => h.symm⟩

theorem Block.addr_lt_stop (h : 0 < a.size) : a.addr + hdrSize ≤ a.stop := by
  simp only [stop, hdrSize]
  omega

theorem Block.join_stop (h : a.stop = b.addr) : (a.join b).stop = b.stop := by
  simp only [stop, join, hdrSize] at *
  omega

@[simp]
theorem covers_nil : ¬ Covers [] x := by simp [Covers]

@[simp]
theorem covers_cons : Covers (b :: bs) x ↔ (b.addr ≤ x ∧ x < b.stop) ∨ Covers bs x := by
  simp [Covers]

theorem covers_join (h : a.stop = b.addr) :
    ((a.join b).addr ≤ x ∧ x < (a.join b).stop) ↔
      (a.addr ≤ x ∧ x < a.stop) ∨ (b.addr ≤ x ∧ x < b.stop) := by
  simp only [Block.stop, Block.join, hdrSize] at *
  omega

theorem Partition.perm (h : Partition bs got) (hp : bs.Perm bs') : Partition bs' got where
  nonempty b hb := h.nonempty b (hp.mem_iff.2 hb)
  apart := (hp.pairwise_iff Block.Apart.symm).1 h.apart
  covers x := by
    rw [← h.covers x]
    simp only [Covers, hp.mem_iff]

theorem Partition.join (h : Partition (a :: b :: bs) got) (hab : a.stop = b.addr) :
    Partition (a.join b :: bs) got where
  nonempty c hc := by
    rcases List.mem_cons.1 hc with rfl | hc
    · have ha := h.nonempty a (by simp)
      simp only [Block.join]
      omega
    · exact h.nonempty c (by simp [hc])
  apart := by
    obtain ⟨ha, hrest⟩ := List.pairwise_cons.1 h.apart
    obtain ⟨hb, hbs⟩ := List.pairwise_cons.1 hrest
    refine List.pairwise_cons.2 ⟨fun c hc => ?_, hbs⟩
    have hac := ha c (by simp [hc])
    have hbc := hb c hc
    have hpos := h.nonempty c (by simp [hc])
    simp only [Block.Apart, Block.stop, Block.join, hdrSize] at *
    omega
  covers x := by
    rw [← h.covers x, covers_cons, covers_cons, covers_cons, covers_join hab, or_assoc]

/-- A block is cut in two. -/
theorem Partition.cut (h : Partition (a.join b :: bs) got) (hab : a.stop = b.addr)
    (ha : 0 < a.size) (hb : 0 < b.size) : Partition (a :: b :: bs) got where
  nonempty c hc := by
    rcases List.mem_cons.1 hc with rfl | hc
    · exact ha
    · rcases List.mem_cons.1 hc with rfl | hc
      · exact hb
      · exact h.nonempty c (by simp [hc])
  apart := by
    obtain ⟨hjoin, hbs⟩ := List.pairwise_cons.1 h.apart
    refine List.pairwise_cons.2 ⟨fun c hc => ?_, List.pairwise_cons.2 ⟨fun c hc => ?_, hbs⟩⟩
    · rcases List.mem_cons.1 hc with rfl | hc
      · exact Or.inl (Nat.le_of_eq hab)
      · have hjc := hjoin c hc
        simp only [Block.Apart, Block.stop, Block.join, hdrSize] at *
        omega
    · have hjc := hjoin c hc
      simp only [Block.Apart, Block.stop, Block.join, hdrSize] at *
      omega
  covers x := by
    rw [← h.covers x, covers_cons, covers_cons, covers_cons, covers_join hab, or_assoc]

/-- New memory is one more block. -/
theorem Partition.cons (h : Partition bs got) (hb : 0 < b.size) (hap : ∀ c ∈ bs, b.Apart c) :
    Partition (b :: bs) (b :: got) where
  nonempty c hc := by
    rcases List.mem_cons.1 hc with rfl | hc
    · exact hb
    · exact h.nonempty c hc
  apart := List.pairwise_cons.2 ⟨hap, h.apart⟩
  covers x := by rw [covers_cons, covers_cons, h.covers x]

/-- A block is within the memory that has been got. -/
theorem Partition.inside (h : Partition bs got) {lo hi : Nat}
    (hgot : ∀ c ∈ got, lo ≤ c.addr ∧ c.stop ≤ hi) (hb : b ∈ bs) : lo ≤ b.addr ∧ b.stop ≤ hi := by
  have hpos := Block.addr_lt_stop (h.nonempty b hb)
  simp only [hdrSize] at hpos
  obtain ⟨c, hc, hlo, -⟩ := (h.covers b.addr).1 ⟨b, hb, by omega, by omega⟩
  obtain ⟨d, hd, -, hhi⟩ := (h.covers (b.stop - 1)).1 ⟨b, hb, by omega, by omega⟩
  have hclo := (hgot c hc).1
  have hdhi := (hgot d hd).2
  omega

end Blocks

/-! ## The heap -/

/-- `base`, a block of no units. -/
def Heap.sentinel (h : Heap) : Block := ⟨h.base, 0⟩

/-- The state of the heap, with the free blocks by address. -/
structure Sound (h : Heap) (free live : List Block) : Prop where
  /-- from `freep`, the list is one cycle, and the blocks on it are in order but for one wrap -/
  cycle : LinkedCycle h.ptr ((h.sentinel :: free).map Block.addr)
  freep : h.freep ∈ (h.sentinel :: free).map Block.addr
  /-- there is a gap between a free block and the next one -/
  increasing : (h.sentinel :: free).Pairwise fun a b => a.stop < b.addr
  sizes : ∀ b ∈ h.sentinel :: (free ++ live), h.size b.addr = b.size
  /-- free and live blocks are apart and make up what `morecore` has got -/
  blocks : Partition (free ++ live) h.got
  inside : ∀ b ∈ h.got, h.base + hdrSize ≤ b.addr ∧ b.stop ≤ h.brk
  top : h.base + hdrSize ≤ h.brk ∧ h.brk < 2 ^ 32

section Sound

variable {h : Heap} {free live live' : List Block} {b : Block}

theorem Sound.bounds (hs : Sound h free live) (hb : b ∈ free ++ live) :
    h.base + hdrSize ≤ b.addr ∧ b.addr + hdrSize ≤ b.stop ∧ b.stop < 2 ^ 32 := by
  have hin := hs.blocks.inside hs.inside hb
  exact ⟨hin.1, Block.addr_lt_stop (hs.blocks.nonempty b hb), Nat.lt_of_le_of_lt hin.2 hs.top.2⟩

theorem Sound.perm (hs : Sound h free live) (hp : live.Perm live') : Sound h free live' where
  cycle := hs.cycle
  freep := hs.freep
  increasing := hs.increasing
  sizes b hb := hs.sizes b (by simpa [hp.mem_iff] using hb)
  blocks := hs.blocks.perm (hp.append_left free)
  inside := hs.inside
  top := hs.top

end Sound

end Cs350.Umalloc
