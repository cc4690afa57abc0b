import Cs350.Alloc.Run

set_option autoImplicit false

/-! # Pointers that are not live

Neither `my_free` nor `my_realloc` looks at the magic number, so that a pointer the client does not
hold is treated like any other. `my_free` of the header at the head of the free list links that
block to itself, and `coalesce` then follows the link for ever; a header below the head becomes the
new head. -/

namespace Cs350.Alloc

open Transition

/-- The free list and all headers are as they were. -/
structure HeadersKept (s : State) (h' : Heap) : Prop where
  head : h'.flHead = s.heap.flHead
  free : ∀ p, OnFreeList s.heap p → h'.size p = s.heap.size p ∧ h'.next p = s.heap.next p
  live : ∀ b ∈ s.live, h'.size b.addr = s.heap.size b.addr ∧ h'.next b.addr = s.heap.next b.addr

/-- `my_free(ptr)` returns, and has no effect. -/
def FreeHarmless (s : State) (ptr : Nat) : Prop :=
  ∃ fuel h', myFree fuel ptr s.heap = some h' ∧ HeadersKept s h'

/-- `my_realloc(ptr, size)` returns `NULL`, and has no effect. -/
def ReallocHarmless (s : State) (ptr size : Nat) : Prop :=
  ∃ fuel h', myRealloc fuel ptr size s.heap = some (0, h') ∧ HeadersKept s h'

def Harmless (s : State) (ptr : Nat) : Prop :=
  FreeHarmless s ptr ∧ ∀ size < 2 ^ 64, ReallocHarmless s ptr size

section

variable {h h' : Heap} {fuel p b : Nat}

theorem flHead_absorb (p q : Nat) : (absorb p q h).flHead = h.flHead := rfl

theorem next_absorb_self (p : Nat) (hplt : p < 2 ^ 64) (hnext : h.next p = p) :
    (absorb p p h).next p = p := by
  simp only [absorb]
  rw [Heap.next_setSize _ (Or.inl rfl), hnext, Heap.next_setNext_self _ hplt]

/-- The loop of `coalesce` does not leave a block that is linked to itself. -/
theorem coalesceLoop_self (hp : p ≠ 0) (hplt : p < 2 ^ 64) (hnext : h.next p = p)
    (hhead : h.flHead = p) : coalesceLoop fuel p h = none := by
  induction fuel generalizing h with
  | zero => rfl
  | succ fuel ih =>
      rw [coalesceLoop, hnext, if_neg hp, hhead, if_neg (Nat.lt_irrefl p)]
      by_cases hadj : ulong (p + sizeT (h.size p) + hdrSize) = p
      · have habs := next_absorb_self p hplt hnext
        simp only [if_pos hadj, habs, if_neg hp, hnext]
        exact ih habs ((flHead_absorb p p).trans hhead)
      · simp only [if_neg hadj, hnext, if_neg hp]
        exact ih hnext hhead

/-- `coalesce` moves the head of the list down only, and not to `NULL`. -/
theorem coalesceLoop_flHead (hp : 0 < p) (hpos : 0 < h.flHead)
    (hrun : coalesceLoop fuel p h = some h') : 0 < h'.flHead ∧ h'.flHead ≤ h.flHead := by
  induction fuel generalizing h p with
  | zero => simp [coalesceLoop] at hrun
  | succ fuel ih =>
      rw [coalesceLoop] at hrun
      by_cases hn : h.next p = 0
      · rw [if_pos hn] at hrun
        rw [← Option.some.inj hrun]
        exact ⟨hpos, Nat.le_refl _⟩
      · simp only [if_neg hn] at hrun
        have hlow : 0 < (if p < h.flHead then h.setFlHead p else h).flHead ∧
            (if p < h.flHead then h.setFlHead p else h).flHead ≤ h.flHead := by
          split_ifs with hlt
          · exact ⟨hp, Nat.le_of_lt hlt⟩
          · exact ⟨hpos, Nat.le_refl _⟩
        generalize (if p < h.flHead then h.setFlHead p else h) = h₁ at hrun hlow
        have habs : (if ulong (p + sizeT (h₁.size p) + hdrSize) = h.next p then
            absorb p (h₁.next p) h₁ else h₁).flHead = h₁.flHead := by
          split_ifs <;> rfl
        generalize (if ulong (p + sizeT (h₁.size p) + hdrSize) = h.next p then
          absorb p (h₁.next p) h₁ else h₁) = h₂ at hrun habs
        rw [← habs] at hlow
        split_ifs at hrun with hend
        · rw [← Option.some.inj hrun]
          exact hlow
        · obtain ⟨hpos', hle⟩ := ih (Nat.pos_of_ne_zero hend) hlow.1 hrun
          exact ⟨hpos', Nat.le_trans hle hlow.2⟩

theorem coalesce_flHead (hrun : coalesce fuel h = some h') :
    0 < h'.flHead ∧ h'.flHead ≤ h.flHead := by
  rw [coalesce] at hrun
  split_ifs at hrun with hpos
  obtain ⟨h₁, hloop, rfl⟩ := Option.map_eq_some_iff.1 hrun
  have hhead := coalesceLoop_flHead (Nat.pos_of_ne_zero hpos) (Nat.pos_of_ne_zero hpos) hloop
  split_ifs
  · exact hhead
  · exact hhead

/-- A block that is freed below the head, or into an empty list, becomes the head. -/
theorem flInsert_below (hlow : h.flHead = 0 ∨ b < h.flHead) (hrun : flInsert fuel b h = some h') :
    h'.flHead = b := by
  have hhead : (h.setNext b 0).flHead = 0 ∨ (h.setNext b 0).flHead > b := hlow
  simp only [flInsert, if_pos hhead, Option.some.injEq] at hrun
  rw [← hrun]
  rfl

/-- The head of the list, freed once more, is linked to itself. -/
theorem flInsert_head (hb : h.flHead = b) (hpos : b ≠ 0) (hblt : b < 2 ^ 64)
    (hrun : flInsert fuel b h = some h') : h'.flHead = b ∧ h'.next b = b := by
  have hhead : ¬ ((h.setNext b 0).flHead = 0 ∨ (h.setNext b 0).flHead > b) := by
    simp only [Heap.flHead_setNext]
    omega
  simp only [flInsert, if_neg hhead] at hrun
  obtain ⟨p, hwalk, rfl⟩ := Option.map_eq_some_iff.1 hrun
  obtain rfl : b = p := by
    cases fuel with
    | zero => simp [flInsertWalk] at hwalk
    | succ fuel =>
        have hnext : (h.setNext b 0).next b = 0 := Heap.next_setNext_self _ (by decide)
        rw [Heap.flHead_setNext, hb, flInsertWalk, if_neg (by simp [hnext])] at hwalk
        exact Option.some.inj hwalk
  exact ⟨hb, Heap.next_setNext_self _ hblt⟩

/-- **A double free at the head of the list does not return.** -/
theorem myFree_head_hangs {s : State} (hpos : s.heap.flHead ≠ 0)
    (hlt : s.heap.flHead + hdrSize ≤ 2 ^ 64) (fuel : Nat) :
    myFree fuel (s.heap.flHead + hdrSize) s.heap = none := by
  rw [myFree, ulong_ptr hlt]
  cases hins : flInsert fuel s.heap.flHead s.heap with
  | none => rfl
  | some h₁ =>
      have hltp : s.heap.flHead < 2 ^ 64 := by
        simp only [hdrSize] at hlt
        omega
      obtain ⟨hhead, hnext⟩ := flInsert_head rfl hpos hltp hins
      rw [Option.bind_some, coalesce, hhead, if_neg hpos, coalesceLoop_self hpos hltp hnext hhead]
      rfl

/-- `my_free` of a header below the head of the list, or with an empty list, changes the head. -/
theorem myFree_below {ptr : Nat} (hlo : 0 < ptr - hdrSize) (hptr : ptr ≤ 2 ^ 64)
    (hlow : h.flHead = 0 ∨ ptr - hdrSize < h.flHead) (hrun : myFree fuel ptr h = some h') :
    h'.flHead ≠ h.flHead := by
  have hhdr := ulong_ptr (a := ptr - hdrSize) (by omega)
  rw [Nat.sub_add_cancel (by omega)] at hhdr
  rw [myFree, hhdr] at hrun
  obtain ⟨h₁, hins, hco⟩ := Option.bind_eq_some_iff.1 hrun
  have hhead := flInsert_below hlow hins
  obtain ⟨hpos, hle⟩ := coalesce_flHead hco
  omega

end

section

variable {s : State} {ptr size : Nat}

/-- Whether the pointer is live or not, `my_realloc` compares the request with what it finds in
    front of it, and asks `my_malloc` if that is smaller. -/
theorem reallocHarmless_iff (hptr : ptr ≠ 0) :
    ReallocHarmless s ptr size ↔
      sizeT (s.heap.size (ulong (ptr + (2 ^ 64 - hdrSize)))) < size ∧
        ∃ fuel h', myMalloc fuel size s.heap = some (0, h') ∧ HeadersKept s h' := by
  constructor
  · rintro ⟨fuel, h', hrun, hkept⟩
    rw [myRealloc, if_neg hptr] at hrun
    by_cases hgrow : sizeT (s.heap.size (ulong (ptr + (2 ^ 64 - hdrSize)))) < size
    · simp only [gt_iff_lt, if_pos hgrow] at hrun
      obtain ⟨⟨q, h₁⟩, hmalloc, hrest⟩ := Option.bind_eq_some_iff.1 hrun
      by_cases hq : q = 0
      · subst hq
        simp only [if_true, Option.some.injEq, Prod.mk.injEq, true_and] at hrest
        exact ⟨hgrow, fuel, h₁, hmalloc, hrest ▸ hkept⟩
      · simp only [if_neg hq] at hrest
        obtain ⟨h₂, -, hpair⟩ := Option.map_eq_some_iff.1 hrest
        exact absurd (congrArg Prod.fst hpair) hq
    · simp only [gt_iff_lt, if_neg hgrow] at hrun
      exact absurd (congrArg Prod.fst (Option.some.inj hrun)) hptr
  · rintro ⟨hgrow, fuel, h', hmalloc, hkept⟩
    refine ⟨fuel, h', ?_, hkept⟩
    rw [myRealloc, if_neg hptr]
    simp only [gt_iff_lt, if_pos hgrow, hmalloc, Option.bind_some, if_true]

/-- `my_free` at or below the head of the free list. -/
theorem not_freeHarmless (hlo : 0 < ptr - hdrSize) (hptr : ptr ≤ 2 ^ 64)
    (hlow : s.heap.flHead = 0 ∨ ptr ≤ s.heap.flHead + hdrSize) : ¬ FreeHarmless s ptr := by
  rintro ⟨fuel, h', hrun, hkept⟩
  by_cases hhead : s.heap.flHead = 0 ∨ ptr - hdrSize < s.heap.flHead
  · exact myFree_below hlo hptr hhead hrun hkept.head
  · obtain ⟨hpos, hge⟩ := not_or.1 hhead
    obtain rfl : ptr = s.heap.flHead + hdrSize := by omega
    rw [myFree_head_hangs hpos hptr] at hrun
    cases hrun

/-- **Invalid pointers are never harmless.** In every state of every run `my_realloc` accepts a
    pointer that is not live, and `my_free` does damage or does not return if the pointer is at or
    below the first free block. -/
theorem invalid_free_never_harmless {m : Mem} {base : Nat} {h : Heap} {tr : List (State × Call)}
    (hwrap : base + myHeapSize ≤ 2 ^ 64) (hinit : myMemAllocatorInit m base = some h)
    (_hrun : Run Step ⟨h, []⟩ tr s) (hlo : base + hdrSize ≤ ptr) (hhi : ptr < base + myHeapSize)
    (_hinvalid : ¬ s.Holds ptr) :
    ¬ Harmless s ptr ∧
      (s.heap.flHead = 0 ∨ ptr ≤ s.heap.flHead + hdrSize → ¬ FreeHarmless s ptr) := by
  have hbase := (Inv.init hwrap hinit).addressable.pos
  have hptr : ptr ≠ 0 := by omega
  refine ⟨fun hharmless => ?_, not_freeHarmless (by omega) (by omega)⟩
  have hgrow := ((reallocHarmless_iff hptr).1 (hharmless.2 0 (by decide))).1
  exact absurd hgrow (Nat.not_lt_zero _)

/-- A pointer into a live block, and one to a block that has been given back. -/
theorem invalid_free_sample :
    ¬ Harmless (sampleState [.malloc 16]) 4120 ∧
      ¬ FreeHarmless (sampleState [.malloc 16]) 4120 := by
  have hrun : Run Step ⟨sampleHeap, []⟩ [(sampleState [], Call.malloc 16)]
      (sampleState [.malloc 16]) :=
    Run.nil.snoc (sampleState_step [] (.malloc 16) (by decide +kernel))
  have hnever := invalid_free_never_harmless (by decide) sampleHeap_init hrun
    (by decide : 4096 + hdrSize ≤ 4120) (by decide) (by decide +kernel)
  exact ⟨hnever.1, hnever.2 (by decide +kernel)⟩

/-- A block is allocated, given back, and given back once more: that call does not return. -/
theorem double_free_hangs :
    Run Step ⟨sampleHeap, []⟩
        [(sampleState [], Call.malloc 16), (sampleState [.malloc 16], .free 4112)]
        (sampleState [.malloc 16, .free 4112]) ∧
      ¬ (sampleState [.malloc 16, .free 4112]).Holds 4112 ∧
      (∀ fuel, myFree fuel 4112 (sampleState [.malloc 16, .free 4112]).heap = none) ∧
      ¬ Harmless (sampleState [.malloc 16, .free 4112]) 4112 := by
  have hhead : (sampleState [.malloc 16, .free 4112]).heap.flHead = 4096 := by decide +kernel
  have hhangs : ∀ fuel, myFree fuel 4112 (sampleState [.malloc 16, .free 4112]).heap = none := by
    intro fuel
    have hnone := myFree_head_hangs (s := sampleState [.malloc 16, .free 4112])
      (by rw [hhead]; decide) (by rw [hhead]; decide) fuel
    rw [hhead] at hnone
    exact hnone
  refine ⟨?_, by decide +kernel, hhangs, ?_⟩
  · exact (Run.nil.snoc (sampleState_step [] (.malloc 16) (by decide +kernel))).snoc
      (sampleState_step [.malloc 16] (.free 4112) (by decide +kernel))
  · rintro ⟨⟨fuel, h', hrun, -⟩, -⟩
    rw [hhangs fuel] at hrun
    cases hrun

end

end Cs350.Alloc
