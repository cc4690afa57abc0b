import Cs350.Lib.Transition
import Cs350.Alloc.Coalesce

set_option autoImplicit false

/-! # Runs of the allocator

A client calls `my_malloc`, `my_free` and `my_realloc` in any order, passing only pointers it holds,
and writes into the memory it was given. The state is the heap together with the client's live
blocks. A state is safe when the live blocks lie in the heap, do not overlap each other, and do not
overlap any block on the free list.

Because `my_malloc` always puts the rest of the block it cuts back on the list, and because
`coalesce` joins the first two free blocks without comparing their addresses, the states in which
the allocator is sound are those with a single free block at the end of the heap, behind a tiling of
live blocks: the allocator works as a stack. `live_blocks_apart_iff` makes this exact. -/

namespace Cs350.Alloc

open Transition

/-- The heap and the blocks the client holds, in the order in which they were handed out. -/
structure State where
  heap : Heap
  live : List Block

/-- What a client does. -/
inductive Call
  | malloc (size : Nat)
  | free (ptr : Nat)
  | realloc (ptr size : Nat)
  /-- the client stores a byte -/
  | write (a : Nat) (v : UInt8)

/-- The pointers the client holds. -/
def State.Holds (s : State) (ptr : Nat) : Prop := ∃ b ∈ s.live, ptr = b.addr + hdrSize

/-- The calls a client may make: sizes for which `size + sizeof(BLOCK_HDR)` does not wrap, pointers
    it holds, stores into the bytes of its blocks. -/
def Call.Allowed (s : State) : Call → Prop
  | .malloc size => size + hdrSize < 2 ^ 64
  | .free ptr => s.Holds ptr
  | .realloc ptr size => (ptr = 0 ∨ s.Holds ptr) ∧ size + hdrSize < 2 ^ 64
  | .write a _ => ∃ b ∈ s.live, b.addr + hdrSize ≤ a ∧ a < b.stop

instance (s : State) (ptr : Nat) : Decidable (s.Holds ptr) :=
  inferInstanceAs (Decidable (∃ b ∈ s.live, ptr = b.addr + hdrSize))

instance (s : State) : (c : Call) → Decidable (c.Allowed s)
  | .malloc size => inferInstanceAs (Decidable (size + hdrSize < 2 ^ 64))
  | .free ptr => inferInstanceAs (Decidable (s.Holds ptr))
  | .realloc ptr size =>
    inferInstanceAs (Decidable ((ptr = 0 ∨ s.Holds ptr) ∧ size + hdrSize < 2 ^ 64))
  | .write a _ => inferInstanceAs (Decidable (∃ b ∈ s.live, b.addr + hdrSize ≤ a ∧ a < b.stop))

/-- The block behind a pointer returned for a request of `size` bytes. -/
def Block.ofPtr (ptr size : Nat) : Block := ⟨ptr - hdrSize, size⟩

/-- The live blocks after the block at `ptr` is given back. -/
def dropLive (ptr : Nat) (live : List Block) : List Block :=
  live.filter fun b => b.addr + hdrSize ≠ ptr

/-- One call; `my_realloc` to a size that fits leaves the block, and what the client may use of it,
    as it is. -/
def exec (fuel : Nat) (s : State) : Call → Option State
  | .malloc size =>
    (myMalloc fuel size s.heap).map fun (ptr, h) =>
      { heap := h, live := if ptr = 0 then s.live else s.live ++ [Block.ofPtr ptr size] }
  | .free ptr => (myFree fuel ptr s.heap).map fun h => { heap := h, live := dropLive ptr s.live }
  | .realloc ptr size =>
    (myRealloc fuel ptr size s.heap).map fun (q, h) =>
      { heap := h
        live :=
          if q = 0 ∨ q = ptr then s.live else dropLive ptr s.live ++ [Block.ofPtr q size] }
  | .write a v => some { s with heap := { s.heap with mem := Function.update s.heap.mem a v } }

/-- A call the client may make and that returns. -/
def Step (s : State) (c : Call) (s' : State) : Prop :=
  c.Allowed s ∧ ∃ fuel, exec fuel s c = some s'

/-- `p` is the address of a block on the free list. -/
inductive OnFreeList (h : Heap) : Nat → Prop
  | head : h.flHead ≠ 0 → OnFreeList h h.flHead
  | next {p : Nat} : OnFreeList h p → h.next p ≠ 0 → OnFreeList h (h.next p)

/-- The live blocks are inside the heap, pairwise disjoint, and disjoint from every free block. -/
structure Safe (s : State) : Prop where
  inside : ∀ b ∈ s.live, b.Inside s.heap.myHeap
  apart : s.live.Pairwise Block.Apart
  free : ∀ p, OnFreeList s.heap p → ∀ b ∈ s.live, Block.Apart ⟨p, sizeT (s.heap.size p)⟩ b

/-- The condition under which the allocator stays sound: a freed block ends where the free list
    begins, and a `my_realloc` does not move its block (it fits, or the first free block has no
    room for the new size). -/
def InOrder (s : State) : Call → Prop
  | .malloc _ => True
  | .free ptr => ptr + sizeT (s.heap.size (ptr - hdrSize)) = s.heap.flHead
  | .realloc ptr size =>
    ptr = 0 ∨ size ≤ sizeT (s.heap.size (ptr - hdrSize)) ∨
      sizeT (s.heap.size s.heap.flHead) < size + hdrSize
  | .write _ _ => True

instance (s : State) : (c : Call) → Decidable (InOrder s c)
  | .malloc _ => inferInstanceAs (Decidable True)
  | .free ptr =>
    inferInstanceAs (Decidable (ptr + sizeT (s.heap.size (ptr - hdrSize)) = s.heap.flHead))
  | .realloc ptr size =>
    inferInstanceAs (Decidable (ptr = 0 ∨ size ≤ sizeT (s.heap.size (ptr - hdrSize)) ∨
      sizeT (s.heap.size s.heap.flHead) < size + hdrSize))
  | .write _ _ => inferInstanceAs (Decidable True)

/-! ## The invariant -/

/-- The blocks fill `[lo, hi)` without gaps, in order. -/
def Tiles : Nat → List Block → Nat → Prop
  | lo, [], hi => lo = hi
  | lo, b :: bs, hi => b.addr = lo ∧ Tiles b.stop bs hi

/-- The sound states: live blocks from the start of the heap, then one free block up to its end. -/
structure Inv (base : Nat) (s : State) (f : Block) : Prop where
  addressable : Addressable base
  heap : s.heap.myHeap = base
  free : FreeList s.heap [f]
  tiles : Tiles base s.live f.addr
  freeStop : f.stop = base + myHeapSize
  sizes : ∀ b ∈ s.live, s.heap.size b.addr = b.size

theorem Tiles.append {lo hi : Nat} {bs cs : List Block} :
    Tiles lo (bs ++ cs) hi ↔ ∃ mid, Tiles lo bs mid ∧ Tiles mid cs hi := by
  induction bs generalizing lo with
  | nil => simp [Tiles]
  | cons b bs ih => simp only [List.cons_append, Tiles, ih]; grind

theorem Tiles.le {lo hi : Nat} {bs : List Block} (h : Tiles lo bs hi) : lo ≤ hi := by
  induction bs generalizing lo with
  | nil => exact Nat.le_of_eq h
  | cons b bs ih =>
      obtain ⟨rfl, hrest⟩ := h
      have := ih hrest
      simp only [Block.stop] at this
      omega

theorem Tiles.mem {lo hi : Nat} {bs : List Block} (h : Tiles lo bs hi) {b : Block} (hb : b ∈ bs) :
    lo ≤ b.addr ∧ b.stop ≤ hi := by
  obtain ⟨l, r, rfl⟩ := List.append_of_mem hb
  obtain ⟨mid, hl, rfl, hr⟩ := Tiles.append.1 h
  exact ⟨hl.le, hr.le⟩

/-- Tiles are in increasing order. -/
theorem Tiles.sorted {lo hi : Nat} {bs : List Block} (h : Tiles lo bs hi) : Sorted bs := by
  induction bs generalizing lo with
  | nil => exact List.Pairwise.nil
  | cons b bs ih => exact List.pairwise_cons.2 ⟨fun c hc => (h.2.mem hc).1, ih h.2⟩

theorem Sorted.pairwise_apart {bs : List Block} (h : Sorted bs) : bs.Pairwise Block.Apart :=
  h.imp Or.inl

theorem FreeList.mem_of_onFreeList {h : Heap} {bs : List Block} (hl : FreeList h bs) {p : Nat}
    (hp : OnFreeList h p) : ∃ b ∈ bs, b.addr = p ∧ h.size p = b.size := by
  suffices key : ∃ pre b post, bs = pre ++ b :: post ∧ p = b.addr ∧ h.size b.addr = b.size ∧
      Seg h (h.next b.addr) post 0 by
    obtain ⟨pre, b, post, rfl, rfl, hsize, -⟩ := key
    exact ⟨b, by simp, rfl, hsize⟩
  induction hp with
  | head hne =>
      cases bs with
      | nil => exact absurd hl hne
      | cons b bs => exact ⟨[], b, bs, rfl, hl.1, hl.2.1, hl.2.2⟩
  | next _ hne ih =>
      obtain ⟨pre, b, post, rfl, rfl, -, hrest⟩ := ih
      cases post with
      | nil => exact absurd hrest hne
      | cons c post =>
          exact ⟨pre ++ [b], c, post, by simp, hrest.1, hrest.2.1, hrest.2.2⟩

section

variable {base : Nat} {s : State} {f : Block}

theorem Inv.free_inside (h : Inv base s f) : f.Inside base :=
  ⟨h.tiles.le, Nat.le_of_eq h.freeStop⟩

theorem Inv.live_inside (h : Inv base s f) {b : Block} (hb : b ∈ s.live) : b.Inside base := by
  have h1 := h.tiles.mem hb
  have h2 := h.free_inside
  exact ⟨h1.1, by simp only [Block.Inside, Block.stop] at *; omega⟩

theorem Inv.stop_le (h : Inv base s f) {b : Block} (hb : b ∈ s.live) : b.stop ≤ f.addr :=
  (h.tiles.mem hb).2

theorem Inv.flHead (h : Inv base s f) : s.heap.flHead = f.addr := h.free.1

theorem Inv.flHead_size (h : Inv base s f) : sizeT (s.heap.size s.heap.flHead) = f.size := by
  rw [h.flHead, h.free.2.1, h.free_inside.sizeT_eq]

theorem Inv.safe (h : Inv base s f) : Safe s where
  inside b hb := h.heap ▸ h.live_inside hb
  apart := h.tiles.sorted.pairwise_apart
  free p hp b hb := by
    obtain ⟨c, hc, rfl, hsize⟩ := h.free.mem_of_onFreeList hp
    rw [List.mem_singleton.1 hc] at hsize ⊢
    rw [hsize, h.free_inside.sizeT_eq]
    exact Or.inr (h.stop_le hb)

/-- The client's pointer and its block. -/
theorem Inv.block_of_holds (h : Inv base s f) {ptr : Nat} (hp : s.Holds ptr) :
    ∃ b ∈ s.live, ptr = b.addr + hdrSize ∧ sizeT (s.heap.size (ptr - hdrSize)) = b.size := by
  obtain ⟨b, hb, rfl⟩ := hp
  refine ⟨b, hb, rfl, ?_⟩
  rw [Nat.add_sub_cancel, h.sizes b hb, (h.live_inside hb).sizeT_eq]

/-- Stores into the usable bytes of live blocks keep the invariant. -/
theorem Inv.of_user_bytes (h : Inv base s f) {m : Mem}
    (hm : ∀ x, (∀ b ∈ s.live, x < b.addr + hdrSize ∨ b.stop ≤ x) → m x = s.heap.mem x) :
    Inv base ⟨{ s.heap with mem := m }, s.live⟩ f := by
  have hlive : ∀ b ∈ s.live, ∀ x, b.addr ≤ x → x < b.addr + hdrSize → m x = s.heap.mem x := by
    intro b hb x hlo hhi
    refine hm x fun c hc => ?_
    by_cases hbc : b = c
    · subst hbc; exact Or.inl hhi
    · have hap := h.tiles.sorted.pairwise_apart.forall hb hc hbc
      simp only [Block.Apart, Block.stop] at *
      omega
  have hfree : ∀ x, f.addr ≤ x → m x = s.heap.mem x := fun x hx =>
    hm x fun c hc => Or.inr (Nat.le_trans (h.stop_le hc) hx)
  refine ⟨h.addressable, h.heap, ?_, h.tiles, h.freeStop, fun b hb => ?_⟩
  · refine (show Seg s.heap s.heap.flHead [f] 0 from h.free).congr_mem fun c hc x hlo _ => ?_
    exact hfree x (List.mem_singleton.1 hc ▸ hlo)
  · rw [← h.sizes b hb]
    exact Heap.size_congr (hlive b hb)

/-! ## One call from a sound state -/

theorem Inv.myMalloc (h : Inv base s f) {fuel size ptr : Nat} {h' : Heap}
    (hsize : size + hdrSize < 2 ^ 64) (heq : myMalloc fuel size s.heap = some (ptr, h')) :
    (f.size < size + hdrSize ∧ ptr = 0 ∧ h' = s.heap) ∨
      (size + hdrSize ≤ f.size ∧ ptr = f.addr + hdrSize ∧
        Inv base ⟨h', s.live ++ [⟨f.addr, size⟩]⟩ (f.rest size)) := by
  have hmono := myMalloc_mono (Nat.le_add_right fuel 2) heq
  have hin : ∀ c ∈ [f], c.Inside base := fun c hc => List.mem_singleton.1 hc ▸ h.free_inside
  rcases Nat.lt_or_ge f.size (size + hdrSize) with hlt | hfit
  · have hnone := myMalloc_none (fuel + 2) h.addressable h.free hin
      (fun c hc => by rw [List.mem_singleton.1 hc, ulong_of_lt hsize]; exact hlt) (by simp)
    rw [hnone, Option.some.injEq, Prod.mk.injEq] at hmono
    exact Or.inl ⟨hlt, hmono.1.symm, hmono.2.symm⟩
  · obtain ⟨h₁, hrun, hl, hsz, -, hheap, hmem⟩ := myMalloc_some (fuel + 2)
      h.addressable (show FreeList s.heap ([] ++ [f]) from h.free) hin (List.pairwise_singleton _ _)
      (by simp) hfit (by simp)
    rw [hrun, Option.some.injEq, Prod.mk.injEq] at hmono
    obtain ⟨rfl, rfl⟩ := hmono
    refine Or.inr ⟨hfit, rfl, h.addressable, hheap.trans h.heap, hl, ?_, ?_, fun b hb => ?_⟩
    · exact Tiles.append.2 ⟨f.addr, h.tiles, rfl, rfl⟩
    · rw [f.rest_stop hfit, h.freeStop]
    · rcases List.mem_append.1 hb with hb | hb
      · rw [← h.sizes b hb]
        refine Heap.size_congr fun x hlo hhi => hmem x (fun c hc => Or.inl ?_) (by simp [OutsideNexts])
        have hbf := h.stop_le hb
        have hfc : f.addr ≤ c.addr := by
          rcases List.mem_cons.1 hc with rfl | hc
          · exact Nat.le_refl _
          · rw [List.mem_singleton.1 hc]
            simp only [Block.rest]
            omega
        simp only [Block.stop] at hbf
        omega
      · rw [List.mem_singleton.1 hb]
        exact hsz

/-- Whether or not the freed block touches the free block, the two become one free block at the
    address of the freed one. -/
theorem Inv.myFree (h : Inv base s f) {fuel : Nat} {b : Block} {h' : Heap} (hb : b ∈ s.live)
    (heq : myFree fuel (b.addr + hdrSize) s.heap = some h') :
    FreeList h' [b.join f] ∧ h'.myHeap = base ∧
      ∀ c ∈ s.live, c ≠ b → h'.size c.addr = c.size := by
  have hbf := h.stop_le hb
  have hsort : Sorted ([] ++ b :: [f]) := by simpa [Sorted] using hbf
  obtain ⟨h₁, hrun, hl, hheap, hmem⟩ := myFree_spec h.addressable (fuel + 2)
    (show FreeList s.heap ([] ++ [f]) from h.free)
    (fun c hc => List.mem_singleton.1 hc ▸ h.free_inside) (h.live_inside hb) (h.sizes b hb)
    hsort (by simp)
  have hmono := myFree_mono (Nat.le_add_right fuel 2) heq
  rw [hrun, Option.some.injEq] at hmono
  subst hmono
  have hmerge : mergeHead (mergePass ([] ++ b :: [f])) = [b.join f] := by
    by_cases hadj : b.stop = f.addr <;> simp [mergePass, mergeHead, hadj]
  rw [hmerge] at hl
  refine ⟨hl, hheap.trans h.heap, fun c hc hne => ?_⟩
  rw [← h.sizes c hc]
  refine Heap.size_congr fun x hlo hhi => hmem x fun d hd => ?_
  have hcf := h.stop_le hc
  have hap := h.tiles.sorted.pairwise_apart.forall hc hb hne
  rcases List.mem_cons.1 hd with rfl | hd
  · simp only [Block.Apart, Block.stop] at *
    omega
  · rw [List.mem_singleton.1 hd]
    simp only [Block.stop] at hcf
    omega

/-- The client's block in the tiling: what is below it, what is above it. -/
theorem Inv.split_live (h : Inv base s f) {b : Block} (hb : b ∈ s.live) :
    ∃ l r, s.live = l ++ b :: r ∧ dropLive (b.addr + hdrSize) s.live = l ++ r ∧
      Tiles base l b.addr ∧ Tiles b.stop r f.addr := by
  obtain ⟨l, r, hlr⟩ := List.append_of_mem hb
  obtain ⟨mid, hl, rfl, hr⟩ := Tiles.append.1 (hlr ▸ h.tiles)
  refine ⟨l, r, hlr, ?_, hl, hr⟩
  have hbelow : ∀ c ∈ l, c.addr + hdrSize ≠ b.addr + hdrSize := by
    intro c hc
    have := (hl.mem hc).2
    simp only [Block.stop, hdrSize] at *
    omega
  have habove : ∀ c ∈ r, c.addr + hdrSize ≠ b.addr + hdrSize := by
    intro c hc
    have := (hr.mem hc).1
    simp only [Block.stop, hdrSize] at *
    omega
  rw [hlr, dropLive, List.filter_append, List.filter_cons_of_neg (by simp),
    List.filter_eq_self.2 (by simpa using hbelow), List.filter_eq_self.2 (by simpa using habove)]

/-- Freeing the topmost live block is sound. -/
theorem Inv.free_top (h : Inv base s f) {fuel : Nat} {b : Block} {h' : Heap} (hb : b ∈ s.live)
    (heq : Alloc.myFree fuel (b.addr + hdrSize) s.heap = some h') (htop : b.stop = f.addr) :
    Inv base ⟨h', dropLive (b.addr + hdrSize) s.live⟩ (b.join f) := by
  obtain ⟨hl, hheap, hsizes⟩ := h.myFree hb heq
  obtain ⟨l, r, hlr, hdrop, htl, htr⟩ := h.split_live hb
  have hr : r = [] := by
    cases r with
    | nil => rfl
    | cons c r =>
        obtain ⟨hc, hrest⟩ := htr
        have := hrest.le
        simp only [Block.stop, hdrSize] at *
        omega
  subst hr
  rw [hdrop, List.append_nil]
  refine ⟨h.addressable, hheap, hl, htl, ?_, fun c hc => ?_⟩
  · rw [Block.join_stop htop, h.freeStop]
  · refine hsizes c (by simp [hlr, hc]) ?_
    rintro rfl
    have := (htl.mem hc).2
    simp only [Block.stop, hdrSize] at this
    omega

/-- Freeing any other live block puts the one above it under a free block. -/
theorem Inv.free_not_top (h : Inv base s f) {fuel : Nat} {b : Block} {h' : Heap} (hb : b ∈ s.live)
    (heq : Alloc.myFree fuel (b.addr + hdrSize) s.heap = some h') (htop : b.stop ≠ f.addr)
    {live : List Block} (hlive : ∀ c ∈ dropLive (b.addr + hdrSize) s.live, c ∈ live) :
    ¬ Safe ⟨h', live⟩ := by
  intro hsafe
  obtain ⟨hl, -, -⟩ := h.myFree hb heq
  obtain ⟨l, r, hlr, hdrop, htl, htr⟩ := h.split_live hb
  cases r with
  | nil => exact htop htr
  | cons c r =>
      have hc : c ∈ live := hlive c (by simp [hdrop])
      have hjin : (b.join f).Inside base := by
        have h1 := h.live_inside hb
        have h2 := h.free_inside
        have h3 := h.stop_le hb
        exact ⟨h1.1, Nat.le_trans (Block.join_stop_le h3) h2.2⟩
      have hpos : h'.flHead ≠ 0 := by
        rw [show h'.flHead = b.addr from hl.1]
        exact Nat.pos_iff_ne_zero.1 ((h.live_inside hb).addr_pos h.addressable)
      have hap := hsafe.free h'.flHead (OnFreeList.head hpos) c hc
      have hsz : h'.size h'.flHead = (b.join f).size := by rw [hl.1]; exact hl.2.1
      have hca : c.addr = b.stop := htr.1
      rw [hsz, hjin.sizeT_eq, show h'.flHead = b.addr from hl.1] at hap
      simp only [Block.Apart, Block.stop, Block.join, hdrSize] at hap hca
      omega

end

/-! ## Runs -/

theorem Inv.step_inOrder {base : Nat} {s s' : State} {c : Call} (hI : ∃ f, Inv base s f)
    (hc : InOrder s c) (hs : Step s c s') : ∃ f, Inv base s' f := by
  obtain ⟨f, h⟩ := hI
  obtain ⟨hallow, fuel, hex⟩ := hs
  cases c with
  | malloc size =>
      obtain ⟨⟨ptr, h'⟩, hm, rfl⟩ := Option.map_eq_some_iff.1 hex
      rcases h.myMalloc hallow hm with ⟨-, rfl, rfl⟩ | ⟨-, rfl, hinv⟩
      · exact ⟨f, by simpa using h⟩
      · refine ⟨f.rest size, ?_⟩
        simpa [Block.ofPtr, hdrSize] using hinv
  | free ptr =>
      obtain ⟨b, hb, rfl, hsize⟩ := h.block_of_holds hallow
      obtain ⟨h', hf, rfl⟩ := Option.map_eq_some_iff.1 hex
      have htop : b.stop = f.addr := by
        rw [InOrder, hsize, h.flHead] at hc
        exact hc
      exact ⟨_, h.free_top hb hf htop⟩
  | realloc ptr size =>
      obtain ⟨hptr, hsz⟩ := hallow
      obtain ⟨⟨q, h'⟩, hr, rfl⟩ := Option.map_eq_some_iff.1 hex
      rw [myRealloc] at hr
      split_ifs at hr with h0
      · -- a fresh allocation
        subst h0
        rcases h.myMalloc hsz hr with ⟨-, rfl, rfl⟩ | ⟨-, rfl, hinv⟩
        · exact ⟨f, by simpa using h⟩
        · refine ⟨f.rest size, ?_⟩
          have hdrop : dropLive 0 s.live = s.live := by simp [dropLive, hdrSize]
          simpa [Block.ofPtr, hdrSize, hdrop] using hinv
      · obtain ⟨b, hb, rfl, hbs⟩ := h.block_of_holds (hptr.resolve_left h0)
        have hul := (h.live_inside hb).ulong_ptr h.addressable
        simp only [hul, h.sizes b hb, (h.live_inside hb).sizeT_eq] at hr
        split_ifs at hr with hgrow
        · -- the block would have to move, and there is no room
          have hno : f.size < size + hdrSize := by
            rw [InOrder, hbs, h.flHead_size] at hc
            omega
          obtain ⟨⟨q', h₁⟩, hm, hrest⟩ := Option.bind_eq_some_iff.1 hr
          rcases h.myMalloc hsz hm with ⟨-, rfl, rfl⟩ | ⟨hfit, -, -⟩
          · simp only [if_true, Option.some.injEq, Prod.mk.injEq] at hrest
            obtain ⟨rfl, rfl⟩ := hrest
            exact ⟨f, by simpa using h⟩
          · omega
        · simp only [Option.some.injEq, Prod.mk.injEq] at hr
          obtain ⟨rfl, rfl⟩ := hr
          exact ⟨f, by simpa using h⟩
  | write a v =>
      rw [exec, Option.some.injEq] at hex
      subst hex
      obtain ⟨b, hb, hlo, hhi⟩ := hallow
      refine ⟨f, h.of_user_bytes fun x hx => Function.update_of_ne ?_ _ _⟩
      rintro rfl
      have := hx b hb
      omega

/-- A block that `my_realloc` moves is never the topmost one when it is freed. -/
theorem Inv.realloc_move {base fuel size : Nat} {s : State} {f b : Block} {q : Nat} {h' : Heap}
    (h : Inv base s f) (hb : b ∈ s.live) (hsz : size + hdrSize < 2 ^ 64) (hgrow : b.size < size)
    (hfit : size + hdrSize ≤ f.size)
    (heq : myRealloc fuel (b.addr + hdrSize) size s.heap = some (q, h')) :
    q = f.addr + hdrSize ∧
      ¬ Safe ⟨h', dropLive (b.addr + hdrSize) s.live ++ [⟨f.addr, size⟩]⟩ := by
  have hul := (h.live_inside hb).ulong_ptr h.addressable
  rw [myRealloc, if_neg (by simp [hdrSize])] at heq
  simp only [hul, h.sizes b hb, (h.live_inside hb).sizeT_eq, gt_iff_lt, hgrow, if_true] at heq
  obtain ⟨⟨q', h₁⟩, hm, hrest⟩ := Option.bind_eq_some_iff.1 heq
  rcases h.myMalloc hsz hm with ⟨hno, -, -⟩ | ⟨-, rfl, hinv⟩
  · omega
  have hne : f.addr + hdrSize ≠ 0 := by simp [hdrSize]
  simp only [hne, if_false] at hrest
  obtain ⟨h₂, hfree, hq⟩ := Option.map_eq_some_iff.1 hrest
  rw [Prod.mk.injEq] at hq
  obtain ⟨rfl, rfl⟩ := hq
  -- the copy goes into the bytes of the new block
  have hinv₂ : Inv base ⟨{ h₁ with mem := h₁.mem.copy (f.addr + hdrSize) (b.addr + hdrSize) b.size },
      s.live ++ [⟨f.addr, size⟩]⟩ (f.rest size) := by
    refine hinv.of_user_bytes fun x hx => Mem.copy_apply _ _ _ _ _ ?_
    have := hx ⟨f.addr, size⟩ (by simp)
    simp only [Block.stop, hdrSize] at *
    omega
  refine ⟨rfl, hinv₂.free_not_top (by simp [hb]) hfree ?_ fun c hc => ?_⟩
  · have := h.stop_le hb
    simp only [Block.rest, Block.stop, hdrSize] at *
    omega
  · rw [dropLive, List.filter_append] at hc
    rcases List.mem_append.1 hc with hc | hc
    · exact List.mem_append_left _ hc
    · exact List.mem_append_right _ (List.mem_of_mem_filter hc)

theorem Inv.step_not_inOrder {base : Nat} {s s' : State} {c : Call} (hI : ∃ f, Inv base s f)
    (hc : ¬ InOrder s c) (hs : Step s c s') : ¬ Safe s' := by
  obtain ⟨f, h⟩ := hI
  obtain ⟨hallow, fuel, hex⟩ := hs
  cases c with
  | malloc size => exact absurd trivial hc
  | write a v => exact absurd trivial hc
  | free ptr =>
      obtain ⟨b, hb, rfl, hsize⟩ := h.block_of_holds hallow
      obtain ⟨h', hf, rfl⟩ := Option.map_eq_some_iff.1 hex
      refine h.free_not_top hb hf ?_ (fun c hc => hc)
      rw [InOrder, hsize, h.flHead] at hc
      exact hc
  | realloc ptr size =>
      obtain ⟨hptr, hsz⟩ := hallow
      simp only [InOrder, not_or, Nat.not_le, Nat.not_lt] at hc
      obtain ⟨h0, hgrow, hfit⟩ := hc
      obtain ⟨b, hb, rfl, hbs⟩ := h.block_of_holds (hptr.resolve_left h0)
      rw [hbs] at hgrow
      rw [h.flHead_size] at hfit
      obtain ⟨⟨q, h'⟩, hr, rfl⟩ := Option.map_eq_some_iff.1 hex
      obtain ⟨rfl, hunsafe⟩ := h.realloc_move hb hsz hgrow hfit hr
      have hne : ¬ (f.addr + hdrSize = 0 ∨ f.addr + hdrSize = b.addr + hdrSize) := by
        have := h.stop_le hb
        simp only [Block.stop, hdrSize] at *
        omega
      simpa only [if_neg hne, Block.ofPtr, Nat.add_sub_cancel] using hunsafe

/-- The state after `my_mem_allocator_init` is sound. -/
theorem Inv.init {m : Mem} {base : Nat} {h : Heap} (hwrap : base + myHeapSize ≤ 2 ^ 64)
    (hinit : myMemAllocatorInit m base = some h) :
    Inv base ⟨h, []⟩ ⟨base, myHeapSize - hdrSize⟩ := by
  rw [myMemAllocatorInit] at hinit
  split_ifs at hinit with h0
  rw [Option.some.injEq] at hinit
  subst hinit
  refine ⟨⟨Nat.pos_of_ne_zero h0, hwrap⟩, rfl, ⟨rfl, ?_, ?_⟩, rfl, ?_, by simp⟩
  · rw [Heap.size_setNext _ (Or.inl rfl)]
    exact Heap.size_setSize_self _ (by decide)
  · exact Heap.next_setNext_self _ (by decide)
  · rw [Block.stop, Nat.add_assoc, Nat.add_sub_cancel' (by decide)]

/-- **The allocator is sound exactly on stack-like use.** Along every run from
    `my_mem_allocator_init` the live blocks stay inside the heap, disjoint from each other and from
    the free list, if and only if every `my_free` gives back the block that ends where the free
    list begins and no `my_realloc` has to move its block. -/
theorem live_blocks_apart_iff {m : Mem} {base : Nat} {h : Heap} {tr : List (State × Call)}
    {s : State} (hwrap : base + myHeapSize ≤ 2 ^ 64) (hinit : myMemAllocatorInit m base = some h)
    (hrun : Run Step ⟨h, []⟩ tr s) : Along Safe tr s ↔ ∀ x ∈ tr, InOrder x.1 x.2 :=
  hrun.along_iff (I := fun s => ∃ f, Inv base s f) ⟨_, Inv.init hwrap hinit⟩
    (fun _ ⟨_, hI⟩ => hI.safe) (fun _ _ _ => Inv.step_inOrder) (fun _ _ _ => Inv.step_not_inOrder)

/-- The heap of `my_mem_allocator_init` at address 4096 of an empty memory. -/
def sampleHeap : Heap :=
  (({ mem := fun _ => 0, myHeap := 4096, flHead := 4096 } : Heap).setSize 4096
    (myHeapSize - hdrSize)).setNext 4096 0

theorem sampleHeap_init : myMemAllocatorInit (fun _ => 0) 4096 = some sampleHeap := by
  simp [myMemAllocatorInit, sampleHeap]

/-- The state after the calls `cs`, made one after the other from the fresh heap. -/
def sampleState (cs : List Call) : State :=
  cs.foldl (fun s c => (exec 3 s c).getD s) ⟨sampleHeap, []⟩

theorem sampleState_append (cs : List Call) (c : Call) :
    sampleState (cs ++ [c]) = (exec 3 (sampleState cs) c).getD (sampleState cs) := by
  simp [sampleState, List.foldl_append]

theorem sampleState_step (cs : List Call) (c : Call)
    (h : c.Allowed (sampleState cs) ∧ (exec 3 (sampleState cs) c).isSome) :
    Step (sampleState cs) c (sampleState (cs ++ [c])) := by
  obtain ⟨s', hs'⟩ := Option.isSome_iff_exists.1 h.2
  refine ⟨h.1, 3, ?_⟩
  rw [sampleState_append, hs', Option.getD_some]

theorem sampleState_run (c₁ c₂ c₃ : Call)
    (h₁ : c₁.Allowed (sampleState []) ∧ (exec 3 (sampleState []) c₁).isSome)
    (h₂ : c₂.Allowed (sampleState [c₁]) ∧ (exec 3 (sampleState [c₁]) c₂).isSome)
    (h₃ : c₃.Allowed (sampleState [c₁, c₂]) ∧ (exec 3 (sampleState [c₁, c₂]) c₃).isSome) :
    Run Step ⟨sampleHeap, []⟩
      [(sampleState [], c₁), (sampleState [c₁], c₂), (sampleState [c₁, c₂], c₃)]
      (sampleState [c₁, c₂, c₃]) :=
  ((Run.nil.snoc (sampleState_step [] c₁ h₁)).snoc (sampleState_step [c₁] c₂ h₂)).snoc
    (sampleState_step [c₁, c₂] c₃ h₃)

/-- Two blocks, the second given back: a run of the sound kind. -/
theorem live_blocks_apart_two_blocks :
    Along Safe
      [(sampleState [], Call.malloc 16), (sampleState [.malloc 16], .malloc 32),
        (sampleState [.malloc 16, .malloc 32], .free 4144)]
      (sampleState [.malloc 16, .malloc 32, .free 4144]) := by
  have hrun := sampleState_run (.malloc 16) (.malloc 32) (.free 4144) (by decide +kernel)
    (by decide +kernel) (by decide +kernel)
  exact (live_blocks_apart_iff (by decide) sampleHeap_init hrun).2 (by decide +kernel)

/-- Two blocks, the first given back: the second is now covered by the free block. -/
theorem free_below_live_block_overlaps :
    myMemAllocatorInit (fun _ => 0) 4096 = some sampleHeap ∧
    Run Step ⟨sampleHeap, []⟩
      [(sampleState [], Call.malloc 16), (sampleState [.malloc 16], .malloc 16),
        (sampleState [.malloc 16, .malloc 16], .free 4112)]
      (sampleState [.malloc 16, .malloc 16, .free 4112]) ∧
    ¬ Safe (sampleState [.malloc 16, .malloc 16, .free 4112]) := by
  refine ⟨sampleHeap_init, ?_, fun hsafe => ?_⟩
  · exact sampleState_run (.malloc 16) (.malloc 16) (.free 4112) (by decide +kernel)
      (by decide +kernel) (by decide +kernel)
  · have hap := hsafe.free _ (OnFreeList.head (by decide +kernel)) ⟨4128, 16⟩ (by decide +kernel)
    revert hap
    decide +kernel

end Cs350.Alloc
