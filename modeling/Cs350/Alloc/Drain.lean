import Cs350.Alloc.Run

set_option autoImplicit false

/-! # Giving everything back

`coalesce` joins the first two free blocks whether they are adjacent or not, so that a single free
block may claim bytes that are still in use. Between frees the list nevertheless holds one block,
its address is the lowest one given back so far and its size counts what has been given back. Once
the client has given back everything, in whatever order, these are the address and the size that
the list began with. -/

namespace Cs350.Alloc

/-! ## `my_free` with one free block -/

/-- `coalesce` joins two blocks, in the loop if they are adjacent and after it if they are not. -/
theorem coalesce_pair {h : Heap} {l u : Block} (fuel : Nat) (hl : FreeList h [l, u])
    (hpos : l.addr ≠ 0) (hlu : HdrBefore l u) (hsum : l.size + (u.size + hdrSize) < 2 ^ 31) :
    ∃ h', coalesce (fuel + 2) h = some h' ∧ FreeList h' [l.join u] ∧ h'.myHeap = h.myHeap ∧
      ∀ x, OutsideHdrs [l] x → h'.mem x = h.mem x := by
  have hhead : h.flHead = l.addr := hl.head_eq
  have hseg : Seg h l.addr [l, u] 0 := hhead ▸ hl
  have hnext : h.next l.addr = u.addr := hseg.2.2.1
  have hlast : h.next u.addr = 0 := hseg.2.2.2.2
  have hupos : u.addr ≠ 0 := Nat.ne_of_gt (Nat.lt_of_le_of_lt (Nat.zero_le _) hlu.lt)
  obtain ⟨hjoin, hhd, hhp, hmem⟩ := absorb_spec hseg hsum hlu.apart.symm (by simp)
  refine ⟨absorb l.addr u.addr h, ?_, ?_, hhp, hmem⟩
  · have hend : (absorb l.addr u.addr h).next l.addr = 0 := hjoin.2.2
    rw [coalesce, hhead, if_neg hpos, coalesceLoop, hnext, if_neg hupos, hhead,
      if_neg (Nat.lt_irrefl _)]
    by_cases hadj : ulong (l.addr + sizeT (h.size l.addr) + hdrSize) = u.addr
    · simp [hadj, hnext, hend, hhd, hhead]
    · simp only [hadj, if_false, hnext, if_neg hupos]
      rw [coalesceLoop, if_pos hlast]
      simp [hhead, hnext, hupos]
  · show Seg _ _ _ 0
    rw [hhd, hhead]
    exact hjoin

/-- The free block and the freed one become one, at the lower of the two addresses. -/
theorem myFree_pair {h : Heap} {b g : Block} (fuel : Nat) (hl : FreeList h [g])
    (hsize : h.size b.addr = b.size) (hb : 0 < b.addr) (hblt : b.addr + hdrSize ≤ 2 ^ 64)
    (hg : 0 < g.addr) (hglt : g.addr < 2 ^ 64) (hap : HdrApart g.addr b.addr)
    (hsum : g.size + (b.size + hdrSize) < 2 ^ 31) :
    ∃ h', myFree (fuel + 2) (b.addr + hdrSize) h = some h' ∧
      FreeList h' [⟨min g.addr b.addr, g.size + (b.size + hdrSize)⟩] ∧ h'.myHeap = h.myHeap ∧
      ∀ x, OutsideHdrs [g, b] x → h'.mem x = h.mem x := by
  have hptr := ulong_ptr hblt
  have hout : ∀ {x : Nat} {l : List Block}, OutsideHdrs [g, b] x → (∀ c ∈ l, c = g ∨ c = b) →
      OutsideHdrs l x := by
    intro x l hx hsub c hc
    rcases hsub c hc with rfl | rfl
    · exact hx c (by simp)
    · exact hx c (by simp)
  rcases hap with hgb | hbg
  · -- the freed block goes behind the free one
    have hgb : HdrBefore g b := hgb
    obtain ⟨h₁, hins, hl₁, hheap₁, hmem₁⟩ := flInsert_after (fuel + 2)
      (show FreeList h ([] ++ g :: []) from hl) (by simpa using Nat.pos_iff_ne_zero.1 hg)
      (by simp only [hdrSize] at hblt; omega) hsize (List.pairwise_singleton _ _)
      (by simpa using hgb) (by simp) (by simp)
    obtain ⟨h₂, hco, hl₂, hheap₂, hmem₂⟩ :=
      coalesce_pair fuel hl₁ (Nat.pos_iff_ne_zero.1 hg) hgb hsum
    refine ⟨h₂, ?_, ?_, hheap₂.trans hheap₁, fun x hx => ?_⟩
    · rw [myFree, hptr, hins, Option.bind_some, hco]
    · rw [Nat.min_eq_left (Nat.le_of_lt hgb.lt)]
      exact hl₂
    · rw [hmem₂ x (hout hx (by simp)), hmem₁ x (hout hx (by simp)).outsideNexts]
  · -- in front of it
    have hbg : HdrBefore b g := hbg
    obtain ⟨h₁, hins, hl₁, hheap₁, hmem₁⟩ := flInsert_front (fuel + 2) hl (by simpa using hglt)
      hsize (by simpa using hbg)
    have hcomm : b.size + (g.size + hdrSize) = g.size + (b.size + hdrSize) := by omega
    obtain ⟨h₂, hco, hl₂, hheap₂, hmem₂⟩ :=
      coalesce_pair fuel hl₁ (Nat.pos_iff_ne_zero.1 hb) hbg (hcomm ▸ hsum)
    refine ⟨h₂, ?_, ?_, hheap₂.trans hheap₁, fun x hx => ?_⟩
    · rw [myFree, hptr, hins, Option.bind_some, hco]
    · rw [Nat.min_eq_right (Nat.le_of_lt hbg.lt), ← hcomm]
      exact hl₂
    · rw [hmem₂ x (hout hx (by simp)), hmem₁ x (hout hx (by simp)).outsideNexts]

/-! ## All blocks given back -/

/-- The bytes of blocks and their headers. -/
def bytes (bs : List Block) : Nat := (bs.map fun b => b.size + hdrSize).sum

/-- What holds while the client gives back its blocks: `live` are left, `g` is the free block. -/
structure Draining (base : Nat) (h : Heap) (live : List Block) (g : Block) : Prop where
  heap : h.myHeap = base
  free : FreeList h [g]
  sizes : ∀ b ∈ live, h.size b.addr = b.size
  inside : ∀ b ∈ live, b.Inside base
  apart : live.Pairwise fun b c => HdrApart b.addr c.addr
  freeApart : ∀ b ∈ live, HdrApart g.addr b.addr
  low : base ≤ g.addr
  high : g.addr < 2 ^ 64
  /-- the lowest block is free or still to come -/
  bottom : g.addr = base ∨ ∃ b ∈ live, b.addr = base
  total : g.size + hdrSize + bytes live = myHeapSize

section Draining

variable {base : Nat} {h : Heap} {live : List Block} {g : Block}

theorem Draining.perm (hd : Draining base h live g) {live' : List Block} (hp : live'.Perm live) :
    Draining base h live' g where
  heap := hd.heap
  free := hd.free
  sizes b hb := hd.sizes b (hp.mem_iff.1 hb)
  inside b hb := hd.inside b (hp.mem_iff.1 hb)
  apart := (hp.pairwise_iff fun h => HdrApart.symm h).2 hd.apart
  freeApart b hb := hd.freeApart b (hp.mem_iff.1 hb)
  low := hd.low
  high := hd.high
  bottom := hd.bottom.imp_right fun ⟨b, hb, hbase⟩ => ⟨b, hp.mem_iff.2 hb, hbase⟩
  total := by
    rw [bytes, (hp.map _).sum_nat]
    exact hd.total

theorem Draining.free_cons (hbase : Addressable base) {b : Block}
    (hd : Draining base h (b :: live) g) (fuel : Nat) :
    ∃ h' g', myFree (fuel + 2) (b.addr + hdrSize) h = some h' ∧ Draining base h' live g' := by
  have hb : b.Inside base := hd.inside b (by simp)
  obtain ⟨hapart, hrest⟩ := List.pairwise_cons.1 hd.apart
  have htotal : g.size + hdrSize + (b.size + hdrSize + bytes live) = myHeapSize := hd.total
  have hgap := hd.freeApart b (by simp)
  obtain ⟨h', hfree, hl, hheap, hmem⟩ := myFree_pair fuel hd.free (hd.sizes b (by simp))
    (hb.addr_pos hbase) (by have := hb.addr_lt hbase; omega)
    (Nat.lt_of_lt_of_le hbase.pos hd.low) hd.high hgap
    (by simp only [myHeapSize, hdrSize] at *; omega)
  refine ⟨h', _, hfree, hheap.trans hd.heap, hl, fun c hc => ?_, fun c hc => ?_, hrest,
    fun c hc => ?_, ?_, ?_, ?_, ?_⟩
  · rw [← hd.sizes c (List.mem_cons_of_mem _ hc)]
    have hgc := hd.freeApart c (List.mem_cons_of_mem _ hc)
    have hbc := hapart c hc
    refine Heap.size_congr fun x hlo hhi => hmem x fun d hdmem => ?_
    rcases List.mem_cons.1 hdmem with rfl | hdmem
    · simp only [HdrApart] at hgc
      omega
    · rw [List.mem_singleton.1 hdmem]
      simp only [HdrApart] at hbc
      omega
  · exact hd.inside c (List.mem_cons_of_mem _ hc)
  · have hgc := hd.freeApart c (List.mem_cons_of_mem _ hc)
    have hbc := hapart c hc
    show HdrApart (min g.addr b.addr) c.addr
    rcases Nat.le_total g.addr b.addr with hle | hle
    · rw [Nat.min_eq_left hle]
      exact hgc
    · rw [Nat.min_eq_right hle]
      exact hbc
  · exact Nat.le_min.2 ⟨hd.low, hb.1⟩
  · exact Nat.lt_of_le_of_lt (Nat.min_le_left _ _) hd.high
  · show min g.addr b.addr = base ∨ _
    have hlow := hd.low
    have hblow := hb.1
    rcases hd.bottom with hg | ⟨c, hc, hcb⟩
    · exact Or.inl (by omega)
    · rcases List.mem_cons.1 hc with rfl | hc
      · exact Or.inl (by omega)
      · exact Or.inr ⟨c, hc, hcb⟩
  · show g.size + (b.size + hdrSize) + hdrSize + bytes live = myHeapSize
    omega

theorem Draining.nil (hd : Draining base h [] g) : g = ⟨base, myHeapSize - hdrSize⟩ := by
  obtain ⟨addr, size⟩ := g
  have haddr : addr = base := hd.bottom.resolve_right (by simp)
  have htotal : size + hdrSize + 0 = myHeapSize := hd.total
  rw [haddr, ← htotal, Nat.add_zero, Nat.add_sub_cancel]

end Draining

/-! ## Requests and frees one after the other -/

/-- `my_malloc` for each size; the pointers that are not `NULL`, and the heap. -/
def mallocAll (fuel : Nat) : List Nat → Heap → Option (List Nat × Heap)
  | [], h => some ([], h)
  | size :: sizes, h =>
      (myMalloc fuel size h).bind fun (ptr, h) =>
        (mallocAll fuel sizes h).map fun (ptrs, h) =>
          (if ptr = 0 then ptrs else ptr :: ptrs, h)

/-- `my_free` of each pointer. -/
def freeAll (fuel : Nat) : List Nat → Heap → Option Heap
  | [], h => some h
  | ptr :: ptrs, h => (myFree fuel ptr h).bind (freeAll fuel ptrs)

/-- The state that `my_mem_allocator_init` leaves: one free block that is the whole heap. -/
structure Fresh (base : Nat) (h : Heap) : Prop where
  heap : h.myHeap = base
  head : h.flHead = base
  size : h.size base = myHeapSize - hdrSize
  next : h.next base = 0

section All

variable {base : Nat}

theorem Inv.malloc_returns {s : State} {f : Block} (h : Inv base s f) (fuel : Nat) {size : Nat}
    (hsize : size + hdrSize < 2 ^ 64) :
    ∃ ptr h', Alloc.myMalloc (fuel + 2) size s.heap = some (ptr, h') := by
  have hin : ∀ c ∈ [f], c.Inside base := fun c hc => List.mem_singleton.1 hc ▸ h.free_inside
  rcases Nat.lt_or_ge f.size (size + hdrSize) with hlt | hfit
  · exact ⟨_, _, myMalloc_none (fuel + 2) h.addressable h.free hin
      (fun c hc => by rw [List.mem_singleton.1 hc, ulong_of_lt hsize]; exact hlt) (by simp)⟩
  · obtain ⟨h', hrun, -⟩ := myMalloc_some (fuel + 2) h.addressable
      (show FreeList s.heap ([] ++ [f]) from h.free) hin (List.pairwise_singleton _ _) (by simp)
      hfit (by simp)
    exact ⟨_, h', hrun⟩

/-- The requests return, and the pointers are those of the new blocks. -/
theorem Inv.mallocAll {s : State} {f : Block} (h : Inv base s f) (fuel : Nat) (sizes : List Nat)
    (hsizes : ∀ n ∈ sizes, n + hdrSize < 2 ^ 64) :
    ∃ h' news f', mallocAll (fuel + 2) sizes s.heap =
        some (news.map fun b => b.addr + hdrSize, h') ∧ Inv base ⟨h', s.live ++ news⟩ f' := by
  induction sizes generalizing s f with
  | nil => exact ⟨s.heap, [], f, rfl, by simpa using h⟩
  | cons size sizes ih =>
      have hsize := hsizes size (by simp)
      have hrest : ∀ n ∈ sizes, n + hdrSize < 2 ^ 64 := fun n hn =>
        hsizes n (List.mem_cons_of_mem _ hn)
      obtain ⟨ptr, h₁, hrun⟩ := h.malloc_returns fuel hsize
      rcases h.myMalloc hsize hrun with ⟨-, rfl, rfl⟩ | ⟨-, rfl, hinv⟩
      · obtain ⟨h', news, f', hall, hinv'⟩ := ih h hrest
        refine ⟨h', news, f', ?_, hinv'⟩
        simp only [Alloc.mallocAll, hrun, Option.bind_some, hall, Option.map_some, if_true]
      · obtain ⟨h', news, f', hall, hinv'⟩ := ih hinv hrest
        refine ⟨h', ⟨f.addr, size⟩ :: news, f', ?_, by simpa using hinv'⟩
        have hne : f.addr + hdrSize ≠ 0 := by simp [hdrSize]
        simp only [Alloc.mallocAll, hrun, Option.bind_some, hall, Option.map_some, if_neg hne,
          List.map_cons]

theorem tiles_bytes {lo hi : Nat} {bs : List Block} (h : Tiles lo bs hi) : lo + bytes bs = hi := by
  induction bs generalizing lo with
  | nil => exact h
  | cons b bs ih =>
      obtain ⟨rfl, hrest⟩ := h
      have hsum := ih hrest
      simp only [bytes, List.map_cons, List.sum_cons, Block.stop] at *
      omega

theorem Inv.draining {s : State} {f : Block} (h : Inv base s f) :
    Draining base s.heap s.live f where
  heap := h.heap
  free := h.free
  sizes := h.sizes
  inside _ hb := h.live_inside hb
  apart := h.tiles.sorted.imp hdrApart_of_stop_le
  freeApart _ hb := (hdrApart_of_stop_le (h.stop_le hb)).symm
  low := h.tiles.le
  high := by
    have := h.free_inside.addr_lt h.addressable
    simp only [hdrSize] at this
    omega
  bottom := by
    have htiles := h.tiles
    cases hlive : s.live with
    | nil =>
        rw [hlive] at htiles
        exact Or.inl htiles.symm
    | cons b bs =>
        rw [hlive] at htiles
        exact Or.inr ⟨b, by simp, htiles.1⟩
  total := by
    have hsum := tiles_bytes h.tiles
    have hstop := h.freeStop
    simp only [Block.stop] at hstop
    omega

/-- The blocks left are given back one after the other. -/
theorem Draining.freeAll (hbase : Addressable base) {h : Heap} {live : List Block} {g : Block}
    (hd : Draining base h live g) (fuel : Nat) :
    ∃ h', freeAll (fuel + 2) (live.map fun b => b.addr + hdrSize) h = some h' ∧ Fresh base h' := by
  induction live generalizing h g with
  | nil =>
      have hl := hd.free
      rw [hd.nil] at hl
      exact ⟨h, rfl, hd.heap, hl.1, hl.2.1, hl.2.2⟩
  | cons b live ih =>
      obtain ⟨h₁, g₁, hfree, hd₁⟩ := hd.free_cons hbase fuel
      obtain ⟨h', hall, hfresh⟩ := ih hd₁
      refine ⟨h', ?_, hfresh⟩
      rw [List.map_cons, Alloc.freeAll, hfree, Option.bind_some, hall]

/-- An order of the pointers is one of their blocks. -/
theorem exists_perm_of_ptrs {live : List Block} {order : List Nat} (h : Heap)
    (hsizes : ∀ b ∈ live, h.size b.addr = b.size)
    (hp : order.Perm (live.map fun b => b.addr + hdrSize)) :
    ∃ live' : List Block, live'.Perm live ∧ order = live'.map fun b => b.addr + hdrSize := by
  refine ⟨order.map fun p => ⟨p - hdrSize, h.size (p - hdrSize)⟩, ?_, ?_⟩
  · have hback : (live.map fun b => b.addr + hdrSize).map
        (fun p => (⟨p - hdrSize, h.size (p - hdrSize)⟩ : Block)) = live := by
      rw [List.map_map]
      conv_rhs => rw [← List.map_id live]
      refine List.map_congr_left fun b hb => ?_
      simp [hsizes b hb]
    rw [← hback]
    exact hp.map _
  · rw [List.map_map]
    conv_lhs => rw [← List.map_id order]
    refine List.map_congr_left fun p hmem => ?_
    obtain ⟨b, -, rfl⟩ := List.mem_map.1 (hp.mem_iff.1 hmem)
    simp

/-- **Giving everything back restores the heap.** After any requests (some of which may fail), all
    pointers that were returned can be freed in any order, and the allocator is then as
    `my_mem_allocator_init` left it. All of these calls return. -/
theorem free_all_restores {m : Mem} {h₀ : Heap} (hwrap : base + myHeapSize ≤ 2 ^ 64)
    (hinit : myMemAllocatorInit m base = some h₀) (sizes : List Nat)
    (hsizes : ∀ n ∈ sizes, n + hdrSize < 2 ^ 64) (fuel : Nat) :
    Fresh base h₀ ∧ ∃ ptrs h₁, mallocAll (fuel + 2) sizes h₀ = some (ptrs, h₁) ∧
      ∀ order : List Nat, order.Perm ptrs →
        ∃ h₂, freeAll (fuel + 2) order h₁ = some h₂ ∧ Fresh base h₂ := by
  have hinv := Inv.init hwrap hinit
  refine ⟨⟨hinv.heap, hinv.free.1, hinv.free.2.1, hinv.free.2.2⟩, ?_⟩
  obtain ⟨h₁, live, f, hmalloc, hinv₁⟩ := hinv.mallocAll fuel sizes hsizes
  refine ⟨_, h₁, hmalloc, fun order hp => ?_⟩
  have hd := hinv₁.draining
  obtain ⟨live', hp', rfl⟩ := exists_perm_of_ptrs h₁ hd.sizes hp
  exact (hd.perm hp').freeAll hinv.addressable fuel

end All

/-- Two blocks and a request that is too large, given back from below. After the first free the free
    block claims the bytes of the second. -/
theorem free_all_restores_from_below :
    ∃ h₁ h₂, mallocAll 2 [16, 0x200000, 32] sampleHeap = some ([4112, 4144], h₁) ∧
      freeAll 2 [4112, 4144] h₁ = some h₂ ∧ Fresh 4096 h₂ := by
  obtain ⟨-, ptrs, h₁, hmalloc, hfree⟩ :=
    free_all_restores (by decide) sampleHeap_init [16, 0x200000, 32] (by decide) 0
  have hptrs : (mallocAll 2 [16, 0x200000, 32] sampleHeap).map Prod.fst = some [4112, 4144] := by
    decide +kernel
  rw [hmalloc, Option.map_some, Option.some.injEq] at hptrs
  subst hptrs
  obtain ⟨h₂, hrun, hfresh⟩ := hfree [4112, 4144] (List.Perm.refl _)
  exact ⟨h₁, h₂, hmalloc, hrun, hfresh⟩

end Cs350.Alloc
