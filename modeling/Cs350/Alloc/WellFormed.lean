import Cs350.Alloc.Run

set_option autoImplicit false

/-! # Well-formed heaps

A heap is well formed when its free and its live blocks, headers included, fill it without gaps, the
free list goes through the free blocks in increasing order, and the header of a live block holds its
size. These are more heaps than those of `Inv`: any number of free blocks, anywhere between the live
ones. -/

namespace Cs350.Alloc

/-- In some order, the blocks fill the heap that starts at `base`. -/
def Tiled (base : Nat) (bs : List Block) : Prop :=
  ∃ all, all.Perm bs ∧ Tiles base all (base + myHeapSize)

structure WellFormed (base : Nat) (h : Heap) (free live : List Block) : Prop where
  addressable : Addressable base
  heap : h.myHeap = base
  list : FreeList h free
  increasing : free.Pairwise fun b c => b.addr < c.addr
  sizes : ∀ b ∈ live, h.size b.addr = b.size
  tiled : Tiled base (free ++ live)

/-! ## Blocks that fill the heap -/

section Tiled

variable {base : Nat} {bs bs' : List Block} {a b f f₁ f₂ : Block}

theorem Tiled.perm (h : Tiled base bs) (hp : bs'.Perm bs) : Tiled base bs' := by
  obtain ⟨all, hall, htiles⟩ := h
  exact ⟨all, hall.trans hp.symm, htiles⟩

theorem Tiled.inside (h : Tiled base bs) (hb : b ∈ bs) : b.Inside base := by
  obtain ⟨all, hall, htiles⟩ := h
  exact htiles.mem (hall.mem_iff.2 hb)

theorem Tiled.apart (h : Tiled base bs) : bs.Pairwise Block.Apart := by
  obtain ⟨all, hall, htiles⟩ := h
  exact (hall.pairwise_iff fun h => Or.symm h).1 htiles.sorted.pairwise_apart

/-- The tiles on both sides of one of them. -/
theorem Tiled.around (h : Tiled base (f :: bs)) :
    ∃ l r, (l ++ r).Perm bs ∧ Tiles base l f.addr ∧ Tiles f.stop r (base + myHeapSize) := by
  obtain ⟨all, hall, htiles⟩ := h
  obtain ⟨l, r, rfl⟩ := List.append_of_mem (hall.mem_iff.2 List.mem_cons_self)
  obtain ⟨mid, hl, rfl, hr⟩ := Tiles.append.1 htiles
  exact ⟨l, r, (List.perm_middle.symm.trans hall).cons_inv, hl, hr⟩

/-- A block is cut in two. -/
theorem Tiled.cut (h : Tiled base (f :: bs)) (haddr : f₁.addr = f.addr) (hmid : f₂.addr = f₁.stop)
    (hstop : f₂.stop = f.stop) : Tiled base (f₁ :: f₂ :: bs) := by
  obtain ⟨l, r, hp, hl, hr⟩ := h.around
  refine ⟨l ++ f₁ :: f₂ :: r, ?_, Tiles.append.2 ⟨f.addr, hl, haddr, hmid, hstop ▸ hr⟩⟩
  exact List.perm_middle.trans ((List.perm_middle.trans (hp.cons f₂)).cons f₁)

/-- What starts where a block stops is the next tile. -/
theorem Tiled.next (h : Tiled base (a :: b :: bs)) (hab : a.stop = b.addr) :
    ∃ l r, (l ++ r).Perm bs ∧ Tiles base l a.addr ∧ Tiles b.stop r (base + myHeapSize) := by
  obtain ⟨l, r, hp, hl, hr⟩ := h.around
  have hb : b ∈ l ++ r := hp.mem_iff.2 List.mem_cons_self
  have hbl : b ∉ l := fun hbl => by
    have hle := (hl.mem hbl).2
    simp only [Block.stop, hdrSize] at *
    omega
  cases r with
  | nil =>
      rw [List.append_nil] at hb
      exact absurd hb hbl
  | cons c r =>
      obtain ⟨hc, hrest⟩ := hr
      have hbr : b ∉ r := fun hbr => by
        have hle := (hrest.mem hbr).1
        simp only [Block.stop, hdrSize] at *
        omega
      obtain rfl : b = c := by simpa [hbl, hbr] using hb
      exact ⟨l, r, (List.perm_middle.symm.trans hp).cons_inv, hl, hrest⟩

/-- Two neighbours become one. -/
theorem Tiled.join (h : Tiled base (a :: b :: bs)) (hab : a.stop = b.addr) :
    Tiled base (a.join b :: bs) := by
  obtain ⟨l, r, hp, hl, hr⟩ := h.next hab
  refine ⟨l ++ a.join b :: r, List.perm_middle.trans (hp.cons _), ?_⟩
  exact Tiles.append.2 ⟨a.addr, hl, rfl, (Block.join_stop hab).symm ▸ hr⟩

end Tiled

section WellFormed

variable {base : Nat} {h : Heap} {free live : List Block} {b c : Block}

theorem WellFormed.free_inside (hw : WellFormed base h free live) (hb : b ∈ free) :
    b.Inside base := hw.tiled.inside (List.mem_append_left _ hb)

theorem WellFormed.live_inside (hw : WellFormed base h free live) (hb : b ∈ live) :
    b.Inside base := hw.tiled.inside (List.mem_append_right _ hb)

theorem WellFormed.free_apart (hw : WellFormed base h free live) (hb : b ∈ free) (hc : c ∈ live) :
    b.Apart c := (List.pairwise_append.1 hw.tiled.apart).2.2 b hb c hc

theorem WellFormed.live_apart (hw : WellFormed base h free live) : live.Pairwise Block.Apart :=
  (List.pairwise_append.1 hw.tiled.apart).2.1

/-- In increasing order, and without overlaps. -/
theorem WellFormed.sorted (hw : WellFormed base h free live) : Sorted free := by
  have hapart := (List.pairwise_append.1 hw.tiled.apart).1
  refine (hw.increasing.and hapart).imp fun {b c} hbc => ?_
  obtain ⟨hlt, hap⟩ := hbc
  simp only [Block.Apart, Block.stop] at *
  omega

theorem Sorted.increasing {bs : List Block} (h : Sorted bs) :
    bs.Pairwise fun b c => b.addr < c.addr :=
  h.imp fun hbc => (hdrBefore_of_stop_le hbc).lt

end WellFormed

/-! ## `my_malloc` -/

/-- The header of the block is as it was. -/
def SameHeader (h h' : Heap) (b : Block) : Prop :=
  h'.size b.addr = h.size b.addr ∧ h'.next b.addr = h.next b.addr

/-- `my_malloc(size)` has handed out the front of the free block `f`, which was between `pre` and
    `post`. -/
structure Cut (base : Nat) (h : Heap) (pre : List Block) (f : Block) (post live : List Block)
    (size : Nat) (h' : Heap) : Prop where
  given : h'.size f.addr = size
  magic : h'.next f.addr = magicNum
  wellFormed : WellFormed base h' (pre ++ f.rest size :: post) (⟨f.addr, size⟩ :: live)
  /-- of the other headers only the link to `f` has changed -/
  others : ∀ c ∈ pre ++ post ++ live, SameHeader h h' c ∨
    (c ∈ last pre ∧ h'.size c.addr = h.size c.addr ∧ h.next c.addr = f.addr ∧
      h'.next c.addr = (f.rest size).addr)

section Malloc

variable {base : Nat} {h : Heap} {free live pre post : List Block} {b f : Block} {size fuel : Nat}

/-- The first free block with room, if there is one. -/
theorem first_fit (n : Nat) (free : List Block) :
    (∀ c ∈ free, c.size < n) ∨
      ∃ pre f post, free = pre ++ f :: post ∧ (∀ c ∈ pre, c.size < n) ∧ n ≤ f.size := by
  cases hfind : free.find? (fun c => n ≤ c.size) with
  | none =>
      refine Or.inl fun c hc => ?_
      have hno := List.find?_eq_none.1 hfind c hc
      simpa using hno
  | some f =>
      obtain ⟨hf, pre, post, rfl, hpre⟩ := List.find?_eq_some_iff_append.1 hfind
      refine Or.inr ⟨pre, f, post, rfl, fun c hc => ?_, by simpa using hf⟩
      simpa using hpre c hc

/-- The link of the block before `f` leads to `f`. -/
theorem FreeList.next_last (hl : FreeList h (pre ++ f :: post)) (hb : b ∈ last pre) :
    h.next b.addr = f.addr := by
  rcases List.eq_nil_or_concat pre with rfl | ⟨pre, l, rfl⟩
  · exact absurd hb List.not_mem_nil
  · rw [List.concat_eq_append] at *
    rw [last_append_singleton, List.mem_singleton] at hb
    subst hb
    rw [FreeList, List.append_assoc, List.singleton_append] at hl
    obtain ⟨r, -, -, -, hrest⟩ := Seg.append.1 hl
    exact hrest.head_eq

theorem FreeList.size_of_mem {bs : List Block} (hl : FreeList h bs) (hb : b ∈ bs) :
    h.size b.addr = b.size := by
  obtain ⟨pre, post, rfl⟩ := List.append_of_mem hb
  obtain ⟨r, -, -, hsize, -⟩ := Seg.append.1 hl
  exact hsize

theorem Sorted.le_last {bs : List Block} {c d : Block} (h : Sorted bs) (hc : c ∈ bs)
    (hne : c ∉ last bs) (hd : d ∈ last bs) : c.stop ≤ d.addr := by
  rcases List.eq_nil_or_concat bs with rfl | ⟨bs, l, rfl⟩
  · exact absurd hc List.not_mem_nil
  · rw [List.concat_eq_append] at *
    rw [last_append_singleton, List.mem_singleton] at hne hd
    subst hd
    refine (Sorted.append_iff.1 h).2.2 c ?_ d (by simp)
    simpa [hne] using hc

/-- A block that has no byte in common with `f` keeps its header. -/
theorem outsideHdrs_of_apart {x : Nat} (hap : f.Apart b) (hfit : size + hdrSize ≤ f.size)
    (hlo : b.addr ≤ x) (hhi : x < b.stop) : OutsideHdrs [f, f.rest size] x := by
  intro d hd
  have hd' : f.addr ≤ d.addr ∧ d.addr + hdrSize ≤ f.stop := by
    rcases List.mem_cons.1 hd with rfl | hd
    · simp only [Block.stop]
      omega
    · rw [List.mem_singleton.1 hd]
      simp only [Block.rest, Block.stop]
      omega
  simp only [Block.Apart, Block.stop] at *
  omega

theorem outsideNexts_of_apart {bs : List Block} {x : Nat} (hap : ∀ c ∈ bs, c.Apart b)
    (hlo : b.addr ≤ x) (hhi : x < b.stop) : OutsideNexts bs x := by
  intro c hc
  have hcb := hap c hc
  simp only [Block.Apart, Block.stop] at *
  omega

/-- `my_malloc` from a well-formed heap in which `f` is the first block with room; it writes to the
    headers of the two parts and to the link before them. -/
theorem WellFormed.myMalloc_cut (hw : WellFormed base h (pre ++ f :: post) live)
    (hsmall : ∀ c ∈ pre, c.size < size + hdrSize) (hfit : size + hdrSize ≤ f.size)
    (hfuel : (pre ++ f :: post).length < fuel) :
    ∃ h', myMalloc fuel size h = some (f.addr + hdrSize, h') ∧
      Cut base h pre f post live size h' ∧
      ∀ c ∈ live, ∀ x, c.addr ≤ x → x < c.stop → h'.mem x = h.mem x := by
  have hsort := hw.sorted
  obtain ⟨h', hrun, hl, hsize, hmagic, hheap, hmem⟩ := myMalloc_some fuel hw.addressable hw.list
    (fun c hc => hw.free_inside hc) hsort hsmall hfit (by simp at hfuel; omega)
  obtain ⟨hsortpre, hsortf, hcross⟩ := Sorted.append_iff.1 hsort
  obtain ⟨hfpost, hsortpost⟩ := List.pairwise_cons.1 hsortf
  have hlive : ∀ c ∈ live, ∀ x, c.addr ≤ x → x < c.stop → h'.mem x = h.mem x := by
    intro c hc x hlo hhi
    refine hmem x (outsideHdrs_of_apart (hw.free_apart (by simp) hc) hfit hlo hhi)
      (outsideNexts_of_apart (fun d hd => ?_) hlo hhi)
    exact hw.free_apart (List.mem_append_left _ (mem_of_mem_last hd)) hc
  have hrest : (f.rest size).addr = f.addr + hdrSize + size := rfl
  have hstop := Block.rest_stop hfit
  refine ⟨h', hrun, ⟨hsize, hmagic, ?_, fun c hc => ?_⟩, hlive⟩
  · refine ⟨hw.addressable, hheap.trans hw.heap, hl, ?_, fun c hc => ?_, ?_⟩
    · refine Sorted.increasing (Sorted.append_iff.2 ⟨hsortpre, ?_, fun c hc d hd => ?_⟩)
      · refine List.pairwise_cons.2 ⟨fun c hc => ?_, hsortpost⟩
        rw [hstop]
        exact hfpost c hc
      · rcases List.mem_cons.1 hd with rfl | hd
        · have hle := hcross c hc f (by simp)
          omega
        · exact hcross c hc d (by simp [hd])
    · rcases List.mem_cons.1 hc with rfl | hc
      · exact hsize
      · rw [← hw.sizes c hc]
        refine Heap.size_congr fun x hlo hhi => hlive c hc x hlo ?_
        simp only [Block.stop]
        omega
    · have hperm : (pre ++ f :: post ++ live).Perm (f :: (pre ++ post ++ live)) := by
        rw [List.append_assoc, List.append_assoc]
        exact List.perm_middle
      have hcut := (hw.tiled.perm hperm.symm).cut (rfl : (⟨f.addr, size⟩ : Block).addr = f.addr)
        hrest hstop
      refine hcut.perm (List.perm_middle.trans (List.Perm.cons _ ?_))
      rw [List.append_assoc, List.append_assoc]
      exact List.perm_middle
  · have hsame : (∀ x, c.addr ≤ x → x < c.addr + hdrSize → h'.mem x = h.mem x) →
        SameHeader h h' c := fun hbytes => ⟨Heap.size_congr hbytes, Heap.next_congr hbytes⟩
    have hstop_le : ∀ {x}, x < c.addr + hdrSize → x < c.stop := fun hx => by
      simp only [Block.stop]
      omega
    rcases List.mem_append.1 hc with hc | hc
    · rcases List.mem_append.1 hc with hpre | hpost
      · by_cases hlast : c ∈ last pre
        · refine Or.inr ⟨hlast, ?_, hw.list.next_last hlast, hl.next_last hlast⟩
          rw [hl.size_of_mem (List.mem_append_left _ hpre),
            hw.list.size_of_mem (List.mem_append_left _ hpre)]
        · -- a block before the last one of `pre`
          refine Or.inl (hsame fun x hlo hhi => hmem x ?_ fun d hd => ?_)
          · exact outsideHdrs_of_apart (Or.inr (hcross c hpre f (by simp))) hfit hlo (hstop_le hhi)
          · have hle := hsortpre.le_last hpre hlast hd
            simp only [Block.stop] at hle
            omega
      · refine Or.inl (hsame fun x hlo hhi => hmem x ?_ ?_)
        · exact outsideHdrs_of_apart (Or.inl (hfpost c hpost)) hfit hlo (hstop_le hhi)
        · refine outsideNexts_of_apart (fun d hd => Or.inl ?_) hlo (hstop_le hhi)
          exact hcross d (mem_of_mem_last hd) c (by simp [hpost])
    · exact Or.inl (hsame fun x hlo hhi => hlive c hc x hlo (hstop_le hhi))

/-- **`my_malloc` is exact.** Without a free block that has room for the request and a header it
    returns `NULL` and changes nothing. Otherwise it takes the lowest such block. -/
theorem myMalloc_exact (hw : WellFormed base h free live) (hsize : size + hdrSize < 2 ^ 64)
    (hfuel : free.length < fuel) :
    ((∀ c ∈ free, c.size < size + hdrSize) ∧ myMalloc fuel size h = some (0, h)) ∨
      ∃ pre f post h', free = pre ++ f :: post ∧
        (size + hdrSize ≤ f.size ∧ ∀ c ∈ free, size + hdrSize ≤ c.size → f.addr ≤ c.addr) ∧
        myMalloc fuel size h = some (f.addr + hdrSize, h') ∧
        Cut base h pre f post live size h' := by
  rcases first_fit (size + hdrSize) free with hsmall | ⟨pre, f, post, rfl, hsmall, hfit⟩
  · refine Or.inl ⟨hsmall, myMalloc_none fuel hw.addressable hw.list
      (fun c hc => hw.free_inside hc) (fun c hc => ?_) hfuel⟩
    rw [ulong_of_lt hsize]
    exact hsmall c hc
  · obtain ⟨h', hrun, hcut, -⟩ := hw.myMalloc_cut hsmall hfit hfuel
    refine Or.inr ⟨pre, f, post, h', rfl, ⟨hfit, fun c hc hroom => ?_⟩, hrun, hcut⟩
    obtain ⟨-, hf, -⟩ := List.pairwise_append.1 hw.increasing
    rcases List.mem_append.1 hc with hc | hc
    · have hno := hsmall c hc
      omega
    · rcases List.mem_cons.1 hc with rfl | hc
      · exact Nat.le_refl _
      · exact Nat.le_of_lt ((List.pairwise_cons.1 hf).1 c hc)

/-- A free block, a live block, and a free block up to the end of the heap. -/
def gapHeap : Heap :=
  (((((({ mem := fun _ => 0, myHeap := 4096, flHead := 4096 } : Heap).setSize 4096 16).setNext
    4096 4160).setSize 4128 16).setNext 4128 magicNum).setSize 4160 1048496).setNext 4160 0

theorem gapHeap_wellFormed :
    WellFormed 4096 gapHeap [⟨4096, 16⟩, ⟨4160, 1048496⟩] [⟨4128, 16⟩] where
  addressable := ⟨by decide, by decide⟩
  heap := rfl
  list := ⟨rfl, rfl, rfl, rfl, (rfl : gapHeap.next 4160 = 0)⟩
  increasing := by decide
  sizes := List.forall_mem_singleton.2 rfl
  tiled := ⟨[⟨4096, 16⟩, ⟨4128, 16⟩, ⟨4160, 1048496⟩], by decide, rfl, rfl, rfl, rfl⟩

theorem myMalloc_exact_gap :
    ∃ h', myMalloc 3 100 gapHeap = some (4176, h') ∧
      Cut 4096 gapHeap [⟨4096, 16⟩] ⟨4160, 1048496⟩ [] [⟨4128, 16⟩] 100 h' := by
  rcases myMalloc_exact gapHeap_wellFormed (by decide : 100 + hdrSize < 2 ^ 64)
      (by decide : 2 < 3) with
    ⟨hsmall, -⟩ | ⟨pre, f, post, h', hfree, ⟨hfit, -⟩, hrun, hcut⟩
  · exact absurd (hsmall ⟨4160, 1048496⟩ (by simp)) (by decide)
  · obtain ⟨rfl, rfl, rfl⟩ : pre = [⟨4096, 16⟩] ∧ f = ⟨4160, 1048496⟩ ∧ post = [] := by
      match pre with
      | [] =>
          obtain ⟨rfl, -⟩ := List.cons.inj hfree
          exact absurd hfit (by decide)
      | [a] =>
          obtain ⟨rfl, hrest⟩ := List.cons.inj hfree
          obtain ⟨rfl, rfl⟩ := List.cons.inj hrest
          exact ⟨rfl, rfl, rfl⟩
      | a :: b :: pre =>
          have hlen := congrArg List.length hfree
          simp at hlen
    exact ⟨h', hrun, hcut⟩

/-- The header of the free block before the one that is cut changes: its link. -/
theorem myMalloc_changes_link :
    WellFormed 4096 gapHeap [⟨4096, 16⟩, ⟨4160, 1048496⟩] [⟨4128, 16⟩] ∧
      ∃ h', myMalloc 3 100 gapHeap = some (4160 + hdrSize, h') ∧
        ¬ SameHeader gapHeap h' ⟨4096, 16⟩ := by
  refine ⟨gapHeap_wellFormed, ?_⟩
  have hplay : (myMalloc 3 100 gapHeap).map (fun r => (r.1, r.2.next 4096)) = some (4176, 4276) := by
    decide +kernel
  obtain ⟨⟨q, h'⟩, hrun, heq⟩ := Option.map_eq_some_iff.1 hplay
  obtain ⟨rfl, hnext⟩ := Prod.mk.inj heq
  refine ⟨h', hrun, fun hsame => ?_⟩
  have hold : gapHeap.next 4096 = 4160 := rfl
  exact absurd (hnext.symm.trans (hsame.2.trans hold)) (by decide)

/-! ## Requests that could be served, and requests that cannot -/

/-- `my_malloc` returns a pointer to `size` bytes or more of a free block. -/
def Served (free : List Block) (size : Nat) (r : Option (Nat × Heap)) : Prop :=
  ∃ f ∈ free, ∃ h', r = some (f.addr + hdrSize, h') ∧ size ≤ f.size

/-- **A free block that is large enough is found if and only if it has room for a header too.** The
    branch for a block of exactly the requested size is behind that test. -/
theorem myMalloc_complete_iff (hw : WellFormed base h free live)
    (hfree : ∃ c ∈ free, size ≤ c.size) (hfuel : free.length < fuel) :
    Served free size (myMalloc fuel size h) ↔ ∃ c ∈ free, size + hdrSize ≤ c.size := by
  obtain ⟨c, hc, hle⟩ := hfree
  have hclt := (hw.free_inside hc).size_lt
  have hsize : size + hdrSize < 2 ^ 64 := by
    simp only [myHeapSize, hdrSize] at *
    omega
  rcases first_fit (size + hdrSize) free with hsmall | ⟨pre, f, post, rfl, hsmall, hfit⟩
  · have hnone := myMalloc_none fuel hw.addressable hw.list (fun c hc => hw.free_inside hc)
      (fun c hc => by rw [ulong_of_lt hsize]; exact hsmall c hc) hfuel
    constructor
    · rintro ⟨f, -, h', hrun, -⟩
      have hzero := congrArg Prod.fst (Option.some.inj (hnone.symm.trans hrun))
      exact absurd hzero (by simp [hdrSize])
    · rintro ⟨d, hd, hroom⟩
      have hno := hsmall d hd
      omega
  · obtain ⟨h', hrun, -, -⟩ := hw.myMalloc_cut hsmall hfit hfuel
    exact ⟨fun _ => ⟨f, by simp, hfit⟩, fun _ => ⟨f, by simp, h', hrun, by omega⟩⟩

/-- A request for less than what is there, and more than 16 bytes less. -/
theorem myMalloc_complete_gap :
    Served [⟨4096, 16⟩, ⟨4160, 1048496⟩] 1000 (myMalloc 3 1000 gapHeap) :=
  (myMalloc_complete_iff gapHeap_wellFormed ⟨⟨4160, 1048496⟩, by simp, by decide⟩ (by decide)).2
    ⟨⟨4160, 1048496⟩, by simp, by decide⟩

theorem sampleHeap_wellFormed : WellFormed 4096 sampleHeap [⟨4096, 1048560⟩] [] where
  addressable := ⟨by decide, by decide⟩
  heap := rfl
  list := ⟨rfl, rfl, (rfl : sampleHeap.next 4096 = 0)⟩
  increasing := by decide
  sizes := by simp
  tiled := ⟨[⟨4096, 1048560⟩], List.Perm.refl _, rfl, rfl⟩

/-- The whole of the fresh heap cannot be had. -/
theorem myMalloc_whole_heap :
    WellFormed 4096 sampleHeap [⟨4096, 1048560⟩] [] ∧
      ¬ Served [⟨4096, 1048560⟩] 1048560 (myMalloc 3 1048560 sampleHeap) := by
  refine ⟨sampleHeap_wellFormed, ?_⟩
  rintro ⟨f, -, h', hrun, -⟩
  have hzero : (myMalloc 3 1048560 sampleHeap).map Prod.fst = some 0 := rfl
  rw [hrun] at hzero
  exact absurd (Option.some.inj hzero) (by simp [hdrSize])

/-- A pointer that is returned is that of a free block with `n` bytes or more, and a request for
    more than every free block has returns `NULL` and changes nothing. -/
def Honest (free : List Block) (n : Nat) (h : Heap) (r : Option (Nat × Heap)) : Prop :=
  (∀ q h', r = some (q, h') → q ≠ 0 → ∃ f ∈ free, q = f.addr + hdrSize ∧ n ≤ f.size) ∧
    ((∀ c ∈ free, c.size < n) → r = some (0, h))


/-- `split` by a number of bytes that makes up for the header leaves the block where it is. -/
theorem split_wrapped {b : Nat} (hb : b < 2 ^ 64) (hsize : size + hdrSize = 2 ^ 64) :
    ∃ h', split b size h = (b, h') ∧ h'.size b = size % 2 ^ 32 ∧ h'.flHead = h.flHead ∧
      ∀ c, HdrApart c b → h'.size c = h.size c ∧ h'.next c = h.next c := by
  have hnew : ulong (ulong (b + hdrSize) + size) = b := by
    simp only [ulong, hdrSize] at *
    omega
  simp only [split, hnew]
  refine ⟨_, rfl, ?_, rfl, fun c hc => ⟨?_, ?_⟩⟩
  · exact Mem.load_store ..
  · rw [Heap.size_setSize_of_apart _ hc, Heap.size_setSize_of_apart _ hc]
  · rw [Heap.next_setSize _ (Or.inr hc), Heap.next_setSize _ (Or.inr hc)]

/-- Where a block passes the test of the loop, `my_malloc` does not say that it failed without any
    change. -/
theorem myMalloc_ne_null (hw : WellFormed base h free live) (hsize : size < 2 ^ 64)
    (hfit : ∃ c ∈ free, ulong (size + hdrSize) ≤ c.size) (hfuel : free.length < fuel) :
    myMalloc fuel size h ≠ some (0, h) := by
  rcases first_fit (ulong (size + hdrSize)) free with hsmall | ⟨pre, f, post, rfl, hsmall, hf⟩
  · obtain ⟨c, hc, hroom⟩ := hfit
    have hno := hsmall c hc
    omega
  have hskip : ∀ c ∈ pre, c.addr ≠ 0 ∧ sizeT c.size < ulong (size + hdrSize) := by
    intro c hc
    have hin : c.Inside base := hw.free_inside (by simp [hc])
    rw [hin.sizeT_eq]
    exact ⟨Nat.pos_iff_ne_zero.1 (hin.addr_pos hw.addressable), hsmall c hc⟩
  have hin : f.Inside base := hw.free_inside (by simp)
  have hne : f.addr ≠ 0 := Nat.pos_iff_ne_zero.1 (hin.addr_pos hw.addressable)
  obtain ⟨k, rfl⟩ : ∃ k, fuel = k + 1 + pre.length := ⟨fuel - pre.length - 1, by simp at hfuel; omega⟩
  obtain ⟨q, ⟨rfl, hfsize, -⟩, heq⟩ := myMallocLoop_skip (k + 1 + pre.length) (k + 1) []
    (show Seg h h.flHead _ 0 from hw.list) hskip
  have hhead : h.flHead ≠ 0 := by
    cases pre with
    | nil => rw [hw.list.head_eq]; exact hne
    | cons c pre => rw [hw.list.head_eq]; exact (hskip c (by simp)).1
  rw [myMalloc, if_neg hhead]
  rw [lastAddr_nil] at heq
  rw [heq, List.nil_append, myMallocLoop, if_neg hne, hfsize, hin.sizeT_eq, if_pos hf]
  have hlt := hin.addr_lt hw.addressable
  by_cases husr : ulong (f.addr + hdrSize) = 0
  · -- `f` is the header that ends at the last address, and `size + 16` wraps around to 0
    have hend : f.addr + hdrSize = 2 ^ 64 ∧ f.size = 0 ∧ size + hdrSize = 2 ^ 64 := by
      simp only [ulong, hdrSize] at *
      omega
    obtain ⟨haddr, hzero, hwrap⟩ := hend
    have hflt : f.addr < 2 ^ 64 := by
      simp only [hdrSize] at haddr
      omega
    have hpost : post = [] := by
      refine List.eq_nil_iff_forall_not_mem.2 fun c hc => ?_
      have hc' : c.Inside base := hw.free_inside (by simp [hc])
      have hclt := hc'.addr_lt hw.addressable
      have hle := (List.pairwise_cons.1 (Sorted.append_iff.1 hw.sorted).2.1).1 c hc
      simp only [Block.stop, hdrSize] at *
      omega
    subst hpost
    obtain ⟨hl₁, -, -⟩ := flRemove_spec hw.addressable hw.list (fun c hc => hw.free_inside hc)
      hw.sorted
    obtain ⟨hsortpre, -, hcross⟩ := Sorted.append_iff.1 hw.sorted
    have hbefore : ∀ c ∈ pre, HdrBefore c f := fun c hc =>
      hdrBefore_of_stop_le (hcross c hc f (by simp))
    generalize flRemove f.addr (lastAddr pre) h = h₁ at *
    have hl₂ : Seg (h₁.setNext f.addr magicNum) h₁.flHead (pre ++ []) 0 :=
      (show Seg h₁ h₁.flHead _ 0 from hl₁).setNext_of_apart fun c hc =>
        (hbefore c (by simpa using hc)).apart
    obtain ⟨h₂, hsplit, hsize₂, hhead₂, hsame₂⟩ :=
      split_wrapped (h := h₁.setNext f.addr magicNum) hflt hwrap
    have hl₃ : FreeList h₂ (pre ++ []) := by
      show Seg h₂ h₂.flHead _ 0
      rw [hhead₂]
      exact hl₂.congr fun c hc => hsame₂ c.addr (hbefore c (by simpa using hc)).apart
    have haddrs : ∀ c ∈ pre ++ [], c.addr ≠ 0 ∧ c.addr < 2 ^ 64 := by
      intro c hc
      rw [List.append_nil] at hc
      exact ⟨(hskip c hc).1, Nat.lt_trans (hbefore c hc).lt hflt⟩
    obtain ⟨h₃, hins, hl₄, -⟩ := flInsert_hdrs (b := ⟨f.addr, size % 2 ^ 32⟩)
      (k + 1 + pre.length) hl₃ haddrs hflt hsize₂
      (by simpa using hsortpre.imp hdrBefore_of_stop_le) hbefore (by simp) (by omega)
    intro hnull
    simp only at hnull
    split_ifs at hnull with htest
    · have hsame : h₁.setNext f.addr magicNum = h := congrArg Prod.snd (Option.some.inj hnull)
      rw [hsame, hfsize, hin.sizeT_eq] at htest
      simp only [hdrSize] at hwrap
      omega
    · simp only [hsplit, hins, Option.map_some] at hnull
      have hchanged : h₃.size f.addr = size % 2 ^ 32 :=
        hl₄.size_of_mem (b := ⟨f.addr, size % 2 ^ 32⟩) (by simp)
      have hsame : h₃ = h := congrArg Prod.snd (Option.some.inj hnull)
      rw [hsame, hfsize] at hchanged
      simp only [hdrSize] at hwrap
      omega
  · intro hnull
    simp only at hnull
    split_ifs at hnull
    · exact husr (congrArg Prod.fst (Option.some.inj hnull))
    · obtain ⟨h', -, hpair⟩ := Option.map_eq_some_iff.1 hnull
      exact husr (congrArg Prod.fst hpair)

/-- `my_malloc(n)`, and so `my_realloc(NULL, n)`, keeps to the sizes of the free blocks. -/
theorem myMalloc_honest_iff (hw : WellFormed base h free live) {n : Nat} (hn : n < 2 ^ 64)
    (hfuel : free.length < fuel) :
    (Honest free n h (myMalloc fuel n h) ∧ Honest free n h (myRealloc fuel 0 n h)) ↔
      (n + hdrSize < 2 ^ 64 ∨ ∀ c ∈ free, c.size < n + hdrSize - 2 ^ 64) := by
  rw [myRealloc, if_pos rfl, and_self]
  have hnone : (∀ c ∈ free, c.size < ulong (n + hdrSize)) → myMalloc fuel n h = some (0, h) :=
    fun hsmall => myMalloc_none fuel hw.addressable hw.list (fun c hc => hw.free_inside hc) hsmall
      hfuel
  have hnull : myMalloc fuel n h = some (0, h) → Honest free n h (myMalloc fuel n h) := by
    intro hrun
    rw [hrun]
    refine ⟨fun q h' hq hne => ?_, fun _ => rfl⟩
    exact absurd (congrArg Prod.fst (Option.some.inj hq)).symm hne
  rcases Nat.lt_or_ge (n + hdrSize) (2 ^ 64) with hlt | hge
  · refine ⟨fun _ => Or.inl hlt, fun _ => ?_⟩
    rcases first_fit (n + hdrSize) free with hsmall | ⟨pre, f, post, rfl, hsmall, hfit⟩
    · exact hnull (hnone (by rwa [ulong_of_lt hlt]))
    · obtain ⟨h', hrun, -, -⟩ := hw.myMalloc_cut hsmall hfit hfuel
      refine ⟨fun q h'' hq _ => ⟨f, by simp, ?_, by omega⟩, fun hno => ?_⟩
      · exact (congrArg Prod.fst (Option.some.inj (hrun.symm.trans hq))).symm
      · have hf := hno f (by simp)
        omega
  · have hwrap : ulong (n + hdrSize) = n + hdrSize - 2 ^ 64 := by
      simp only [ulong, hdrSize] at *
      omega
    rw [← hwrap]
    constructor
    · intro hhonest
      right
      by_contra hfit
      obtain ⟨c, hc, hroom⟩ : ∃ c ∈ free, ulong (n + hdrSize) ≤ c.size := by simpa using hfit
      refine myMalloc_ne_null hw hn ⟨c, hc, hroom⟩ hfuel (hhonest.2 fun d hd => ?_)
      have hdlt := (hw.free_inside hd).size_lt
      simp only [hdrSize, myHeapSize] at *
      omega
    · rintro (hno | hsmall)
      · omega
      · exact hnull (hnone hsmall)

/-- One less than `2 ^ 64 - 16`: the largest request that does not wrap. -/
theorem myMalloc_honest_gap :
    Honest [⟨4096, 16⟩, ⟨4160, 1048496⟩] (2 ^ 64 - 17) gapHeap (myMalloc 3 (2 ^ 64 - 17) gapHeap) ∧
      Honest [⟨4096, 16⟩, ⟨4160, 1048496⟩] (2 ^ 64 - 17) gapHeap
        (myRealloc 3 0 (2 ^ 64 - 17) gapHeap) :=
  (myMalloc_honest_iff gapHeap_wellFormed (by decide) (by decide)).2 (Or.inl (by decide))

/-- A request for 2^64 - 1 bytes is served from a heap of 1 MB. -/
theorem myMalloc_max_served :
    WellFormed 4096 sampleHeap [⟨4096, 1048560⟩] [] ∧
      ¬ Honest [⟨4096, 1048560⟩] (2 ^ 64 - 1) sampleHeap (myMalloc 3 (2 ^ 64 - 1) sampleHeap) := by
  refine ⟨sampleHeap_wellFormed, fun hhonest => ?_⟩
  have hnull := hhonest.2 (by decide)
  have hplay : (myMalloc 3 (2 ^ 64 - 1) sampleHeap).map Prod.fst = some 4112 := rfl
  rw [hnull] at hplay
  exact absurd (Option.some.inj hplay) (by decide)

end Malloc

end Cs350.Alloc
