import Cs350.Alloc.FreeList

set_option autoImplicit false

/-! # Specifications of the allocator's list operations

For a heap whose free list is sorted and lies inside the heap area, each list operation is
described by what it does to the list of free blocks and by the memory it leaves alone. The
specifications are total: with enough fuel for the length of the list every call returns. -/

namespace Cs350.Alloc

/-- The address `x` is in no `next` field of the blocks `bs`. -/
def OutsideNexts (bs : List Block) (x : Nat) : Prop :=
  ∀ b ∈ bs, x < b.addr + 8 ∨ b.addr + hdrSize ≤ x

/-- The address `x` is in no header of the blocks `bs`. -/
def OutsideHdrs (bs : List Block) (x : Nat) : Prop :=
  ∀ b ∈ bs, x < b.addr ∨ b.addr + hdrSize ≤ x

theorem OutsideHdrs.outsideNexts {bs : List Block} {x : Nat} (h : OutsideHdrs bs x) :
    OutsideNexts bs x := by
  intro b hb
  have := h b hb
  omega

/-- The last block of a list. -/
def last (bs : List Block) : List Block := bs.getLast?.toList

@[simp] theorem last_nil : last [] = [] := rfl

@[simp] theorem last_append_singleton (bs : List Block) (b : Block) : last (bs ++ [b]) = [b] := by
  simp [last]

theorem mem_of_mem_last {bs : List Block} {b : Block} (h : b ∈ last bs) : b ∈ bs := by
  rw [last, Option.mem_toList] at h
  exact List.mem_of_mem_getLast? h

theorem OutsideNexts.last {bs : List Block} {x : Nat} (h : OutsideNexts bs x) :
    OutsideNexts (last bs) x := fun b hb => h b (mem_of_mem_last hb)

theorem Sorted.append_iff {bs cs : List Block} :
    Sorted (bs ++ cs) ↔ Sorted bs ∧ Sorted cs ∧ ∀ b ∈ bs, ∀ c ∈ cs, b.stop ≤ c.addr :=
  List.pairwise_append

theorem hdrApart_of_stop_le {b c : Block} (h : b.stop ≤ c.addr) : HdrApart b.addr c.addr := by
  simp only [Block.stop, HdrApart] at *
  omega

/-- The header of one block ends where that of the other begins, or before. -/
def HdrBefore (b c : Block) : Prop := b.addr + hdrSize ≤ c.addr

theorem hdrBefore_of_stop_le {b c : Block} (h : b.stop ≤ c.addr) : HdrBefore b c := by
  simp only [Block.stop, HdrBefore] at *
  omega

theorem HdrBefore.apart {b c : Block} (h : HdrBefore b c) : HdrApart b.addr c.addr := by
  simp only [HdrBefore, HdrApart] at *
  omega

theorem HdrBefore.lt {b c : Block} (h : HdrBefore b c) : b.addr < c.addr := by
  simp only [HdrBefore, hdrSize] at h
  omega

/-- The head of a nonempty segment is the address of its first block. -/
theorem Seg.head_eq {h : Heap} {b : Block} {bs : List Block} {p q : Nat}
    (hs : Seg h p (b :: bs) q) : p = b.addr := hs.1

/-! ## `fl_insert` -/

/-- The walk of `fl_insert` stops at the last block below the inserted one. -/
theorem flInsertWalk_eq {h : Heap} {a fuel p : Nat} {pre post : List Block} {l : Block}
    (hs : Seg h p (pre ++ l :: post) 0) (hlow : ∀ b ∈ pre ++ [l], b.addr ≠ 0 ∧ b.addr < a)
    (hhigh : ∀ b ∈ post, a ≤ b.addr) (hfuel : pre.length < fuel) :
    flInsertWalk a h fuel p = some l.addr := by
  induction pre generalizing p fuel with
  | nil =>
      obtain ⟨rfl, -, hrest⟩ := hs
      obtain ⟨fuel, rfl⟩ : ∃ k, fuel = k + 1 := ⟨fuel - 1, by simp at hfuel; omega⟩
      rw [flInsertWalk, if_neg]
      rintro ⟨hne, hlt⟩
      cases post with
      | nil => exact hne hrest
      | cons c post =>
          have hc := hhigh c (by simp)
          rw [hrest.head_eq] at hlt
          omega
  | cons b pre ih =>
      obtain ⟨rfl, -, hrest⟩ := hs
      obtain ⟨fuel, rfl⟩ : ∃ k, fuel = k + 1 := ⟨fuel - 1, by simp at hfuel; omega⟩
      have hnext : h.next b.addr ≠ 0 ∧ h.next b.addr < a := by
        cases pre with
        | nil =>
            rw [hrest.head_eq]
            exact hlow l (by simp)
        | cons c pre =>
            rw [hrest.head_eq]
            exact hlow c (by simp)
      rw [flInsertWalk, if_pos hnext]
      exact ih hrest (fun c hc => hlow c (List.mem_cons_of_mem _ hc)) (by simp at hfuel; omega)

section Insert

variable {base : Nat} {h : Heap} {pre post : List Block} {b : Block} (fuel : Nat)

/-- `fl_insert` in front of the whole list. -/
theorem flInsert_front (hl : FreeList h post) (hlt : ∀ c ∈ post, c.addr < 2 ^ 64)
    (hsize : h.size b.addr = b.size) (hpost : ∀ c ∈ post, HdrBefore b c) :
    ∃ h', flInsert fuel b.addr h = some h' ∧ FreeList h' (b :: post) ∧ h'.myHeap = h.myHeap ∧
      ∀ x, OutsideNexts [b] x → h'.mem x = h.mem x := by
  have hhead : h.flHead = 0 ∨ h.flHead > b.addr := by
    cases post with
    | nil => exact Or.inl hl
    | cons c post => exact Or.inr (hl.head_eq ▸ (hpost c (by simp)).lt)
  have hlt : h.flHead < 2 ^ 64 := by
    cases post with
    | nil => rw [show h.flHead = 0 from hl]; decide
    | cons c post => exact hl.head_eq ▸ hlt c (by simp)
  refine ⟨(((h.setNext b.addr 0).setNext b.addr h.flHead).setFlHead b.addr), ?_, ?_, rfl, ?_⟩
  · simp [flInsert, hhead]
  · refine ⟨rfl, ?_, ?_⟩
    · rw [Heap.size_setFlHead, Heap.size_setNext _ (Or.inl rfl), Heap.size_setNext _ (Or.inl rfl),
        hsize]
    · rw [Heap.next_setFlHead, Heap.next_setNext_self _ hlt]
      have hap : ∀ c ∈ post, HdrApart c.addr b.addr := fun c hc => (hpost c hc).apart.symm
      exact (((show Seg h h.flHead post 0 from hl).setNext_of_apart hap).setNext_of_apart hap).congr
        (fun c _ => ⟨Heap.size_setFlHead _, Heap.next_setFlHead _⟩)
  · intro x hx
    have hx' := hx b (by simp)
    simp only [hdrSize] at hx'
    rw [Heap.mem_setFlHead, Heap.mem_setNext_of_outside _ hx', Heap.mem_setNext_of_outside _ hx']

/-- `fl_insert` after the block `l`. -/
theorem flInsert_after {l : Block} (hl : FreeList h (pre ++ l :: post))
    (hpos : ∀ c ∈ pre ++ [l], c.addr ≠ 0) (hblt : b.addr < 2 ^ 64)
    (hsize : h.size b.addr = b.size) (hsort : (pre ++ l :: post).Pairwise HdrBefore)
    (hpre : ∀ c ∈ pre ++ [l], HdrBefore c b) (hpost : ∀ c ∈ post, HdrBefore b c)
    (hfuel : pre.length < fuel) :
    ∃ h', flInsert fuel b.addr h = some h' ∧ FreeList h' (pre ++ l :: b :: post) ∧
      h'.myHeap = h.myHeap ∧ ∀ x, OutsideNexts [l, b] x → h'.mem x = h.mem x := by
  have hlow : ∀ c ∈ pre ++ [l], c.addr ≠ 0 ∧ c.addr < b.addr := fun c hc =>
    ⟨hpos c hc, (hpre c hc).lt⟩
  have hapl : ∀ c ∈ pre ++ [l], HdrApart c.addr b.addr := fun c hc => (hpre c hc).apart
  have happ : ∀ c ∈ post, HdrApart c.addr b.addr := fun c hc => (hpost c hc).apart.symm
  have hall : ∀ c ∈ pre ++ l :: post, HdrApart c.addr b.addr := by
    intro c hc
    rw [List.append_cons, List.mem_append] at hc
    exact hc.elim (hapl c) (happ c)
  obtain ⟨-, hsort', hcross⟩ := List.pairwise_append.1 hsort
  have hlp : ∀ c ∈ post, HdrApart c.addr l.addr := fun c hc =>
    ((List.pairwise_cons.1 hsort').1 c hc).apart.symm
  have hprel : ∀ c ∈ pre, HdrApart c.addr l.addr := fun c hc =>
    (hcross c hc l (by simp)).apart
  -- the head of the list lies below the new block, so the walk is taken
  have hhead : ¬ (h.flHead = 0 ∨ h.flHead > b.addr) := by
    have : h.flHead ≠ 0 ∧ h.flHead < b.addr := by
      cases pre with
      | nil => rw [hl.head_eq]; exact hlow l (by simp)
      | cons c pre => rw [hl.head_eq]; exact hlow c (by simp)
    omega
  have hs₁ : Seg (h.setNext b.addr 0) h.flHead (pre ++ l :: post) 0 :=
    (show Seg h h.flHead _ 0 from hl).setNext_of_apart hall
  have hwalk : flInsertWalk b.addr (h.setNext b.addr 0) fuel h.flHead = some l.addr :=
    flInsertWalk_eq hs₁ hlow (fun c hc => Nat.le_of_lt (hpost c hc).lt) hfuel
  obtain ⟨r, hsl, hsp⟩ := Seg.append.1 (by rwa [List.append_cons] at hs₁)
  have hr : (h.setNext b.addr 0).next l.addr = r := (Seg.snoc.1 hsl).2.2
  have hrlt : r < 2 ^ 64 := hr ▸ Heap.next_lt _ _
  have hlb : HdrApart l.addr b.addr := hapl l (by simp)
  refine ⟨((h.setNext b.addr 0).setNext b.addr r).setNext l.addr b.addr, ?_, ?_, rfl, ?_⟩
  · simp [flInsert, hhead, hwalk, hr]
  · show Seg _ h.flHead _ 0
    rw [List.append_cons, List.append_cons]
    refine Seg.append.2 ⟨r, Seg.snoc.2 ⟨?_, ?_, ?_⟩, ?_⟩
    · exact (hsl.setNext_of_apart hapl).setNext_last hblt hprel
    · rw [Heap.size_setNext _ (Or.inr hlb.symm), Heap.size_setNext _ (Or.inl rfl),
        Heap.size_setNext _ (Or.inl rfl), hsize]
    · rw [Heap.next_setNext_of_apart _ hlb.symm, Heap.next_setNext_self _ hrlt]
    · exact (hsp.setNext_of_apart happ).setNext_of_apart hlp
  · intro x hx
    have hxl := hx l (by simp)
    have hxb := hx b (by simp)
    simp only [hdrSize] at hxl hxb
    rw [Heap.mem_setNext_of_outside _ hxl, Heap.mem_setNext_of_outside _ hxb,
      Heap.mem_setNext_of_outside _ hxb]

/-- `fl_insert` among blocks of which only the headers need to be apart. -/
theorem flInsert_hdrs (hl : FreeList h (pre ++ post))
    (haddr : ∀ c ∈ pre ++ post, c.addr ≠ 0 ∧ c.addr < 2 ^ 64) (hblt : b.addr < 2 ^ 64)
    (hsize : h.size b.addr = b.size) (hsort : (pre ++ post).Pairwise HdrBefore)
    (hpre : ∀ c ∈ pre, HdrBefore c b) (hpost : ∀ c ∈ post, HdrBefore b c)
    (hfuel : pre.length ≤ fuel) :
    ∃ h', flInsert fuel b.addr h = some h' ∧ FreeList h' (pre ++ b :: post) ∧
      h'.myHeap = h.myHeap ∧ ∀ x, OutsideNexts (b :: last pre) x → h'.mem x = h.mem x := by
  rcases List.eq_nil_or_concat pre with rfl | ⟨pre, l, rfl⟩
  · exact flInsert_front fuel hl (fun c hc => (haddr c hc).2) hsize hpost
  · rw [List.concat_eq_append, List.append_assoc, List.singleton_append] at *
    have hpos : ∀ c ∈ pre ++ [l], c.addr ≠ 0 := by
      intro c hc
      refine (haddr c ?_).1
      rw [List.append_cons]
      exact List.mem_append_left _ hc
    obtain ⟨h', heq, hl', hheap, hmem⟩ := flInsert_after fuel hl hpos hblt hsize hsort hpre hpost
      (by simp at hfuel; omega)
    refine ⟨h', heq, by simpa using hl', hheap, fun x hx => hmem x ?_⟩
    intro c hc
    rcases List.mem_cons.1 hc with rfl | hc
    · exact hx c (by simp)
    · exact hx c (by simp [List.mem_singleton.1 hc])

/-- **`fl_insert` puts a block at its sorted place** and changes only `next` fields. -/
theorem flInsert_spec (ha : Addressable base) (hl : FreeList h (pre ++ post))
    (hin : ∀ c ∈ pre ++ post, c.Inside base) (hb : b.Inside base) (hsize : h.size b.addr = b.size)
    (hsort : Sorted (pre ++ post)) (hpre : ∀ c ∈ pre, c.stop ≤ b.addr)
    (hpost : ∀ c ∈ post, b.stop ≤ c.addr) (hfuel : pre.length ≤ fuel) :
    ∃ h', flInsert fuel b.addr h = some h' ∧ FreeList h' (pre ++ b :: post) ∧
      h'.myHeap = h.myHeap ∧ ∀ x, OutsideNexts (b :: last pre) x → h'.mem x = h.mem x := by
  have haddr : ∀ {c : Block}, c.Inside base → c.addr ≠ 0 ∧ c.addr < 2 ^ 64 := by
    intro c hc
    have hlt := hc.addr_lt ha
    simp only [hdrSize] at hlt
    exact ⟨Nat.pos_iff_ne_zero.1 (hc.addr_pos ha), by omega⟩
  exact flInsert_hdrs fuel hl (fun c hc => haddr (hin c hc)) (haddr hb).2 hsize
    (hsort.imp hdrBefore_of_stop_le) (fun c hc => hdrBefore_of_stop_le (hpre c hc))
    (fun c hc => hdrBefore_of_stop_le (hpost c hc)) hfuel

end Insert

/-! ## `fl_remove` -/

/-- `fl_remove` takes `f` out of the list, given the right predecessor. -/
theorem flRemove_spec {base : Nat} {h : Heap} {pre post : List Block} {f : Block}
    (ha : Addressable base) (hl : FreeList h (pre ++ f :: post))
    (hin : ∀ c ∈ pre ++ f :: post, c.Inside base) (hsort : Sorted (pre ++ f :: post)) :
    FreeList (flRemove f.addr (lastAddr pre) h) (pre ++ post) ∧
      (flRemove f.addr (lastAddr pre) h).myHeap = h.myHeap ∧
      ∀ x, OutsideNexts (last pre) x → (flRemove f.addr (lastAddr pre) h).mem x = h.mem x := by
  obtain ⟨r, hspre, hsf⟩ := Seg.append.1 (show Seg h h.flHead _ 0 from hl)
  obtain ⟨-, -, hspost⟩ := hsf
  rcases List.eq_nil_or_concat pre with rfl | ⟨pre, l, rfl⟩
  · -- no predecessor: the head moves on
    have heq : flRemove f.addr (lastAddr []) h = h.setFlHead (h.next f.addr) := by
      by_cases hn : h.next f.addr = 0 <;> simp [flRemove, hn]
    rw [heq]
    refine ⟨?_, Heap.myHeap_setFlHead h, fun x _ => congrFun (Heap.mem_setFlHead h) x⟩
    exact hspost.congr fun c _ => ⟨Heap.size_setFlHead h, Heap.next_setFlHead h⟩
  · rw [List.concat_eq_append] at *
    have hlin : l.Inside base := hin l (by simp)
    have hne : l.addr ≠ 0 := Nat.pos_iff_ne_zero.1 (hlin.addr_pos ha)
    have heq : flRemove f.addr (lastAddr (pre ++ [l])) h = h.setNext l.addr (h.next f.addr) := by
      simp [flRemove, hne]
    obtain ⟨hsl, hsf, hcross⟩ := Sorted.append_iff.1 hsort
    have hprel : ∀ c ∈ pre, HdrApart c.addr l.addr := fun c hc =>
      hdrApart_of_stop_le ((Sorted.append_iff.1 hsl).2.2 c hc l (by simp))
    have hpostl : ∀ c ∈ post, HdrApart c.addr l.addr := fun c hc =>
      (hdrApart_of_stop_le (hcross l (by simp) c (by simp [hc]))).symm
    rw [heq]
    refine ⟨?_, rfl, fun x hx => Heap.mem_setNext_of_outside _ ?_⟩
    · exact Seg.append.2 ⟨_, hspre.setNext_last (Heap.next_lt _ _) hprel,
        hspost.setNext_of_apart hpostl⟩
    · have := hx l (by simp)
      simpa [hdrSize] using this

/-! ## `my_malloc` -/

/-- What `split` leaves of `f` behind the `size` bytes handed out. -/
def Block.rest (f : Block) (size : Nat) : Block := ⟨f.addr + hdrSize + size, f.size - size - hdrSize⟩

theorem Block.rest_stop {f : Block} {size : Nat} (hfit : size + hdrSize ≤ f.size) :
    (f.rest size).stop = f.stop := by
  simp only [Block.rest, Block.stop]
  omega

theorem Block.rest_inside {base size : Nat} {f : Block} (hf : f.Inside base)
    (hfit : size + hdrSize ≤ f.size) : (f.rest size).Inside base := by
  refine ⟨?_, by rw [Block.rest_stop hfit]; exact hf.2⟩
  have := hf.1
  simp only [Block.rest]
  omega

/-- The headers that `split` writes are in `f`. -/
theorem Block.outsideHdrs_rest {size x : Nat} {f c : Block} (hfit : size + hdrSize ≤ f.size)
    (hcf : c.stop ≤ f.addr ∨ f.stop ≤ c.addr) (hlo : c.addr ≤ x) (hhi : x < c.addr + hdrSize) :
    OutsideHdrs [f, f.rest size] x := by
  intro d hd
  have hin : f.addr ≤ d.addr ∧ d.addr + hdrSize ≤ f.stop := by
    rcases List.mem_cons.1 hd with rfl | hd
    · simp only [Block.stop]
      omega
    · rw [List.mem_singleton.1 hd]
      simp only [Block.rest, Block.stop]
      omega
  simp only [Block.stop] at *
  omega

theorem split_spec {base size : Nat} {h : Heap} {f : Block} (ha : Addressable base)
    (hf : f.Inside base) (hsize : h.size f.addr = f.size) (hfit : size + hdrSize ≤ f.size) :
    ∃ h', split f.addr size h = ((f.rest size).addr, h') ∧ h'.size f.addr = size ∧
      h'.size (f.rest size).addr = (f.rest size).size ∧ h'.next f.addr = h.next f.addr ∧
      h'.flHead = h.flHead ∧ h'.myHeap = h.myHeap ∧
      ∀ x, OutsideHdrs [f, f.rest size] x → h'.mem x = h.mem x := by
  have hlt := hf.addr_lt ha
  have hsz := hf.size_lt
  have hap : HdrApart f.addr (f.rest size).addr := by
    simp only [HdrApart, Block.rest]
    omega
  have hnew : ulong (ulong (f.addr + hdrSize) + size) = (f.rest size).addr := by
    rw [ulong_of_lt (v := f.addr + hdrSize) (by simp only [hdrSize] at *; omega)]
    exact ulong_of_lt (by simp only [hdrSize] at *; omega)
  have hval : ulong (sizeT (h.size f.addr) + (2 ^ 64 - ulong (hdrSize + size)))
      = (f.rest size).size := by
    rw [hsize, hf.sizeT_eq, ulong_of_lt (v := hdrSize + size) (by simp only [hdrSize] at *; omega)]
    simp only [ulong, Block.rest, hdrSize, myHeapSize] at *
    omega
  have hrest : (f.rest size).size < 2 ^ 32 := by
    simp only [Block.rest, hdrSize, myHeapSize] at *
    omega
  have hsize' : size < 2 ^ 32 := by
    simp only [hdrSize, myHeapSize] at *
    omega
  refine ⟨(h.setSize (f.rest size).addr (f.rest size).size).setSize f.addr size, ?_, ?_, ?_, ?_,
    rfl, rfl, ?_⟩
  · simp only [split, hnew, hval]
  · exact Heap.size_setSize_self _ hsize'
  · rw [Heap.size_setSize_of_apart _ hap.symm, Heap.size_setSize_self _ hrest]
  · rw [Heap.next_setSize _ (Or.inl rfl), Heap.next_setSize _ (Or.inr hap)]
  · intro x hx
    have hxf := hx f (by simp)
    have hxr := hx (f.rest size) (by simp)
    simp only [hdrSize] at hxf hxr
    rw [Heap.mem_setSize_of_outside _ (by omega), Heap.mem_setSize_of_outside _ (by omega)]

/-- The search of `my_malloc` passes over blocks that are too small. -/
theorem myMallocLoop_skip {size p : Nat} {h : Heap} {pre rest : List Block} (fuel k : Nat)
    (done : List Block) (hs : Seg h p (pre ++ rest) 0)
    (hsmall : ∀ c ∈ pre, c.addr ≠ 0 ∧ sizeT c.size < ulong (size + hdrSize)) :
    ∃ q, Seg h q rest 0 ∧ myMallocLoop fuel size h (k + pre.length) p (lastAddr done)
      = myMallocLoop fuel size h k q (lastAddr (done ++ pre)) := by
  induction pre generalizing p done with
  | nil => exact ⟨p, hs, by simp⟩
  | cons b pre ih =>
      obtain ⟨rfl, hsize, hrest⟩ := hs
      obtain ⟨hne, hlt⟩ := hsmall b (by simp)
      obtain ⟨q, hq, heq⟩ := ih (done ++ [b]) hrest
        (fun c hc => hsmall c (List.mem_cons_of_mem _ hc))
      refine ⟨q, hq, ?_⟩
      rw [List.append_assoc, List.singleton_append, lastAddr_append_singleton] at heq
      rw [List.length_cons, ← Nat.add_assoc, myMallocLoop, if_neg hne, hsize,
        if_neg (Nat.not_le.2 hlt), heq]

theorem Block.Inside.too_small {base size : Nat} {c : Block} (hc : c.Inside base)
    (ha : Addressable base) (hlt : c.size < ulong (size + hdrSize)) :
    c.addr ≠ 0 ∧ sizeT c.size < ulong (size + hdrSize) := by
  rw [hc.sizeT_eq]
  exact ⟨Nat.pos_iff_ne_zero.1 (hc.addr_pos ha), hlt⟩

/-- **`my_malloc` fails without any change** when no free block has room for the request and a
    header. -/
theorem myMalloc_none {base size : Nat} {h : Heap} {bs : List Block} (fuel : Nat) (ha : Addressable base)
    (hl : FreeList h bs) (hin : ∀ c ∈ bs, c.Inside base)
    (hsmall : ∀ c ∈ bs, c.size < ulong (size + hdrSize)) (hfuel : bs.length < fuel) :
    myMalloc fuel size h = some (0, h) := by
  rw [myMalloc]
  split_ifs with hhead
  · rfl
  · have hskip : ∀ c ∈ bs, c.addr ≠ 0 ∧ sizeT c.size < ulong (size + hdrSize) := fun c hc =>
      (hin c hc).too_small ha (hsmall c hc)
    have hs : Seg h h.flHead (bs ++ []) 0 := by rwa [List.append_nil]
    obtain ⟨q, hq, heq⟩ := myMallocLoop_skip fuel (fuel - bs.length) [] hs hskip
    obtain ⟨k, hk⟩ : ∃ k, fuel - bs.length = k + 1 := ⟨fuel - bs.length - 1, by omega⟩
    rw [Nat.sub_add_cancel (Nat.le_of_lt hfuel), lastAddr_nil, hk] at heq
    rw [heq, myMallocLoop, if_pos (show q = 0 from hq)]

/-- **`my_malloc` takes the first block that has room** for the request and a header, hands out
    its front and puts the rest back in its place. -/
theorem myMalloc_some {base size : Nat} {h : Heap} {pre post : List Block} {f : Block}
    (fuel : Nat) (ha : Addressable base) (hl : FreeList h (pre ++ f :: post))
    (hin : ∀ c ∈ pre ++ f :: post, c.Inside base) (hsort : Sorted (pre ++ f :: post))
    (hsmall : ∀ c ∈ pre, c.size < size + hdrSize) (hfit : size + hdrSize ≤ f.size)
    (hfuel : pre.length < fuel) :
    ∃ h', myMalloc fuel size h = some (f.addr + hdrSize, h') ∧
      FreeList h' (pre ++ f.rest size :: post) ∧ h'.size f.addr = size ∧
      h'.next f.addr = magicNum ∧ h'.myHeap = h.myHeap ∧
      ∀ x, OutsideHdrs [f, f.rest size] x → OutsideNexts (last pre) x → h'.mem x = h.mem x := by
  have hf : f.Inside base := hin f (by simp)
  have hflt := hf.addr_lt ha
  have hfsz := hf.size_lt
  obtain ⟨hsortpre, hsortf, hcross⟩ := Sorted.append_iff.1 hsort
  obtain ⟨hfpost, hsortpost⟩ := List.pairwise_cons.1 hsortf
  have hprepost : Sorted (pre ++ post) :=
    Sorted.append_iff.2 ⟨hsortpre, hsortpost, fun c hc d hd => hcross c hc d (by simp [hd])⟩
  have hprein : ∀ c ∈ pre, c.Inside base := fun c hc => hin c (by simp [hc])
  have hpostin : ∀ c ∈ post, c.Inside base := fun c hc => hin c (by simp [hc])
  have hpref : ∀ c ∈ pre, c.stop ≤ f.addr := fun c hc => hcross c hc f (by simp)
  have hapre : ∀ c ∈ pre ++ post, HdrApart c.addr f.addr := by
    intro c hc
    rcases List.mem_append.1 hc with hc | hc
    · exact hdrApart_of_stop_le (hpref c hc)
    · exact (hdrApart_of_stop_le (hfpost c hc)).symm
  have hreq : ulong (size + hdrSize) = size + hdrSize :=
    ulong_of_lt (by simp only [myHeapSize, hdrSize] at *; omega)
  -- the loop reaches `f` with the right predecessor
  have hskip : ∀ c ∈ pre, c.addr ≠ 0 ∧ sizeT c.size < ulong (size + hdrSize) := fun c hc =>
    (hprein c hc).too_small ha (by rw [hreq]; exact hsmall c hc)
  obtain ⟨k, rfl⟩ : ∃ k, fuel = k + 1 + pre.length := ⟨fuel - pre.length - 1, by omega⟩
  obtain ⟨q, hq, heq⟩ := myMallocLoop_skip (k + 1 + pre.length) (k + 1) []
    (show Seg h h.flHead _ 0 from hl) hskip
  obtain ⟨rfl, hsizef, -⟩ := hq
  have hhead : h.flHead ≠ 0 := by
    cases pre with
    | nil => rw [hl.head_eq]; exact Nat.pos_iff_ne_zero.1 (hf.addr_pos ha)
    | cons c pre => rw [hl.head_eq]; exact (hskip c (by simp)).1
  -- `f` is taken out and marked
  obtain ⟨hl₁, hheap₁, hmem₁⟩ := flRemove_spec ha hl hin hsort
  have hout : ∀ x, f.addr ≤ x → x < f.addr + hdrSize → OutsideNexts pre x := by
    intro x hlo hhi c hc
    have := hpref c hc
    simp only [Block.stop] at this
    omega
  have hsize₁ : (flRemove f.addr (lastAddr pre) h).size f.addr = f.size := by
    rw [← hsizef]
    exact Heap.size_congr fun x hlo hhi => hmem₁ x (hout x hlo hhi).last
  generalize hg₁ : flRemove f.addr (lastAddr pre) h = h₁ at *
  have hsize₂ : (h₁.setNext f.addr magicNum).size f.addr = f.size := by
    rw [Heap.size_setNext _ (Or.inl rfl), hsize₁]
  have hl₂ : Seg (h₁.setNext f.addr magicNum) h₁.flHead (pre ++ post) 0 :=
    (show Seg h₁ h₁.flHead _ 0 from hl₁).setNext_of_apart hapre
  -- it is split and the rest inserted where `f` was
  obtain ⟨h₃, hsplit, hsize₃, hrest₃, hnext₃, hhead₃, hheap₃, hmem₃⟩ :=
    split_spec ha hf hsize₂ hfit
  have hapart₃ : ∀ c ∈ pre ++ post, ∀ x, c.addr ≤ x → x < c.addr + hdrSize →
      OutsideHdrs [f, f.rest size] x := by
    intro c hc x hlo hhi
    refine Block.outsideHdrs_rest hfit ?_ hlo hhi
    exact (List.mem_append.1 hc).imp (hpref c) (hfpost c)
  have hl₃ : FreeList h₃ (pre ++ post) := by
    show Seg h₃ h₃.flHead _ 0
    rw [hhead₃]
    exact hl₂.congr_mem fun c hc x hlo hhi => hmem₃ x (hapart₃ c hc x hlo hhi)
  have hin₃ : ∀ c ∈ pre ++ post, c.Inside base := fun c hc =>
    (List.mem_append.1 hc).elim (hprein c) (hpostin c)
  obtain ⟨h₄, hins, hl₄, hheap₄, hmem₄⟩ := flInsert_spec (k + 1 + pre.length) ha hl₃ hin₃
    (f.rest_inside hf hfit) hrest₃ hprepost
    (fun c hc => by have := hpref c hc; simp only [Block.rest]; omega)
    (fun c hc => by rw [f.rest_stop hfit]; exact hfpost c hc) (by omega)
  have hout₄ : ∀ x, f.addr ≤ x → x < f.addr + hdrSize →
      OutsideNexts (f.rest size :: last pre) x := by
    intro x hlo hhi c hc
    rcases List.mem_cons.1 hc with rfl | hc
    · simp only [Block.rest]; omega
    · exact (hout x hlo hhi).last c hc
  refine ⟨h₄, ?_, hl₄, ?_, ?_, ?_, ?_⟩
  · rw [myMalloc, if_neg hhead]
    rw [lastAddr_nil] at heq
    rw [heq, List.nil_append, myMallocLoop, if_neg (Nat.pos_iff_ne_zero.1 (hf.addr_pos ha)),
      hsizef, hf.sizeT_eq, hreq, if_pos hfit]
    simp only [hg₁, hsize₂, hf.sizeT_eq]
    rw [if_neg (by simp only [hdrSize] at hfit; omega), hsplit]
    simp only [hins, Option.map_some]
    rw [ulong_of_lt (by simp only [hdrSize] at *; omega)]
  · rw [Heap.size_congr fun x hlo hhi => hmem₄ x (hout₄ x hlo hhi), hsize₃]
  · rw [Heap.next_congr fun x hlo hhi => hmem₄ x (hout₄ x hlo hhi), hnext₃,
      Heap.next_setNext_self _ (by decide)]
  · rw [hheap₄, hheap₃, Heap.myHeap_setNext, hheap₁]
  · intro x hx hxpre
    have hxf := hx f (by simp)
    rw [hmem₄ x, hmem₃ x hx, Heap.mem_setNext_of_outside _ (by simp only [hdrSize] at hxf; omega),
      hmem₁ x hxpre]
    intro c hc
    rcases List.mem_cons.1 hc with rfl | hc
    · have := hx (f.rest size) (by simp)
      omega
    · exact hxpre c hc

end Cs350.Alloc
