import Cs350.Alloc.Merge

set_option autoImplicit false

/-! # `my_realloc` keeps the data

A block that has to grow is copied into a new one and then given back. The headers that `my_malloc`
and `my_free` write are those of free blocks, of the new block and of the old one, so neither the
copied bytes nor any other live block is touched, whatever `coalesce` makes of the free list. -/

namespace Cs350.Alloc

/-- What the caller of `my_realloc(ptr, size)` for the live block `b` may rely on when it gets the
    pointer `q`. -/
structure Moved (base : Nat) (h h' : Heap) (live : List Block) (b : Block) (size q : Nat) :
    Prop where
  data : ∀ i, i < min b.size size → h'.mem (q + i) = h.mem (b.addr + hdrSize + i)
  room : ∃ n : Block, q = n.addr + hdrSize ∧ size ≤ n.size ∧ h'.size n.addr = n.size ∧
    n.Inside base ∧ ∀ c ∈ live, c ≠ b → n.Apart c
  others : ∀ c ∈ live, c ≠ b → ∀ x, c.addr ≤ x → x < c.stop → h'.mem x = h.mem x

section Realloc

variable {base fuel size : Nat} {h : Heap} {free live : List Block} {b : Block}

/-- Stores into the usable bytes of live blocks keep a heap well formed. -/
theorem WellFormed.of_user_bytes (hw : WellFormed base h free live) {m : Mem}
    (hm : ∀ x, (∀ c ∈ live, x < c.addr + hdrSize ∨ c.stop ≤ x) → m x = h.mem x) :
    WellFormed base { h with mem := m } free live := by
  have hlive : ∀ c ∈ live, ∀ x, c.addr ≤ x → x < c.addr + hdrSize → m x = h.mem x := by
    intro c hc x hlo hhi
    refine hm x fun d hd => ?_
    by_cases hcd : c = d
    · exact Or.inl (hcd ▸ hhi)
    · have hap := hw.live_apart.forall hc hd hcd
      simp only [Block.Apart, Block.stop] at *
      omega
  have hfree : ∀ c ∈ free, ∀ x, c.addr ≤ x → x < c.addr + hdrSize → m x = h.mem x := by
    intro c hc x hlo hhi
    refine hm x fun d hd => ?_
    have hap := hw.free_apart hc hd
    simp only [Block.Apart, Block.stop] at *
    omega
  refine ⟨hw.addressable, hw.heap, ?_, hw.increasing, fun c hc => ?_, hw.tiled⟩
  · exact (show Seg h h.flHead free 0 from hw.list).congr_mem hfree
  · rw [← hw.sizes c hc]
    exact Heap.size_congr (hlive c hc)

/-- `my_realloc` of a live block, by its size. -/
theorem myRealloc_eq (hw : WellFormed base h free live) (hb : b ∈ live) :
    myRealloc fuel (b.addr + hdrSize) size h =
      if size > b.size then
        (myMalloc fuel size h).bind fun (usrPtr, h) =>
          if usrPtr = 0 then some (0, h)
          else
            let h := { h with mem := h.mem.copy usrPtr (b.addr + hdrSize) b.size }
            (myFree fuel (b.addr + hdrSize) h).map fun h => (usrPtr, h)
      else some (b.addr + hdrSize, h) := by
  have hin := hw.live_inside hb
  rw [myRealloc, if_neg (by simp [hdrSize])]
  simp only [hin.ulong_ptr hw.addressable, hw.sizes b hb, hin.sizeT_eq]

/-- The block is large enough as it is. -/
theorem WellFormed.moved_self (hw : WellFormed base h free live) (hb : b ∈ live)
    (hle : size ≤ b.size) : Moved base h h live b size (b.addr + hdrSize) where
  data _ _ := rfl
  room := ⟨b, rfl, hle, hw.sizes b hb, hw.live_inside hb, fun _ hc hne =>
    hw.live_apart.forall hb hc (Ne.symm hne)⟩
  others _ _ _ _ _ _ := rfl

/-- `my_realloc` to a larger size, when `my_malloc` finds the block `f`. -/
theorem myRealloc_move {pre post : List Block} {f : Block}
    (hw : WellFormed base h (pre ++ f :: post) live) (hb : b ∈ live) (hgrow : b.size < size)
    (hsmall : ∀ c ∈ pre, c.size < size + hdrSize) (hfit : size + hdrSize ≤ f.size)
    (hfuel : (pre ++ f :: post).length < fuel) :
    ∃ h', myRealloc fuel (b.addr + hdrSize) size h = some (f.addr + hdrSize, h') ∧
      Moved base h h' live b size (f.addr + hdrSize) := by
  obtain ⟨h₁, hrun₁, hcut, hmem₁⟩ := hw.myMalloc_cut hsmall hfit hfuel
  have hw₁ := hcut.wellFormed
  obtain ⟨hnew, -⟩ := List.pairwise_cons.1 hw₁.live_apart
  have hne : ∀ c ∈ live, c ≠ ⟨f.addr, size⟩ := fun c hc heq =>
    (List.nodup_cons.1 hw₁.nodup).1 (heq ▸ hc)
  -- the copy stays in the new block
  have hmem₂ : ∀ x, x < f.addr + hdrSize ∨ f.addr + hdrSize + size ≤ x →
      h₁.mem.copy (f.addr + hdrSize) (b.addr + hdrSize) b.size x = h₁.mem x := fun x hx =>
    Mem.copy_apply _ _ _ _ _ (by omega)
  have hw₂ := hw₁.of_user_bytes fun x hx => hmem₂ x (hx ⟨f.addr, size⟩ (by simp))
  obtain ⟨pre', post', hlist, hsort⟩ := hw₂.sorted.split fun c hc =>
    hw₂.free_apart hc (List.mem_cons_of_mem _ hb)
  rw [hlist] at hw₂
  obtain ⟨h₃, hrun₃, -, -, hmem₃⟩ := hw₂.myFree (List.mem_cons_of_mem _ hb) hsort
    (by rw [← hlist]; simpa using hfuel)
  have hkept := hmem₃ ⟨f.addr, size⟩ (by simp) (hne b hb).symm
  refine ⟨h₃, ?_, fun i hi => ?_, ⟨⟨f.addr, size⟩, rfl, Nat.le_refl _, ?_, ?_, ?_⟩, ?_⟩
  · rw [myRealloc_eq hw hb, if_pos hgrow, hrun₁, Option.bind_some]
    simp only [if_neg (show f.addr + hdrSize ≠ 0 by simp [hdrSize]), hrun₃, Option.map_some]
  · have hi' : i < b.size := Nat.lt_of_lt_of_le hi (Nat.min_le_left _ _)
    rw [hkept _ (by simp only; omega) (by simp only [Block.stop]; omega)]
    show h₁.mem.copy _ _ _ (f.addr + hdrSize + i) = _
    rw [Mem.copy_add _ _ _ _ _ hi']
    exact hmem₁ b hb _ (by omega) (by simp only [Block.stop]; omega)
  · rw [Heap.size_congr fun x hlo hhi =>
      hkept x hlo (Nat.lt_of_lt_of_le hhi (Nat.le_add_right _ _))]
    exact hw₂.sizes ⟨f.addr, size⟩ (by simp)
  · exact hw₁.live_inside (by simp)
  · exact fun c hc _ => hnew c hc
  · intro c hc hcb x hlo hhi
    rw [hmem₃ c (by simp [hc]) hcb x hlo hhi, ← hmem₁ c hc x hlo hhi]
    have hap := hnew c hc
    refine hmem₂ x ?_
    simp only [Block.Apart, Block.stop] at *
    omega

/-- **`my_realloc` preserves data.** It returns; if it returns `NULL` nothing has changed and the
    block is still live, otherwise the block at the pointer holds the old data, and no other live
    block has changed. -/
theorem myRealloc_preserves (hw : WellFormed base h free live) (hb : b ∈ live)
    (hsize : size + hdrSize < 2 ^ 64) (hfuel : free.length < fuel) :
    ∃ q h', myRealloc fuel (b.addr + hdrSize) size h = some (q, h') ∧
      (q ≠ 0 → Moved base h h' live b size q) ∧
      (q = 0 → h' = h ∧ WellFormed base h' free live) := by
  rcases Nat.lt_or_ge b.size size with hgrow | hle
  · rcases first_fit (size + hdrSize) free with hsmall | ⟨pre, f, post, rfl, hsmall, hfit⟩
    · have hnone := myMalloc_none fuel hw.addressable hw.list (fun c hc => hw.free_inside hc)
        (by rwa [ulong_of_lt hsize]) hfuel
      refine ⟨0, h, ?_, fun hne => absurd rfl hne, fun _ => ⟨rfl, hw⟩⟩
      rw [myRealloc_eq hw hb, if_pos hgrow, hnone]
      simp
    · obtain ⟨h', hrun, hmoved⟩ := myRealloc_move hw hb hgrow hsmall hfit hfuel
      refine ⟨_, h', hrun, fun _ => hmoved, fun hzero => ?_⟩
      exact absurd hzero (by simp [hdrSize])
  · refine ⟨_, h, ?_, fun _ => hw.moved_self hb hle, fun hzero => ?_⟩
    · rw [myRealloc_eq hw hb, if_neg (Nat.not_lt.2 hle)]
    · exact absurd hzero (by simp [hdrSize])

/-- The live block of `gapHeap` is moved to where there is room, and then its data are there. -/
theorem myRealloc_preserves_gap :
    ∃ h', myRealloc 3 4144 100 gapHeap = some (4176, h') ∧
      Moved 4096 gapHeap h' [⟨4128, 16⟩] ⟨4128, 16⟩ 100 4176 := by
  obtain ⟨q, h', hrun, hmoved, -⟩ := myRealloc_preserves gapHeap_wellFormed
    (List.mem_singleton_self (⟨4128, 16⟩ : Block)) (by decide : 100 + hdrSize < 2 ^ 64)
    (by decide : 2 < 3)
  have hptr : (myRealloc 3 4144 100 gapHeap).map Prod.fst = some 4176 := by decide +kernel
  rw [show (4144 : Nat) = 4128 + hdrSize from rfl, hrun] at hptr
  obtain rfl : q = 4176 := Option.some.inj hptr
  exact ⟨h', hrun, hmoved (by decide)⟩

end Realloc

end Cs350.Alloc
