import Cs350.Alloc.WellFormed

set_option autoImplicit false

/-! # `my_free` on well-formed heaps

`coalesce` makes one pass over the free list, in which no block takes part in two merges, and then
one more merge at the head. On a heap whose free blocks have used blocks between them this is right
exactly when there is one merge to be made, or two of them at the head of the list; otherwise the
last merge joins two blocks with something between them. -/

namespace Cs350.Alloc

/-- The byte at `x` belongs to one of the blocks. -/
def Covers (bs : List Block) (x : Nat) : Prop := ∃ b ∈ bs, b.addr ≤ x ∧ x < b.stop

/-- No block begins where another one ends. -/
def NoNeighbours (bs : List Block) : Prop := ∀ b ∈ bs, ∀ c ∈ bs, b.stop ≠ c.addr

/-- `b` has been given back: the heap is well formed, its free bytes are those that were free and
    those of `b`, no two free blocks are adjacent, and no live block is covered by a free one. -/
def FreedExactly (base : Nat) (h' : Heap) (free live : List Block) (b : Block) : Prop :=
  ∃ free', WellFormed base h' free' (live.erase b) ∧ NoNeighbours free' ∧
    (∀ x, Covers free' x ↔ Covers free x ∨ Covers [b] x) ∧
    ∀ x, Covers free' x → ¬ Covers (live.erase b) x

/-- The free list is empty, or it is a block next to `b`, or its first two blocks are next to `b` on
    its two sides. -/
def OneMerge (free : List Block) (b : Block) : Prop :=
  free = [] ∨ (∃ g, free = [g] ∧ (g.stop = b.addr ∨ b.stop = g.addr)) ∨
    ∃ a c post, free = a :: c :: post ∧ a.stop = b.addr ∧ b.stop = c.addr

/-! ## Bytes of a list of blocks -/

section Covers

variable {bs cs : List Block} {a b : Block} {x : Nat}

@[simp] theorem covers_nil : ¬ Covers [] x := by simp [Covers]

@[simp] theorem covers_cons : Covers (b :: bs) x ↔ b.addr ≤ x ∧ x < b.stop ∨ Covers bs x := by
  simp [Covers]

@[simp] theorem covers_append : Covers (bs ++ cs) x ↔ Covers bs x ∨ Covers cs x := by
  simp [Covers, or_and_right, exists_or]

theorem Block.addr_lt_stop (b : Block) : b.addr < b.stop := by
  simp only [Block.stop, hdrSize]
  omega

theorem covers_join (hab : a.stop = b.addr) :
    Covers (a.join b :: bs) x ↔ Covers (a :: b :: bs) x := by
  have ha := a.addr_lt_stop
  have hb := b.addr_lt_stop
  have hstop := Block.join_stop hab
  have haddr : (a.join b).addr = a.addr := rfl
  simp only [covers_cons, hstop, haddr]
  rw [← or_assoc]
  refine or_congr_left ?_
  omega

theorem covers_mergePass (bs : List Block) : Covers (mergePass bs) x ↔ Covers bs x := by
  fun_induction mergePass bs with
  | case1 a b rest hadj ih =>
      rw [covers_join hadj, covers_cons, covers_cons, ih, covers_cons, covers_cons]
  | case2 a b rest hadj ih => rw [covers_cons, ih, ← covers_cons]
  | case3 bs => rfl

/-- Nothing covers the byte behind the first block when there is a gap. -/
theorem not_covers_gap (hs : Sorted (a :: b :: bs)) (hab : a.stop < b.addr) :
    ¬ Covers (a :: b :: bs) a.stop := by
  obtain ⟨-, htail⟩ := List.pairwise_cons.1 hs
  obtain ⟨hb, -⟩ := List.pairwise_cons.1 htail
  have hlt := b.addr_lt_stop
  rintro ⟨c, hc, hlo, hhi⟩
  rcases List.mem_cons.1 hc with rfl | hc
  · omega
  · rcases List.mem_cons.1 hc with rfl | hc
    · omega
    · have hle := hb c hc
      omega

end Covers

/-! ## The lists -/

section Lists

variable {bs pre post : List Block} {b : Block}

/-- The place of a block among the free ones. -/
theorem Sorted.split (h : Sorted bs) (hap : ∀ c ∈ bs, c.Apart b) :
    ∃ pre post, bs = pre ++ post ∧ Sorted (pre ++ b :: post) := by
  induction bs with
  | nil => exact ⟨[], [], rfl, List.pairwise_singleton _ _⟩
  | cons c bs ih =>
      obtain ⟨hc, htail⟩ := List.pairwise_cons.1 h
      have hlt := c.addr_lt_stop
      rcases hap c (by simp) with hcb | hbc
      · obtain ⟨pre, post, rfl, hsort⟩ := ih htail fun d hd => hap d (by simp [hd])
        refine ⟨c :: pre, post, rfl, List.pairwise_cons.2 ⟨fun d hd => ?_, hsort⟩⟩
        rcases List.mem_append.1 hd with hd | hd
        · exact hc d (by simp [hd])
        · rcases List.mem_cons.1 hd with rfl | hd
          · exact hcb
          · exact hc d (by simp [hd])
      · refine ⟨[], c :: bs, rfl, List.pairwise_cons.2 ⟨fun d hd => ?_, h⟩⟩
        rcases List.mem_cons.1 hd with rfl | hd
        · exact hbc
        · have hle := hc d hd
          omega

theorem mergePass_eq_self (h : NoNeighbours bs) : mergePass bs = bs := by
  fun_induction mergePass bs with
  | case1 a b rest hadj ih => exact absurd hadj (h a (by simp) b (by simp))
  | case2 a b rest hadj ih =>
      rw [ih fun c hc d hd => h c (List.mem_cons_of_mem _ hc) d (List.mem_cons_of_mem _ hd)]
  | case3 bs => rfl

/-- The first block of the pass, when the next one is not adjacent. -/
theorem mergePass_gap {a c : Block} (hac : a.stop < c.addr) (rest : List Block) :
    ∃ d ds, mergePass (a :: c :: rest) = a :: d :: ds ∧ a.stop < d.addr := by
  obtain ⟨d, ds, heq, haddr⟩ := mergePass_cons c rest
  refine ⟨d, ds, ?_, haddr ▸ hac⟩
  rw [mergePass, if_neg (Nat.ne_of_lt hac), heq]

/-- Otherwise the first two blocks of the pass are apart. -/
theorem mergePass_of_not_oneMerge (hsort : Sorted (pre ++ b :: post))
    (hno : NoNeighbours (pre ++ post)) (hmerge : ¬ OneMerge (pre ++ post) b) :
    ∃ c d rest, mergePass (pre ++ b :: post) = c :: d :: rest ∧ c.stop < d.addr := by
  have hgap : ∀ {a c : Block}, a.stop ≤ c.addr → a.stop ≠ c.addr → a.stop < c.addr :=
    fun hle hne => Nat.lt_of_le_of_ne hle hne
  cases pre with
  | nil =>
      obtain ⟨hb, hsortpost⟩ := List.pairwise_cons.1 hsort
      cases post with
      | nil => exact absurd (Or.inl rfl) hmerge
      | cons g post =>
          by_cases hadj : b.stop = g.addr
          · cases post with
            | nil => exact absurd (Or.inr (Or.inl ⟨g, rfl, Or.inr hadj⟩)) hmerge
            | cons e post =>
                obtain ⟨d, ds, heq, haddr⟩ := mergePass_cons e post
                refine ⟨b.join g, d, ds, ?_, ?_⟩
                · rw [List.nil_append, mergePass, if_pos hadj, heq]
                · rw [Block.join_stop hadj, haddr]
                  exact hgap ((List.pairwise_cons.1 hsortpost).1 e (by simp))
                    (hno g (by simp) e (by simp))
          · obtain ⟨d, ds, heq, hlt⟩ := mergePass_gap (hgap (hb g (by simp)) hadj) post
            exact ⟨b, d, ds, heq, hlt⟩
  | cons a pre =>
      obtain ⟨ha, hsortb⟩ := List.pairwise_cons.1 hsort
      cases pre with
      | nil =>
          by_cases hadj : a.stop = b.addr
          · cases post with
            | nil => exact absurd (Or.inr (Or.inl ⟨a, rfl, Or.inl hadj⟩)) hmerge
            | cons c post =>
                obtain ⟨d, ds, heq, haddr⟩ := mergePass_cons c post
                refine ⟨a.join b, d, ds, ?_, ?_⟩
                · rw [List.singleton_append, mergePass, if_pos hadj, heq]
                · rw [Block.join_stop hadj, haddr]
                  refine hgap ((List.pairwise_cons.1 hsortb).1 c (by simp)) fun hbc => hmerge ?_
                  exact Or.inr (Or.inr ⟨a, c, post, rfl, hadj, hbc⟩)
          · obtain ⟨d, ds, heq, hlt⟩ := mergePass_gap (hgap (ha b (by simp)) hadj) post
            exact ⟨a, d, ds, heq, hlt⟩
      | cons c pre =>
          obtain ⟨d, ds, heq, hlt⟩ := mergePass_gap
            (hgap (ha c (by simp)) (hno a (by simp) c (by simp))) (pre ++ b :: post)
          exact ⟨a, d, ds, heq, hlt⟩

/-- There is one list of blocks with nonzero addresses from a pointer to `NULL`. -/
theorem Seg.unique {h : Heap} {cs : List Block} {p : Nat} (hb : Seg h p bs 0) (hc : Seg h p cs 0)
    (hbpos : ∀ b ∈ bs, b.addr ≠ 0) (hcpos : ∀ c ∈ cs, c.addr ≠ 0) : bs = cs := by
  induction bs generalizing p cs with
  | nil =>
      cases cs with
      | nil => rfl
      | cons c cs => exact absurd (hc.head_eq.symm.trans hb) (hcpos c (by simp))
  | cons b bs ih =>
      cases cs with
      | nil => exact absurd (hb.head_eq.symm.trans hc) (hbpos b (by simp))
      | cons c cs =>
          obtain ⟨hpb, hsb, hrb⟩ := hb
          obtain ⟨hpc, hsc, hrc⟩ := hc
          have haddr : b.addr = c.addr := hpb.symm.trans hpc
          have hbc : b = c := by
            obtain ⟨addr, size⟩ := b
            obtain ⟨addr', size'⟩ := c
            obtain rfl : addr = addr' := haddr
            obtain rfl : size = size' := hsb.symm.trans hsc
            rfl
          subst hbc
          rw [ih hrb hrc (fun d hd => hbpos d (by simp [hd])) fun d hd => hcpos d (by simp [hd])]

end Lists

/-! ## `my_free` -/

section Free

variable {base fuel : Nat} {h h' : Heap} {free live pre post : List Block} {b : Block}

/-- `my_free` of a live block of a well-formed heap, by its place among the free blocks; it leaves
    the other live blocks alone. -/
theorem WellFormed.myFree (hw : WellFormed base h (pre ++ post) live) (hb : b ∈ live)
    (hsort : Sorted (pre ++ b :: post)) (hfuel : (pre ++ post).length < fuel) :
    ∃ h', myFree fuel (b.addr + hdrSize) h = some h' ∧
      FreeList h' (mergeHead (mergePass (pre ++ b :: post))) ∧ h'.myHeap = base ∧
      ∀ c ∈ live, c ≠ b → ∀ x, c.addr ≤ x → x < c.stop → h'.mem x = h.mem x := by
  obtain ⟨h', hrun, hl, hheap, hmem⟩ := myFree_spec hw.addressable fuel hw.list
    (fun c hc => hw.free_inside hc) (hw.live_inside hb) (hw.sizes b hb) hsort
    (by simp at hfuel ⊢; omega)
  refine ⟨h', hrun, hl, hheap.trans hw.heap, fun c hc hne x hlo hhi => hmem x fun d hd => ?_⟩
  have hap : d.Apart c := by
    rcases List.mem_append.1 hd with hd | hd
    · exact hw.free_apart (by simp [hd]) hc
    · rcases List.mem_cons.1 hd with rfl | hd
      · exact hw.live_apart.forall hb hc (Ne.symm hne)
      · exact hw.free_apart (by simp [hd]) hc
  simp only [Block.Apart, Block.stop] at *
  omega

/-- The live blocks are different ones. -/
theorem WellFormed.nodup (hw : WellFormed base h free live) : live.Nodup := by
  refine hw.live_apart.imp fun {c d} hap hcd => ?_
  subst hcd
  have hlt := c.addr_lt_stop
  simp only [Block.Apart] at hap
  omega

/-- The heap is well formed if the new free list fills what the live blocks leave. -/
theorem WellFormed.freed (hw : WellFormed base h free live) {free' : List Block}
    (hheap : h'.myHeap = base) (hl : FreeList h' free') (hsort : Sorted free')
    (htiled : Tiled base (free' ++ live.erase b))
    (hmem : ∀ c ∈ live, c ≠ b → ∀ x, c.addr ≤ x → x < c.stop → h'.mem x = h.mem x) :
    WellFormed base h' free' (live.erase b) where
  addressable := hw.addressable
  heap := hheap
  list := hl
  increasing := hsort.increasing
  sizes c hc := by
    have hcl := List.mem_of_mem_erase hc
    rw [← hw.sizes c hcl]
    refine Heap.size_congr fun x hlo hhi => hmem c hcl ?_ x hlo ?_
    · exact ((hw.nodup.mem_erase_iff).1 hc).1
    · simp only [Block.stop]
      omega
  tiled := htiled

/-- What `FreedExactly` says, when the free bytes are right. -/
theorem WellFormed.freedExactly {free' : List Block}
    (hw : WellFormed base h' free' (live.erase b)) (hno : NoNeighbours free')
    (hcov : ∀ x, Covers free' x ↔ Covers free x ∨ Covers [b] x) :
    FreedExactly base h' free live b := by
  refine ⟨free', hw, hno, hcov, fun x hfree hlive => ?_⟩
  obtain ⟨f, hf, hflo, hfhi⟩ := hfree
  obtain ⟨c, hc, hclo, hchi⟩ := hlive
  have hap := hw.free_apart hf hc
  simp only [Block.Apart] at hap
  omega

theorem WellFormed.freedExactly_at {free' : List Block} (hw : WellFormed base h (pre ++ post) live)
    (hb : b ∈ live) (hsort : Sorted (pre ++ b :: post)) (hfuel : (pre ++ post).length < fuel)
    (hrun : Alloc.myFree fuel (b.addr + hdrSize) h = some h')
    (hlist : mergeHead (mergePass (pre ++ b :: post)) = free') (hsort' : Sorted free')
    (htiled : Tiled base (free' ++ live.erase b)) (hno : NoNeighbours free')
    (hcov : ∀ x, Covers free' x ↔ Covers (pre ++ b :: post) x) :
    FreedExactly base h' (pre ++ post) live b := by
  obtain ⟨h₁, hrun₁, hl, hheap, hmem⟩ := hw.myFree hb hsort hfuel
  obtain rfl : h₁ = h' := Option.some.inj (hrun₁.symm.trans hrun)
  refine (hw.freed hheap (hlist ▸ hl) hsort' htiled hmem).freedExactly hno fun x => ?_
  rw [hcov]
  simp only [covers_append, covers_cons, covers_nil, or_false]
  rw [or_assoc, or_comm (a := b.addr ≤ x ∧ x < b.stop)]

theorem noNeighbours_singleton (b : Block) : NoNeighbours [b] := by
  intro c hc d hd
  rw [List.mem_singleton.1 hc, List.mem_singleton.1 hd]
  exact Nat.ne_of_gt b.addr_lt_stop

/-- The gap between two free blocks is filled. -/
theorem NoNeighbours.fill {a c n : Block} {post : List Block} (hno : NoNeighbours (a :: c :: post))
    (haddr : n.addr = a.addr) (hstop : n.stop = c.stop) : NoNeighbours (n :: post) := by
  intro d hd e he
  rcases List.mem_cons.1 hd with rfl | hd' <;> rcases List.mem_cons.1 he with rfl | he'
  · exact Nat.ne_of_gt e.addr_lt_stop
  · rw [hstop]
    exact hno c (by simp) e (by simp [he'])
  · rw [haddr]
    exact hno d (by simp [hd']) a (by simp)
  · exact hno d (by simp [hd']) e (by simp [he'])

theorem WellFormed.freedExactly_of_oneMerge (hw : WellFormed base h free live)
    (hno : NoNeighbours free) (hb : b ∈ live) (hfuel : free.length < fuel)
    (hrun : Alloc.myFree fuel (b.addr + hdrSize) h = some h') (hm : OneMerge free b) :
    FreedExactly base h' free live b := by
  have htiled : Tiled base (b :: (free ++ live.erase b)) := by
    refine hw.tiled.perm (List.perm_middle.symm.trans ?_)
    exact (List.perm_cons_erase hb).symm.append_left free
  have hsort := hw.sorted
  rcases hm with rfl | ⟨g, rfl, hgb | hbg⟩ | ⟨a, c, post, rfl, hab, hbc⟩
  · exact WellFormed.freedExactly_at (show WellFormed base h ([] ++ []) live from hw) hb
      (List.pairwise_singleton _ _) hfuel hrun rfl (List.pairwise_singleton _ _) htiled
      (noNeighbours_singleton b) fun x => Iff.rfl
  · refine WellFormed.freedExactly_at (show WellFormed base h ([g] ++ []) live from hw) hb ?_ hfuel
      hrun ?_ (List.pairwise_singleton _ (g.join b)) ?_ (noNeighbours_singleton _)
      fun x => covers_join hgb
    · simpa [Sorted] using Nat.le_of_eq hgb
    · simp [mergePass, mergeHead, hgb]
    · exact (htiled.perm (List.Perm.swap b g _)).join hgb
  · refine WellFormed.freedExactly_at (show WellFormed base h ([] ++ [g]) live from hw) hb ?_ hfuel
      hrun ?_ (List.pairwise_singleton _ (b.join g)) (htiled.join hbg) (noNeighbours_singleton _)
      fun x => covers_join hbg
    · simpa [Sorted] using Nat.le_of_eq hbg
    · simp [mergePass, mergeHead, hbg]
  · -- the freed block fills the gap between the first two free ones
    obtain ⟨hac, htail⟩ := List.pairwise_cons.1 hsort
    obtain ⟨hc, hsortpost⟩ := List.pairwise_cons.1 htail
    have hstop : (a.join b).stop = c.addr := (Block.join_stop hab).trans hbc
    refine WellFormed.freedExactly_at (show WellFormed base h ([a] ++ c :: post) live from hw) hb ?_
      hfuel hrun (?_ : _ = (a.join b).join c :: post) ?_ ?_ (hno.fill rfl (Block.join_stop hstop))
      fun x => ?_
    · refine List.pairwise_cons.2 ⟨fun d hd => ?_, List.pairwise_cons.2 ⟨fun d hd => ?_, htail⟩⟩
      · rcases List.mem_cons.1 hd with rfl | hd
        · exact Nat.le_of_eq hab
        · exact hac d hd
      · rcases List.mem_cons.1 hd with rfl | hd
        · exact Nat.le_of_eq hbc
        · have hle := hc d hd
          have hlt := c.addr_lt_stop
          omega
    · have hpass : mergePass (c :: post) = c :: post :=
        mergePass_eq_self fun d hd e he => hno d (List.mem_cons_of_mem _ hd) e (List.mem_cons_of_mem _ he)
      rw [List.singleton_append, mergePass, if_pos hab, hpass, mergeHead]
    · refine List.pairwise_cons.2 ⟨fun d hd => ?_, hsortpost⟩
      rw [Block.join_stop hstop]
      exact hc d hd
    · exact ((htiled.perm (List.Perm.swap b a _)).join hab).join hstop
    · rw [covers_join hstop, covers_join hab]
      rfl

/-- The last merge covers what is between two blocks. -/
theorem WellFormed.not_freedExactly (hw : WellFormed base h free live) (hno : NoNeighbours free)
    (hb : b ∈ live) (hfuel : free.length < fuel)
    (hrun : Alloc.myFree fuel (b.addr + hdrSize) h = some h') (hm : ¬ OneMerge free b) :
    ¬ FreedExactly base h' free live b := by
  obtain ⟨pre, post, rfl, hsort⟩ := hw.sorted.split fun c hc => hw.free_apart hc hb
  obtain ⟨h₁, hrun₁, hl, -⟩ := hw.myFree hb hsort hfuel
  obtain rfl : h₁ = h' := Option.some.inj (hrun₁.symm.trans hrun)
  obtain ⟨c, d, rest, hpass, hgap⟩ := mergePass_of_not_oneMerge hsort hno hm
  rintro ⟨free', hw', -, hcov, -⟩
  have hinside : ∀ e ∈ c :: d :: rest, e.Inside base := by
    rw [← hpass]
    refine mergePass_inside fun e he => ?_
    rcases List.mem_append.1 he with he | he
    · exact hw.free_inside (by simp [he])
    · rcases List.mem_cons.1 he with rfl | he
      · exact hw.live_inside hb
      · exact hw.free_inside (by simp [he])
  have hpos : ∀ e ∈ c :: d :: rest, e.addr ≠ 0 := fun e he =>
    Nat.pos_iff_ne_zero.1 ((hinside e he).addr_pos hw.addressable)
  rw [hpass] at hl
  obtain rfl : c.join d :: rest = free' := by
    refine Seg.unique hl hw'.list (fun e he => ?_) fun e he =>
      Nat.pos_iff_ne_zero.1 ((hw'.free_inside he).addr_pos hw.addressable)
    rcases List.mem_cons.1 he with rfl | he
    · exact hpos c (by simp)
    · exact hpos e (by simp [he])
  -- the byte behind `c` is free now, and was not before
  have hfree : Covers (c.join d :: rest) c.stop := by
    rw [covers_cons]
    left
    simp only [Block.join, Block.stop, hdrSize]
    omega
  refine not_covers_gap (hpass ▸ mergePass_sorted hsort) hgap ?_
  rw [← hpass, covers_mergePass]
  have hbefore := (hcov c.stop).1 hfree
  simp only [covers_append, covers_cons, covers_nil, or_false] at hbefore ⊢
  grind

/-- **`my_free` is exact if and only if there is one merge to make**, or two of them at the head of
    the list. -/
theorem myFree_exact_iff (hw : WellFormed base h free live) (hno : NoNeighbours free)
    (hb : b ∈ live) (hfuel : free.length < fuel) :
    ∃ h', myFree fuel (b.addr + hdrSize) h = some h' ∧
      (FreedExactly base h' free live b ↔ OneMerge free b) := by
  obtain ⟨pre, post, rfl, hsort⟩ := hw.sorted.split fun c hc => hw.free_apart hc hb
  obtain ⟨h', hrun, -⟩ := hw.myFree hb hsort hfuel
  refine ⟨h', hrun, fun hexact => ?_, hw.freedExactly_of_oneMerge hno hb hfuel hrun⟩
  by_contra hm
  exact hw.not_freedExactly hno hb hfuel hrun hm hexact

/-- The live block of `gapHeap` has a free neighbour on either side. -/
theorem myFree_exact_gap :
    ∃ h', myFree 3 4144 gapHeap = some h' ∧
      FreedExactly 4096 h' [⟨4096, 16⟩, ⟨4160, 1048496⟩] [⟨4128, 16⟩] ⟨4128, 16⟩ := by
  obtain ⟨h', hrun, hiff⟩ := myFree_exact_iff gapHeap_wellFormed
    (by simp [NoNeighbours, Block.stop, hdrSize]) (List.mem_singleton_self (⟨4128, 16⟩ : Block))
    (by decide : 2 < 3)
  exact ⟨h', hrun, hiff.2 (Or.inr (Or.inr ⟨_, _, [], rfl, rfl, rfl⟩))⟩

/-- `gapHeap`, with its first block handed out. -/
def twoLiveHeap : Heap := (gapHeap.setNext 4096 magicNum).setFlHead 4160

theorem twoLiveHeap_wellFormed :
    WellFormed 4096 twoLiveHeap [⟨4160, 1048496⟩] [⟨4096, 16⟩, ⟨4128, 16⟩] where
  addressable := ⟨by decide, by decide⟩
  heap := rfl
  list := ⟨rfl, rfl, (rfl : twoLiveHeap.next 4160 = 0)⟩
  increasing := by decide
  sizes := List.forall_mem_cons.2 ⟨rfl, List.forall_mem_singleton.2 rfl⟩
  tiled := ⟨[⟨4096, 16⟩, ⟨4128, 16⟩, ⟨4160, 1048496⟩], by decide, rfl, rfl, rfl, rfl⟩

/-- Freeing the first of two live blocks makes the second one free as well. -/
theorem myFree_covers_live :
    WellFormed 4096 twoLiveHeap [⟨4160, 1048496⟩] [⟨4096, 16⟩, ⟨4128, 16⟩] ∧
      NoNeighbours [⟨4160, 1048496⟩] ∧
      ∃ h', myFree 3 (4096 + hdrSize) twoLiveHeap = some h' ∧
        ¬ FreedExactly 4096 h' [⟨4160, 1048496⟩] [⟨4096, 16⟩, ⟨4128, 16⟩] ⟨4096, 16⟩ := by
  refine ⟨twoLiveHeap_wellFormed, noNeighbours_singleton _, ?_⟩
  have hsome : (myFree 3 (4096 + hdrSize) twoLiveHeap).isSome := rfl
  obtain ⟨h', hrun⟩ := Option.isSome_iff_exists.1 hsome
  refine ⟨h', hrun, twoLiveHeap_wellFormed.not_freedExactly (noNeighbours_singleton _) (by simp)
    (by decide) hrun ?_⟩
  rintro (hnil | ⟨g, hg, hadj⟩ | ⟨a, c, post, hlist, -⟩)
  · exact absurd hnil (by simp)
  · obtain rfl : ⟨4160, 1048496⟩ = g := (List.cons.inj hg).1
    exact absurd hadj (by decide)
  · exact absurd (congrArg List.length hlist) (by simp)

end Free

end Cs350.Alloc
