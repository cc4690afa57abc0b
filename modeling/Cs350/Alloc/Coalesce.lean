import Cs350.Alloc.Spec

set_option autoImplicit false

/-! # `coalesce` and `my_free` on the list of free blocks

On a sorted free list the loop of `coalesce` is `mergePass`: it joins each block with its
neighbour when the two are adjacent, and goes on behind the joined pair. The statement after the
loop is `mergeHead`: it joins the first two blocks whether they are adjacent or not. So `my_free`
of a block computes `mergeHead (mergePass (pre ++ b :: post))`, where `pre` and `post` are the free
blocks below and above it. -/

namespace Cs350.Alloc

/-- The block that `p->size += next->size + sizeof(BLOCK_HDR)` makes of `a` and its successor. -/
def Block.join (a b : Block) : Block := ⟨a.addr, a.size + (b.size + hdrSize)⟩

theorem Block.join_stop {a b : Block} (h : a.stop = b.addr) : (a.join b).stop = b.stop := by
  simp only [Block.join, Block.stop] at *
  omega

theorem Block.join_stop_le {a b : Block} (h : a.stop ≤ b.addr) : (a.join b).stop ≤ b.stop := by
  simp only [Block.join, Block.stop] at *
  omega

/-- The merging loop of `coalesce`, on the list. -/
def mergePass : List Block → List Block
  | a :: b :: rest =>
    if a.stop = b.addr then a.join b :: mergePass rest else a :: mergePass (b :: rest)
  | bs => bs

/-- The last merge of `coalesce`, on the list. -/
def mergeHead : List Block → List Block
  | a :: b :: rest => a.join b :: rest
  | bs => bs

/-! ## `mergePass` keeps a list sorted and within its bounds -/

/-- What holds of all blocks still does, if joining two blocks keeps it. -/
theorem mergePass_forall {P : Block → Prop} {bs : List Block} (h : ∀ b ∈ bs, P b)
    (hjoin : ∀ a b, a.stop = b.addr → P a → P b → P (a.join b)) : ∀ b ∈ mergePass bs, P b := by
  fun_induction mergePass bs with
  | case1 a b rest hadj ih =>
      intro c hc
      rcases List.mem_cons.1 hc with rfl | hc
      · exact hjoin a b hadj (h a (by simp)) (h b (by simp))
      · exact ih (fun d hd => h d (by simp [hd])) c hc
  | case2 a b rest hadj ih =>
      intro c hc
      rcases List.mem_cons.1 hc with rfl | hc
      · exact h c (by simp)
      · exact ih (fun d hd => h d (List.mem_cons_of_mem _ hd)) c hc
  | case3 bs => exact h

theorem mergePass_addr_ge {bs : List Block} {lo : Nat} (h : ∀ b ∈ bs, lo ≤ b.addr) :
    ∀ b ∈ mergePass bs, lo ≤ b.addr :=
  mergePass_forall h fun _ _ _ ha _ => ha

theorem mergePass_stop_le {bs : List Block} {hi : Nat} (h : ∀ b ∈ bs, b.stop ≤ hi) :
    ∀ b ∈ mergePass bs, b.stop ≤ hi :=
  mergePass_forall h fun _ _ hadj _ hb => (Block.join_stop hadj).symm ▸ hb

theorem mergePass_sorted {bs : List Block} (h : Sorted bs) : Sorted (mergePass bs) := by
  fun_induction mergePass bs with
  | case1 a b rest hadj ih =>
      obtain ⟨-, htail⟩ := List.pairwise_cons.1 h
      obtain ⟨hb, hrest⟩ := List.pairwise_cons.1 htail
      refine List.pairwise_cons.2 ⟨fun c hc => ?_, ih hrest⟩
      rw [Block.join_stop hadj]
      exact mergePass_addr_ge hb c hc
  | case2 a b rest hadj ih =>
      obtain ⟨ha, htail⟩ := List.pairwise_cons.1 h
      exact List.pairwise_cons.2 ⟨fun c hc => mergePass_addr_ge ha c hc, ih htail⟩
  | case3 bs => exact h

theorem mergePass_inside {base : Nat} {bs : List Block} (h : ∀ b ∈ bs, b.Inside base) :
    ∀ b ∈ mergePass bs, b.Inside base := fun b hb =>
  ⟨mergePass_addr_ge (fun c hc => (h c hc).1) b hb, mergePass_stop_le (fun c hc => (h c hc).2) b hb⟩

theorem mergePass_cons (b : Block) (bs : List Block) :
    ∃ c cs, mergePass (b :: bs) = c :: cs ∧ c.addr = b.addr := by
  cases bs with
  | nil => exact ⟨b, [], rfl, rfl⟩
  | cons d bs =>
      by_cases h : b.stop = d.addr
      · exact ⟨b.join d, mergePass bs, by rw [mergePass, if_pos h], rfl⟩
      · exact ⟨b, mergePass (d :: bs), by rw [mergePass, if_neg h], rfl⟩

/-! ## The code computes these lists -/

section Coalesce

variable {base : Nat}

theorem Block.Inside.join_lt {a b : Block} (ha : a.Inside base) (hb : b.Inside base) :
    a.size + (b.size + hdrSize) < 2 ^ 31 := by
  have := ha.size_lt
  have := hb.size_lt
  simp only [myHeapSize, hdrSize] at *
  omega

theorem absorb_spec {h : Heap} {a b : Block} {rest : List Block} {q : Nat}
    (hs : Seg h a.addr (a :: b :: rest) q) (hsum : a.size + (b.size + hdrSize) < 2 ^ 31)
    (hab : HdrApart b.addr a.addr) (hrest : ∀ c ∈ rest, HdrApart c.addr a.addr) :
    Seg (absorb a.addr b.addr h) a.addr (a.join b :: rest) q ∧
      (absorb a.addr b.addr h).flHead = h.flHead ∧ (absorb a.addr b.addr h).myHeap = h.myHeap ∧
      ∀ x, OutsideHdrs [a] x → (absorb a.addr b.addr h).mem x = h.mem x := by
  obtain ⟨-, hsa, hnext⟩ := hs
  obtain ⟨-, hsb, hseg⟩ := hnext
  have ha : sizeT a.size = a.size := sizeT_of_lt (by omega)
  have hb : sizeT b.size = b.size := sizeT_of_lt (by omega)
  have heq : absorb a.addr b.addr h
      = (h.setSize a.addr (a.size + (b.size + hdrSize))).setNext a.addr (h.next b.addr) := by
    simp only [absorb, hsa, hsb, ha, hb]
    rw [Heap.next_setSize _ (Or.inr hab)]
  rw [heq]
  refine ⟨⟨rfl, ?_, ?_⟩, rfl, rfl, fun x hx => ?_⟩
  · show Heap.size _ a.addr = _
    rw [Heap.size_setNext _ (Or.inl rfl)]
    exact Heap.size_setSize_self _ (by omega)
  · show Seg _ (Heap.next _ a.addr) rest q
    rw [Heap.next_setNext_self _ (Heap.next_lt _ _)]
    exact (hseg.setSize_of_apart hrest).setNext_of_apart hrest
  · have := hx a (by simp)
    simp only [hdrSize] at this
    rw [Heap.mem_setNext_of_outside _ (by omega), Heap.mem_setSize_of_outside _ (by omega)]

section Loop

variable {h : Heap} {a b : Block} {rest : List Block} {q fuel : Nat}

theorem Block.hdr_le_stop (a : Block) : a.addr + hdrSize ≤ a.stop := by
  simp only [Block.stop]
  omega

/-- The test of the loop: does the next block begin where this one stops? -/
theorem stop_test (hbase : Addressable base) (hs : Seg h a.addr (a :: b :: rest) q)
    (hain : a.Inside base) (hbin : b.Inside base) (hab : a.stop ≤ b.addr) :
    ulong (a.addr + sizeT (h.size a.addr) + hdrSize) = b.addr ↔ a.stop = b.addr := by
  have hlt := hbin.addr_lt hbase
  rw [hs.2.1, hain.sizeT_eq, ulong_of_lt (by simp only [Block.stop, hdrSize] at *; omega)]
  simp only [Block.stop]
  omega

/-- The next block is absorbed. -/
theorem coalesceLoop_absorb (hbase : Addressable base) (hs : Seg h a.addr (a :: b :: rest) q)
    (hhead : h.flHead ≤ a.addr) (hain : a.Inside base) (hbin : b.Inside base)
    (hadj : a.stop = b.addr) :
    coalesceLoop (fuel + 1) a.addr h =
      if (absorb a.addr b.addr h).next a.addr = 0 then some (absorb a.addr b.addr h)
      else coalesceLoop fuel ((absorb a.addr b.addr h).next a.addr) (absorb a.addr b.addr h) := by
  have hnext : h.next a.addr = b.addr := hs.2.2.1
  have hbne : b.addr ≠ 0 := Nat.pos_iff_ne_zero.1 (hbin.addr_pos hbase)
  have htest := (stop_test hbase hs hain hbin (Nat.le_of_eq hadj)).2 hadj
  rw [coalesceLoop, hnext, if_neg hbne, if_neg (Nat.not_lt.2 hhead)]
  simp only [htest, if_true]
  rw [hnext]

/-- The loop goes on with the next block. -/
theorem coalesceLoop_next (hbase : Addressable base) (hs : Seg h a.addr (a :: b :: rest) q)
    (hhead : h.flHead ≤ a.addr) (hain : a.Inside base) (hbin : b.Inside base)
    (hab : a.stop ≤ b.addr) (hadj : a.stop ≠ b.addr) :
    coalesceLoop (fuel + 1) a.addr h = coalesceLoop fuel b.addr h := by
  have hnext : h.next a.addr = b.addr := hs.2.2.1
  have hbne : b.addr ≠ 0 := Nat.pos_iff_ne_zero.1 (hbin.addr_pos hbase)
  have htest : ulong (a.addr + sizeT (h.size a.addr) + hdrSize) ≠ b.addr := fun heq =>
    hadj ((stop_test hbase hs hain hbin hab).1 heq)
  rw [coalesceLoop, hnext, if_neg hbne, if_neg (Nat.not_lt.2 hhead)]
  simp only [htest, if_false, hnext, hbne]

/-- What the rest of the loop does is above the header of `a`. -/
theorem Seg.cons_of_above {h' : Heap} {bs bs' : List Block} (hseg : Seg h' q bs' 0)
    (hsize : h.size a.addr = a.size) (hnext : h.next a.addr = q)
    (hsort : ∀ d ∈ bs, a.addr + hdrSize ≤ d.addr)
    (hmem : ∀ x, OutsideHdrs bs x → h'.mem x = h.mem x) : Seg h' a.addr (a :: bs') 0 := by
  have hfr : ∀ x, a.addr ≤ x → x < a.addr + hdrSize → h'.mem x = h.mem x := by
    intro x hlo hhi
    refine hmem x fun d hd => Or.inl ?_
    have hle := hsort d hd
    omega
  refine ⟨rfl, (Heap.size_congr hfr).trans hsize, ?_⟩
  rw [Heap.next_congr hfr, hnext]
  exact hseg

end Loop

/-- The loop of `coalesce` computes `mergePass`. -/
theorem coalesceLoop_spec (hbase : Addressable base) {bs : List Block} :
    ∀ {h : Heap} {p fuel : Nat}, bs ≠ [] → Seg h p bs 0 → h.flHead ≤ p →
      (∀ b ∈ bs, b.Inside base) → Sorted bs → bs.length ≤ fuel →
      ∃ h', coalesceLoop fuel p h = some h' ∧ Seg h' p (mergePass bs) 0 ∧ h'.flHead = h.flHead ∧
        h'.myHeap = h.myHeap ∧ ∀ x, OutsideHdrs bs x → h'.mem x = h.mem x := by
  fun_induction mergePass bs with
  | case1 a b rest hadj ih =>
      intro h p fuel _ hs hhead hin hsort hfuel
      obtain ⟨fuel, rfl⟩ : ∃ k, fuel = k + 1 := ⟨fuel - 1, by simp at hfuel; omega⟩
      obtain rfl := hs.head_eq
      have hain : a.Inside base := hin a (by simp)
      have hbin : b.Inside base := hin b (by simp)
      obtain ⟨ha', htail⟩ := List.pairwise_cons.1 hsort
      obtain ⟨hb', hrest'⟩ := List.pairwise_cons.1 htail
      obtain ⟨hseg, hhd, hhp, hmem⟩ := absorb_spec hs (hain.join_lt hbin)
        (hdrApart_of_stop_le (ha' b (by simp))).symm
        (fun c hc => (hdrApart_of_stop_le (ha' c (by simp [hc]))).symm)
      rw [coalesceLoop_absorb hbase hs hhead hain hbin hadj]
      generalize absorb a.addr b.addr h = h₁ at *
      cases rest with
      | nil =>
          rw [if_pos (show h₁.next a.addr = 0 from hseg.2.2)]
          refine ⟨h₁, rfl, hseg, hhd, hhp, fun x hx => hmem x fun c hc => ?_⟩
          rw [List.mem_singleton.1 hc]
          exact hx a (by simp)
      | cons c rest =>
          have hcin : c.Inside base := hin c (by simp)
          have hnext₁ : h₁.next a.addr = c.addr := hseg.2.2.1
          rw [if_neg (by rw [hnext₁]; exact Nat.pos_iff_ne_zero.1 (hcin.addr_pos hbase))]
          have hlow : h₁.flHead ≤ h₁.next a.addr := by
            have := ha' c (by simp)
            rw [hhd, hnext₁]
            simp only [Block.stop] at this
            omega
          obtain ⟨h₂, hrun, hseg₂, hhd₂, hhp₂, hmem₂⟩ := @ih h₁ _ fuel (by simp) hseg.2.2 hlow
            (fun d hd => hin d (by simp [List.mem_cons.1 hd])) hrest' (by simp at hfuel ⊢; omega)
          refine ⟨h₂, hrun, ?_, hhd₂.trans hhd, hhp₂.trans hhp, fun x hx => ?_⟩
          · exact hseg₂.cons_of_above hseg.2.1 rfl
              (fun d hd => Nat.le_trans a.hdr_le_stop (ha' d (by simp [List.mem_cons.1 hd]))) hmem₂
          · rw [hmem₂ x fun d hd => hx d (by simp [List.mem_cons.1 hd]), hmem x fun d hd => ?_]
            rw [List.mem_singleton.1 hd]
            exact hx a (by simp)
  | case2 a b rest hadj ih =>
      intro h p fuel _ hs hhead hin hsort hfuel
      obtain ⟨fuel, rfl⟩ : ∃ k, fuel = k + 1 := ⟨fuel - 1, by simp at hfuel; omega⟩
      obtain rfl := hs.head_eq
      have hain : a.Inside base := hin a (by simp)
      have hbin : b.Inside base := hin b (by simp)
      obtain ⟨ha', htail⟩ := List.pairwise_cons.1 hsort
      have hnext : h.next a.addr = b.addr := hs.2.2.1
      have hab : a.stop ≤ b.addr := ha' b (by simp)
      rw [coalesceLoop_next hbase hs hhead hain hbin hab hadj]
      have hsb : Seg h b.addr (b :: rest) 0 := hnext ▸ hs.2.2
      obtain ⟨h₂, hrun, hseg₂, hhd₂, hhp₂, hmem₂⟩ := @ih h _ fuel (by simp) hsb
        (by simp only [Block.stop] at hab; omega) (fun d hd => hin d (List.mem_cons_of_mem _ hd))
        htail (by simp at hfuel ⊢; omega)
      refine ⟨h₂, hrun, hseg₂.cons_of_above hs.2.1 hnext
        (fun d hd => Nat.le_trans a.hdr_le_stop (ha' d hd)) hmem₂, hhd₂, hhp₂, fun x hx => ?_⟩
      exact hmem₂ x fun d hd => hx d (List.mem_cons_of_mem _ hd)
  | case3 bs hbs =>
      intro h p fuel hne hs _ _ _ hfuel
      obtain ⟨a, rfl⟩ : ∃ a, bs = [a] := by
        cases bs with
        | nil => exact absurd rfl hne
        | cons a bs =>
            cases bs with
            | nil => exact ⟨a, rfl⟩
            | cons b bs => exact absurd rfl (hbs a b bs)
      obtain ⟨fuel, rfl⟩ : ∃ k, fuel = k + 1 := ⟨fuel - 1, by simp at hfuel; omega⟩
      obtain rfl := hs.head_eq
      refine ⟨h, ?_, hs, rfl, rfl, fun x _ => rfl⟩
      rw [coalesceLoop, if_pos (show h.next a.addr = 0 from hs.2.2)]

/-- **`coalesce` on a sorted free list**: the merging pass, then the unconditional merge of the
    first two blocks. Only headers of free blocks change. -/
theorem coalesce_spec (hbase : Addressable base) {h : Heap} {bs : List Block} {fuel : Nat}
    (hne : bs ≠ []) (hl : FreeList h bs) (hin : ∀ b ∈ bs, b.Inside base) (hsort : Sorted bs)
    (hfuel : bs.length ≤ fuel) :
    ∃ h', coalesce fuel h = some h' ∧ FreeList h' (mergeHead (mergePass bs)) ∧
      h'.myHeap = h.myHeap ∧ ∀ x, OutsideHdrs bs x → h'.mem x = h.mem x := by
  obtain ⟨b, bs, rfl⟩ := List.exists_cons_of_ne_nil hne
  have hbin : b.Inside base := hin b (by simp)
  have hhead : h.flHead = b.addr := hl.head_eq
  have hbne : h.flHead ≠ 0 := by
    rw [hhead]
    exact Nat.pos_iff_ne_zero.1 (hbin.addr_pos hbase)
  obtain ⟨h₁, hrun, hseg, hhd, hhp, hmem⟩ :=
    coalesceLoop_spec hbase hne hl (Nat.le_refl _) hin hsort hfuel
  obtain ⟨c, cs, hmp, hc⟩ := mergePass_cons b bs
  have hin₁ := mergePass_inside hin
  have hsort₁ := mergePass_sorted hsort
  rw [hmp] at hseg hin₁ hsort₁ ⊢
  have hc₁ : h₁.flHead = c.addr := by rw [hhd, hhead, hc]
  rw [← hhd] at hseg
  rw [coalesce, if_neg hbne, hrun]
  simp only [Option.map_some, Option.some.injEq, exists_eq_left']
  cases cs with
  | nil =>
      rw [if_neg (by rw [hc₁]; exact fun hn => hn hseg.2.2)]
      exact ⟨hseg, hhp, hmem⟩
  | cons d cs =>
      have hdin : d.Inside base := hin₁ d (by simp)
      obtain ⟨hcd, -⟩ := List.pairwise_cons.1 hsort₁
      have hnext : h₁.next h₁.flHead = d.addr := by rw [hc₁]; exact hseg.2.2.1
      rw [hc₁] at hseg
      obtain ⟨hseg₂, hhd₂, hhp₂, hmem₂⟩ := absorb_spec hseg ((hin₁ c (by simp)).join_lt hdin)
        (hdrApart_of_stop_le (hcd d (by simp))).symm
        (fun e he => (hdrApart_of_stop_le (hcd e (by simp [he]))).symm)
      rw [if_pos (by rw [hnext]; exact Nat.pos_iff_ne_zero.1 (hdin.addr_pos hbase)), hnext, hc₁]
      refine ⟨?_, hhp₂.trans hhp, fun x hx => ?_⟩
      · show Seg _ _ _ 0
        rw [hhd₂, hc₁]
        exact hseg₂
      · rw [hmem₂ x, hmem x hx]
        intro e he
        rw [List.mem_singleton.1 he, hc]
        exact hx b (by simp)

/-- **`my_free` of a block between the free blocks `pre` and `post`.** -/
theorem myFree_spec (hbase : Addressable base) {h : Heap} {pre post : List Block} {b : Block}
    (fuel : Nat) (hl : FreeList h (pre ++ post)) (hin : ∀ c ∈ pre ++ post, c.Inside base)
    (hb : b.Inside base) (hsize : h.size b.addr = b.size) (hsort : Sorted (pre ++ b :: post))
    (hfuel : (pre ++ b :: post).length ≤ fuel) :
    ∃ h', myFree fuel (b.addr + hdrSize) h = some h' ∧
      FreeList h' (mergeHead (mergePass (pre ++ b :: post))) ∧ h'.myHeap = h.myHeap ∧
      ∀ x, OutsideHdrs (pre ++ b :: post) x → h'.mem x = h.mem x := by
  obtain ⟨hsortpre, hsortb, hcross⟩ := Sorted.append_iff.1 hsort
  obtain ⟨hbpost, hsortpost⟩ := List.pairwise_cons.1 hsortb
  have hsort' : Sorted (pre ++ post) :=
    Sorted.append_iff.2 ⟨hsortpre, hsortpost, fun c hc d hd => hcross c hc d (by simp [hd])⟩
  obtain ⟨h₁, hins, hl₁, hhp₁, hmem₁⟩ := flInsert_spec fuel hbase hl hin hb hsize hsort'
    (fun c hc => hcross c hc b (by simp)) hbpost (by simp at hfuel; omega)
  have hin₁ : ∀ c ∈ pre ++ b :: post, c.Inside base := by
    intro c hc
    rcases List.mem_append.1 hc with hc | hc
    · exact hin c (List.mem_append_left _ hc)
    · rcases List.mem_cons.1 hc with rfl | hc
      · exact hb
      · exact hin c (List.mem_append_right _ hc)
  obtain ⟨h₂, hco, hl₂, hhp₂, hmem₂⟩ :=
    coalesce_spec hbase (by simp) hl₁ hin₁ hsort hfuel
  refine ⟨h₂, ?_, hl₂, hhp₂.trans hhp₁, fun x hx => ?_⟩
  · rw [myFree, hb.ulong_ptr hbase, hins, Option.bind_some, hco]
  · rw [hmem₂ x hx, hmem₁ x (OutsideHdrs.outsideNexts fun c hc => hx c ?_)]
    rcases List.mem_cons.1 hc with rfl | hc
    · simp
    · exact List.mem_append_left _ (mem_of_mem_last hc)

end Coalesce

/-! ## More fuel does not change a result -/

theorem flInsertWalk_mono {b p r fuel fuel' : Nat} {h : Heap} (hle : fuel ≤ fuel')
    (heq : flInsertWalk b h fuel p = some r) : flInsertWalk b h fuel' p = some r := by
  induction fuel generalizing p fuel' with
  | zero => simp [flInsertWalk] at heq
  | succ fuel ih =>
      obtain ⟨fuel', rfl⟩ : ∃ k, fuel' = k + 1 := ⟨fuel' - 1, by omega⟩
      rw [flInsertWalk] at heq ⊢
      split_ifs at heq ⊢ with hc
      · exact ih (by omega) heq
      · exact heq

theorem flInsert_mono {b fuel fuel' : Nat} {h h' : Heap} (hle : fuel ≤ fuel')
    (heq : flInsert fuel b h = some h') : flInsert fuel' b h = some h' := by
  simp only [flInsert] at heq ⊢
  split_ifs at heq ⊢ with hc
  · exact heq
  · obtain ⟨p, hp, rfl⟩ := Option.map_eq_some_iff.1 heq
    rw [flInsertWalk_mono hle hp, Option.map_some]

theorem myMallocLoop_mono {size p prev fuel fuel' k k' : Nat} {h : Heap} {r : Nat × Heap}
    (hfuel : fuel ≤ fuel') (hle : k ≤ k') (heq : myMallocLoop fuel size h k p prev = some r) :
    myMallocLoop fuel' size h k' p prev = some r := by
  induction k generalizing p prev k' with
  | zero => simp [myMallocLoop] at heq
  | succ k ih =>
      obtain ⟨k', rfl⟩ : ∃ j, k' = j + 1 := ⟨k' - 1, by omega⟩
      rw [myMallocLoop] at heq ⊢
      split_ifs at heq ⊢ with hp hfit
      · exact heq
      · simp only at heq ⊢
        split_ifs at heq ⊢ with hexact
        · exact heq
        · obtain ⟨h', hins, rfl⟩ := Option.map_eq_some_iff.1 heq
          rw [flInsert_mono hfuel hins, Option.map_some]
      · exact ih (by omega) heq

theorem myMalloc_mono {size fuel fuel' : Nat} {h : Heap} {r : Nat × Heap} (hle : fuel ≤ fuel')
    (heq : myMalloc fuel size h = some r) : myMalloc fuel' size h = some r := by
  rw [myMalloc] at heq ⊢
  split_ifs at heq ⊢ with hc
  · exact heq
  · exact myMallocLoop_mono hle hle heq

theorem coalesceLoop_mono {p fuel fuel' : Nat} {h h' : Heap} (hle : fuel ≤ fuel')
    (heq : coalesceLoop fuel p h = some h') : coalesceLoop fuel' p h = some h' := by
  induction fuel generalizing p h fuel' with
  | zero => simp [coalesceLoop] at heq
  | succ fuel ih =>
      obtain ⟨fuel', rfl⟩ : ∃ k, fuel' = k + 1 := ⟨fuel' - 1, by omega⟩
      rw [coalesceLoop] at heq ⊢
      split_ifs at heq ⊢ with hn
      · exact heq
      all_goals
        simp only at heq ⊢
        split_ifs at heq ⊢
        all_goals first | exact heq | exact ih (by omega) heq

theorem myFree_mono {ptr fuel fuel' : Nat} {h h' : Heap} (hle : fuel ≤ fuel')
    (heq : myFree fuel ptr h = some h') : myFree fuel' ptr h = some h' := by
  obtain ⟨h₁, hins, hco⟩ := Option.bind_eq_some_iff.1 heq
  rw [myFree, flInsert_mono hle hins, Option.bind_some]
  rw [coalesce] at hco ⊢
  split_ifs at hco ⊢ with hc
  obtain ⟨h₂, hloop, rfl⟩ := Option.map_eq_some_iff.1 hco
  rw [coalesceLoop_mono hle hloop, Option.map_some]

end Cs350.Alloc
