import Cs350.Umalloc.Free

set_option autoImplicit false

/-! # `malloc`

The search goes once around the list. If there is no block that is large enough, `morecore` puts one
in, and the second round finds it. -/

namespace Cs350.Umalloc

section Take

variable {h h' : Heap} {free live : List Block} {p q : Block} {nunits : Nat}

/-- The headers and the variables are as before. -/
theorem Sound.of_headers (hs : Sound h free live)
    (hsame : ∀ b ∈ h.sentinel :: (free ++ live), h'.size b.addr = h.size b.addr ∧
      h'.ptr b.addr = h.ptr b.addr)
    (hbase : h'.base = h.base) (hfreep : h'.freep = h.freep) (hbrk : h'.brk = h.brk)
    (hgot : h'.got = h.got) : Sound h' free live := by
  have hsen : h'.sentinel = h.sentinel := by rw [Heap.sentinel, Heap.sentinel, hbase]
  constructor
  · rw [hsen]
    refine hs.cycle.congr fun a ha => ?_
    obtain ⟨b, hb, rfl⟩ := List.mem_map.1 ha
    exact (hsame b (by simp at hb ⊢; tauto)).2
  · rw [hsen, hfreep]
    exact hs.freep
  · rw [hsen]
    exact hs.increasing
  · intro b hb
    rw [hsen] at hb
    rw [(hsame b hb).1]
    exact hs.sizes b hb
  · rw [hgot]
    exact hs.blocks
  · rw [hgot, hbase, hbrk]
    exact hs.inside
  · rw [hbase, hbrk]
    exact hs.top

/-- Two headers of the heap are apart. -/
theorem Sound.apart_of_ne (hs : Sound h free live) {b c : Block} (hb : b ∈ free ++ live)
    (hc : c ∈ h.sentinel :: (free ++ live)) (hne : b ≠ c) : b.Apart c ∧ HdrApart b.addr c.addr := by
  have hb' := hs.bounds hb
  rcases List.mem_cons.1 hc with rfl | hc
  · refine ⟨Or.inr ?_, Or.inr hb'.1⟩
    simp only [Heap.sentinel, Block.stop, hdrSize] at *
    omega
  · have hapart : b.Apart c :=
      hs.blocks.apart.forall hb hc hne
    have hc' := hs.bounds hc
    exact ⟨hapart, hapart.imp (Nat.le_trans hb'.2.1) (Nat.le_trans hc'.2.1)⟩

theorem Sound.nodup (hs : Sound h free live) : ((h.sentinel :: free).map Block.addr).Nodup := by
  rw [List.Nodup, List.pairwise_map]
  refine hs.increasing.imp fun hlt => ?_
  simp only [Block.stop] at hlt
  omega

/-- The block before `p` on the list. -/
theorem Sound.prev_eq (hs : Sound h free live) {low high pre : List Block} {r : Block} {prevp : Nat}
    (hfree : free = low ++ p :: high) (hlow : h.sentinel :: low = pre ++ [r])
    (hmem : prevp ∈ (h.sentinel :: free).map Block.addr) (hptr : h.ptr prevp = p.addr) :
    prevp = r.addr := by
  have heq : h.sentinel :: free = pre ++ r :: p :: high := by
    rw [hfree, ← List.cons_append, hlow]
    simp
  have hrp : h.ptr r.addr = p.addr := (hs.cycle_at heq).next_eq
  refine hs.cycle.injOn hs.nodup hmem ?_ (hptr.trans hrp.symm)
  rw [heq]
  exact List.mem_map_of_mem (by simp)

/-- The node before a free block. -/
theorem exists_prev (a : Block) (low : List Block) : ∃ pre r, a :: low = pre ++ [r] := by
  rcases List.eq_nil_or_concat (a :: low) with h | ⟨pre, r, h⟩
  · exact nomatch h
  · exact ⟨pre, r, by rw [h, List.concat_eq_append]⟩

/-- A free block of the size that is needed is taken off the list. -/
theorem take_exact_spec (hs : Sound h free live) (hp : p ∈ free) {prevp : Nat}
    (hprev : prevp ∈ (h.sentinel :: free).map Block.addr) (hptr : h.ptr prevp = p.addr) :
    ∃ free', Sound { h.setPtr prevp (h.ptr p.addr) with freep := prevp } free' (p :: live) ∧
      free'.length ≤ free.length := by
  obtain ⟨low, high, rfl⟩ := List.append_of_mem hp
  obtain ⟨pre, r, hpre⟩ := exists_prev h.sentinel low
  obtain rfl := hs.prev_eq rfl hpre hprev hptr
  have heq : h.sentinel :: (low ++ p :: high) = pre ++ r :: p :: high := by
    rw [← List.cons_append, hpre]
    simp
  have heq' : h.sentinel :: (low ++ high) = pre ++ r :: high := by
    rw [← List.cons_append, hpre]
    simp
  have hw : Wrote h (h.setPtr r.addr (h.ptr p.addr)) r.addr (h.size r.addr) (h.ptr p.addr) :=
    wrote_setPtr Heap.ptr_lt
  have hr : r ∈ h.sentinel :: (low ++ p :: high) := by simp [heq]
  have hapart : ∀ c ∈ h.sentinel :: (low ++ p :: high ++ live), c ≠ r → HdrApart r.addr c.addr := by
    intro c hc hcr
    rcases List.mem_cons.1 hr with hsen | hr
    · rcases List.mem_cons.1 hc with hcs | hc
      · exact absurd (hcs.trans hsen.symm) hcr
      · rw [hsen]
        exact Or.inl (hs.bounds hc).1
    · exact (hs.apart_of_ne (List.mem_append_left _ hr) hc (Ne.symm hcr)).2
  refine ⟨low ++ high, ?_, by simp⟩
  constructor
  · show LinkedCycle _ ((h.sentinel :: (low ++ high)).map Block.addr)
    have hrot : LinkedCycle (h.setPtr r.addr (h.ptr p.addr)).ptr
        (((r :: high) ++ pre).map Block.addr) := by
      refine LinkedCycle.erase (hs.cycle_at heq) hw.ptr fun a ha => ?_
      obtain ⟨c, hc, rfl⟩ := List.mem_map.1 ha
      have hmem : c ∈ h.sentinel :: (low ++ p :: high) := by
        rw [heq]
        simp at hc ⊢
        tauto
      have hcr : c ≠ r := by
        rintro rfl
        have hnodup := hs.nodup
        rw [heq] at hnodup
        have hrot := (List.perm_append_comm.map Block.addr).nodup_iff.1 hnodup
        have hnot := (List.nodup_cons.1 hrot).1
        exact hnot (List.mem_map_of_mem (List.mem_cons_of_mem p hc))
      exact (hw.frame _ (hapart c (List.mem_append_left live hmem) hcr)).2
    rw [heq', List.map_append]
    rw [List.map_append] at hrot
    exact hrot.rotate
  · show r.addr ∈ (h.sentinel :: (low ++ high)).map Block.addr
    rw [heq']
    exact List.mem_map_of_mem (by simp)
  · show (h.sentinel :: (low ++ high)).Pairwise _
    refine hs.increasing.sublist ?_
    exact ((List.sublist_cons_self p high).append_left low).cons_cons _
  · intro c hc
    have hc : c ∈ h.sentinel :: (low ++ p :: high ++ live) := by
      have hc : c ∈ h.sentinel :: (low ++ high ++ p :: live) := hc
      simp at hc ⊢
      tauto
    refine Eq.trans ?_ (hs.sizes c hc)
    by_cases hcr : c = r
    · rw [hcr]
      exact hw.size
    · exact (hw.frame _ (hapart c hc hcr)).1
  · refine hs.blocks.perm ?_
    rw [List.perm_iff_count]
    intro d
    simp only [List.count_append, List.count_cons]
    omega
  · exact hs.inside
  · exact hs.top

/-- A free block is not another block as well. -/
theorem Sound.notMem_others {low high : List Block} (hs : Sound h (low ++ p :: high) live) :
    p ∉ h.sentinel :: (low ++ high ++ live) := by
  have hin := hs.bounds (b := p) (by simp)
  intro hmem
  rcases List.mem_cons.1 hmem with hsen | hmem
  · have haddr : p.addr = h.base := congrArg Block.addr hsen
    simp only [hdrSize] at hin
    omega
  · have hparts : Partition (p :: (low ++ high ++ live)) h.got := by
      refine hs.blocks.perm ?_
      rw [List.append_assoc, List.append_assoc]
      exact List.perm_middle
    have hpp := (List.pairwise_cons.1 hparts.apart).1 p hmem
    simp only [Block.Apart, hdrSize] at hpp hin
    omega

/-- A block of an increasing list gives way to a part of it. -/
theorem increasing_shrink {low high : List Block} {rest : Block} (haddr : rest.addr = p.addr)
    (hstop : rest.stop ≤ p.stop)
    (hinc : (low ++ p :: high).Pairwise fun a b => a.stop < b.addr) :
    (low ++ rest :: high).Pairwise fun a b => a.stop < b.addr := by
  obtain ⟨hlow, hrests, hcross⟩ := List.pairwise_append.1 hinc
  obtain ⟨hph, hhigh⟩ := List.pairwise_cons.1 hrests
  refine List.pairwise_append.2 ⟨hlow, List.pairwise_cons.2 ⟨fun d hd => ?_, hhigh⟩,
    fun c hc d hd => ?_⟩
  · exact Nat.lt_of_le_of_lt hstop (hph d hd)
  · rcases List.mem_cons.1 hd with rfl | hd
    · rw [haddr]
      exact hcross c hc p (by simp)
    · exact hcross c hc d (by simp [hd])

/-- The tail of a larger free block is cut off. -/
theorem take_cut_spec (hs : Sound h free live) (hp : p ∈ free) {prevp : Nat}
    (hprev : prevp ∈ (h.sentinel :: free).map Block.addr) (hpos : 0 < nunits)
    (hsize : nunits < p.size) :
    let b : Block := ⟨p.addr + hdrSize * (p.size - nunits), nunits⟩
    let h' := (h.setSize p.addr (p.size - nunits)).setSize b.addr nunits
    ∃ free', Sound { h' with freep := prevp } free' (b :: live) ∧
      free'.length ≤ free.length := by
  intro b h'
  obtain ⟨low, high, rfl⟩ := List.append_of_mem hp
  obtain ⟨rest, hrest⟩ : ∃ rest : Block, rest = ⟨p.addr, p.size - nunits⟩ := ⟨_, rfl⟩
  have hjoin : rest.join b = p := by
    simp only [hrest, Block.join, b]
    rw [Nat.sub_add_cancel (Nat.le_of_lt hsize)]
  have hadj : rest.stop = b.addr := by rw [hrest]; rfl
  have hstop : b.stop = p.stop := by rw [← hjoin, Block.join_stop hadj]
  have haddr : rest.addr = p.addr := by rw [hrest]
  have hin := hs.bounds (b := p) (by simp)
  have hbp : p.addr + hdrSize ≤ b.addr := by
    simp only [b, hdrSize]
    omega
  have hbstop : b.addr + hdrSize ≤ b.stop := Block.addr_lt_stop hpos
  have hlt : p.size - nunits < 2 ^ 32 ∧ nunits < 2 ^ 32 := by
    simp only [Block.stop, hdrSize] at hin
    omega
  have hw := wrote_setSize (h := h) (p := p.addr) hlt.1
  have hw' := wrote_setSize (h := h.setSize p.addr (p.size - nunits)) (p := b.addr) hlt.2
  -- the header of the new block is apart from those that there are
  have hapart : ∀ c ∈ h.sentinel :: (low ++ p :: high ++ live), HdrApart b.addr c.addr := by
    intro c hc
    by_cases hcp : p = c
    · exact hcp ▸ Or.inr hbp
    · obtain ⟨hpc, hhdr⟩ := hs.apart_of_ne (by simp) hc hcp
      simp only [Block.Apart, HdrApart, Block.stop, hdrSize] at *
      omega
  have hptr : ∀ c ∈ h.sentinel :: (low ++ p :: high), h'.ptr c.addr = h.ptr c.addr := by
    intro c hc
    have hmem : c ∈ h.sentinel :: (low ++ p :: high ++ live) := List.mem_append_left live hc
    rw [(hw'.frame _ (hapart c hmem)).2]
    by_cases hcp : p = c
    · rw [← hcp]
      exact hw.ptr
    · exact (hw.frame _ (hs.apart_of_ne (by simp) hmem hcp).2).2
  have hparts : Partition (p :: (low ++ high ++ live)) h.got := by
    refine hs.blocks.perm ?_
    rw [List.append_assoc, List.append_assoc]
    exact List.perm_middle
  have hnodes : (h.sentinel :: (low ++ rest :: high)).map Block.addr =
      (h.sentinel :: (low ++ p :: high)).map Block.addr := by
    simp [haddr]
  refine ⟨low ++ rest :: high, ?_, by simp⟩
  constructor
  · show LinkedCycle _ ((h.sentinel :: (low ++ rest :: high)).map Block.addr)
    rw [hnodes]
    refine hs.cycle.congr fun a ha => ?_
    obtain ⟨c, hc, rfl⟩ := List.mem_map.1 ha
    exact hptr c hc
  · show prevp ∈ (h.sentinel :: (low ++ rest :: high)).map Block.addr
    rw [hnodes]
    exact hprev
  · show (h.sentinel :: (low ++ rest :: high)).Pairwise _
    have hinc := hs.increasing
    rw [← List.cons_append] at hinc ⊢
    exact increasing_shrink haddr (by rw [hadj]; omega) hinc
  · intro c hc
    have hc : c = rest ∨ c = b ∨ c ∈ h.sentinel :: (low ++ high ++ live) := by
      have hc : c ∈ h.sentinel :: (low ++ rest :: high ++ b :: live) := hc
      simp at hc ⊢
      tauto
    rcases hc with rfl | rfl | hc
    · rw [haddr]
      have hp' : HdrApart b.addr p.addr := Or.inr hbp
      refine ((hw'.frame _ hp').1.trans hw.size).trans ?_
      rw [hrest]
    · exact hw'.size
    · have hmem : c ∈ h.sentinel :: (low ++ p :: high ++ live) := by
        simp at hc ⊢
        tauto
      have hcp : p ≠ c := fun hpc => hs.notMem_others (hpc ▸ hc)
      refine ((hw'.frame _ (hapart c hmem)).1.trans ?_).trans (hs.sizes c hmem)
      exact (hw.frame _ (hs.apart_of_ne (by simp) hmem hcp).2).1
  · rw [← hjoin] at hparts
    refine (hparts.cut hadj ?_ hpos).perm ?_
    · rw [hrest]
      exact Nat.sub_pos_of_lt hsize
    · rw [List.perm_iff_count]
      intro d
      simp only [List.count_append, List.count_cons]
      omega
  · exact hs.inside
  · exact hs.top

/-- **A block that is large enough is handed out**, or its tail is. -/
theorem take_spec (hs : Sound h free live) {prevp : Nat}
    (hprev : prevp ∈ (h.sentinel :: free).map Block.addr) (hpos : 0 < nunits)
    (hsize : nunits ≤ h.size (h.ptr prevp)) :
    ∃ b h' free', take h prevp (h.ptr prevp) nunits = (b.addr + hdrSize, h') ∧ b.size = nunits ∧
      Sound h' free' (b :: live) ∧ h'.base = h.base := by
  obtain ⟨p, hp, hptr⟩ := List.mem_map.1 (hs.cycle.next_mem hprev)
  have hpsize : h.size p.addr = p.size := by
    refine hs.sizes p ?_
    rw [← List.cons_append]
    exact List.mem_append_left live hp
  rw [← hptr, hpsize] at hsize
  have hpfree : p ∈ free := by
    refine (List.mem_cons.1 hp).resolve_left ?_
    rintro rfl
    simp only [Heap.sentinel] at hsize
    omega
  have hin := hs.bounds (b := p) (by simp [hpfree])
  have huint : ∀ a, p.addr ≤ a → a + hdrSize ≤ p.stop → uint (a + hdrSize) = a + hdrSize :=
    fun a _ ha => Nat.mod_eq_of_lt (by omega)
  rw [take, ← hptr, hpsize]
  split_ifs with heq
  · obtain ⟨free', hs', -⟩ := take_exact_spec hs hpfree hprev hptr.symm
    exact ⟨p, _, free', by rw [huint _ (Nat.le_refl _) hin.2.1], heq, hs', rfl⟩
  · have hlt : nunits < p.size := by omega
    obtain ⟨free', hs', -⟩ := take_cut_spec hs hpfree hprev hpos hlt
    have hrest : (h.setSize p.addr (p.size - nunits)).size p.addr = p.size - nunits := by
      refine (wrote_setSize ?_).size
      simp only [Block.stop, hdrSize] at hin
      omega
    have hupper : (h.setSize p.addr (p.size - nunits)).upper p.addr =
        p.addr + hdrSize * (p.size - nunits) := by
      rw [Heap.upper, hrest]
      refine Nat.mod_eq_of_lt ?_
      simp only [Block.stop, hdrSize] at hin ⊢
      omega
    refine ⟨⟨p.addr + hdrSize * (p.size - nunits), nunits⟩, _, free', ?_, rfl, hs', rfl⟩
    simp only [hupper]
    rw [huint _ (Nat.le_add_right _ _)]
    simp only [Block.stop, hdrSize] at hin ⊢
    omega

end Take

/-! ## The search -/

section Loop

variable {h : Heap} {fuel nunits : Nat} {sbrk : Nat → Nat → Option Nat} {prevp : Nat} {l : List Nat}

/-- The search finds a block that is large enough, if there is one in the rest of the list. -/
theorem mallocLoop_found (hchain : List.IsChain (fun a b => h.ptr a = b) (prevp :: (l ++ [h.freep])))
    (hfreep : h.freep ∉ l) (hex : ∃ a ∈ l ++ [h.freep], nunits ≤ h.size a) {k : Nat}
    (hk : l.length < k) :
    ∃ q ∈ prevp :: l, nunits ≤ h.size (h.ptr q) ∧
      mallocLoop fuel nunits sbrk k h prevp (h.ptr prevp) = some (take h q (h.ptr q) nunits) := by
  induction l generalizing prevp k with
  | nil =>
      obtain ⟨k, rfl⟩ : ∃ j, k = j + 1 := ⟨k - 1, by omega⟩
      have hptr : h.ptr prevp = h.freep := hchain.rel_head? rfl
      have hsize : nunits ≤ h.size (h.ptr prevp) := by
        rw [hptr]
        simpa using hex
      exact ⟨prevp, by simp, hsize, by rw [mallocLoop, if_pos hsize]⟩
  | cons c l ih =>
      obtain ⟨k, rfl⟩ : ∃ j, k = j + 1 := ⟨k - 1, by omega⟩
      have hptr : h.ptr prevp = c := hchain.rel_head? rfl
      by_cases hsize : nunits ≤ h.size (h.ptr prevp)
      · exact ⟨prevp, by simp, hsize, by rw [mallocLoop, if_pos hsize]⟩
      · have hne : h.ptr prevp ≠ h.freep := by
          rintro heq
          exact hfreep (by simp [← heq, hptr])
        have hex' : ∃ a ∈ l ++ [h.freep], nunits ≤ h.size a := by
          obtain ⟨a, ha, hfit⟩ := hex
          rcases List.mem_cons.1 ha with rfl | ha
          · exact absurd (hptr ▸ hfit) hsize
          · exact ⟨a, ha, hfit⟩
        obtain ⟨q, hq, hfit, hrun⟩ := ih hchain.tail (fun hmem => hfreep (by simp [hmem])) hex'
          (by simpa using hk)
        refine ⟨q, by simp [hq], hfit, ?_⟩
        rw [mallocLoop, if_neg hsize, if_neg hne, hptr]
        exact hrun

/-- The search goes all around if there is none. -/
theorem mallocLoop_around (hchain : List.IsChain (fun a b => h.ptr a = b) (prevp :: (l ++ [h.freep])))
    (hfreep : h.freep ∉ l) (hsmall : ∀ a ∈ l ++ [h.freep], h.size a < nunits) (k : Nat) :
    mallocLoop fuel nunits sbrk (k + 1 + l.length) h prevp (h.ptr prevp) =
      (morecore fuel nunits sbrk h).bind fun (p, h) =>
        if p = 0 then some (0, h) else mallocLoop fuel nunits sbrk k h p (h.ptr p) := by
  induction l generalizing prevp with
  | nil =>
      have hptr : h.ptr prevp = h.freep := hchain.rel_head? rfl
      have hsize : ¬ h.size (h.ptr prevp) ≥ nunits := by
        rw [hptr]
        exact Nat.not_le.2 (hsmall _ (by simp))
      rw [List.length_nil, Nat.add_zero, mallocLoop, if_neg hsize, if_pos hptr]
  | cons c l ih =>
      have hptr : h.ptr prevp = c := hchain.rel_head? rfl
      have hsize : ¬ h.size (h.ptr prevp) ≥ nunits := by
        rw [hptr]
        exact Nat.not_le.2 (hsmall c (by simp))
      have hne : h.ptr prevp ≠ h.freep := by
        rintro heq
        exact hfreep (by simp [← heq, hptr])
      rw [List.length_cons, ← Nat.add_assoc, mallocLoop, if_neg hsize, if_neg hne, hptr]
      exact ih hchain.tail (fun hmem => hfreep (by simp [hmem])) fun a ha => hsmall a (by simp [ha])

end Loop

section Malloc

variable {h : Heap} {free live : List Block} {fuel nunits : Nat} {sbrk : Nat → Nat → Option Nat}

/-- The block that `sbrk` has given, before it is put into the list. -/
theorem Sound.grown (hs : Sound h free live) {p nu : Nat} (hp : h.brk ≤ p) (hnu : 0 < nu)
    (htop : p + nu * hdrSize < 2 ^ 32) :
    Sound (Heap.setSize { h with brk := p + nu * hdrSize, got := ⟨p, nu⟩ :: h.got } p nu) free
      (⟨p, nu⟩ :: live) := by
  have hlt : nu < 2 ^ 32 := by
    simp only [hdrSize] at htop
    omega
  have hw := wrote_setSize (h := { h with brk := p + nu * hdrSize, got := ⟨p, nu⟩ :: h.got })
    (p := p) hlt
  have hbelow : ∀ c ∈ h.sentinel :: (free ++ live), c.stop ≤ p ∧ c.addr + hdrSize ≤ p := by
    intro c hc
    rcases List.mem_cons.1 hc with rfl | hc
    · have htop := hs.top
      simp only [Heap.sentinel, Block.stop, hdrSize] at *
      omega
    · have hin := hs.blocks.inside hs.inside hc
      have hc' := hs.bounds hc
      omega
  have hsame : ∀ c ∈ h.sentinel :: (free ++ live), HdrApart p c.addr := fun c hc =>
    Or.inr (hbelow c hc).2
  constructor
  · refine hs.cycle.congr fun a ha => ?_
    obtain ⟨c, hc, rfl⟩ := List.mem_map.1 ha
    exact (hw.frame _ (hsame c (List.mem_append_left live hc))).2
  · exact hs.freep
  · exact hs.increasing
  · intro c hc
    have hc : c = ⟨p, nu⟩ ∨ c ∈ h.sentinel :: (free ++ live) := by
      have hc : c ∈ h.sentinel :: (free ++ ⟨p, nu⟩ :: live) := hc
      simp at hc ⊢
      tauto
    rcases hc with rfl | hc
    · exact hw.size
    · exact (hw.frame _ (hsame c hc)).1.trans (hs.sizes c hc)
  · refine (hs.blocks.cons hnu fun c hc => ?_).perm List.perm_middle.symm
    exact Or.inr (hbelow c (List.mem_cons_of_mem _ hc)).1
  · intro c hc
    rcases List.mem_cons.1 hc with rfl | hc
    · have htop := hs.top
      refine ⟨Nat.le_trans htop.1 hp, ?_⟩
      show p + hdrSize * nu ≤ p + nu * hdrSize
      rw [Nat.mul_comm]
    · have hin := hs.inside c hc
      refine ⟨hin.1, Nat.le_trans hin.2 (Nat.le_trans hp ?_)⟩
      exact Nat.le_add_right _ _
  · exact ⟨Nat.le_trans hs.top.1 (Nat.le_trans hp (Nat.le_add_right _ _)), htop⟩

/-- **`morecore` fails, or puts in a block that is large enough.** -/
theorem morecore_spec (hs : Sound h free live) (hfresh : Fresh sbrk) (hpos : 0 < nunits)
    (hmax : nunits * hdrSize < 2 ^ 31) (hfuel : free.length < fuel) :
    morecore fuel nunits sbrk h = some (0, h) ∨
      ∃ h' free', morecore fuel nunits sbrk h = some (h'.freep, h') ∧ Sound h' free' live ∧
        (∃ c ∈ free', nunits ≤ c.size) ∧ free'.length ≤ free.length + 1 ∧ h'.base = h.base := by
  obtain ⟨nu, hnu⟩ : ∃ nu, nu = if nunits < 4096 then 4096 else nunits := ⟨_, rfl⟩
  have hle : nunits ≤ nu ∧ 0 < nu ∧ nu * hdrSize < 2 ^ 31 := by
    simp only [hdrSize] at *
    split_ifs at hnu <;> omega
  have huint : uint (nu * hdrSize) = nu * hdrSize := Nat.mod_eq_of_lt (by omega)
  rw [morecore]
  simp only [← hnu, huint]
  cases hgot : sbrk h.brk (nu * hdrSize) with
  | none => exact Or.inl rfl
  | some p =>
      obtain ⟨hp, htop⟩ := hfresh _ _ _ hgot
      have hgrown := hs.grown hp hle.2.1 htop
      obtain ⟨h', free', hrun, hs', hroom, hlen, hbase, -⟩ := free_spec hgrown hfuel
      have hptr : uint (p + hdrSize) = p + hdrSize := by
        refine Nat.mod_eq_of_lt ?_
        simp only [hdrSize] at *
        omega
      refine Or.inr ⟨h', free', ?_, hs', ?_, hlen, hbase⟩
      · simp only [hptr]
        rw [hrun, Option.map_some]
      · obtain ⟨c, hc, hsize⟩ := hroom
        exact ⟨c, hc, Nat.le_trans hle.1 hsize⟩

theorem Sound.freep_ne (hs : Sound h free live) (hnull : 0 < h.base) : h.freep ≠ 0 := by
  obtain ⟨c, hc, hfreep⟩ := List.mem_map.1 hs.freep
  rw [← hfreep]
  rcases List.mem_cons.1 hc with rfl | hc
  · exact Nat.pos_iff_ne_zero.1 hnull
  · have hin := (hs.bounds (b := c) (by simp [hc])).1
    simp only [hdrSize] at hin
    omega

/-- The list from `freep` on, as the search goes through it. -/
theorem Sound.search (hs : Sound h free live) :
    ∃ l, List.IsChain (fun a b => h.ptr a = b) (h.freep :: (l ++ [h.freep])) ∧ h.freep ∉ l ∧
      l.length = free.length ∧
      ∀ a, a ∈ h.freep :: l ↔ a ∈ (h.sentinel :: free).map Block.addr := by
  obtain ⟨l₁, l₂, hsplit⟩ := List.append_of_mem hs.freep
  have hperm : ((h.sentinel :: free).map Block.addr).Perm (h.freep :: (l₂ ++ l₁)) := by
    rw [hsplit]
    exact List.perm_append_comm
  have hcycle : LinkedCycle h.ptr (h.freep :: (l₂ ++ l₁)) := by
    have hcycle := hs.cycle
    rw [hsplit] at hcycle
    exact hcycle.rotate
  refine ⟨l₂ ++ l₁, hcycle, (List.nodup_cons.1 (hperm.nodup_iff.1 hs.nodup)).1, ?_, fun a =>
    hperm.mem_iff.symm⟩
  have hlen := hperm.length_eq
  simp at hlen ⊢
  omega

/-- The search, in a list with a block that is large enough. -/
theorem mallocLoop_take (fuel : Nat) (sbrk : Nat → Nat → Option Nat) (hs : Sound h free live)
    (hpos : 0 < nunits) (hroom : ∃ c ∈ free, nunits ≤ c.size) {k : Nat} (hk : free.length < k) :
    ∃ b h' free', mallocLoop fuel nunits sbrk k h h.freep (h.ptr h.freep) =
        some (b.addr + hdrSize, h') ∧ b.size = nunits ∧ Sound h' free' (b :: live) ∧
      h'.base = h.base := by
  obtain ⟨l, hchain, hfreep, hlen, hmem⟩ := hs.search
  have hex : ∃ a ∈ l ++ [h.freep], nunits ≤ h.size a := by
    obtain ⟨c, hc, hsize⟩ := hroom
    have hin := (hmem c.addr).2 (List.mem_map_of_mem (by simp [hc]))
    refine ⟨c.addr, ?_, ?_⟩
    · simp at hin ⊢
      tauto
    · rw [hs.sizes c (by simp [hc])]
      exact hsize
  obtain ⟨q, hq, hsize, hrun⟩ := mallocLoop_found hchain hfreep hex (hlen ▸ hk)
  obtain ⟨b, h', free', htake, hbsize, hs', hbase⟩ := take_spec hs ((hmem q).1 hq) hpos hsize
  exact ⟨b, h', free', by rw [hrun, htake], hbsize, hs', hbase⟩

/-- **The search of `malloc` ends**, with a block of the units asked for or with the null pointer. -/
theorem mallocLoop_spec (hs : Sound h free live) (hnull : 0 < h.base) (hfresh : Fresh sbrk)
    (hpos : 0 < nunits) (hmax : nunits * hdrSize < 2 ^ 31) {k : Nat} (hfuel : free.length < fuel)
    (hk : 2 * free.length + 3 < k) :
    (∃ b h' free', mallocLoop fuel nunits sbrk k h h.freep (h.ptr h.freep) =
        some (b.addr + hdrSize, h') ∧ b.size = nunits ∧ Sound h' free' (b :: live) ∧
      h'.base = h.base) ∨
    mallocLoop fuel nunits sbrk k h h.freep (h.ptr h.freep) = some (0, h) := by
  by_cases hroom : ∃ c ∈ free, nunits ≤ c.size
  · exact Or.inl (mallocLoop_take fuel sbrk hs hpos hroom (by omega))
  · obtain ⟨l, hchain, hfreep, hlen, hmem⟩ := hs.search
    have hsmall : ∀ a ∈ l ++ [h.freep], h.size a < nunits := by
      intro a ha
      have hin := (hmem a).1 (by simp at ha ⊢; tauto)
      obtain ⟨c, hc, rfl⟩ := List.mem_map.1 hin
      have hc' : c ∈ h.sentinel :: (free ++ live) := List.mem_append_left live hc
      rw [hs.sizes c hc']
      rcases List.mem_cons.1 hc with rfl | hc
      · exact hpos
      · exact Nat.lt_of_not_le fun hle => hroom ⟨c, hc, hle⟩
    obtain ⟨j, rfl⟩ : ∃ j, k = j + 1 + l.length := ⟨k - 1 - l.length, by omega⟩
    rw [mallocLoop_around hchain hfreep hsmall]
    rcases morecore_spec hs hfresh hpos hmax hfuel with hfail | ⟨h', free', hrun, hs', hroom', hlen',
      hbase⟩
    · right
      rw [hfail, Option.bind_some]
      exact if_pos rfl
    · left
      have hne : h'.freep ≠ 0 := hs'.freep_ne (hbase ▸ hnull)
      obtain ⟨b, h'', free'', hloop, hsize, hs'', hbase'⟩ :=
        mallocLoop_take fuel sbrk hs' hpos hroom' (k := j) (by omega)
      refine ⟨b, h'', free'', ?_, hsize, hs'', hbase'.trans hbase⟩
      rw [hrun, Option.bind_some]
      simp only [if_neg hne]
      exact hloop

end Malloc

end Cs350.Umalloc
