import Cs350.Umalloc.Blocks

set_option autoImplicit false

/-! # `free`

The block that is given back is put in behind `p`, the last free block (or `base`) below it, between
the blocks `pre` and `post` of the list: first it is joined to the block above it or linked there,
then to the block below it. -/

namespace Cs350.Umalloc

/-- The block `b` lies between the blocks `p` and `post` of the free list. -/
structure Between (h : Heap) (pre : List Block) (p b : Block) (post live : List Block) : Prop where
  ordered : (pre ++ p :: b :: post).Pairwise fun c d => c.addr + hdrSize ≤ d.addr
  apart : ∀ c ∈ pre ++ p :: b :: post, ∀ d ∈ live, HdrApart c.addr d.addr
  sizes : ∀ c ∈ pre ++ p :: b :: (post ++ live), h.size c.addr = c.size
  stop : ∀ c ∈ pre ++ p :: b :: post, c.stop < 2 ^ 32

/-- One header has been written. -/
structure Wrote (h h' : Heap) (p size ptr : Nat) : Prop where
  size : h'.size p = size
  ptr : h'.ptr p = ptr
  frame : ∀ q, HdrApart p q → h'.size q = h.size q ∧ h'.ptr q = h.ptr q
  base : h'.base = h.base
  brk : h'.brk = h.brk
  got : h'.got = h.got

section Link

variable {h : Heap} {pre post live : List Block} {p b q : Block}

theorem Heap.upper_eq (hsize : h.size b.addr = b.size) (hstop : b.stop < 2 ^ 32) :
    h.upper b.addr = b.stop := by
  rw [Heap.upper, hsize]
  exact Nat.mod_eq_of_lt hstop

theorem Between.below (hb : Between h pre p b post live) {c : Block} (hc : c ∈ pre ++ [p]) :
    c.addr + hdrSize ≤ b.addr := by
  have hord := hb.ordered
  rw [show pre ++ p :: b :: post = (pre ++ [p]) ++ b :: post by simp] at hord
  exact (List.pairwise_append.1 hord).2.2 c hc b (by simp)

theorem Between.above (hb : Between h pre p b post live) {c : Block} (hc : c ∈ post) :
    b.addr + hdrSize ≤ c.addr := by
  have hord := (List.pairwise_append.1 hb.ordered).2.1.tail
  exact List.rel_of_pairwise_cons hord hc

theorem Between.pre_lt (hb : Between h pre p b post live) {c : Block} (hc : c ∈ pre) :
    c.addr + hdrSize ≤ p.addr :=
  (List.pairwise_append.1 hb.ordered).2.2 c hc p (by simp)

/-- The header of another block is apart from that of `b`. -/
theorem Between.apart_of_ne (hb : Between h pre p b post live) {c : Block}
    (hc : c ∈ pre ++ p :: (post ++ live)) : HdrApart b.addr c.addr := by
  rcases List.mem_append.1 hc with hc | hc
  · exact Or.inr (hb.below (by simp [hc]))
  · rcases List.mem_cons.1 hc with rfl | hc
    · exact Or.inr (hb.below (by simp))
    · rcases List.mem_append.1 hc with hc | hc
      · exact Or.inl (hb.above hc)
      · exact hb.apart b (by simp) c hc

/-- What follows `p` on the list. -/
theorem ptr_eq (hcycle : LinkedCycle h.ptr ((p :: (post ++ pre)).map Block.addr)) :
    (∃ c post', post = c :: post' ∧ h.ptr p.addr = c.addr) ∨
      (post = [] ∧ ∃ c pre', pre ++ [p] = c :: pre' ∧ h.ptr p.addr = c.addr) := by
  cases post with
  | cons c post => exact Or.inl ⟨c, post, rfl, hcycle.next_eq⟩
  | nil =>
      right
      cases pre with
      | nil => exact ⟨rfl, p, [], rfl, hcycle.next_eq_self⟩
      | cons c pre => exact ⟨rfl, c, pre ++ [p], rfl, hcycle.next_eq⟩

theorem wrote_setPtr {p v : Nat} (hv : v < 2 ^ 32) : Wrote h (h.setPtr p v) p (h.size p) v where
  size := Heap.size_setPtr (Or.inl rfl)
  ptr := Heap.ptr_setPtr_self hv
  frame _ hq := ⟨Heap.size_setPtr (Or.inr hq), Heap.ptr_setPtr_of_apart hq⟩
  base := rfl
  brk := rfl
  got := rfl

theorem wrote_setSize {p s : Nat} (hs : s < 2 ^ 32) : Wrote h (h.setSize p s) p s (h.ptr p) where
  size := Heap.size_setSize_self hs
  ptr := Heap.ptr_setSize (Or.inl rfl)
  frame _ hq := ⟨Heap.size_setSize_of_apart hq, Heap.ptr_setSize (Or.inr hq)⟩
  base := rfl
  brk := rfl
  got := rfl

theorem Wrote.trans {h₁ h₂ : Heap} {p s t s' t' : Nat} (hw : Wrote h h₁ p s t)
    (hw' : Wrote h₁ h₂ p s' t') : Wrote h h₂ p s' t' where
  size := hw'.size
  ptr := hw'.ptr
  frame q hq := ⟨(hw'.frame q hq).1.trans (hw.frame q hq).1,
    (hw'.frame q hq).2.trans (hw.frame q hq).2⟩
  base := hw'.base.trans hw.base
  brk := hw'.brk.trans hw.brk
  got := hw'.got.trans hw.got

theorem wrote_join {p s v : Nat} (hs : s < 2 ^ 32) (hv : v < 2 ^ 32) :
    Wrote h ((h.setSize p s).setPtr p v) p s v := by
  have hsize : (h.setSize p s).size p = s := (wrote_setSize hs).size
  have hptr : Wrote (h.setSize p s) ((h.setSize p s).setPtr p v) p ((h.setSize p s).size p) v :=
    wrote_setPtr hv
  rw [hsize] at hptr
  exact (wrote_setSize hs).trans hptr

/-- The header of `b` is written; the link of `p` to `b` has yet to be set. -/
theorem Wrote.hang {h' : Heap} {p b s t : Nat} {l : List Nat} (hw : Wrote h h' b s t)
    (hcycle : LinkedCycle (Function.update h.ptr p t) (p :: l)) (hbp : b ≠ p)
    (hl : ∀ c ∈ l, HdrApart b c ∧ c ≠ p) :
    LinkedCycle (Function.update h'.ptr p b) (p :: b :: l) := by
  refine hcycle.insert ?_ ?_ fun c hc => ?_
  · rw [Function.update_of_ne hbp, Function.update_self, hw.ptr]
  · rw [Function.update_self]
  · obtain ⟨hapart, hne⟩ := hl c hc
    rw [Function.update_of_ne hne, Function.update_of_ne hne, (hw.frame c hapart).2]

/-- The header of the block that is given back is written. -/
theorem Between.wrote {h' : Heap} {b' : Block} {post' : List Block} {t : Nat}
    (hb : Between h pre p b post live) (hw : Wrote h h' b.addr b'.size t)
    (haddr : b'.addr = b.addr) (hstop : b'.stop < 2 ^ 32) (hpost : post'.Sublist post) :
    Between h' pre p b' post' live := by
  have hmem : ∀ {c}, c ∈ pre ++ p :: b' :: post' → c = b' ∨ c ∈ pre ++ p :: post := by
    intro c hc
    have hsub := hpost.subset (a := c)
    simp only [List.mem_append, List.mem_cons] at hc ⊢
    tauto
  have hord : (pre ++ p :: b :: post').Pairwise fun c d => c.addr + hdrSize ≤ d.addr :=
    hb.ordered.sublist (((hpost.cons_cons b).cons_cons p).append_left pre)
  have hlive : ∀ c ∈ pre ++ p :: post, c ∈ pre ++ p :: b :: post := by
    intro c hc
    simp only [List.mem_append, List.mem_cons] at hc ⊢
    tauto
  refine ⟨?_, fun c hc => ?_, fun c hc => ?_, fun c hc => ?_⟩
  · rw [List.pairwise_append, List.pairwise_cons, List.pairwise_cons] at hord ⊢
    obtain ⟨hpre, ⟨hp, hbpost, hpost⟩, hcross⟩ := hord
    refine ⟨hpre, ⟨fun d hd => ?_, fun d hd => ?_, hpost⟩, fun c hc d hd => ?_⟩
    · rcases List.mem_cons.1 hd with rfl | hd
      · rw [haddr]
        exact hp b (by simp)
      · exact hp d (by simp [hd])
    · rw [haddr]
      exact hbpost d hd
    · rcases List.mem_cons.1 hd with rfl | hd
      · exact hcross c hc d (by simp)
      · rcases List.mem_cons.1 hd with rfl | hd
        · rw [haddr]
          exact hcross c hc b (by simp)
        · exact hcross c hc d (by simp [hd])
  · rcases hmem hc with rfl | hc
    · rw [haddr]
      exact hb.apart b (by simp)
    · exact hb.apart c (hlive c hc)
  · by_cases hcb : c = b'
    · rw [hcb, haddr, hw.size]
    · have hc' : c ∈ pre ++ p :: (post ++ live) := by
        have hsub := hpost.subset (a := c)
        simp only [List.mem_append, List.mem_cons] at hc ⊢
        tauto
      rw [(hw.frame _ (hb.apart_of_ne hc')).1]
      refine hb.sizes c ?_
      simp only [List.mem_append, List.mem_cons] at hc' ⊢
      tauto
  · rcases hmem hc with rfl | hc
    · exact hstop
    · exact hb.stop c (hlive c hc)

/-- What the upper half of `free` makes of the block and those above it. -/
inductive JoinsUp : Block → List Block → Block → List Block → Prop
  | none {b : Block} {post : List Block} (h : ∀ c ∈ post.head?, b.stop ≠ c.addr) :
      JoinsUp b post b post
  | join {b c : Block} {post : List Block} (h : b.stop = c.addr) :
      JoinsUp b (c :: post) (b.join c) post

theorem JoinsUp.addr_eq {b b' : Block} {post post' : List Block} (h : JoinsUp b post b' post') :
    b'.addr = b.addr := by
  cases h <;> rfl

theorem JoinsUp.le_size {b b' : Block} {post post' : List Block} (h : JoinsUp b post b' post') :
    b.size ≤ b'.size := by
  cases h with
  | none => exact Nat.le_refl _
  | join => exact Nat.le_add_right _ _

/-- The block is joined to the one above it or linked there; `p` has yet to be set. -/
theorem linkUpper_spec (hb : Between h pre p b post live) (hpos : 0 < b.size)
    (hcycle : LinkedCycle h.ptr ((p :: (post ++ pre)).map Block.addr)) :
    ∃ b' post' t, JoinsUp b post b' post' ∧
      Wrote h (h.linkUpper b.addr p.addr) b.addr b'.size t ∧
      Between (h.linkUpper b.addr p.addr) pre p b' post' live ∧
      LinkedCycle (Function.update (h.linkUpper b.addr p.addr).ptr p.addr b'.addr)
        ((p :: b' :: (post' ++ pre)).map Block.addr) := by
  have hupper : h.upper b.addr = b.stop :=
    Heap.upper_eq (hb.sizes b (by simp)) (hb.stop b (by simp))
  have hbp : p.addr + hdrSize ≤ b.addr := hb.below (by simp)
  have hstop := Block.addr_lt_stop hpos
  simp only [hdrSize] at hbp hstop
  -- the blocks of the list other than `p` and `b`
  have hothers : ∀ c ∈ post ++ pre, HdrApart b.addr c.addr ∧ c.addr ≠ p.addr := by
    intro c hc
    rcases List.mem_append.1 hc with hc | hc
    · have habove := hb.above hc
      exact ⟨hb.apart_of_ne (by simp [hc]), by omega⟩
    · have hlt := hb.pre_lt hc
      simp only [hdrSize] at hlt
      exact ⟨hb.apart_of_ne (by simp [hc]), by omega⟩
  rw [Heap.linkUpper, hupper]
  split_ifs with hjoin
  · rcases ptr_eq hcycle with ⟨c, post', rfl, hc⟩ | ⟨rfl, c, pre', hhead, hpc⟩
    · have hadj : b.stop = c.addr := hjoin.trans hc
      have hcstop : (b.join c).stop < 2 ^ 32 := by
        rw [Block.join_stop hadj]
        exact hb.stop c (by simp)
      have hsize : uint (h.size b.addr + h.size (h.ptr p.addr)) = (b.join c).size := by
        rw [hc, hb.sizes b (by simp), hb.sizes c (by simp)]
        refine Nat.mod_eq_of_lt ?_
        simp only [Block.stop, Block.join, hdrSize] at hcstop
        omega
      have hw : Wrote h ((h.setSize b.addr (b.join c).size).setPtr b.addr (h.ptr c.addr)) b.addr
          (b.join c).size (h.ptr c.addr) := by
        refine wrote_join ?_ Heap.ptr_lt
        simp only [Block.stop, hdrSize] at hcstop
        omega
      have hptr : (h.setSize b.addr (b.join c).size).ptr ((h.setSize b.addr (b.join c).size).ptr
          p.addr) = h.ptr c.addr := by
        have hp := hb.apart_of_ne (c := p) (by simp)
        rw [Heap.ptr_setSize (Or.inr hp), hc, Heap.ptr_setSize (Or.inr (hothers c (by simp)).1)]
      rw [hsize]
      simp only [hptr]
      refine ⟨b.join c, post', _, JoinsUp.join hadj, hw,
        hb.wrote hw rfl hcstop (List.sublist_cons_self c post'), ?_⟩
      have hcut : LinkedCycle (Function.update h.ptr p.addr (h.ptr c.addr))
          (p.addr :: (post' ++ pre).map Block.addr) := by
        refine hcycle.unlink fun hmem => ?_
        obtain ⟨d, hd, hdp⟩ := List.mem_map.1 hmem
        exact (hothers d (List.mem_cons_of_mem _ hd)).2 hdp
      refine hw.hang hcut (by omega) fun a ha => ?_
      obtain ⟨d, hd, rfl⟩ := List.mem_map.1 ha
      exact hothers d (List.mem_cons_of_mem _ hd)
    · -- the list goes on below `b`, but the block ends above it
      have hbelow := hb.below (c := c) (by rw [hhead]; simp)
      omega
  · have hw : Wrote h (h.setPtr b.addr (h.ptr p.addr)) b.addr b.size (h.ptr p.addr) := by
      have hset := wrote_setPtr (h := h) (p := b.addr) (v := h.ptr p.addr) Heap.ptr_lt
      rwa [hb.sizes b (by simp)] at hset
    refine ⟨b, post, _, JoinsUp.none fun c hc => ?_, hw,
      hb.wrote hw rfl (hb.stop b (by simp)) (List.Sublist.refl post), ?_⟩
    · cases post with
      | nil => cases hc
      | cons d post =>
          obtain rfl := Option.some.inj hc
          have hptr : h.ptr p.addr = d.addr := hcycle.next_eq
          rwa [hptr] at hjoin
    · have hsame : LinkedCycle (Function.update h.ptr p.addr (h.ptr p.addr))
          (p.addr :: (post ++ pre).map Block.addr) := by
        rwa [Function.update_eq_self]
      refine hw.hang hsame (by omega) fun a ha => ?_
      obtain ⟨d, hd, rfl⟩ := List.mem_map.1 ha
      exact hothers d hd

/-- The header of `p` is apart from those of the other blocks. -/
theorem Between.prev_apart (hb : Between h pre p b post live) {c : Block}
    (hc : c ∈ b :: (post ++ pre) ++ live) : HdrApart p.addr c.addr := by
  rcases List.mem_append.1 hc with hc | hc
  · rcases List.mem_cons.1 hc with rfl | hc
    · exact Or.inl (hb.below (by simp))
    · rcases List.mem_append.1 hc with hc | hc
      · refine Or.inl (Nat.le_trans (hb.below (c := p) (by simp)) ?_)
        exact Nat.le_trans (Nat.le_add_right _ _) (hb.above hc)
      · exact Or.inr (hb.pre_lt hc)
  · exact hb.apart p (by simp) c hc

/-- The block is joined to the one below it or linked there. -/
theorem linkLower_spec (hb : Between h pre p b post live)
    (hcycle : LinkedCycle (Function.update h.ptr p.addr b.addr)
      ((p :: b :: (post ++ pre)).map Block.addr)) :
    ∃ p' rest t, JoinsUp p (b :: post) p' rest ∧
      Wrote h (h.linkLower b.addr p.addr) p.addr p'.size t ∧
      LinkedCycle (h.linkLower b.addr p.addr).ptr ((p' :: (rest ++ pre)).map Block.addr) := by
  have hupper : h.upper p.addr = p.stop :=
    Heap.upper_eq (hb.sizes p (by simp)) (hb.stop p (by simp))
  have hapart : ∀ a ∈ (b :: (post ++ pre)).map Block.addr, HdrApart p.addr a := by
    intro a ha
    obtain ⟨c, hc, rfl⟩ := List.mem_map.1 ha
    exact hb.prev_apart (List.mem_append_left _ hc)
  have hne : ∀ a ∈ (b :: (post ++ pre)).map Block.addr, a ≠ p.addr := by
    intro a ha hap
    have hself := hapart a ha
    simp only [HdrApart, hdrSize] at hself
    omega
  rw [Heap.linkLower, hupper]
  split_ifs with hjoin
  · have hbstop : (p.join b).stop < 2 ^ 32 := by
      rw [Block.join_stop hjoin]
      exact hb.stop b (by simp)
    have hsize : uint (h.size p.addr + h.size b.addr) = (p.join b).size := by
      rw [hb.sizes p (by simp), hb.sizes b (by simp)]
      refine Nat.mod_eq_of_lt ?_
      simp only [Block.stop, Block.join, hdrSize] at hbstop
      omega
    have hptr : (h.setSize p.addr (p.join b).size).ptr b.addr = h.ptr b.addr :=
      Heap.ptr_setSize (Or.inr (hapart b.addr (by simp)))
    have hw : Wrote h ((h.setSize p.addr (p.join b).size).setPtr p.addr (h.ptr b.addr)) p.addr
        (p.join b).size (h.ptr b.addr) := by
      refine wrote_join ?_ Heap.ptr_lt
      simp only [Block.stop, hdrSize] at hbstop
      omega
    rw [hsize]
    simp only [hptr]
    refine ⟨p.join b, post, _, JoinsUp.join hjoin, hw, ?_⟩
    refine LinkedCycle.erase hcycle ?_ fun a ha => ?_
    · rw [Function.update_of_ne (hne b.addr (by simp))]
      exact hw.ptr
    · have ha' : a ∈ (b :: (post ++ pre)).map Block.addr := List.mem_cons_of_mem _ ha
      rw [Function.update_of_ne (hne a ha'), (hw.frame a (hapart a ha')).2]
  · have hw : Wrote h (h.setPtr p.addr b.addr) p.addr p.size b.addr := by
      have hlt : b.addr < 2 ^ 32 :=
        Nat.lt_of_le_of_lt (Nat.le_add_right _ _) (hb.stop b (by simp))
      have hset := wrote_setPtr (h := h) (p := p.addr) (v := b.addr) hlt
      rwa [hb.sizes p (by simp)] at hset
    refine ⟨p, b :: post, _, JoinsUp.none (fun c hc => ?_), hw, ?_⟩
    · obtain rfl := Option.some.inj hc
      exact hjoin
    · refine LinkedCycle.congr hcycle fun a ha => ?_
      rcases List.mem_cons.1 ha with rfl | ha
      · rw [Function.update_self]
        exact hw.ptr
      · rw [Function.update_of_ne (hne a ha), (hw.frame a (hapart a ha)).2]

end Link

/-! ## The search -/

section Search

variable {h : Heap} {free live : List Block} {b : Block}

/-- A block that does not overlap the blocks of an increasing list has its place in it. -/
theorem exists_place {l : List Block} (hl : l.Pairwise fun a c => a.stop < c.addr)
    (hb : ∀ c ∈ l, c.stop ≤ b.addr ∨ b.stop ≤ c.addr) :
    ∃ low high, l = low ++ high ∧ (∀ c ∈ low, c.stop ≤ b.addr) ∧ ∀ c ∈ high, b.stop ≤ c.addr := by
  induction l with
  | nil => exact ⟨[], [], rfl, by simp, by simp⟩
  | cons c l ih =>
      obtain ⟨hc, hl⟩ := List.pairwise_cons.1 hl
      rcases hb c (by simp) with hlow | hhigh
      · obtain ⟨low, high, rfl, hlows, hhighs⟩ := ih hl fun d hd => hb d (by simp [hd])
        exact ⟨c :: low, high, rfl, by simpa using ⟨hlow, hlows⟩, hhighs⟩
      · refine ⟨[], c :: l, rfl, by simp, fun d hd => ?_⟩
        rcases List.mem_cons.1 hd with rfl | hd
        · exact hhigh
        · have hcd := hc d hd
          simp only [Block.stop, hdrSize] at *
          omega

theorem Sound.sides (hs : Sound h free (b :: live)) {c : Block} (hc : c ∈ h.sentinel :: free) :
    (c.stop ≤ b.addr ∧ c.addr + hdrSize ≤ b.addr) ∨ b.stop ≤ c.addr := by
  rcases List.mem_cons.1 hc with rfl | hc
  · have hbase := (hs.bounds (b := b) (by simp)).1
    refine Or.inl ⟨?_, hbase⟩
    simp only [Heap.sentinel, Block.stop, hdrSize] at *
    omega
  · have hcross := (List.pairwise_append.1 hs.blocks.apart).2.2 c hc b (by simp)
    have hlen := (hs.bounds (b := c) (by simp [hc])).2.1
    exact hcross.imp (fun hle => ⟨hle, Nat.le_trans hlen hle⟩) id

/-- The list, from the node `p` on. -/
theorem Sound.cycle_at (hs : Sound h free live) {pre post : List Block} {p : Block}
    (heq : h.sentinel :: free = pre ++ p :: post) :
    LinkedCycle h.ptr ((p :: (post ++ pre)).map Block.addr) := by
  have hcycle := hs.cycle
  rw [heq, List.map_append] at hcycle
  have hrot := hcycle.rotate
  rwa [← List.map_append] at hrot

/-- The loop of `free` ends where the block has its place. -/
theorem Sound.brackets_iff (hs : Sound h free (b :: live)) {pre post : List Block} {p : Block}
    (heq : h.sentinel :: free = pre ++ p :: post) :
    h.Brackets b.addr p.addr ↔
      (∀ c ∈ pre ++ [p], c.stop ≤ b.addr ∧ c.addr + hdrSize ≤ b.addr) ∧
        ∀ c ∈ post, b.stop ≤ c.addr := by
  have hpos : b.addr + hdrSize ≤ b.stop := (hs.bounds (b := b) (by simp)).2.1
  have hbase : h.base + hdrSize ≤ b.addr := (hs.bounds (b := b) (by simp)).1
  have hinc := hs.increasing
  rw [heq] at hinc
  obtain ⟨hpre, hpost, hcross⟩ := List.pairwise_append.1 hinc
  have hpost := List.pairwise_cons.1 hpost
  have hsides : ∀ c ∈ pre ++ p :: post,
      (c.stop ≤ b.addr ∧ c.addr + hdrSize ≤ b.addr) ∨ b.stop ≤ c.addr := fun c hc =>
    hs.sides (heq ▸ hc)
  have hple : ∀ c ∈ pre ++ [p], c.addr ≤ p.addr := by
    intro c hc
    rcases List.mem_append.1 hc with hc | hc
    · have hcp := hcross c hc p (by simp)
      simp only [Block.stop, hdrSize] at hcp
      omega
    · rw [List.mem_singleton.1 hc]
  simp only [hdrSize] at hpos hbase
  have hplace : (p.addr < b.addr ∧ ∀ c ∈ post.head?, b.addr < c.addr) ↔
      (∀ c ∈ pre ++ [p], c.stop ≤ b.addr ∧ c.addr + hdrSize ≤ b.addr) ∧
        ∀ c ∈ post, b.stop ≤ c.addr := by
    constructor
    · rintro ⟨hpb, hhead⟩
      refine ⟨fun c hc => ?_, fun c hc => ?_⟩
      · refine (hsides c (by simp at hc ⊢; tauto)).resolve_right fun habove => ?_
        have hcp := hple c hc
        omega
      · refine (hsides c (by simp [hc])).resolve_left fun hbelow => ?_
        cases post with
        | nil => cases hc
        | cons d post =>
            have hbd := hhead d rfl
            have hdc : d.addr ≤ c.addr := by
              rcases List.mem_cons.1 hc with rfl | hc
              · exact Nat.le_refl _
              · have hlt := (List.pairwise_cons.1 hpost.2).1 c hc
                simp only [Block.stop, hdrSize] at hlt
                omega
            omega
    · rintro ⟨hlow, hhigh⟩
      have hp := (hlow p (by simp)).2
      simp only [hdrSize] at hp
      refine ⟨by omega, fun c hc => ?_⟩
      have hc := hhigh c (List.mem_of_mem_head? hc)
      omega
  rw [← hplace, Heap.Brackets]
  rcases ptr_eq (hs.cycle_at heq) with ⟨c, post', rfl, hptr⟩ | ⟨rfl, c, pre', hhead, hptr⟩
  · have hpc := hpost.1 c (by simp)
    simp only [Block.stop, hdrSize] at hpc
    rw [hptr]
    simp only [List.head?_cons, Option.mem_some_iff, forall_eq']
    omega
  · obtain rfl : c = h.sentinel := by
      have hcons : h.sentinel :: free = c :: pre' := heq.trans hhead
      exact (List.cons.inj hcons).1.symm
    have hsen : h.base ≤ p.addr := by
      have hmem : h.sentinel ∈ pre ++ [p] := by simp [hhead]
      exact hple _ hmem
    have hptr : h.ptr p.addr = h.base := hptr
    rw [hptr]
    simp only [List.head?_nil, Option.mem_def, reduceCtorEq, false_implies, implies_true, and_true]
    omega

/-- **The search of `free` ends**, behind the blocks below the one that is given back and before
    those above it. -/
theorem Sound.locate (hs : Sound h free (b :: live)) {fuel : Nat} (hfuel : free.length < fuel) :
    ∃ pre p post, h.sentinel :: free = pre ++ p :: post ∧
      walk h.ptr (fun p => decide (h.Brackets b.addr p)) fuel h.freep = some p.addr ∧
      (∀ c ∈ pre ++ [p], c.stop ≤ b.addr ∧ c.addr + hdrSize ≤ b.addr) ∧
      ∀ c ∈ post, b.stop ≤ c.addr := by
  have hex : ∃ a ∈ (h.sentinel :: free).map Block.addr, h.Brackets b.addr a := by
    obtain ⟨low, high, heq, hlow, hhigh⟩ :=
      exists_place hs.increasing fun c hc => (hs.sides hc).imp And.left id
    rcases List.eq_nil_or_concat low with rfl | ⟨pre, p, rfl⟩
    · have hsen : b.stop ≤ h.base := hhigh h.sentinel (by rw [← List.nil_append high, ← heq]; simp)
      have hb := hs.bounds (b := b) (by simp)
      simp only [hdrSize] at hb
      omega
    · rw [List.concat_eq_append, List.append_assoc] at heq
      refine ⟨p.addr, List.mem_map_of_mem (by simp [heq]), (hs.brackets_iff heq).2 ⟨?_, hhigh⟩⟩
      intro c hc
      have hmem : c ∈ h.sentinel :: free := by
        rw [heq]
        simp at hc ⊢
        tauto
      refine (hs.sides hmem).resolve_right fun habove => ?_
      have hcb := hlow c (by simpa using hc)
      have hb := hs.bounds (b := b) (by simp)
      simp only [Block.stop, hdrSize] at *
      omega
  obtain ⟨l₁, l₂, hsplit⟩ := List.append_of_mem hs.freep
  have hcycle : LinkedCycle h.ptr (h.freep :: (l₂ ++ l₁)) := by
    have hcycle := hs.cycle
    rw [hsplit] at hcycle
    exact hcycle.rotate
  have hlen : (l₂ ++ l₁).length < fuel := by
    have hlen := congrArg List.length hsplit
    simp at hlen ⊢
    omega
  obtain ⟨a, ha, hwalk, hstop⟩ := hcycle.walk_eq
    (fun p => decide (h.Brackets b.addr p)) (by
      obtain ⟨a, ha, hbr⟩ := hex
      rw [hsplit] at ha
      exact ⟨a, by simp at ha ⊢; tauto, decide_eq_true hbr⟩) hlen
  have ha : a ∈ (h.sentinel :: free).map Block.addr := by
    rw [hsplit]
    simp at ha ⊢
    tauto
  obtain ⟨p, hp, rfl⟩ := List.mem_map.1 ha
  obtain ⟨pre, post, heq⟩ := List.append_of_mem hp
  exact ⟨pre, p, post, heq, hwalk, (hs.brackets_iff heq).1 (of_decide_eq_true hstop)⟩

theorem Sound.between (hs : Sound h free (b :: live)) {pre post : List Block} {p : Block}
    (heq : h.sentinel :: free = pre ++ p :: post)
    (hlow : ∀ c ∈ pre ++ [p], c.stop ≤ b.addr ∧ c.addr + hdrSize ≤ b.addr)
    (hhigh : ∀ c ∈ post, b.stop ≤ c.addr) : Between h pre p b post live := by
  have hb := hs.bounds (b := b) (by simp)
  have hmem : ∀ {c}, c ∈ pre ++ p :: b :: post → c = b ∨ c ∈ h.sentinel :: free := by
    intro c hc
    rw [heq]
    simp only [List.mem_append, List.mem_cons] at hc ⊢
    tauto
  -- the headers of the list, in order
  have hordered : (h.sentinel :: free).Pairwise fun c d => c.addr + hdrSize ≤ d.addr := by
    obtain ⟨hsen, hfree⟩ := List.pairwise_cons.1 hs.increasing
    refine List.pairwise_cons.2 ⟨fun c hc => (hs.bounds (by simp [hc])).1, ?_⟩
    refine hfree.imp_of_mem fun hc _ hlt => ?_
    exact Nat.le_trans (hs.bounds (by simp [hc])).2.1 (Nat.le_of_lt hlt)
  refine ⟨?_, fun c hc d hd => ?_, fun c hc => ?_, fun c hc => ?_⟩
  · rw [heq] at hordered
    obtain ⟨hpre, hpost, hcross⟩ := List.pairwise_append.1 hordered
    obtain ⟨hp, hpost⟩ := List.pairwise_cons.1 hpost
    refine List.pairwise_append.2 ⟨hpre, List.pairwise_cons.2 ⟨fun d hd => ?_,
      List.pairwise_cons.2 ⟨fun d hd => Nat.le_trans hb.2.1 (hhigh d hd), hpost⟩⟩,
      fun c hc d hd => ?_⟩
    · rcases List.mem_cons.1 hd with rfl | hd
      · exact (hlow p (by simp)).2
      · exact hp d hd
    · rcases List.mem_cons.1 hd with rfl | hd
      · exact hcross c hc d (by simp)
      · rcases List.mem_cons.1 hd with rfl | hd
        · exact (hlow c (by simp [hc])).2
        · exact hcross c hc d (by simp [hd])
  · have hd' := hs.bounds (b := d) (by simp [hd])
    rcases hmem hc with rfl | hc
    · have hap := (List.pairwise_append.1 hs.blocks.apart).2.1
      have hcd := List.rel_of_pairwise_cons hap hd
      exact hcd.imp (Nat.le_trans hb.2.1) (Nat.le_trans hd'.2.1)
    · rcases List.mem_cons.1 hc with rfl | hc
      · exact Or.inl hd'.1
      · have hcd := (List.pairwise_append.1 hs.blocks.apart).2.2 c hc d (by simp [hd])
        have hc' := hs.bounds (b := c) (by simp [hc])
        exact hcd.imp (Nat.le_trans hc'.2.1) (Nat.le_trans hd'.2.1)
  · refine hs.sizes c ?_
    have hor : c = b ∨ c ∈ h.sentinel :: free ∨ c ∈ live := by
      rw [heq]
      simp only [List.mem_append, List.mem_cons] at hc ⊢
      tauto
    simp only [List.mem_append, List.mem_cons] at hor ⊢
    tauto
  · rcases hmem hc with rfl | hc
    · exact hb.2.2
    · rcases List.mem_cons.1 hc with rfl | hc
      · have htop := hs.top
        simp only [Heap.sentinel, Block.stop, hdrSize] at *
        omega
      · exact (hs.bounds (by simp [hc])).2.2

end Search

/-! ## The heap after `free` -/

section Spec

variable {h : Heap} {free live : List Block} {b b' : Block} {post post' : List Block}

theorem JoinsUp.subset (h : JoinsUp b post b' post') : post' ⊆ post := by
  cases h with
  | none => exact List.Subset.refl _
  | join => exact List.subset_cons_self _ _

theorem JoinsUp.length_le (h : JoinsUp b post b' post') : post'.length ≤ post.length := by
  cases h with
  | none => exact Nat.le_refl _
  | join => exact Nat.le_succ _

theorem JoinsUp.partition {rest got : List Block} (h : JoinsUp b post b' post')
    (hp : Partition (b :: (post ++ rest)) got) : Partition (b' :: (post' ++ rest)) got := by
  cases h with
  | none => exact hp
  | join hadj => exact hp.join hadj

/-- The gaps between the blocks, when a block has been joined to the one above it if there was no
    gap. -/
theorem JoinsUp.gaps (h : JoinsUp b post b' post') (hpost : post.Pairwise fun a c => a.stop < c.addr)
    (hle : ∀ c ∈ post, b.stop ≤ c.addr) : (b' :: post').Pairwise fun a c => a.stop < c.addr := by
  cases h with
  | none hne =>
      refine List.pairwise_cons.2 ⟨fun c hc => ?_, hpost⟩
      cases post with
      | nil => exact nomatch hc
      | cons d post =>
          have hbd := Nat.lt_of_le_of_ne (hle d (by simp)) (hne d rfl)
          rcases List.mem_cons.1 hc with rfl | hc
          · exact hbd
          · have hdc := (List.pairwise_cons.1 hpost).1 c hc
            simp only [Block.stop, hdrSize] at *
            omega
  | join hadj =>
      obtain ⟨hc, hpost⟩ := List.pairwise_cons.1 hpost
      refine List.pairwise_cons.2 ⟨fun d hd => ?_, hpost⟩
      rw [Block.join_stop hadj]
      exact hc d hd

/-- The list up to `p`, without the sentinel `a`. -/
theorem split_at {a p : Block} {pre : List Block} (heq : a :: free = pre ++ p :: post) :
    ∃ low, pre ++ [p] = a :: low ∧ free = low ++ post := by
  cases pre with
  | nil =>
      obtain ⟨rfl, rfl⟩ := List.cons.inj heq
      exact ⟨[], rfl, rfl⟩
  | cons c pre =>
      obtain ⟨rfl, rfl⟩ := List.cons.inj heq
      exact ⟨pre ++ [p], rfl, by simp⟩

/-- The blocks of the list after both joins, behind the sentinel `a`. -/
theorem JoinsUp.rebuild {a p p' : Block} {pre rest got : List Block} (hup : JoinsUp b post b' post')
    (hdown : JoinsUp p (b' :: post') p' rest) (heq : a :: free = pre ++ p :: post)
    (hne : a.stop ≠ b'.addr) (hp : Partition (free ++ b :: live) got) :
    ∃ free', pre ++ p' :: rest = a :: free' ∧ Partition (free' ++ live) got ∧
      (∃ c ∈ free', b.size ≤ c.size) ∧ free'.length ≤ free.length + 1 := by
  obtain ⟨low, hlow, rfl⟩ := split_at heq
  have hlen := hup.length_le
  have hp' : Partition (b' :: (post' ++ (low ++ live))) got := by
    refine hup.partition (hp.perm (List.perm_middle.trans (List.Perm.cons b ?_)))
    rw [← List.append_assoc]
    exact List.perm_append_comm.append_right live
  have hperm : (b' :: (post' ++ (low ++ live))).Perm (low ++ b' :: post' ++ live) := by
    rw [← List.append_assoc, ← List.cons_append, ← List.cons_append]
    exact List.perm_append_comm.append_right live
  cases hdown with
  | none =>
      refine ⟨low ++ b' :: post', ?_, hp'.perm hperm, ⟨b', by simp, hup.le_size⟩, ?_⟩
      · rw [show pre ++ p :: b' :: post' = (pre ++ [p]) ++ b' :: post' by simp, hlow]
        rfl
      · simp only [List.length_append, List.length_cons]
        omega
  | join hadj =>
      cases pre with
      | nil =>
          obtain ⟨rfl, -⟩ := List.cons.inj hlow
          exact absurd hadj hne
      | cons c pre =>
          obtain ⟨rfl, hlows⟩ := List.cons.inj hlow
          obtain rfl : low = pre ++ [p] := hlows.symm
          refine ⟨pre ++ p.join b' :: post', rfl, ?_, ⟨p.join b', by simp, ?_⟩, ?_⟩
          · have hmid : (b' :: (post' ++ (pre ++ [p] ++ live))).Perm
                (p :: b' :: (post' ++ (pre ++ live))) := by
              rw [List.perm_iff_count]
              intro d
              simp only [List.count_append, List.count_cons, List.count_nil]
              omega
            refine ((hp'.perm hmid).join hadj).perm ?_
            rw [List.perm_iff_count]
            intro d
            simp only [List.count_append, List.count_cons]
            omega
          · have hle := hup.le_size
            simp only [Block.join]
            omega
          · simp only [List.length_append, List.length_cons, List.length_nil]
            omega

/-- **`free` returns**, and the block is free then, joined to its free neighbours. -/
theorem free_spec (hs : Sound h free (b :: live)) {fuel : Nat} (hfuel : free.length < fuel) :
    ∃ h' free', Umalloc.free fuel (b.addr + hdrSize) h = some h' ∧ Sound h' free' live ∧
      (∃ c ∈ free', b.size ≤ c.size) ∧ free'.length ≤ free.length + 1 ∧
      h'.base = h.base ∧ h'.brk = h.brk ∧ h'.got = h.got := by
  obtain ⟨pre, p, post, heq, hwalk, hlow, hhigh⟩ := hs.locate hfuel
  have hbt := hs.between heq hlow hhigh
  have hpos := hs.blocks.nonempty b (by simp)
  obtain ⟨b', post', t, hup, hw, hbt', hcycle⟩ := linkUpper_spec hbt hpos (hs.cycle_at heq)
  obtain ⟨h₁, hh₁⟩ : ∃ h₁, h₁ = h.linkUpper b.addr p.addr := ⟨_, rfl⟩
  rw [← hh₁] at hw hbt' hcycle
  obtain ⟨p', rest, t', hdown, hw', hcycle'⟩ := linkLower_spec hbt' hcycle
  obtain ⟨h₂, hh₂⟩ : ∃ h₂, h₂ = h₁.linkLower b'.addr p.addr := ⟨_, rfl⟩
  rw [← hh₂] at hw' hcycle'
  have hb := hs.bounds (b := b) (by simp)
  have hbp : uint (b.addr + hdrSize + (2 ^ 32 - hdrSize)) = b.addr := by
    simp only [uint, hdrSize] at *
    omega
  have hrun : Umalloc.free fuel (b.addr + hdrSize) h = some { h₂ with freep := p.addr } := by
    rw [Umalloc.free]
    simp only [hbp]
    rw [hwalk, Option.map_some, hh₂, hh₁, hup.addr_eq]
  have hbase : h.sentinel.stop ≠ b'.addr := by
    rw [hup.addr_eq]
    simp only [Heap.sentinel, Block.stop, hdrSize] at *
    omega
  obtain ⟨free', heq', hpart, hroom, hlen⟩ := hup.rebuild hdown heq hbase hs.blocks
  refine ⟨_, free', hrun, ?_, hroom, hlen, ?_⟩
  · have hp'addr : p'.addr = p.addr := hdown.addr_eq
    have hsen : (Heap.mk h₂.mem h₂.base p.addr h₂.brk h₂.got).sentinel = h.sentinel := by
      rw [Heap.sentinel, Heap.sentinel, hw'.base, hw.base]
    have hinc := hs.increasing
    rw [heq] at hinc
    obtain ⟨hpre, hpost, hcross⟩ := List.pairwise_append.1 hinc
    have hgaps : (p' :: rest).Pairwise fun a c => a.stop < c.addr := by
      refine hdown.gaps (hup.gaps (List.pairwise_cons.1 hpost).2 hhigh) fun c hc => ?_
      rcases List.mem_cons.1 hc with rfl | hc
      · rw [hup.addr_eq]
        exact (hlow p (by simp)).1
      · exact Nat.le_of_lt ((List.pairwise_cons.1 hpost).1 c (hup.subset hc))
    constructor
    · rw [hsen, ← heq']
      have hrot : LinkedCycle h₂.ptr (((p' :: rest) ++ pre).map Block.addr) := hcycle'
      rw [List.map_append] at hrot ⊢
      exact hrot.rotate
    · rw [hsen, ← heq', ← hp'addr]
      exact List.mem_map_of_mem (by simp)
    · rw [hsen, ← heq']
      refine List.pairwise_append.2 ⟨hpre, hgaps, fun c hc d hd => ?_⟩
      have hcp := hcross c hc p (by simp)
      rcases List.mem_cons.1 hd with rfl | hd
      · rwa [hp'addr]
      · have hpd := (List.pairwise_cons.1 hgaps).1 d hd
        simp only [Block.stop, hdrSize] at hcp hpd ⊢
        omega
    · intro c hc
      rw [hsen, ← List.cons_append, ← heq'] at hc
      by_cases hcp : c = p'
      · rw [hcp, hp'addr]
        exact hw'.size
      · have hc' : c ∈ pre ∨ c ∈ b' :: post' ∨ c ∈ live := by
          rcases List.mem_append.1 hc with hc | hc
          · rcases List.mem_append.1 hc with hc | hc
            · exact Or.inl hc
            · exact Or.inr (Or.inl (hdown.subset ((List.mem_cons.1 hc).resolve_left hcp)))
          · exact Or.inr (Or.inr hc)
        obtain ⟨hapart, hmem⟩ : c ∈ b' :: (post' ++ pre) ++ live ∧
            c ∈ pre ++ p :: b' :: (post' ++ live) := by
          clear * - hc'
          rcases hc' with hc | hc | hc <;> simp at hc ⊢ <;> tauto
        exact (hw'.frame _ (hbt'.prev_apart hapart)).1.trans (hbt'.sizes c hmem)
    · exact (hw'.got.trans hw.got).symm ▸ hpart
    · intro c hc
      have hc : c ∈ h.got := by rwa [← hw.got, ← hw'.got]
      have hin := hs.inside c hc
      rwa [← hw.base, ← hw'.base, ← hw.brk, ← hw'.brk] at hin
    · have htop := hs.top
      rwa [← hw.base, ← hw'.base, ← hw.brk, ← hw'.brk] at htop
  · exact ⟨hw'.base.trans hw.base, hw'.brk.trans hw.brk, hw'.got.trans hw.got⟩

end Spec

end Cs350.Umalloc
