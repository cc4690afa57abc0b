import Cs350.Umalloc.Sys

set_option autoImplicit false

/-! # When a request is served rightly

From `2 ^ 31` on, the increment for the units asked for is negative, or zero at the end of the
range. The last seven sizes become requests of no bytes at all. -/

namespace Cs350.Umalloc

open Transition

/-! ## The list from outside -/

/-- The addresses of the blocks on the list, which are in the memory of the process. -/
structure Nodes (h : Heap) (N : List Nat) : Prop where
  next : ∀ a ∈ N, h.ptr a ∈ N
  freep : h.freep ∈ N
  pos : ∀ a ∈ N, 0 < a
  header : ∀ a ∈ N, a + hdrSize ≤ h.brk
  stop : ∀ a ∈ N, a + hdrSize * h.size a ≤ h.brk
  apart : ∀ a ∈ N, ∀ b ∈ N, a ≠ b → HdrApart a b

section Nodes

variable {h : Heap} {free live : List Block} {N : List Nat} {fuel nunits : Nat}
  {enough : Nat → Nat → Bool} {x : (Nat × Heap) × List Int}

theorem Sound.nodes (hs : Sound h free live) (hnull : 0 < h.base) :
    Nodes h ((h.sentinel :: free).map Block.addr) where
  next a ha := hs.cycle.next_mem ha
  freep := hs.freep
  pos a ha := by
    obtain ⟨b, hb, rfl⟩ := List.mem_map.1 ha
    rcases List.mem_cons.1 hb with rfl | hb
    · exact hnull
    · have hin := hs.bounds (b := b) (by simp [hb])
      simp only [hdrSize] at hin
      omega
  header a ha := by
    obtain ⟨b, hb, rfl⟩ := List.mem_map.1 ha
    rcases List.mem_cons.1 hb with rfl | hb
    · exact hs.top.1
    · have hin := hs.blocks.inside hs.inside (b := b) (by simp [hb])
      have hbound := hs.bounds (b := b) (by simp [hb])
      omega
  stop a ha := by
    obtain ⟨b, hb, rfl⟩ := List.mem_map.1 ha
    rw [hs.sizes b (by simp at hb ⊢; tauto)]
    rcases List.mem_cons.1 hb with rfl | hb
    · have htop := hs.top.1
      simp only [Heap.sentinel, hdrSize] at *
      omega
    · exact (hs.blocks.inside hs.inside (b := b) (by simp [hb])).2
  apart a ha b hb hne := by
    obtain ⟨c, hc, rfl⟩ := List.mem_map.1 ha
    obtain ⟨d, hd, rfl⟩ := List.mem_map.1 hb
    have hcd : c ≠ d := fun heq => hne (congrArg Block.addr heq)
    rcases List.mem_cons.1 hc with rfl | hc
    · have hd : d ∈ free ++ live := by
        refine List.mem_append_left live ((List.mem_cons.1 hd).resolve_left ?_)
        exact fun heq => hcd heq.symm
      exact (hs.apart_of_ne hd (List.mem_cons_self ..) (Ne.symm hcd)).2.symm
    · exact (hs.apart_of_ne (by simp [hc]) (by simp at hd ⊢; tauto) hcd).2

/-- A walk along the list stays on it. -/
theorem Nodes.walk_mem (hN : Nodes h N) {stop : Nat → Bool} {a b : Nat} (ha : a ∈ N)
    (hwalk : walk h.ptr stop fuel a = some b) : b ∈ N := by
  induction fuel generalizing a with
  | zero => exact nomatch hwalk
  | succ fuel ih =>
      rw [walk] at hwalk
      split_ifs at hwalk with hstop
      · exact Option.some.inj hwalk ▸ ha
      · exact ih (hN.next a ha) hwalk

/-- If no block is large enough, a search that ends has come to `morecore`, and has gone on from
    there unless that has failed. -/
theorem Nodes.around (hN : Nodes h N) (hsmall : ∀ a ∈ N, h.size a < nunits) {k prevp p : Nat}
    (hp : p ∈ N) (hrun : Sys.mallocLoop fuel nunits enough k h prevp p = some x) :
    ∃ q h' calls, Sys.morecore fuel nunits enough h = some ((q, h'), calls) ∧
      ((q = 0 ∧ x = ((0, h'), calls)) ∨
        q ≠ 0 ∧ ∃ j r rest, Sys.mallocLoop fuel nunits enough j h' q (h'.ptr q) = some (r, rest) ∧
          x = (r, calls ++ rest)) := by
  induction k generalizing prevp p with
  | zero => exact nomatch hrun
  | succ k ih =>
      rw [Sys.mallocLoop, if_neg (Nat.not_le.2 (hsmall p hp))] at hrun
      split_ifs at hrun with hend
      · obtain ⟨⟨⟨q, h'⟩, calls⟩, hmore, hrun⟩ := Option.bind_eq_some_iff.1 hrun
        refine ⟨q, h', calls, hmore, ?_⟩
        simp only at hrun
        split_ifs at hrun with hnull
        · exact Or.inl ⟨hnull, (Option.some.inj hrun).symm⟩
        · obtain ⟨⟨r, rest⟩, hrest, hx⟩ := Option.map_eq_some_iff.1 hrun
          exact Or.inr ⟨hnull, k, r, rest, hrest, hx.symm⟩
      · exact ih (hN.next p hp) hrun

/-- So the increment is among the calls. -/
theorem Nodes.calls (hN : Nodes h N) (hsmall : ∀ a ∈ N, h.size a < nunits) {k prevp p : Nat}
    (hp : p ∈ N) (hrun : Sys.mallocLoop fuel nunits enough k h prevp p = some x) :
    increment nunits ∈ x.2 := by
  obtain ⟨q, h', calls, hmore, hcase⟩ := hN.around hsmall hp hrun
  have hcalls : calls = [increment nunits] := sys_morecore_calls hmore
  rcases hcase with ⟨-, rfl⟩ | ⟨-, j, r, rest, -, rfl⟩
  · simp [hcalls]
  · simp [hcalls]

/-! ## A block of `2 ^ 32` bytes -/

/-- The units whose product with the size of a header is zero. -/
def wrapUnits : Nat := 2 ^ 29

/-- `free` of a block of `2 ^ 32` bytes at the end of the memory, which is its own upper
    neighbour. -/
theorem Nodes.free_wrapped (hN : Nodes h N) (hbrk : h.brk < kernBase) {h' : Heap}
    (hsize : h.size h.brk = wrapUnits)
    (hrun : Umalloc.free fuel (uint (h.brk + hdrSize)) h = some h') :
    ∃ q ∈ N, h'.freep = q ∧
      ((h'.ptr q = h.brk ∧ h'.size h.brk = wrapUnits) ∨
        (q + hdrSize * h.size q = h.brk ∧ h'.size q = h.size q + wrapUnits ∧
          (∀ a ∈ N, h'.ptr a = h.ptr a) ∧ ∀ a ∈ N, a ≠ q → h'.size a = h.size a)) := by
  have hbp : uint (uint (h.brk + hdrSize) + (2 ^ 32 - hdrSize)) = h.brk := by
    simp only [uint, hdrSize, kernBase] at *
    omega
  rw [free_eq hbp] at hrun
  obtain ⟨q, hwalk, rfl⟩ := Option.map_eq_some_iff.1 hrun
  have hq := hN.walk_mem hN.freep hwalk
  have hheader := hN.header q hq
  have hstop := hN.stop q hq
  have hnext := hN.header _ (hN.next q hq)
  -- the end of the block is its beginning, and no node of the list
  have hupper : h.upper h.brk = h.brk := by
    rw [Heap.upper, hsize]
    simp only [uint, hdrSize, wrapUnits, kernBase] at *
    omega
  have hne : h.brk ≠ h.ptr q := by
    simp only [hdrSize] at hnext
    omega
  have hlink : h.linkUpper h.brk q = h.setPtr h.brk (h.ptr q) := by
    rw [Heap.linkUpper, hupper, if_neg hne]
  have hw : Wrote h (h.setPtr h.brk (h.ptr q)) h.brk (h.size h.brk) (h.ptr q) :=
    wrote_setPtr Heap.ptr_lt
  have hframe : ∀ a ∈ N, (h.setPtr h.brk (h.ptr q)).size a = h.size a ∧
      (h.setPtr h.brk (h.ptr q)).ptr a = h.ptr a := fun a ha =>
    hw.frame a (Or.inr (hN.header a ha))
  obtain ⟨h₁, hh₁⟩ : ∃ h₁, h₁ = h.setPtr h.brk (h.ptr q) := ⟨_, rfl⟩
  rw [← hh₁] at hlink hw hframe
  have hlower : h₁.upper q = q + hdrSize * h.size q := by
    rw [Heap.upper, (hframe q hq).1]
    refine Nat.mod_eq_of_lt ?_
    simp only [hdrSize, kernBase] at *
    omega
  refine ⟨q, hq, rfl, ?_⟩
  rw [hlink, Heap.linkLower, hlower]
  by_cases hjoin : q + hdrSize * h.size q = h.brk
  · right
    have hsum : uint (h₁.size q + h₁.size h.brk) = h.size q + wrapUnits := by
      rw [(hframe q hq).1, hw.size, hsize]
      refine Nat.mod_eq_of_lt ?_
      simp only [hdrSize, wrapUnits, kernBase] at *
      omega
    have hlt : h.size q + wrapUnits < 2 ^ 32 := hsum ▸ Nat.mod_lt _ (Nat.two_pow_pos 32)
    have hptr : (h₁.setSize q (h.size q + wrapUnits)).ptr h.brk = h.ptr q :=
      (Heap.ptr_setSize (Or.inr (Or.inl hheader))).trans hw.ptr
    have hw' := wrote_join (h := h₁) (p := q) hlt (Heap.ptr_lt (h := h) (p := q))
    rw [if_pos hjoin]
    simp only [hsum, hptr]
    refine ⟨hjoin, hw'.size, fun a ha => ?_, fun a ha hne => ?_⟩
    · by_cases haq : a = q
      · rw [haq]
        exact hw'.ptr
      · exact (hw'.frame a (hN.apart q hq a ha (Ne.symm haq))).2.trans (hframe a ha).2
    · exact (hw'.frame a (hN.apart q hq a ha (Ne.symm hne))).1.trans (hframe a ha).1
  · left
    rw [if_neg hjoin]
    have hbrk' : h.brk < 2 ^ 32 := by
      unfold kernBase at hbrk
      omega
    have hw' : Wrote h₁ (h₁.setPtr q h.brk) q (h₁.size q) h.brk := wrote_setPtr hbrk'
    refine ⟨hw'.ptr, ?_⟩
    exact ((hw'.frame h.brk (Or.inl hheader)).1.trans hw.size).trans hsize

/-- What is cut off a block that has been joined to the one of `2 ^ 32` bytes at `e`. -/
theorem take_wrapped {prevp p u e : Nat} (he : e < kernBase) (hp : p + hdrSize * u = e)
    (hsize : h.size p = u + wrapUnits) : (take h prevp p wrapUnits).1 ≠ 0 := by
  have hne : uint (e + hdrSize) ≠ 0 := by
    simp only [uint, hdrSize, kernBase] at *
    omega
  rw [take, hsize]
  by_cases hu : u = 0
  · have hpe : p = e := by
      simp only [hdrSize] at hp
      omega
    rwa [if_pos (by omega), hpe]
  · have hcut : u + wrapUnits - wrapUnits = u := Nat.add_sub_cancel u wrapUnits
    have hlt : u < 2 ^ 32 := by
      simp only [hdrSize, kernBase] at *
      omega
    have hrest : (h.setSize p u).size p = u := (wrote_setSize hlt).size
    have hupper : (h.setSize p u).upper p = e := by
      rw [Heap.upper, hrest, hp]
      refine Nat.mod_eq_of_lt ?_
      unfold kernBase at he
      omega
    rw [if_neg (by omega), hcut]
    simp only [hupper]
    exact hne

/-- A search in which only such a block is large enough. -/
theorem loop_wrapped {k prevp p q u e : Nat} {r : Nat × Heap} {rest : List Int}
    (hnext : ∀ a ∈ N, h.ptr a ∈ N) (hfreep : h.freep = q)
    (hsmall : ∀ a ∈ N, a ≠ q → h.size a < wrapUnits) (he : e < kernBase)
    (hq : q + hdrSize * u = e) (hsize : h.size q = u + wrapUnits) (hp : p ∈ N)
    (hrun : Sys.mallocLoop fuel wrapUnits enough k h prevp p = some (r, rest)) : r.1 ≠ 0 := by
  induction k generalizing prevp p with
  | zero => exact nomatch hrun
  | succ k ih =>
      rw [Sys.mallocLoop] at hrun
      by_cases hpq : p = q
      · subst hpq
        rw [if_pos (by omega)] at hrun
        obtain ⟨rfl, -⟩ := Prod.mk.inj (Option.some.inj hrun)
        exact take_wrapped he hq hsize
      · rw [if_neg (Nat.not_le.2 (hsmall p hp hpq)), if_neg (hfreep ▸ hpq)] at hrun
        exact ih (hnext p hp) hrun

theorem Nodes.small (hN : Nodes h N) (hbrk : h.brk < kernBase) (hmin : 2 ^ 28 ≤ nunits) :
    ∀ a ∈ N, h.size a < nunits := by
  intro a ha
  have hstop := hN.stop a ha
  simp only [hdrSize, kernBase] at *
  omega

/-- What `morecore` puts behind the memory is not in the way of the list. -/
theorem Nodes.setSize_brk (hN : Nodes h N) (nu : Nat) (got : List Block) :
    Nodes (Heap.setSize { h with got := got } h.brk nu) N := by
  have hsame : ∀ a ∈ N, (Heap.setSize { h with got := got } h.brk nu).size a = h.size a ∧
      (Heap.setSize { h with got := got } h.brk nu).ptr a = h.ptr a := fun a ha =>
    have hapart : HdrApart h.brk a := Or.inr (hN.header a ha)
    ⟨Heap.size_setSize_of_apart hapart, Heap.ptr_setSize (Or.inr hapart)⟩
  refine ⟨fun a ha => ?_, hN.freep, hN.pos, hN.header, fun a ha => ?_, hN.apart⟩
  · rw [(hsame a ha).2]
    exact hN.next a ha
  · rw [(hsame a ha).1]
    exact hN.stop a ha

/-- For `2 ^ 32` bytes, header included, `sbrk` is asked for nothing and gives the end of the
    memory; the call does not return the null pointer then. -/
theorem Nodes.wrapped (hN : Nodes h N) (hbrk : h.brk < kernBase) {k prevp p : Nat} (hp : p ∈ N)
    (hrun : Sys.mallocLoop fuel wrapUnits enough k h prevp p = some x) : x.1.1 ≠ 0 := by
  have hsmall := hN.small hbrk (by decide : 2 ^ 28 ≤ wrapUnits)
  obtain ⟨q, h', calls, hmore, hcase⟩ := hN.around hsmall hp hrun
  have hinc : toInt (uint (wrapUnits * hdrSize)) = 0 := by decide
  rw [Sys.morecore] at hmore
  simp only [if_neg (by decide : ¬ wrapUnits < 4096), hinc, growproc_zero] at hmore
  obtain ⟨h₂, hfree, heq⟩ := Option.map_eq_some_iff.1 hmore
  obtain ⟨⟨rfl, rfl⟩, rfl⟩ : (h₂.freep = q ∧ h₂ = h') ∧ [0] = calls := by simpa using heq
  have hN' := hN.setSize_brk wrapUnits (⟨h.brk, wrapUnits⟩ :: h.got)
  have hsize : (Heap.setSize { h with got := ⟨h.brk, wrapUnits⟩ :: h.got } h.brk wrapUnits).size h.brk =
      wrapUnits := (wrote_setSize (by decide)).size
  obtain ⟨q, hq, rfl, hfree⟩ := hN'.free_wrapped hbrk hsize hfree
  rcases hcase with ⟨hnull, -⟩ | ⟨-, j, r, rest, hloop, rfl⟩
  · exact absurd hnull (Nat.pos_iff_ne_zero.1 (hN.pos _ hq))
  rcases hfree with ⟨hptr, hsize'⟩ | ⟨hjoin, hsize', hptr, hsame⟩
  · -- the new block is next on the list
    cases j with
    | zero => cases hloop
    | succ j =>
        rw [hptr, Sys.mallocLoop, if_pos (Nat.le_of_eq hsize'.symm)] at hloop
        obtain ⟨rfl, -⟩ := Prod.mk.inj (Option.some.inj hloop)
        exact take_wrapped (u := 0) hbrk rfl (by rw [hsize', Nat.zero_add])
  · have hnext : ∀ a ∈ N, h₂.ptr a ∈ N := fun a ha => hptr a ha ▸ hN'.next a ha
    have hothers : ∀ a ∈ N, a ≠ h₂.freep → h₂.size a < wrapUnits := fun a ha hne =>
      hsame a ha hne ▸ hN'.small hbrk (by decide) a ha
    exact loop_wrapped hnext rfl hothers hbrk hjoin hsize' (hnext _ hq) hloop

end Nodes

/-! ## One call -/

section Call

variable {s : State} {nbytes fuel : Nat} {enough : Nat → Nat → Bool} {h : Heap}

theorem sys_malloc_fst (hmax : nunits nbytes * hdrSize < 2 ^ 31) (hbrk : h.brk < kernBase) :
    (Sys.malloc fuel nbytes enough h).map Prod.fst = malloc fuel nbytes (userSbrk enough) h := by
  rw [Sys.malloc, Umalloc.malloc]
  refine sys_mallocLoop_fst hmax ?_
  split <;> exact hbrk

theorem sys_malloc_brk {x : (Nat × Heap) × List Int} (hbrk : h.brk < kernBase)
    (hrun : Sys.malloc fuel nbytes enough h = some x) : x.1.2.brk < kernBase := by
  rw [Sys.malloc] at hrun
  refine sys_mallocLoop_brk ?_ hrun
  split <;> exact hbrk

/-- A block that holds `2 ^ 31` bytes does not fit below `KERNBASE`. -/
theorem Heap.Holds.lt {p : Nat} (hh : h.Holds p nbytes) (hbrk : h.brk < kernBase) :
    nbytes < 2 ^ 31 := by
  obtain ⟨b, hb, -, hfit, hstop⟩ := hh
  unfold kernBase at hbrk
  omega

/-- Where nothing wraps, the call is right. -/
theorem Inv.right_of_small (h : Inv s) (hbrk : s.heap.brk < kernBase) (hn : nbytes + 16 ≤ 2 ^ 31) :
    Right s.heap nbytes enough := by
  have hmax : ((nbytes + 7) / 8 + 1) * hdrSize < 2 ^ 31 := by
    simp only [hdrSize]
    omega
  have hunits : nunits nbytes * hdrSize < 2 ^ 31 := by rwa [nunits_eq hmax]
  obtain ⟨fuel, s', hnext, hinv⟩ := h.malloc hmax (userSbrk_fresh enough)
  obtain ⟨⟨p, h'⟩, hrun, rfl⟩ := Option.map_eq_some_iff.1 hnext
  rw [← sys_malloc_fst hunits hbrk] at hrun
  obtain ⟨⟨⟨q, h''⟩, calls⟩, hsys, hfst⟩ := Option.map_eq_some_iff.1 hrun
  obtain ⟨rfl, rfl⟩ : q = p ∧ h'' = h' := by simpa using hfst
  refine ⟨fuel, q, h'', calls, hsys, ?_, fun n hmem => ?_⟩
  · by_cases hq : q = 0
    · exact Or.inl hq
    · right
      simp only [State.hand, if_neg hq] at hinv
      rcases hinv.heap with ⟨-, -, hlive⟩ | ⟨free, hs, hserved⟩
      · cases hlive
      · -- the block is the first one of those that are handed out
        have hin := hs.bounds (b := ⟨q - hdrSize, h''.size (q - hdrSize)⟩) (by simp)
        have hfit := hserved (⟨q - hdrSize, h''.size (q - hdrSize)⟩, nbytes) (by simp)
        have hstop := (hs.blocks.inside hs.inside (b := ⟨q - hdrSize, h''.size (q - hdrSize)⟩)
          (by simp)).2
        refine ⟨⟨q - hdrSize, h''.size (q - hdrSize)⟩, ?_, rfl, ?_, hstop⟩
        · simp only [hdrSize] at hin ⊢
          omega
        · simp only [hdrSize] at hin hfit ⊢
          omega
  · rw [sys_mallocLoop_calls hsys n hmem, increment_eq hunits]
    exact Int.natCast_nonneg _

/-- Where the increment wraps, it is not. -/
theorem Inv.not_right_of_large (h : Inv s) (hbrk : s.heap.brk < kernBase)
    (hlo : 2 ^ 31 < nbytes + 16) (hhi : nbytes + 7 < 2 ^ 32) : ¬ Right s.heap nbytes enough := by
  intro hright
  obtain ⟨fuel, p, h', calls, hrun, hres, hcalls⟩ := hright
  obtain ⟨heap, free, hopened, hs, -, hbase, hbrk'⟩ := h.opened
  have hN := hs.nodes (hbase ▸ h.null)
  have hbrk₁ : heap.brk < kernBase := hbrk' ▸ hbrk
  have hfinal := sys_malloc_brk hbrk hrun
  rw [Sys.malloc, ← hopened] at hrun
  have hunits : nunits nbytes = (nbytes + 7) / 8 + 1 := by
    simp only [nunits, uint, hdrSize]
    omega
  have hmin : 2 ^ 28 ≤ nunits nbytes := by omega
  have hinc := hcalls _ (hN.calls (hN.small hbrk₁ hmin) (hN.next _ hN.freep) hrun)
  have hwrap : nunits nbytes = wrapUnits := by
    by_contra hne
    have hlt : ¬ nunits nbytes < 4096 := by omega
    rw [increment, if_neg hlt] at hinc
    simp only [toInt, uint, hdrSize, wrapUnits] at *
    omega
  rw [hwrap] at hrun
  have hp : p ≠ 0 := hN.wrapped hbrk₁ (hN.next _ hN.freep) hrun
  have hfits := (hres.resolve_left hp).lt hfinal
  unfold wrapUnits at hwrap
  omega

/-! ## Requests of no bytes -/

theorem Sound.ptr_base_iff {free live : List Block} (hs : Sound h free live) :
    h.ptr h.base = h.base ↔ free = [] := by
  constructor
  · intro hptr
    cases free with
    | nil => rfl
    | cons b free =>
        have hnext : h.ptr h.base = b.addr := hs.cycle.next_eq
        have hin := (hs.bounds (b := b) (by simp)).1
        simp only [hdrSize] at hin
        omega
  · rintro rfl
    exact hs.cycle.next_eq_self

theorem Inv.empty_iff (h : Inv s) {heap : Heap} {free live : List Block}
    (hopened : heap = if s.heap.freep = 0 then s.heap.initList else s.heap)
    (hs : Sound heap free live) : s.heap.Empty ↔ free = [] := by
  rw [← hs.ptr_base_iff, Heap.Empty]
  by_cases hfreep : s.heap.freep = 0
  · rw [if_pos hfreep] at hopened
    subst hopened
    have hbase : s.heap.base < 2 ^ 32 := by
      have hbrk := h.brk
      have htop := h.top
      simp only [hdrSize] at hbrk
      omega
    have hw := wrote_setPtr (h := s.heap) (p := s.heap.base) hbase
    have hw' := wrote_setSize (h := s.heap.setPtr s.heap.base s.heap.base) (p := s.heap.base)
      (Nat.two_pow_pos 32)
    have hptr := hw'.ptr.trans hw.ptr
    exact iff_of_true (Or.inl hfreep) hptr
  · rw [if_neg hfreep] at hopened
    rw [hopened]
    exact or_iff_right hfreep

theorem mallocLoop_brk_le {sbrk : Nat → Nat → Option Nat} (hfresh : Fresh sbrk) {nu k prevp p q : Nat}
    {h' : Heap} (hrun : mallocLoop fuel nu sbrk k h prevp p = some (q, h')) : h.brk ≤ h'.brk := by
  induction k generalizing h prevp p with
  | zero => exact nomatch hrun
  | succ k ih =>
      rw [mallocLoop] at hrun
      split_ifs at hrun with hsize hend
      · have hbrk : (take h prevp p nu).2.brk = h.brk := take_brk prevp p
        rw [Option.some.inj hrun] at hbrk
        exact Nat.le_of_eq hbrk.symm
      · obtain ⟨⟨r, h₁⟩, hmore, hrun⟩ := Option.bind_eq_some_iff.1 hrun
        have hle : h.brk ≤ h₁.brk := by
          rw [morecore] at hmore
          split at hmore
          · obtain ⟨-, rfl⟩ := Prod.mk.inj (Option.some.inj hmore)
            exact Nat.le_refl _
          · rename_i a hgot
            obtain ⟨h₂, hfree, hpair⟩ := Option.map_eq_some_iff.1 hmore
            obtain ⟨-, rfl⟩ := Prod.mk.inj hpair
            rw [free_brk hfree]
            exact Nat.le_trans (hfresh _ _ _ hgot).1 (Nat.le_add_right _ _)
        simp only at hrun
        split_ifs at hrun with hnull
        · obtain ⟨-, rfl⟩ := Prod.mk.inj (Option.some.inj hrun)
          exact hle
        · exact Nat.le_trans hle (ih hrun)
      · exact ih hrun

/-- `base` is alone on an empty list. -/
theorem Sound.alone {live : List Block} (hs : Sound h [] live) :
    h.freep = h.base ∧ h.ptr h.base = h.base ∧ h.size h.base = 0 :=
  ⟨by simpa [Heap.sentinel] using hs.freep, hs.ptr_base_iff.2 rfl, hs.sizes h.sentinel (by simp)⟩

/-- The search for one unit, in an empty list, when there is no more memory. -/
theorem Sound.search_empty {live : List Block} (hs : Sound h [] live)
    (hgrow : growproc enough h.brk (4096 * hdrSize : Nat) = none) (fuel k : Nat) :
    Sys.mallocLoop fuel 1 enough (k + 1) h h.freep (h.ptr h.freep) =
      some ((0, h), [((4096 * hdrSize : Nat) : Int)]) := by
  obtain ⟨hfreep, hptr, hsize⟩ := hs.alone
  have hinc : toInt (uint (4096 * hdrSize)) = (4096 * hdrSize : Nat) := by decide
  have hmore : Sys.morecore fuel 1 enough h = some ((0, h), [((4096 * hdrSize : Nat) : Int)]) := by
    rw [Sys.morecore]
    simp only [if_pos (by decide : 1 < 4096), hinc, hgrow]
  rw [Sys.mallocLoop, hfreep, hptr, hsize, if_neg (by decide), if_pos rfl, hmore]
  rfl

/-- The same search when there is more memory. -/
theorem Sound.search_grows {live : List Block} {sbrk : Nat → Nat → Option Nat} (hs : Sound h [] live)
    (hfresh : Fresh sbrk) {a k p : Nat} {h' : Heap} (hgot : sbrk h.brk (4096 * hdrSize) = some a)
    (hrun : mallocLoop fuel 1 sbrk k h h.freep (h.ptr h.freep) = some (p, h')) : h.brk < h'.brk := by
  obtain ⟨hfreep, hptr, hsize⟩ := hs.alone
  cases k with
  | zero => exact nomatch hrun
  | succ k =>
      rw [mallocLoop, hfreep, hptr, hsize, if_neg (by decide), if_pos rfl] at hrun
      obtain ⟨⟨q, h₁⟩, hmore, hrun⟩ := Option.bind_eq_some_iff.1 hrun
      rw [morecore] at hmore
      have huint : uint (4096 * hdrSize) = 4096 * hdrSize := by decide
      simp only [if_pos (by decide : 1 < 4096), huint, hgot] at hmore
      obtain ⟨h₂, hfree, hpair⟩ := Option.map_eq_some_iff.1 hmore
      obtain ⟨-, rfl⟩ := Prod.mk.inj hpair
      have hle := (hfresh _ _ _ hgot).1
      have hbrk : h₂.brk = a + 4096 * hdrSize := free_brk hfree
      have hlt : h.brk < h₂.brk := by
        simp only [hdrSize] at hbrk
        omega
      simp only at hrun
      split_ifs at hrun with hnull
      · obtain ⟨-, rfl⟩ := Prod.mk.inj (Option.some.inj hrun)
        exact hlt
      · exact Nat.lt_of_lt_of_le hlt (mallocLoop_brk_le hfresh hrun)

/-- A search for one unit does not return a block with room for anything. -/
theorem Sound.null_of_one {free live : List Block} (hs : Sound h free live) (hnull : 0 < h.base)
    (hbrk : h.brk < kernBase) (hn : 0 < nbytes) {k p : Nat} {h' : Heap} {calls : List Int}
    (hrun : Sys.mallocLoop fuel 1 enough k h h.freep (h.ptr h.freep) = some ((p, h'), calls))
    (hres : p = 0 ∨ h'.Holds p nbytes) :
    free = [] ∧ growproc enough h.brk (4096 * hdrSize : Nat) = none := by
  have hfst := congrArg (Option.map Prod.fst) hrun
  rw [sys_mallocLoop_fst (by decide) hbrk, Option.map_some] at hfst
  have hfresh := userSbrk_fresh enough
  -- a block of one unit is a header only
  have hblock : ∀ (b : Block) (h'' : Heap) (free' : List Block), p = b.addr + hdrSize → h' = h'' →
      b.size = 1 → Sound h'' free' (b :: live) → False := by
    intro b h'' free' hp hh hsize hs'
    subst hh
    have hne : p ≠ 0 := by
      simp only [hdrSize] at hp
      omega
    obtain ⟨c, hc, hcsize, hfit, -⟩ := hres.resolve_left hne
    have hcb : c.addr = b.addr := by omega
    rw [hcb, hs'.sizes b (by simp), hsize] at hcsize
    simp only [Block.stop, hcsize, hdrSize] at *
    omega
  have hmax : 1 * hdrSize < 2 ^ 31 := by decide
  have hfree : free = [] := by
    by_contra hne
    obtain ⟨c, l, rfl⟩ := List.exists_cons_of_ne_nil hne
    have hc := hs.blocks.nonempty c (by simp)
    obtain ⟨b, h'', free', hrun', hsize, hs', -⟩ :=
      mallocLoop_take fuel (userSbrk enough) hs Nat.one_pos ⟨c, by simp, hc⟩
        (Nat.le_max_left ((c :: l).length + 1) k)
    have heq := mallocLoop_mono (Nat.le_refl fuel) (Nat.le_max_right ((c :: l).length + 1) k) hfst
    rw [hrun'] at heq
    obtain ⟨rfl, rfl⟩ := Prod.mk.inj (Option.some.inj heq)
    exact hblock b h'' free' rfl rfl hsize hs'
  refine ⟨hfree, ?_⟩
  subst hfree
  cases hgrow : growproc enough h.brk (4096 * hdrSize : Nat) with
  | none => rfl
  | some sz =>
      exfalso
      have heq := mallocLoop_mono (Nat.le_succ fuel) (Nat.le_max_right 4 k) hfst
      rcases mallocLoop_spec hs hnull hfresh Nat.one_pos hmax (fuel.succ_pos)
        (Nat.le_max_left 4 k) with ⟨b, h'', free', hrun', hsize, hs', -⟩ | hrun'
      · rw [hrun'] at heq
        obtain ⟨rfl, rfl⟩ := Prod.mk.inj (Option.some.inj heq)
        exact hblock b h'' free' rfl rfl hsize hs'
      · rw [hrun'] at heq
        obtain ⟨rfl, rfl⟩ := Prod.mk.inj (Option.some.inj heq)
        have hgot : userSbrk enough h.brk (4096 * hdrSize) = some h.brk := by
          rw [userSbrk, if_pos ⟨hbrk, by decide, by decide⟩, hgrow]
          rfl
        exact Nat.lt_irrefl _ (hs.search_grows hfresh hgot hfst)

theorem nunits_wrapped (hlo : 2 ^ 32 ≤ nbytes + 7) (hhi : nbytes < 2 ^ 32) : nunits nbytes = 1 := by
  simp only [nunits, uint, hdrSize]
  omega

/-- **When one call is right.** -/
theorem Inv.right_iff (h : Inv s) (hbrk : s.heap.brk < kernBase) (hn : nbytes < 2 ^ 32) :
    Right s.heap nbytes enough ↔ Safe s.heap nbytes enough := by
  by_cases hsmall : nbytes + 16 ≤ 2 ^ 31
  · exact iff_of_true (h.right_of_small hbrk hsmall) (Or.inl hsmall)
  by_cases hwrap : nbytes + 7 < 2 ^ 32
  · refine iff_of_false (h.not_right_of_large hbrk (by omega) hwrap) fun hsafe => ?_
    rcases hsafe with hsafe | ⟨hsafe, -⟩ <;> omega
  obtain ⟨heap, free, hopened, hs, -, hbase, hbrk'⟩ := h.opened
  have hunits := nunits_wrapped (Nat.le_of_not_lt hwrap) hn
  constructor
  · intro hright
    obtain ⟨fuel, p, h', calls, hrun, hres, -⟩ := hright
    rw [Sys.malloc, ← hopened, hunits] at hrun
    obtain ⟨hfree, hgrow⟩ :=
      hs.null_of_one (hbase ▸ h.null) (hbrk' ▸ hbrk) (by omega) hrun hres
    exact Or.inr ⟨Nat.le_of_not_lt hwrap, (h.empty_iff hopened hs).2 hfree, hbrk' ▸ hgrow⟩
  · intro hsafe
    obtain ⟨-, hempty, hgrow⟩ := hsafe.resolve_left hsmall
    obtain rfl := (h.empty_iff hopened hs).1 hempty
    refine ⟨1, 0, heap, [((4096 * hdrSize : Nat) : Int)], ?_, Or.inl rfl, ?_⟩
    · rw [Sys.malloc, ← hopened, hunits]
      exact hs.search_empty (hbrk' ▸ hgrow) 1 0
    · intro n hmem
      rw [List.mem_singleton.1 hmem]
      exact Int.natCast_nonneg _

/-- A safe call keeps the heap in order. -/
theorem Inv.sys_malloc (h : Inv s) (hbrk : s.heap.brk < kernBase) (hn : nbytes < 2 ^ 32)
    (hsafe : Safe s.heap nbytes enough) {p : Nat} {h' : Heap} {calls : List Int}
    (hrun : Sys.malloc fuel nbytes enough s.heap = some ((p, h'), calls)) :
    Inv (s.hand nbytes p h') := by
  by_cases hsmall : nbytes + 16 ≤ 2 ^ 31
  · have hmax : ((nbytes + 7) / 8 + 1) * hdrSize < 2 ^ 31 := by
      simp only [hdrSize]
      omega
    have hfst : (Sys.malloc fuel nbytes enough s.heap).map Prod.fst =
        Umalloc.malloc fuel nbytes (userSbrk enough) s.heap := sys_malloc_fst (by rwa [nunits_eq hmax]) hbrk
    rw [hrun] at hfst
    refine h.step (e := .malloc nbytes (userSbrk enough)) ⟨⟨hmax, userSbrk_fresh enough⟩, fuel, ?_⟩
    rw [State.next, ← hfst]
    rfl
  · obtain ⟨heap, free, hopened, hs, hserved, hbase, hbrk'⟩ := h.opened
    obtain ⟨hwrap, hempty, hgrow⟩ := hsafe.resolve_left hsmall
    obtain rfl := (h.empty_iff hopened hs).1 hempty
    rw [Sys.malloc, ← hopened, nunits_wrapped hwrap hn] at hrun
    cases fuel with
    | zero => cases hrun
    | succ fuel =>
        rw [hs.search_empty (hbrk' ▸ hgrow)] at hrun
        obtain ⟨⟨rfl, rfl⟩, -⟩ : (0 = p ∧ heap = h') ∧ _ := by simpa using hrun
        exact Inv.of_sound (hbase ▸ h.null) hs hserved

/-- More memory does not matter. -/
theorem Inv.raise (h : Inv s) {brk : Nat} (hle : s.heap.brk ≤ brk) (htop : brk < 2 ^ 32) :
    Inv { s with heap := { s.heap with brk := brk } } := by
  refine ⟨h.null, Nat.le_trans h.brk hle, htop, ?_⟩
  rcases h.heap with hnone | ⟨free, hs, hserved⟩
  · exact Or.inl hnone
  · refine Or.inr ⟨free, ?_, hserved⟩
    exact ⟨hs.cycle, hs.freep, hs.increasing, hs.sizes, hs.blocks,
      fun b hb => ⟨(hs.inside b hb).1, Nat.le_trans (hs.inside b hb).2 hle⟩,
      Nat.le_trans hs.top.1 hle, htop⟩

end Call

/-! ## The runs of a program -/

/-- What holds between safe steps. -/
def Small (s : State) : Prop := Inv s ∧ s.heap.brk < kernBase

section Runs

variable {s s' : State} {e : Use}

theorem Small.step (h : Small s) (hs : SafeStep s e s') : Small s' := by
  obtain ⟨hvalid, hsafe, fuel, hrun⟩ := hs
  obtain ⟨hinv, hbrk⟩ := h
  cases e with
  | malloc nbytes enough =>
      obtain ⟨⟨⟨p, h'⟩, calls⟩, hmalloc, rfl⟩ := Option.map_eq_some_iff.1 hrun
      refine ⟨hinv.sys_malloc hbrk hvalid (hsafe nbytes enough rfl) hmalloc, ?_⟩
      have hbrk' := sys_malloc_brk hbrk hmalloc
      simp only [State.hand]
      split <;> exact hbrk'
  | free ap =>
      refine ⟨hinv.step (e := .free ap) ⟨hvalid, fuel, hrun⟩, ?_⟩
      obtain ⟨h', hfree, rfl⟩ := Option.map_eq_some_iff.1 hrun
      exact free_brk hfree ▸ hbrk
  | write a v =>
      refine ⟨hinv.step (e := .write a v) ⟨hvalid, fuel, hrun⟩, ?_⟩
      obtain rfl := Option.some.inj hrun
      exact hbrk
  | sbrk n enough =>
      obtain rfl := Option.some.inj hrun
      have hgrown : s.heap.brk ≤ (growproc enough s.heap.brk n).getD s.heap.brk ∧
          (growproc enough s.heap.brk n).getD s.heap.brk < kernBase := by
        cases hgrow : growproc enough s.heap.brk n with
        | none => exact ⟨Nat.le_refl _, hbrk⟩
        | some sz =>
            refine ⟨?_, growproc_lt hbrk hgrow⟩
            rcases Nat.eq_zero_or_pos n with rfl | hn
            · exact Nat.le_of_eq (Option.some.inj (growproc_zero.symm.trans hgrow))
            · exact Nat.le.intro (growproc_pos hbrk hn hvalid hgrow).symm
      refine ⟨hinv.raise hgrown.1 ?_, hgrown.2⟩
      exact Nat.lt_trans hgrown.2 (by decide)

/-- **When `malloc` is right, for every size.** In every state of a program whose requests have been
    safe, the next call returns the null pointer or a block that is large enough, and asks for no
    negative amount of memory, if and only if it is safe too. -/
theorem malloc_right_iff {s₀ : State} {tr : List (State × Use)} (h₀ : Start s₀)
    (hbrk : s₀.heap.brk < kernBase) (hrun : Run SafeStep s₀ tr s) {nbytes : Nat}
    (hn : nbytes < 2 ^ 32) (enough : Nat → Nat → Bool) :
    Right s.heap nbytes enough ↔ Safe s.heap nbytes enough := by
  have hsmall : Along Small tr s :=
    hrun.invariant ⟨Inv.of_start h₀, hbrk⟩ fun _ _ _ h hs => h.step hs
  exact hsmall.2.1.right_iff hsmall.2.2 hn

theorem started_start : Start started := ⟨by decide, by decide, by decide, rfl, rfl, rfl⟩

/-- The first call, for ten bytes. -/
theorem malloc_right_iff_first : Right started.heap 10 fun _ _ => true :=
  (malloc_right_iff started_start (by decide) Run.nil (by decide) _).2 (Or.inl (by decide))

/-- The first call, for `0xffffffff` bytes, gets a block of none. -/
theorem malloc_wraps :
    Start started ∧ Run SafeStep started [] started ∧
      ¬ Right started.heap 0xffffffff fun _ _ => true := by
  refine ⟨started_start, Run.nil, ?_⟩
  rw [(Inv.of_start started_start).right_iff (by decide) (by decide)]
  rintro (hsafe | ⟨-, -, hgrow⟩)
  · exact absurd hsafe (by decide)
  · exact absurd hgrow (by decide)

end Runs

end Cs350.Umalloc
