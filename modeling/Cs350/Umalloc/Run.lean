import Cs350.Umalloc.Malloc

set_option autoImplicit false

/-! # The heap in every run of a program -/

namespace Cs350.Umalloc

open Transition

/-! ## More fuel does not change the result -/

section Mono

variable {fuel fuel' : Nat} {h : Heap} {sbrk : Nat → Nat → Option Nat}

theorem free_mono {ap : Nat} {h' : Heap} (hle : fuel ≤ fuel') (hrun : free fuel ap h = some h') :
    free fuel' ap h = some h' := by
  obtain ⟨p, hwalk, rfl⟩ := Option.map_eq_some_iff.1 hrun
  exact Option.map_eq_some_iff.2 ⟨p, walk_mono hle hwalk, rfl⟩

theorem morecore_mono {nu : Nat} {r : Nat × Heap} (hle : fuel ≤ fuel')
    (hrun : morecore fuel nu sbrk h = some r) : morecore fuel' nu sbrk h = some r := by
  rw [morecore] at hrun ⊢
  cases hgot : sbrk h.brk (uint ((if nu < 4096 then 4096 else nu) * hdrSize)) with
  | none => simpa only [hgot] using hrun
  | some p =>
      simp only [hgot] at hrun ⊢
      obtain ⟨h', hfree, rfl⟩ := Option.map_eq_some_iff.1 hrun
      rw [free_mono hle hfree, Option.map_some]

theorem mallocLoop_mono {nunits k k' prevp p : Nat} {r : Nat × Heap} (hle : fuel ≤ fuel')
    (hk : k ≤ k') (hrun : mallocLoop fuel nunits sbrk k h prevp p = some r) :
    mallocLoop fuel' nunits sbrk k' h prevp p = some r := by
  induction k generalizing h k' prevp p with
  | zero => exact nomatch hrun
  | succ k ih =>
      obtain ⟨k', rfl⟩ : ∃ j, k' = j + 1 := ⟨k' - 1, by omega⟩
      rw [mallocLoop] at hrun ⊢
      split_ifs at hrun ⊢ with hsize hend
      · exact hrun
      · obtain ⟨⟨q, h'⟩, hmore, hrest⟩ := Option.bind_eq_some_iff.1 hrun
        rw [morecore_mono hle hmore, Option.bind_some]
        simp only at hrest ⊢
        split_ifs at hrest ⊢ with hnull
        · exact hrest
        · exact ih (by omega) hrest
      · exact ih (by omega) hrun

theorem next_mono {s s' : State} {e : Event} (hle : fuel ≤ fuel') (hrun : s.next fuel e = some s') :
    s.next fuel' e = some s' := by
  cases e with
  | malloc nbytes sbrk =>
      obtain ⟨r, hmalloc, rfl⟩ := Option.map_eq_some_iff.1 hrun
      refine Option.map_eq_some_iff.2 ⟨r, ?_, rfl⟩
      exact mallocLoop_mono hle hle hmalloc
  | free ap =>
      obtain ⟨h', hfree, rfl⟩ := Option.map_eq_some_iff.1 hrun
      exact Option.map_eq_some_iff.2 ⟨h', free_mono hle hfree, rfl⟩
  | write a v => exact hrun

end Mono

/-! ## The invariant -/

/-- Every block that is handed out has room for what was asked for. -/
def Served (live : List (Block × Nat)) : Prop :=
  ∀ x ∈ live, x.1.addr + hdrSize + x.2 ≤ x.1.stop

/-- The heap is as it should be: before the first call of `malloc` there is none; then it is sound,
    and what has been handed out is large enough. -/
def HeapOk (s : State) : Prop :=
  (s.heap.freep = 0 ∧ s.heap.got = [] ∧ s.live = []) ∨
    ∃ free, Sound s.heap free (s.live.map Prod.fst) ∧ Served s.live

/-- What holds between the steps. -/
structure Inv (s : State) : Prop where
  null : 0 < s.heap.base
  brk : s.heap.base + hdrSize ≤ s.heap.brk
  top : s.heap.brk < 2 ^ 32
  heap : HeapOk s

section Step

variable {s : State}

theorem Inv.of_start (h : Start s) : Inv s :=
  ⟨h.base, h.brk, h.top, Or.inl ⟨h.freep, h.got, h.live⟩⟩

/-- The list of the first call of `malloc`: `base` alone. -/
theorem Inv.first (h : Inv s) (hgot : s.heap.got = []) :
    Sound s.heap.initList [] [] := by
  have hbase : s.heap.base < 2 ^ 32 := by
    have hbrk := h.brk
    have htop := h.top
    simp only [hdrSize] at hbrk
    omega
  have hw := wrote_setPtr (h := s.heap) (p := s.heap.base) hbase
  have hw' := wrote_setSize (h := s.heap.setPtr s.heap.base s.heap.base) (p := s.heap.base)
    (Nat.two_pow_pos 32)
  constructor
  · have hptr := hw'.ptr.trans hw.ptr
    exact (Cycle.chain_singleton _ _).2 hptr
  · exact List.mem_cons_self ..
  · simp
  · intro b hb
    obtain rfl := List.mem_singleton.1 hb
    exact hw'.size
  · refine ⟨by simp, List.Pairwise.nil, fun x => ?_⟩
    show Covers [] x ↔ Covers s.heap.got x
    rw [hgot]
  · intro b hb
    have hb : b ∈ s.heap.got := hb
    rw [hgot] at hb
    exact absurd hb List.not_mem_nil
  · exact ⟨h.brk, h.top⟩

theorem Inv.of_sound {heap : Heap} {free : List Block} {live : List (Block × Nat)}
    (hnull : 0 < heap.base) (hs : Sound heap free (live.map Prod.fst)) (hserved : Served live) :
    Inv { heap := heap, live := live } :=
  ⟨hnull, hs.top.1, hs.top.2, Or.inr ⟨free, hs, hserved⟩⟩

theorem nunits_eq {nbytes : Nat} (hmax : ((nbytes + 7) / 8 + 1) * hdrSize < 2 ^ 31) :
    nunits nbytes = (nbytes + 7) / 8 + 1 := by
  simp only [nunits, uint, hdrSize] at *
  omega

/-- The heap at the beginning of the search. -/
theorem Inv.opened (h : Inv s) :
    ∃ heap free, heap = (if s.heap.freep = 0 then s.heap.initList else s.heap) ∧
      Sound heap free (s.live.map Prod.fst) ∧ Served s.live ∧ heap.base = s.heap.base ∧
      heap.brk = s.heap.brk := by
  rcases h.heap with ⟨hfreep, hgot, hlive⟩ | ⟨free, hs, hserved⟩
  · have hfirst := h.first hgot
    exact ⟨s.heap.initList, [], (if_pos hfreep).symm, hlive ▸ hfirst, by simp [hlive, Served], rfl,
      rfl⟩
  · exact ⟨s.heap, free, (if_neg (hs.freep_ne h.null)).symm, hs, hserved, rfl, rfl⟩

/-- `malloc` returns a block with room for the bytes asked for, or the null pointer. -/
theorem Inv.malloc (h : Inv s) {nbytes : Nat} {sbrk : Nat → Nat → Option Nat}
    (hmax : ((nbytes + 7) / 8 + 1) * hdrSize < 2 ^ 31) (hfresh : Fresh sbrk) :
    ∃ fuel s', s.next fuel (.malloc nbytes sbrk) = some s' ∧ Inv s' := by
  obtain ⟨heap, free, hopened, hs, hserved, hbase, -⟩ := h.opened
  have hheap : ∀ fuel, Umalloc.malloc fuel nbytes sbrk s.heap =
      mallocLoop fuel (nunits nbytes) sbrk fuel heap heap.freep (heap.ptr heap.freep) := fun fuel => by
    rw [Umalloc.malloc, ← hopened]
  have hnunits := nunits_eq hmax
  have hnull : 0 < heap.base := hbase ▸ h.null
  rcases mallocLoop_spec hs hnull hfresh (by omega : 0 < nunits nbytes) (by rwa [hnunits])
      (by omega : free.length < 2 * free.length + 4) (Nat.lt_succ_self _) with
    ⟨b, h', free', hrun, hsize, hs', hbase'⟩ | hrun
  · refine ⟨2 * free.length + 4, { heap := h', live := (b, nbytes) :: s.live }, ?_,
      Inv.of_sound (by rwa [hbase']) hs' ?_⟩
    · have hb : h'.size b.addr = b.size := hs'.sizes b (by simp)
      have hne : b.addr + hdrSize ≠ 0 := by
        simp only [hdrSize]
        omega
      rw [State.next, hheap, hrun, Option.map_some]
      simp only [State.hand, if_neg hne, Nat.add_sub_cancel, hb]
    · intro x hx
      rcases List.mem_cons.1 hx with rfl | hx
      · simp only [Block.stop, hsize, hnunits, hdrSize]
        omega
      · exact hserved x hx
  · refine ⟨2 * free.length + 4, { s with heap := heap }, ?_, Inv.of_sound hnull hs hserved⟩
    rw [State.next, hheap, hrun, Option.map_some]
    rfl

/-- `free` of a block that is handed out returns. -/
theorem Inv.free (h : Inv s) {ap : Nat} (hp : ∃ x ∈ s.live, x.1.IsAt ap) :
    ∃ fuel s', s.next fuel (.free ap) = some s' ∧ Inv s' := by
  obtain ⟨x, hx, hat⟩ := hp
  rcases h.heap with ⟨-, -, hlive⟩ | ⟨free, hs, hserved⟩
  · rw [hlive] at hx
    exact absurd hx List.not_mem_nil
  · obtain ⟨⟨b, n⟩, l₁, l₂, -, hb, hlive, herase⟩ :=
      List.exists_of_eraseP (p := fun y : Block × Nat => decide (y.1.IsAt ap)) hx
        (decide_eq_true hat)
    have hperm : (s.live.map Prod.fst).Perm (b :: (l₁ ++ l₂).map Prod.fst) := by
      rw [hlive]
      exact List.perm_middle.map Prod.fst
    have hs := hs.perm hperm
    obtain ⟨h', free', hrun, hs', -, -, hbase, -⟩ := free_spec hs (Nat.lt_succ_self free.length)
    have hap : b.addr + hdrSize = ap := of_decide_eq_true hb
    refine ⟨free.length + 1, { heap := h', live := l₁ ++ l₂ }, ?_,
      Inv.of_sound (hbase ▸ h.null) hs' fun y hy => hserved y ?_⟩
    · rw [State.next, ← hap, hrun, Option.map_some, hap, herase]
    · rw [hlive]
      rcases List.mem_append.1 hy with hy | hy
      · exact List.mem_append_left _ hy
      · exact List.mem_append_right _ (List.mem_cons_of_mem _ hy)

/-- The program may write into its blocks. -/
theorem Inv.write (h : Inv s) {a : Nat} (v : UInt8)
    (hp : ∃ x ∈ s.live, x.1.addr + hdrSize ≤ a ∧ a < x.1.stop) :
    Inv { s with heap := { s.heap with mem := Function.update s.heap.mem a v } } := by
  obtain ⟨x, hx, hlo, hhi⟩ := hp
  rcases h.heap with ⟨-, -, hlive⟩ | ⟨free, hs, hserved⟩
  · rw [hlive] at hx
    exact absurd hx List.not_mem_nil
  · have hmem : x.1 ∈ free ++ s.live.map Prod.fst :=
      List.mem_append_right _ (List.mem_map_of_mem hx)
    refine Inv.of_sound h.null (hs.of_headers (fun c hc => Heap.header_update ?_) rfl rfl rfl rfl)
      hserved
    by_cases hxc : x.1 = c
    · exact Or.inr (hxc ▸ hlo)
    · obtain ⟨hap, hhdr⟩ := hs.apart_of_ne hmem hc hxc
      simp only [Block.Apart, HdrApart, Block.stop, hdrSize] at *
      omega

/-- Every call returns, and keeps the invariant. -/
theorem Inv.progress (h : Inv s) {e : Event} (hp : Proper s e) :
    ∃ fuel s', s.next fuel e = some s' ∧ Inv s' := by
  cases e with
  | malloc nbytes sbrk => exact h.malloc hp.1 hp.2
  | free ap => exact h.free hp
  | write a v => exact ⟨0, _, rfl, h.write v hp⟩

theorem Inv.step (h : Inv s) {s' : State} {e : Event} (hs : Step s e s') : Inv s' := by
  obtain ⟨hp, fuel, hrun⟩ := hs
  obtain ⟨fuel', s'', hrun', hinv⟩ := h.progress hp
  have heq := next_mono (Nat.le_max_left fuel fuel') hrun
  rw [next_mono (Nat.le_max_right fuel fuel') hrun'] at heq
  exact Option.some.inj heq ▸ hinv

end Step

/-- **The heap in every run.** For every sequence of calls, the heap is as it should be in every
    state, and the next call returns. -/
theorem heap_ok {s₀ s : State} {tr : List (State × Event)} (h₀ : Start s₀)
    (hrun : Run Step s₀ tr s) :
    Along HeapOk tr s ∧ ∀ e, Proper s e → ∃ s', Step s e s' := by
  have hinv : Along Inv tr s := hrun.invariant (Inv.of_start h₀) fun _ _ _ h hs => h.step hs
  refine ⟨⟨fun x hx => (hinv.1 x hx).heap, hinv.2.heap⟩, fun e hp => ?_⟩
  obtain ⟨fuel, s', hnext, -⟩ := hinv.2.progress hp
  exact ⟨s', hp, fuel, hnext⟩

/-- An `sbrk` that gives what comes next. -/
def plainSbrk (brk n : Nat) : Option Nat := if brk + n < 2 ^ 32 then some brk else none

theorem plainSbrk_fresh : Fresh plainSbrk := by
  intro brk n p h
  obtain ⟨hlt, heq⟩ := Option.ite_none_right_eq_some.1 h
  obtain rfl := Option.some.inj heq
  exact ⟨Nat.le_refl _, hlt⟩

/-- A program that starts. -/
def started : State where
  heap := { mem := fun _ => 0, base := 4096, freep := 0, brk := 8192, got := [] }
  live := []

/-- The state after a call. -/
def State.after (s : State) (e : Event) : State := (s.next 8 e).getD s

theorem step_after {s : State} {e : Event} (hp : Proper s e) (hrun : (s.next 8 e).isSome) :
    Step s e (s.after e) := by
  obtain ⟨s', hs'⟩ := Option.isSome_iff_exists.1 hrun
  refine ⟨hp, 8, ?_⟩
  rw [State.after, hs', Option.getD_some]

/-- Two blocks are handed out, and the first one is given back. -/
def oneLeft : State :=
  ((started.after (.malloc 10 plainSbrk)).after (.malloc 20 plainSbrk)).after (.free 40944)

theorem heap_ok_two :
    ∃ tr, Run Step started tr oneLeft ∧ oneLeft.live = [(⟨40904, 4⟩, 20)] ∧
      Along HeapOk tr oneLeft ∧ ∃ s', Step oneLeft (.free 40912) s' := by
  have h₁ : Step started (.malloc 10 plainSbrk) _ :=
    step_after ⟨by decide, plainSbrk_fresh⟩ (by decide +kernel)
  have h₂ : Step (started.after (.malloc 10 plainSbrk)) (.malloc 20 plainSbrk) _ :=
    step_after ⟨by decide, plainSbrk_fresh⟩ (by decide +kernel)
  have hlive₂ : ((started.after (.malloc 10 plainSbrk)).after (.malloc 20 plainSbrk)).live =
      [(⟨40904, 4⟩, 20), (⟨40936, 3⟩, 10)] := by
    decide +kernel
  have h₃ : Step ((started.after (.malloc 10 plainSbrk)).after (.malloc 20 plainSbrk))
      (.free 40944) oneLeft :=
    step_after ⟨(⟨40936, 3⟩, 10), by simp [hlive₂], rfl⟩ (by decide +kernel)
  have hlive : oneLeft.live = [(⟨40904, 4⟩, 20)] := by decide +kernel
  have hrun := ((Run.nil.snoc h₁).snoc h₂).snoc h₃
  have hstart : Start started := ⟨by decide, by decide, by decide, rfl, rfl, rfl⟩
  obtain ⟨halong, hnext⟩ := heap_ok hstart hrun
  exact ⟨_, hrun, hlive, halong, hnext _ ⟨(⟨40904, 4⟩, 20), by simp [hlive], rfl⟩⟩

end Cs350.Umalloc
