import Cs350.Umalloc.Run

set_option autoImplicit false

/-! # Requests of every size

`malloc` with the system call under it: `sbrk` is that of the kernel, an `int` goes in, and the
calls are written down. The size of a request is any 32-bit number, and the arithmetic on it wraps
in three places: the sum `nbytes + sizeof(Header) - 1`, the product `nu * sizeof(Header)`, and the
conversion of the product to the `int` that `sbrk` takes. -/

namespace Cs350.Umalloc

open Transition

/-! ## The system call -/

/-- The `int` that the bits of a `uint` are. -/
def toInt (x : Nat) : Int := if x < 2 ^ 31 then x else (x : Int) - 2 ^ 32

/-- `KERNBASE` -/
def kernBase : Nat := 2 ^ 31

/-- `allocuvm(pgdir, oldsz, newsz)`; `enough` says if the memory is there, and 0 is a failure. -/
def allocuvm (enough : Nat → Nat → Bool) (oldsz newsz : Nat) : Nat :=
  if newsz ≥ kernBase then 0
  else if newsz < oldsz then oldsz
  else if enough oldsz newsz then newsz else 0

/-- `deallocuvm(pgdir, oldsz, newsz)` -/
def deallocuvm (oldsz newsz : Nat) : Nat := if newsz ≥ oldsz then oldsz else newsz

/-- `growproc(n)`: the new size of a process of size `sz`; `none` is -1. -/
def growproc (enough : Nat → Nat → Bool) (sz : Nat) (n : Int) : Option Nat :=
  if n > 0 then
    let sz := allocuvm enough sz (uint (sz + n.toNat))
    if sz = 0 then none else some sz
  else if n < 0 then
    let sz := deallocuvm sz (uint (sz + (2 ^ 32 - n.natAbs)))
    if sz = 0 then none else some sz
  else some sz

/-! ## The allocator on the system call -/

namespace Sys

/-- `morecore`, with the calls of `sbrk`. The old size of the process is where the new memory is. -/
def morecore (fuel nu : Nat) (enough : Nat → Nat → Bool) (h : Heap) :
    Option ((Nat × Heap) × List Int) :=
  let nu := if nu < 4096 then 4096 else nu
  let n := toInt (uint (nu * hdrSize))
  match growproc enough h.brk n with
  | none => some ((0, h), [n])
  | some sz =>
      let p := h.brk
      let h := { h with brk := sz, got := ⟨p, nu⟩ :: h.got }
      (Umalloc.free fuel (uint (p + hdrSize)) (h.setSize p nu)).map fun h => ((h.freep, h), [n])

/-- The loop of `malloc`, with the calls of `sbrk`. -/
def mallocLoop (fuel nunits : Nat) (enough : Nat → Nat → Bool) :
    Nat → Heap → Nat → Nat → Option ((Nat × Heap) × List Int)
  | 0, _, _, _ => none
  | k + 1, h, prevp, p =>
      if h.size p ≥ nunits then some (take h prevp p nunits, [])
      else if p = h.freep then
        (morecore fuel nunits enough h).bind fun ((p, h), calls) =>
          if p = 0 then some ((0, h), calls)
          else (mallocLoop fuel nunits enough k h p (h.ptr p)).map fun (r, rest) => (r, calls ++ rest)
      else mallocLoop fuel nunits enough k h p (h.ptr p)

/-- `malloc`, with the calls of `sbrk`. -/
def malloc (fuel nbytes : Nat) (enough : Nat → Nat → Bool) (h : Heap) :
    Option ((Nat × Heap) × List Int) :=
  let h := if h.freep = 0 then h.initList else h
  mallocLoop fuel (nunits nbytes) enough fuel h h.freep (h.ptr h.freep)

end Sys

/-! ## Statements -/

/-- The block at `p` has room for `nbytes`, in the memory of the process. -/
def Heap.Holds (h : Heap) (p nbytes : Nat) : Prop :=
  ∃ b : Block, b.addr + hdrSize = p ∧ b.size = h.size b.addr ∧ p + nbytes ≤ b.stop ∧
    b.stop ≤ h.brk

/-- The call returns the null pointer or a block that is large enough, and memory is never asked for
    by a negative number of bytes. -/
def Right (h : Heap) (nbytes : Nat) (enough : Nat → Nat → Bool) : Prop :=
  ∃ fuel p h' calls, Sys.malloc fuel nbytes enough h = some ((p, h'), calls) ∧
    (p = 0 ∨ h'.Holds p nbytes) ∧ ∀ n ∈ calls, 0 ≤ n

/-- There is no block on the free list. -/
def Heap.Empty (h : Heap) : Prop := h.freep = 0 ∨ h.ptr h.base = h.base

/-- No part of the arithmetic wraps, or the request has become one of no bytes that cannot be
    served. -/
def Safe (h : Heap) (nbytes : Nat) (enough : Nat → Nat → Bool) : Prop :=
  nbytes + 16 ≤ 2 ^ 31 ∨
    2 ^ 32 ≤ nbytes + 7 ∧ h.Empty ∧ growproc enough h.brk (4096 * hdrSize : Nat) = none

/-! ## The program -/

inductive Use
  | malloc (nbytes : Nat) (enough : Nat → Nat → Bool)
  | free (ap : Nat)
  | write (a : Nat) (v : UInt8)
  /-- the program calls `sbrk` itself -/
  | sbrk (n : Nat) (enough : Nat → Nat → Bool)

def State.use (fuel : Nat) (s : State) : Use → Option State
  | .malloc nbytes enough =>
      (Sys.malloc fuel nbytes enough s.heap).map fun ((p, h), _) => s.hand nbytes p h
  | .free ap => s.next fuel (.free ap)
  | .write a v => s.next fuel (.write a v)
  | .sbrk n enough =>
      some { s with heap := { s.heap with brk := (growproc enough s.heap.brk n).getD s.heap.brk } }

/-- A request is a `uint`; what is given back or written has been handed out; the program does not
    take memory away from the allocator. -/
def Valid (s : State) : Use → Prop
  | .malloc nbytes _ => nbytes < 2 ^ 32
  | .free ap => Proper s (.free ap)
  | .write a v => Proper s (.write a v)
  | .sbrk n _ => n < 2 ^ 31

/-- A step of the program in which a request is safe. -/
def SafeStep (s : State) (e : Use) (s' : State) : Prop :=
  Valid s e ∧ (∀ nbytes enough, e = .malloc nbytes enough → Safe s.heap nbytes enough) ∧
    ∃ fuel, s.use fuel e = some s'

/-! ## What the kernel does with an increment -/

section Growproc

variable {enough : Nat → Nat → Bool} {sz sz' : Nat}

theorem growproc_lt {n : Int} (hsz : sz < kernBase) (h : growproc enough sz n = some sz') :
    sz' < kernBase := by
  simp only [growproc, allocuvm, deallocuvm] at h
  split_ifs at h <;> simp only [Option.some.injEq] at h <;> omega

/-- A positive increment is granted in full. -/
theorem growproc_pos {n : Nat} (hsz : sz < kernBase) (hn : 0 < n) (hmax : n < 2 ^ 31)
    (h : growproc enough sz n = some sz') : sz' = sz + n := by
  have huint : uint (sz + n) = sz + n := by
    refine Nat.mod_eq_of_lt ?_
    unfold kernBase at hsz
    omega
  simp only [growproc, allocuvm, Int.toNat_natCast, huint] at h
  split_ifs at h <;> simp only [Option.some.injEq] at h <;> omega

theorem growproc_zero : growproc enough sz 0 = some sz := rfl

end Growproc

/-- The system call as the allocator sees it, for an increment that does not wrap. -/
def userSbrk (enough : Nat → Nat → Bool) (brk n : Nat) : Option Nat :=
  if brk < kernBase ∧ 0 < n ∧ n < 2 ^ 31 then (growproc enough brk n).map fun _ => brk else none

theorem userSbrk_fresh (enough : Nat → Nat → Bool) : Fresh (userSbrk enough) := by
  intro brk n p h
  obtain ⟨⟨hbrk, -, hn⟩, h⟩ := Option.ite_none_right_eq_some.1 h
  obtain ⟨sz, -, rfl⟩ := Option.map_eq_some_iff.1 h
  unfold kernBase at hbrk
  exact ⟨Nat.le_refl _, by omega⟩

/-! ## The calls -/

/-- The increment for `nu` units. -/
def increment (nu : Nat) : Int := toInt (uint ((if nu < 4096 then 4096 else nu) * hdrSize))

theorem increment_eq {nu : Nat} (hmax : nu * hdrSize < 2 ^ 31) :
    increment nu = ((if nu < 4096 then 4096 else nu) * hdrSize : Nat) := by
  have hlt : (if nu < 4096 then 4096 else nu) * hdrSize < 2 ^ 31 := by
    split
    · decide
    · exact hmax
  rw [increment, uint, Nat.mod_eq_of_lt (by omega), toInt, if_pos hlt]

section Calls

variable {enough : Nat → Nat → Bool} {fuel nu nunits : Nat} {h : Heap} {x : (Nat × Heap) × List Int}

@[simp] theorem setPtr_brk (p v : Nat) : (h.setPtr p v).brk = h.brk := rfl

@[simp] theorem setSize_brk (p v : Nat) : (h.setSize p v).brk = h.brk := rfl

theorem linkUpper_brk (bp p : Nat) : (h.linkUpper bp p).brk = h.brk := by
  unfold Heap.linkUpper
  split_ifs <;> simp

theorem linkLower_brk (bp p : Nat) : (h.linkLower bp p).brk = h.brk := by
  unfold Heap.linkLower
  split_ifs <;> simp

theorem free_eq {ap bp : Nat} (hbp : uint (ap + (2 ^ 32 - hdrSize)) = bp) :
    free fuel ap h = (walk h.ptr (fun p => decide (h.Brackets bp p)) fuel h.freep).map fun p =>
      { (h.linkUpper bp p).linkLower bp p with freep := p } := by
  rw [free]
  simp only [hbp]

theorem with_freep_brk (p : Nat) : ({ h with freep := p } : Heap).brk = h.brk := rfl

theorem free_brk {ap : Nat} {h' : Heap} (hrun : free fuel ap h = some h') : h'.brk = h.brk := by
  obtain ⟨bp, hbp⟩ : ∃ bp, uint (ap + (2 ^ 32 - hdrSize)) = bp := ⟨_, rfl⟩
  rw [free_eq hbp] at hrun
  obtain ⟨p, -, rfl⟩ := Option.map_eq_some_iff.1 hrun
  rw [with_freep_brk, linkLower_brk, linkUpper_brk]

theorem take_brk (prevp p : Nat) : (take h prevp p nunits).2.brk = h.brk := by
  unfold take
  split_ifs <;> simp

theorem sys_morecore_calls (hrun : Sys.morecore fuel nu enough h = some x) :
    x.2 = [increment nu] := by
  rw [Sys.morecore] at hrun
  split at hrun
  · rw [← Option.some.inj hrun, increment]
  · obtain ⟨h', -, rfl⟩ := Option.map_eq_some_iff.1 hrun
    rfl

theorem sys_morecore_brk (hbrk : h.brk < kernBase) (hrun : Sys.morecore fuel nu enough h = some x) :
    x.1.2.brk < kernBase := by
  rw [Sys.morecore] at hrun
  split at hrun
  · rwa [← Option.some.inj hrun]
  · rename_i sz hsz
    obtain ⟨h', hfree, rfl⟩ := Option.map_eq_some_iff.1 hrun
    have hsame := free_brk hfree
    exact hsame ▸ growproc_lt hbrk hsz

theorem sys_morecore_fst (hbrk : h.brk < kernBase) (hmax : nu * hdrSize < 2 ^ 31) :
    (Sys.morecore fuel nu enough h).map Prod.fst = morecore fuel nu (userSbrk enough) h := by
  have hinc := increment_eq hmax
  have hlt : (if nu < 4096 then 4096 else nu) * hdrSize < 2 ^ 31 := by
    split
    · decide
    · exact hmax
  have hpos : 0 < (if nu < 4096 then 4096 else nu) * hdrSize := by
    split <;> simp only [hdrSize] at * <;> omega
  have huint : uint ((if nu < 4096 then 4096 else nu) * hdrSize) =
      (if nu < 4096 then 4096 else nu) * hdrSize := Nat.mod_eq_of_lt (by omega)
  rw [increment, huint] at hinc
  rw [Sys.morecore, Umalloc.morecore]
  simp only [huint, hinc, userSbrk, if_pos (And.intro hbrk (And.intro hpos hlt))]
  cases hgrow : growproc enough h.brk ((if nu < 4096 then 4096 else nu) * hdrSize : Nat) with
  | none => rfl
  | some sz =>
      rw [growproc_pos hbrk hpos hlt hgrow]
      simp only [Option.map_some, Option.map_map]
      rfl

/-- All calls are for the same increment. -/
theorem sys_mallocLoop_calls {k prevp p : Nat}
    (hrun : Sys.mallocLoop fuel nunits enough k h prevp p = some x) :
    ∀ n ∈ x.2, n = increment nunits := by
  induction k generalizing h prevp p x with
  | zero => exact nomatch hrun
  | succ k ih =>
      rw [Sys.mallocLoop] at hrun
      split_ifs at hrun with hsize hend
      · simp [← Option.some.inj hrun]
      · obtain ⟨⟨⟨q, h'⟩, calls⟩, hmore, hrun⟩ := Option.bind_eq_some_iff.1 hrun
        have hcalls := sys_morecore_calls hmore
        simp only at hrun hcalls
        split_ifs at hrun with hnull
        · simp [← Option.some.inj hrun, hcalls]
        · obtain ⟨⟨r, rest⟩, hrest, rfl⟩ := Option.map_eq_some_iff.1 hrun
          simpa [hcalls] using ih hrest
      · exact ih hrun

theorem sys_mallocLoop_brk {k prevp p : Nat} (hbrk : h.brk < kernBase)
    (hrun : Sys.mallocLoop fuel nunits enough k h prevp p = some x) : x.1.2.brk < kernBase := by
  induction k generalizing h prevp p x with
  | zero => exact nomatch hrun
  | succ k ih =>
      rw [Sys.mallocLoop] at hrun
      split_ifs at hrun with hsize hend
      · rwa [← Option.some.inj hrun, take_brk]
      · obtain ⟨⟨⟨q, h'⟩, calls⟩, hmore, hrun⟩ := Option.bind_eq_some_iff.1 hrun
        have hbrk' := sys_morecore_brk hbrk hmore
        simp only at hrun hbrk'
        split_ifs at hrun with hnull
        · rwa [← Option.some.inj hrun]
        · obtain ⟨⟨r, rest⟩, hrest, rfl⟩ := Option.map_eq_some_iff.1 hrun
          have hrec := ih hbrk' hrest
          exact hrec
      · exact ih hbrk hrun

/-- Where no increment wraps, this is the allocator on an `sbrk` that gives fresh memory. -/
theorem sys_mallocLoop_fst (hmax : nunits * hdrSize < 2 ^ 31) {k prevp p : Nat}
    (hbrk : h.brk < kernBase) :
    (Sys.mallocLoop fuel nunits enough k h prevp p).map Prod.fst =
      mallocLoop fuel nunits (userSbrk enough) k h prevp p := by
  induction k generalizing h prevp p with
  | zero => rfl
  | succ k ih =>
      rw [Sys.mallocLoop, Umalloc.mallocLoop]
      split_ifs with hsize hend
      · rfl
      · rw [← sys_morecore_fst hbrk hmax]
        cases hmore : Sys.morecore fuel nunits enough h with
        | none => rfl
        | some y =>
            obtain ⟨⟨q, h'⟩, calls⟩ := y
            have hbrk' := sys_morecore_brk hbrk hmore
            simp only [Option.bind_some, Option.map_some]
            split_ifs with hnull
            · rfl
            · rw [← ih hbrk', Option.map_map]
              rfl
      · exact ih hbrk

end Calls

end Cs350.Umalloc
