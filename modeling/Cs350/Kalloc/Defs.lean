import Cs350.Lib.Threaded
import Cs350.Lib.Transition
import Cs350.Vm.Defs

set_option autoImplicit false

/-! # The page allocator (`kalloc.c`), down to the bytes

The free pages are threaded through their own first words. Addresses are those of the kernel's
virtual memory; `fin` is `end`, the first address after the kernel. `kmem.lock` is left out: each
function is one step. -/

namespace Cs350.Kalloc

open Vm (uint pgSize pgRoundUp kernBase phyStop)

inductive Stop
  | panic
  /-- there are more rounds than were asked for -/
  | rounds
  deriving DecidableEq

structure Kmem where
  freelist : Nat
  mem : Mem

/-- `V2P` -/
def v2p (a : Nat) : Nat := uint (a + (2 ^ 32 - kernBase))

/-- `P2V` -/
def p2v (a : Nat) : Nat := uint (a + kernBase)

def kfree (fin v : Nat) (k : Kmem) : Except Stop Kmem :=
  if v % pgSize ≠ 0 ∨ v < fin ∨ phyStop ≤ v2p v then .error .panic
  else
    -- Fill with junk to catch dangling refs.
    .ok { freelist := v, mem := (k.mem.memset v 1 pgSize).store v 4 k.freelist }

def kalloc (k : Kmem) : Nat × Kmem :=
  let r := k.freelist
  (r, if r ≠ 0 then { k with freelist := k.mem.load r 4 } else k)

/-- The loop of `freerange`, for at most `n` rounds. -/
def freerangeLoop (fin vend : Nat) : Nat → Nat → Kmem → Except Stop Kmem
  | 0, _, _ => .error .rounds
  | n + 1, p, k =>
      if uint (p + pgSize) ≤ vend then
        match kfree fin p k with
        | .ok k => freerangeLoop fin vend n (uint (p + pgSize)) k
        | .error e => .error e
      else .ok k

/-- `freerange(vstart, vend)`, and with it `kinit1` and `kinit2`. -/
def freerange (fin vstart vend n : Nat) (k : Kmem) : Except Stop Kmem :=
  freerangeLoop fin vend n (pgRoundUp vstart) k

/-! ## The machine

The kernel asks for pages, writes in those that it has, and gives them back. `owned` and `given` are
history. -/

structure St where
  k : Kmem
  /-- the pages that the kernel has -/
  owned : Nat → Prop
  /-- the pages that `freerange` has gone over -/
  given : Nat → Prop

inductive Act
  | kinit (vstart vend : Nat)
  | kalloc (r : Nat)
  | kfree (v : Nat)
  /-- the kernel writes -/
  | write

/-- The pages between two addresses. -/
def Within (a b p : Nat) : Prop := p % pgSize = 0 ∧ a ≤ p ∧ p + pgSize ≤ b

/-- The state before `kinit1`. -/
def boot (mem : Mem) : St where
  k := ⟨0, mem⟩
  owned _ := False
  given _ := False

inductive Step (fin : Nat) : St → Act → St → Prop
  /-- the range is of memory after the kernel, and new -/
  | kinit {s : St} {vstart vend n : Nat} {k : Kmem} (hlo : fin ≤ vstart) (hle : vstart ≤ vend)
      (hhi : vend ≤ p2v phyStop) (hnew : ∀ p, s.given p → p + pgSize ≤ vstart ∨ vend ≤ p)
      (hk : freerange fin vstart vend n s.k = .ok k) :
      Step fin s (.kinit vstart vend)
        { s with k := k, given := fun p => s.given p ∨ Within vstart vend p }
  | kalloc {s : St} :
      Step fin s (.kalloc (Kalloc.kalloc s.k).1)
        { s with
          k := (Kalloc.kalloc s.k).2
          owned := fun p => s.owned p ∨ (p = (Kalloc.kalloc s.k).1 ∧ p ≠ 0) }
  /-- the kernel frees what it has got -/
  | kfree {s : St} {v : Nat} {k : Kmem} (hown : s.owned v) (hk : Kalloc.kfree fin v s.k = .ok k) :
      Step fin s (.kfree v) { s with k := k, owned := fun p => s.owned p ∧ p ≠ v }
  /-- it does not write in pages that are free -/
  | write {s : St} {mem : Mem}
      (hmem : ∀ p, s.given p → ¬s.owned p → ∀ a, p ≤ a → a < p + pgSize → mem a = s.k.mem a) :
      Step fin s .write { s with k := { s.k with mem := mem } }

end Cs350.Kalloc
