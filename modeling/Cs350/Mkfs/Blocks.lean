import Cs350.Mkfs.Format

set_option autoImplicit false

/-! # The blocks of the files on the image

`Core` is what holds of the inodes and blocks while files grow: no block is used twice, the blocks
from `freeblock` on are empty, and the first `cnt i` blocks of file `i` are there and hold the bytes
of `content i`. A block is taken for a place that is empty; then bytes are written into it. -/

namespace Cs350.Mkfs

open Block (bsize nDirect maxFile Dinode indirectAddr lblock refs Books Filled Superblock Place
  entry)

/-- The super block of the image, for the kernel. -/
def sb : Superblock := ⟨1000, 941, 200⟩

theorem isData_iff {b : Nat} : sb.IsData b ↔ nmeta ≤ b ∧ b < fsSize := Iff.rfl

/-- The free map that goes with `freeblock`. -/
def usedMap (freeblock : Nat) (b : Nat) : Bool := decide (b < freeblock)

theorem usedMap_succ (b : Nat) : usedMap (b + 1) = Function.update (usedMap b) b true := by
  funext c
  by_cases hc : c = b
  · simp [usedMap, hc]
  · have hiff : c < b + 1 ↔ c < b := by omega
    simp [usedMap, hc, hiff]

structure Core (node : Nat → Dinode) (blocks : Nat → Mem) (freeblock : Nat) (cnt : Nat → Nat)
    (content : Nat → List UInt8) : Prop where
  bounds : nmeta ≤ freeblock ∧ freeblock ≤ fsSize
  books : Books sb (usedMap freeblock) (refs node blocks)
  mapped : ∀ i, (node i).type ≠ .free → ∀ k, lblock (node i) blocks k ≠ 0 ↔ k < cnt i
  empty : ∀ b, freeblock ≤ b → b < fsSize → blocks b = zeroes
  bytes : ∀ i, (node i).type ≠ .free → ∀ k, k < cnt i → ∀ a, a < bsize →
    blocks (lblock (node i) blocks k) a = (content i).getD (k * bsize + a) 0

section Core

variable {node : Nat → Dinode} {blocks blocks' : Nat → Mem} {freeblock i k : Nat} {cnt : Nat → Nat}
  {content : Nat → List UInt8} {n' : Dinode} {p : Place}

/-- A block is taken for a place of an inode. -/
theorem Core.take (h : Core node blocks freeblock cnt content) (htype : (node i).type ≠ .free)
    (htype' : n'.type = (node i).type) (hlt : freeblock < fsSize)
    (hempty : Block.held (node i) blocks p = 0)
    (hself : ∀ q, Block.held n' blocks' q =
      if q = p then freeblock else Block.held (node i) blocks q)
    (hothers : ∀ j, j ≠ i → (node j).type ≠ .free →
      ∀ q, Block.held (node j) blocks' q = Block.held (node j) blocks q) :
    Books sb (usedMap (freeblock + 1)) (refs (Function.update node i n') blocks') := by
  have hpos : freeblock ≠ 0 := by
    have hb := h.bounds.1
    have hmeta : 0 < nmeta := by decide
    omega
  rw [Block.refs_update n' htype htype' hself hothers, usedMap_succ,
    Block.addr?_eq_some.2 ⟨rfl, hpos⟩]
  refine Books.take h.books (isData_iff.2 ⟨h.bounds.1, hlt⟩) (by simp [usedMap]) ?_
  rw [refs, if_neg htype]
  exact Block.addr?_eq_none.2 hempty

/-- What is recorded for the blocks of the files when a block `k` has been added to file `i`. -/
theorem Core.grow (n' : Dinode) (blocks' : Nat → Mem) (h : Core node blocks freeblock cnt content)
    (htype : (node i).type ≠ .free)
    (htype' : n'.type = (node i).type) (hlt : freeblock < fsSize) (hk : cnt i = k)
    (hself : ∀ q, Block.held n' blocks' q =
      if q = .block k then freeblock else Block.held (node i) blocks q)
    (hothers : ∀ j, j ≠ i → (node j).type ≠ .free →
      ∀ q, Block.held (node j) blocks' q = Block.held (node j) blocks q)
    (hdata : ∀ b, b = freeblock ∨ (∃ j, (node j).type ≠ .free ∧ ∃ m, lblock (node j) blocks m = b ∧
      b ≠ 0) ∨ freeblock < b → blocks' b = blocks b)
    (hlen : (content i).length ≤ k * bsize) :
    Core (Function.update node i n') blocks' (freeblock + 1) (Function.update cnt i (k + 1))
      content := by
  have hpos : freeblock ≠ 0 := by
    have hb := h.bounds.1
    have hmeta : 0 < nmeta := by decide
    omega
  have hnone : Block.held (node i) blocks (.block k) = 0 := by
    have hnot := (h.mapped i htype k).not.2 (by omega)
    simpa [Block.held] using hnot
  have hl : ∀ m, lblock n' blocks' m = if m = k then freeblock else lblock (node i) blocks m := by
    intro m
    have hm := hself (.block m)
    simpa [Block.held] using hm
  refine ⟨⟨by have hb := h.bounds.1; omega, hlt⟩, h.take htype htype' hlt hnone hself hothers,
    fun j hj m => ?_, fun b hb hb' => ?_, fun j hj m hm a ha => ?_⟩
  · by_cases hji : j = i
    · subst hji
      rw [Function.update_self, Function.update_self, hl]
      have hmap := h.mapped j htype m
      by_cases hmk : m = k
      · simp [hmk, hpos]
      · rw [if_neg hmk, hmap]
        omega
    · rw [Function.update_of_ne hji] at hj
      rw [Function.update_of_ne hji, Function.update_of_ne hji]
      have hsame : lblock (node j) blocks' m = lblock (node j) blocks m := hothers j hji hj (.block m)
      rw [hsame]
      exact h.mapped j hj m
  · rw [hdata b (Or.inr (Or.inr (by omega)))]
    exact h.empty b (by omega) hb'
  · have hold : ∀ j, (node j).type ≠ .free → m < cnt j →
        blocks' (lblock (node j) blocks m) a = (content j).getD (m * bsize + a) 0 := by
      intro j hj hm
      rw [hdata _ (Or.inr (Or.inl ⟨j, hj, m, rfl, (h.mapped j hj m).2 hm⟩))]
      exact h.bytes j hj m hm a ha
    by_cases hji : j = i
    · subst hji
      rw [Function.update_self, hl]
      rw [Function.update_self] at hm
      by_cases hmk : m = k
      · rw [if_pos hmk, hdata freeblock (Or.inl rfl), h.empty freeblock (Nat.le_refl _) hlt, hmk,
          List.getD_eq_getElem?_getD, List.getElem?_eq_none (by omega)]
        rfl
      · rw [if_neg hmk]
        exact hold j htype (by omega)
    · rw [Function.update_of_ne hji] at hj hm
      rw [Function.update_of_ne hji]
      have hsame : lblock (node j) blocks' m = lblock (node j) blocks m := hothers j hji hj (.block m)
      rw [hsame]
      exact hold j hj hm

theorem Core.takeDirect (h : Core node blocks freeblock cnt content)
    (htype : (node i).type ≠ .free) (hlt : freeblock < fsSize) (hcnt : cnt i = k) (hk : k < nDirect)
    (hlen : (content i).length ≤ k * bsize) :
    Core (Function.update node i ((node i).setAddr (Fin.castSucc ⟨k, hk⟩) freeblock)) blocks
      (freeblock + 1) (Function.update cnt i (k + 1)) content :=
  h.grow _ blocks htype rfl hlt hcnt (fun q => Block.held_setAddr ⟨k, hk⟩ freeblock q)
    (fun _ _ _ _ => rfl)
    (fun _ _ => rfl) hlen

/-- The address of an indirect block. -/
theorem Core.indirect_owned (h : Core node blocks freeblock cnt content)
    (htype : (node i).type ≠ .free) (hind : (node i).addrs indirectAddr ≠ 0) :
    refs node blocks (i, .indirect) = some ((node i).addrs indirectAddr) ∧
      nmeta ≤ (node i).addrs indirectAddr ∧ (node i).addrs indirectAddr < freeblock := by
  have hown : refs node blocks (i, .indirect) = some ((node i).addrs indirectAddr) :=
    Block.refs_of_held htype hind
  exact ⟨hown, (isData_iff.1 (h.books.within _ _ hown)).1,
    of_decide_eq_true (h.books.used_of_own hown)⟩

theorem Core.block_owned (h : Core node blocks freeblock cnt content)
    (htype : (node i).type ≠ .free) (hk : k < cnt i) :
    refs node blocks (i, .block k) = some (lblock (node i) blocks k) ∧
      nmeta ≤ lblock (node i) blocks k ∧ lblock (node i) blocks k < freeblock := by
  have hown : refs node blocks (i, .block k) = some (lblock (node i) blocks k) :=
    Block.refs_of_held htype ((h.mapped i htype k).2 hk)
  exact ⟨hown, (isData_iff.1 (h.books.within _ _ hown)).1,
    of_decide_eq_true (h.books.used_of_own hown)⟩

/-- A block is taken for the addresses of the blocks of a file. -/
theorem Core.takeIndirect (h : Core node blocks freeblock cnt content)
    (htype : (node i).type ≠ .free) (hlt : freeblock < fsSize)
    (hnone : (node i).addrs indirectAddr = 0) :
    Core (Function.update node i ((node i).setAddr indirectAddr freeblock)) blocks (freeblock + 1)
      cnt content := by
  have hzero : ∀ j, entry (blocks freeblock) j = 0 := by
    intro j
    rw [h.empty freeblock (Nat.le_refl _) hlt]
    exact load_zeroes _ _
  have hself : ∀ q, Block.held ((node i).setAddr indirectAddr freeblock) blocks q =
      if q = .indirect then freeblock else Block.held (node i) blocks q :=
    Block.held_setIndirect hnone hzero
  have hl : ∀ m, lblock ((node i).setAddr indirectAddr freeblock) blocks m =
      lblock (node i) blocks m := by
    intro m
    have hm := hself (.block m)
    simpa [Block.held] using hm
  have hall : ∀ j m, lblock (Function.update node i ((node i).setAddr indirectAddr freeblock) j) blocks
      m = lblock (node j) blocks m := by
    intro j m
    by_cases hji : j = i
    · rw [hji, Function.update_self, hl]
    · rw [Function.update_of_ne hji]
  have htypes : ∀ j, (Function.update node i ((node i).setAddr indirectAddr freeblock) j).type =
      (node j).type := by
    intro j
    by_cases hji : j = i
    · rw [hji, Function.update_self]
      rfl
    · rw [Function.update_of_ne hji]
  refine ⟨⟨by have hb := h.bounds.1; omega, hlt⟩, h.take (p := .indirect) htype rfl hlt hnone hself
    fun _ _ _ _ => rfl,
    fun j hj m => ?_, fun b hb hb' => h.empty b (by omega) hb', fun j hj m hm a ha => ?_⟩
  · rw [hall]
    exact h.mapped j (htypes j ▸ hj) m
  · rw [hall]
    exact h.bytes j (htypes j ▸ hj) m hm a ha

theorem Core.takeEntry (h : Core node blocks freeblock cnt content)
    (htype : (node i).type ≠ .free) (hlt : freeblock < fsSize) (hcnt : cnt i = k)
    (hk : nDirect ≤ k) (hmax : k < maxFile) (hind : (node i).addrs indirectAddr ≠ 0)
    (hlen : (content i).length ≤ k * bsize) :
    Core node (Function.update blocks ((node i).addrs indirectAddr)
      ((blocks ((node i).addrs indirectAddr)).store (4 * (k - nDirect)) 4 freeblock))
      (freeblock + 1) (Function.update cnt i (k + 1)) content := by
  obtain ⟨hown, hlo, hhi⟩ := h.indirect_owned htype hind
  have hgrow := h.grow (node i) (Function.update blocks ((node i).addrs indirectAddr)
    ((blocks ((node i).addrs indirectAddr)).store (4 * (k - nDirect)) 4 freeblock)) htype rfl hlt hcnt
    ?_ ?_ ?_ hlen
  · rwa [Function.update_eq_self] at hgrow
  · have hb : freeblock < 2 ^ 32 := Nat.lt_trans hlt (by decide)
    exact Block.held_store hk hmax hb hind (Function.update_self ..)
  · refine fun j hji hj => h.books.held_others (fun c hc => Or.inr ⟨.indirect, ?_⟩) hji hj
    by_cases hci : c = (node i).addrs indirectAddr
    · rw [hci]
      exact hown
    · exact absurd (Function.update_of_ne hci _ _) hc
  · intro b hb
    refine Function.update_of_ne ?_ _ _
    rcases hb with rfl | ⟨j, hj, m, rfl, hne⟩ | hgt
    · omega
    · intro heq
      have hown' : refs node blocks (j, .block m) = some (lblock (node j) blocks m) :=
        Block.refs_of_held hj hne
      rw [heq] at hown'
      exact nomatch h.books.once _ _ _ hown' hown
    · omega

/-- Bytes are written into a block of a file. -/
theorem Core.write (h : Core node blocks freeblock cnt content) (htype : (node i).type ≠ .free)
    (hk : k < cnt i) {m : Mem} {c : List UInt8}
    (hsame : ∀ j, j ≠ k → ∀ a, a < bsize → c.getD (j * bsize + a) 0 =
      (content i).getD (j * bsize + a) 0)
    (hnew : ∀ a, a < bsize → m a = c.getD (k * bsize + a) 0) :
    Core node (Function.update blocks (lblock (node i) blocks k) m) freeblock cnt
      (Function.update content i c) := by
  obtain ⟨hown, hlo, hhi⟩ := h.block_owned htype hk
  have hheld := h.books.refs_write hown m
  have hl : ∀ j, (node j).type ≠ .free → ∀ l,
      lblock (node j) (Function.update blocks (lblock (node i) blocks k) m) l =
        lblock (node j) blocks l := fun j hj l => hheld j hj (.block l)
  refine ⟨h.bounds, ?_, fun j hj l => ?_, fun b hb hb' => ?_, fun j hj l hl' a ha => ?_⟩
  · rw [Block.refs_congr (fun _ => rfl) hheld]
    exact h.books
  · rw [hl j hj]
    exact h.mapped j hj l
  · rw [Function.update_of_ne (by omega)]
    exact h.empty b hb hb'
  · rw [hl j hj]
    by_cases hji : j = i
    · subst hji
      rw [Function.update_self]
      by_cases hlk : l = k
      · rw [hlk, Function.update_self]
        exact hnew a ha
      · have hne : lblock (node j) blocks l ≠ lblock (node j) blocks k := by
          intro heq
          have hownl := (h.block_owned hj hl').1
          rw [heq] at hownl
          have hplace := h.books.once _ _ _ hownl hown
          exact hlk (by simpa using hplace)
        rw [Function.update_of_ne hne, hsame l hlk a ha]
        exact h.bytes j hj l hl' a ha
    · have hne : lblock (node j) blocks l ≠ lblock (node i) blocks k := by
        intro heq
        have hownl := (h.block_owned hj hl').1
        rw [heq] at hownl
        have hplace := h.books.once _ _ _ hownl hown
        exact hji (congrArg Prod.fst hplace)
      rw [Function.update_of_ne hne, Function.update_of_ne hji]
      exact h.bytes j hj l hl' a ha

end Core

end Cs350.Mkfs
