import Cs350.Mkfs.Blocks

set_option autoImplicit false

/-! # `iappend`

One round of the loop finds or takes the block for the next bytes and writes them. As long as the
program goes on, blocks are within the image: `rsect` ends it if they are not. If there is room for
the files on the image, it does go on. -/

namespace Cs350.Mkfs

open Block (bsize nDirect maxFile Dinode indirectAddr lblock nblocks entry memmove)
open Prog

/-- What holds if a part of the program does not end it. It ends it only if there is no room, which
    `R` stands for. -/
abbrev Ensures (R : Prop) {α : Type} (m : MkM α) (s : State) (Q : α → State → Prop) : Prop :=
  Prog.wp (fun _ => True) (fun _ => ¬ R) m s Q

theorem sector_eq {sec : Nat} (h : sec ≤ fsSize + 1) : sector sec = sec := by
  have hmod : sec * bsize % 2 ^ 32 = sec * bsize := by
    refine Nat.mod_eq_of_lt ?_
    simp only [fsSize, bsize] at *
    omega
  rw [sector, hmod, Nat.mul_div_cancel _ (by decide)]

theorem rsect_spec {R : Prop} {s : State} {sec : Nat} (h : sec ≤ fsSize + 1)
    (hroom : R → sec < s.len) :
    Ensures R (rsect sec) s fun buf s' => s' = s ∧ buf = s.blocks sec ∧ sec < s.len := by
  refine wp_get_bind (wp_ite (fun hlt => wp_pure ?_) fun hlt => wp_stop fun hR => hlt ?_)
  · rw [sector_eq h] at hlt ⊢
    exact ⟨rfl, rfl, hlt⟩
  · rw [sector_eq h]
    exact hroom hR

theorem wsect_spec {R : Prop} {s : State} {sec : Nat} {buf : Mem} (h : sec < fsSize)
    (hlen : s.len = fsSize) :
    Ensures R (wsect sec buf) s fun _ s' =>
      s' = { s with blocks := Function.update s.blocks sec buf } := by
  refine wp_modify ?_
  have hmax : max s.len (sec + 1) = s.len := by omega
  rw [sector_eq (by omega), hmax]

/-- Blocks have been added to the file `inum`, whose inode `din` has yet to be written. -/
structure Grown (s₀ : State) (node : Nat → Dinode) (inum : Nat) (din : Mem) (cnt : Nat → Nat)
    (content : Nat → List UInt8) (s : State) : Prop where
  len : s.len = fsSize
  freeinode : s.freeinode = s₀.freeinode
  metas : ∀ b, b < nmeta → s.blocks b = s₀.blocks b
  type : (node inum).type ≠ .free
  same : (dinode din).type = (node inum).type
  core : Core (Function.update node inum (dinode din)) s.blocks s.freeblock cnt content

section Grown

variable {s₀ s : State} {node : Nat → Dinode} {inum k : Nat} {din : Mem} {cnt : Nat → Nat}
  {content : Nat → List UInt8}

theorem Grown.type_ne (h : Grown s₀ node inum din cnt content s) :
    (Function.update node inum (dinode din) inum).type ≠ .free := by
  rw [Function.update_self, h.same]
  exact h.type

theorem Grown.mapped (h : Grown s₀ node inum din cnt content s) (k : Nat) :
    lblock (dinode din) s.blocks k ≠ 0 ↔ k < cnt inum := by
  have hmap := h.core.mapped inum h.type_ne k
  rwa [Function.update_self] at hmap

theorem lblock_addr (din : Mem) (blocks : Nat → Mem) (hk : k < nDirect) :
    lblock (dinode din) blocks k = addr din k := Block.lblock_direct hk

theorem Grown.direct_lt (h : Grown s₀ node inum din cnt content s) (hk : k < nDirect) :
    addr din k < fsSize := by
  rw [← lblock_addr din s.blocks hk]
  by_cases hzero : lblock (dinode din) s.blocks k = 0
  · rw [hzero]
    decide
  · have hown := (h.core.block_owned h.type_ne ((h.mapped k).1 hzero)).2.2
    rw [Function.update_self] at hown
    exact Nat.lt_of_lt_of_le hown h.core.bounds.2

/-- `freeblock++`, and the block is entered as a direct block. -/
theorem Grown.takeDirect (h : Grown s₀ node inum din cnt content s) (hlt : s.freeblock < fsSize)
    (hcnt : cnt inum = k) (hk : k < nDirect) (hlen : (content inum).length ≤ k * bsize) :
    Grown s₀ node inum (setAddr din k s.freeblock) (Function.update cnt inum (k + 1)) content
      { s with freeblock := s.freeblock + 1 } := by
  have hb : s.freeblock < 2 ^ 32 := Nat.lt_trans hlt (by decide)
  have hdin := dinode_setAddr din (Fin.castSucc ⟨k, hk⟩) hb
  have hcore := h.core.takeDirect h.type_ne hlt hcnt hk hlen
  rw [Function.update_idem, Function.update_self, ← hdin] at hcore
  refine ⟨h.len, h.freeinode, h.metas, h.type, ?_, hcore⟩
  exact (congrArg Dinode.type hdin).trans h.same

/-- `freeblock++`, and the block is entered as the indirect block. -/
theorem Grown.takeIndirect (h : Grown s₀ node inum din cnt content s) (hlt : s.freeblock < fsSize)
    (hnone : addr din nDirect = 0) :
    Grown s₀ node inum (setAddr din nDirect s.freeblock) cnt content
      { s with freeblock := s.freeblock + 1 } := by
  have hb : s.freeblock < 2 ^ 32 := Nat.lt_trans hlt (by decide)
  have hdin := dinode_setAddr din indirectAddr hb
  have hcore := h.core.takeIndirect h.type_ne hlt (by rw [Function.update_self]; exact hnone)
  rw [Function.update_idem, Function.update_self, ← hdin] at hcore
  refine ⟨h.len, h.freeinode, h.metas, h.type, ?_, hcore⟩
  exact (congrArg Dinode.type hdin).trans h.same

/-- `freeblock++`, and the block is entered into the indirect block. -/
theorem Grown.takeEntry (h : Grown s₀ node inum din cnt content s) (hlt : s.freeblock < fsSize)
    (hcnt : cnt inum = k) (hk : nDirect ≤ k) (hmax : k < maxFile) (hind : addr din nDirect ≠ 0)
    (hlen : (content inum).length ≤ k * bsize) :
    Grown s₀ node inum din (Function.update cnt inum (k + 1)) content
      { s with
        freeblock := s.freeblock + 1
        blocks := Function.update s.blocks (addr din nDirect)
          ((s.blocks (addr din nDirect)).store (4 * (k - nDirect)) 4 s.freeblock) } := by
  have hind' : (Function.update node inum (dinode din) inum).addrs indirectAddr ≠ 0 := by
    rw [Function.update_self]
    exact hind
  have hcore := h.core.takeEntry h.type_ne hlt hcnt hk hmax hind' hlen
  have hown := (h.core.indirect_owned h.type_ne hind').2.1
  rw [Function.update_self] at hcore hown
  refine ⟨h.len, h.freeinode, fun b hb => ?_, h.type, h.same, hcore⟩
  rw [← h.metas b hb]
  exact Function.update_of_ne (by
    have hown : nmeta ≤ addr din nDirect := hown
    omega) _ _

end Grown

/-! ## The block for the next bytes -/

section FileBlock

variable {R : Prop} {s₀ s : State} {node : Nat → Dinode} {inum k : Nat} {din : Mem} {cnt : Nat → Nat}
  {content : Nat → List UInt8}

theorem addr_setAddr (din : Mem) (k : Nat) {b : Nat} (hb : b ≤ fsSize) :
    addr (setAddr din k b) k = b := by
  have hlt : b < 2 ^ 32 := Nat.lt_of_le_of_lt hb (by decide)
  exact (Mem.load_store ..).trans (Nat.mod_eq_of_lt hlt)

theorem addr_setAddr_of_ne (din : Mem) {j k : Nat} (b : Nat) (h : j ≠ k) :
    addr (setAddr din k b) j = addr din j :=
  Mem.load_store_of_disjoint _ _ _ _ _ _ (by omega)

/-- Block `x` of the image is block `k` of the file. -/
structure Found (s₀ : State) (node : Nat → Dinode) (inum k : Nat) (cnt : Nat → Nat)
    (content : Nat → List UInt8) (din : Mem) (x : Nat) (s : State) : Prop where
  grown : Grown s₀ node inum din (Function.update cnt inum (k + 1)) content s
  indirect : addr din nDirect ≠ 0 ↔ nDirect < k + 1
  block : lblock (dinode din) s.blocks k = x

/-- The file has the first `k` blocks only, or block `k` too. -/
def Next (cnt : Nat → Nat) (content : Nat → List UInt8) (inum k : Nat) : Prop :=
  cnt inum = k ∧ (content inum).length ≤ k * bsize ∨ cnt inum = k + 1

theorem Next.update_eq (hcnt : cnt inum = k + 1) : Function.update cnt inum (k + 1) = cnt := by
  rw [← hcnt, Function.update_eq_self]

/-- The number of blocks of the image that `cnt` blocks of a file take. -/
def blocksFor (cnt : Nat) : Nat := if nDirect < cnt then cnt + 1 else cnt

theorem blocksFor_of_le (h : k ≤ nDirect) : blocksFor k = k := if_neg (by omega)

theorem blocksFor_of_lt (h : nDirect < k) : blocksFor k = k + 1 := if_pos h

theorem takeBlock_bind {α : Type} {f : Nat → MkM α} {Q : α → State → Prop}
    (h : Ensures R (f s.freeblock) { s with freeblock := s.freeblock + 1 } Q) :
    Ensures R (takeBlock >>= f) s Q := by
  refine wp_bind (P := fun b s' => b = s.freeblock ∧ s' = { s with freeblock := s.freeblock + 1 })
    (wp_get_bind (wp_modify_bind (wp_pure ⟨rfl, rfl⟩))) ?_
  rintro b s' ⟨rfl, rfl⟩
  exact h

/-- Either the address is there, or a block is taken for it. -/
theorem fillAddr_spec {Q : Mem → State → Prop} (hthere : addr din k ≠ 0 → Q din s)
    (htaken : addr din k = 0 →
      Q (setAddr din k s.freeblock) { s with freeblock := s.freeblock + 1 }) :
    Ensures R (fillAddr din k) s Q :=
  wp_ite (fun hzero => takeBlock_bind (wp_pure (htaken hzero))) fun hne => wp_pure (hthere hne)

/-- What `fileBlock` returns for block `k`. -/
structure Taken (R : Prop) (s₀ : State) (node : Nat → Dinode) (inum k : Nat) (cnt : Nat → Nat)
    (content : Nat → List UInt8) (s : State) (din : Mem) (x : Nat) (s' : State) : Prop where
  len : s'.len = fsSize
  le : x ≤ fsSize
  room : R → x < fsSize
  used : s'.freeblock + blocksFor (cnt inum) = s.freeblock + blocksFor (k + 1)
  found : x < fsSize → Found s₀ node inum k cnt content din x s'

/-- There is room for block `k` on the image. -/
def RoomFor (cnt : Nat → Nat) (inum k : Nat) (s : State) : Prop :=
  s.freeblock + blocksFor (k + 1) ≤ fsSize + blocksFor (cnt inum)

theorem fileBlock_direct (h : Grown s₀ node inum din cnt content s)
    (hind : addr din nDirect ≠ 0 ↔ nDirect < cnt inum) (hnext : Next cnt content inum k)
    (hroom : R → RoomFor cnt inum k s) (hk : k < nDirect) :
    Ensures R (fileBlock din k) s fun r s' => Taken R s₀ node inum k cnt content s r.1 r.2 s' := by
  have hl := lblock_addr din s.blocks hk
  rw [fileBlock, if_pos hk]
  apply wp_bind (P := fun din' s' => Taken R s₀ node inum k cnt content s din' (addr din' k) s')
  · apply fillAddr_spec
    · intro hne
      have hcnt : cnt inum = k + 1 := by
        have hlt := (h.mapped k).1 (hl ▸ hne)
        rcases hnext with hk' | hk' <;> omega
      have hlt : addr din k < fsSize := h.direct_lt hk
      refine ⟨h.len, hlt.le, fun _ => hlt, by rw [hcnt], fun _ => ⟨?_, hcnt ▸ hind, hl⟩⟩
      rw [Next.update_eq hcnt]
      exact h
    · intro hzero
      have hcnt : cnt inum = k ∧ (content inum).length ≤ k * bsize := by
        have hnot := (h.mapped k).not.1 (by simp [hl, hzero])
        rcases hnext with hk' | hk'
        · exact hk'
        · omega
      have hfor : blocksFor (k + 1) = blocksFor k + 1 := by
        rw [blocksFor_of_le (by omega), blocksFor_of_le (by omega)]
      have haddr := addr_setAddr din k h.core.bounds.2
      rw [haddr]
      refine ⟨h.len, h.core.bounds.2, fun hR => ?_, by rw [hcnt.1, hfor]; exact Nat.add_right_comm ..,
        fun hlt => ⟨h.takeDirect hlt hcnt.1 hk hcnt.2, ?_, ?_⟩⟩
      · have hfits := hroom hR
        rw [RoomFor, hcnt.1, hfor] at hfits
        omega
      · rw [addr_setAddr_of_ne din _ (by omega), hind]
        omega
      · rw [lblock_addr _ _ hk, haddr]
  · exact fun din' s' h' => wp_pure h'

/-- The indirect block of the file is there. -/
structure Indirect (R : Prop) (s₀ : State) (node : Nat → Dinode) (inum : Nat) (cnt : Nat → Nat)
    (content : Nat → List UInt8) (s : State) (din : Mem) (s' : State) : Prop where
  len : s'.len = fsSize
  ne : addr din nDirect ≠ 0
  le : addr din nDirect ≤ fsSize
  room : R → addr din nDirect < fsSize
  used : s'.freeblock + (if nDirect < cnt inum then 1 else 0) = s.freeblock + 1
  grown : addr din nDirect < fsSize → Grown s₀ node inum din cnt content s'

theorem fillAddr_indirect (h : Grown s₀ node inum din cnt content s)
    (hind : addr din nDirect ≠ 0 ↔ nDirect < cnt inum)
    (hroom : R → ¬ nDirect < cnt inum → s.freeblock < fsSize) :
    Ensures R (fillAddr din nDirect) s fun din' s' =>
      Indirect R s₀ node inum cnt content s din' s' := by
  apply fillAddr_spec
  · intro hne
    have hne' : (Function.update node inum (dinode din) inum).addrs indirectAddr ≠ 0 := by
      rw [Function.update_self]
      exact hne
    have hown := (h.core.indirect_owned h.type_ne hne').2.2
    rw [Function.update_self, dinode_indirect] at hown
    have hlt := Nat.lt_of_lt_of_le hown h.core.bounds.2
    exact ⟨h.len, hne, hlt.le, fun _ => hlt, by rw [if_pos (hind.1 hne)], fun _ => h⟩
  · intro hzero
    have hcnt : ¬ nDirect < cnt inum := fun hlt => hind.2 hlt hzero
    have haddr := addr_setAddr din nDirect h.core.bounds.2
    have hpos : s.freeblock ≠ 0 := by
      have hb := h.core.bounds.1
      have hmeta : 0 < nmeta := by decide
      omega
    refine ⟨h.len, ?_, ?_, fun hR => ?_, by rw [if_neg hcnt], fun hlt => ?_⟩
    · rwa [haddr]
    · rw [haddr]
      exact h.core.bounds.2
    · rw [haddr]
      exact hroom hR hcnt
    · rw [haddr] at hlt
      exact h.takeIndirect hlt hzero

theorem fileBlock_entry (h : Grown s₀ node inum din cnt content s)
    (hind : addr din nDirect ≠ 0 ↔ nDirect < cnt inum) (hnext : Next cnt content inum k)
    (hroom : R → RoomFor cnt inum k s) (hk : nDirect ≤ k) (hmax : k < maxFile) :
    Ensures R (fileBlock din k) s fun r s' => Taken R s₀ node inum k cnt content s r.1 r.2 s' := by
  have hfor : blocksFor (k + 1) = k + 2 := blocksFor_of_lt (by omega)
  have hcnt : cnt inum = k ∨ cnt inum = k + 1 := hnext.imp And.left id
  -- the blocks that are taken, counting the indirect block
  have hcount : blocksFor (cnt inum) = cnt inum + if nDirect < cnt inum then 1 else 0 := by
    rw [blocksFor]
    split_ifs <;> rfl
  rw [fileBlock, if_neg (by omega)]
  apply wp_bind (fillAddr_indirect h hind fun hR hlt => by
    have hfits := hroom hR
    rw [RoomFor, hfor, hcount, if_neg hlt] at hfits
    omega)
  intro din s₁ h₁
  apply wp_bind (rsect_spec (by have hle := h₁.le; omega) fun hR => h₁.len ▸ h₁.room hR)
  rintro buf s₂ ⟨rfl, rfl, hlt⟩
  rw [h₁.len] at hlt
  have hg := h₁.grown hlt
  have hl : lblock (dinode din) s₂.blocks k = entry (s₂.blocks (addr din nDirect)) (k - nDirect) :=
    Block.lblock_entry hk hmax h₁.ne
  have hind : addr din nDirect ≠ 0 ↔ nDirect < k + 1 := by
    simp only [h₁.ne, ne_eq, not_false_eq_true, true_iff]
    omega
  have hused := h₁.used
  apply wp_ite
  · intro hzero
    have hcnt : cnt inum = k ∧ (content inum).length ≤ k * bsize := by
      have hnot := (hg.mapped k).not.1 (by simp [hl, hzero])
      rcases hnext with hk' | hk'
      · exact hk'
      · omega
    apply takeBlock_bind
    dsimp only
    apply wp_bind (wsect_spec hlt (by exact h₁.len))
    rintro _ _ rfl
    have hb : s₂.freeblock < 2 ^ 32 := Nat.lt_of_le_of_lt hg.core.bounds.2 (by decide)
    apply wp_pure
    rw [Block.entry_store_self _ _ _ hb]
    refine ⟨h₁.len, hg.core.bounds.2, fun hR => ?_, ?_,
      fun hlt' => ⟨hg.takeEntry hlt' hcnt.1 hk hmax h₁.ne hcnt.2, hind, ?_⟩⟩
    · have hfits := hroom hR
      rw [RoomFor, hfor, hcount] at hfits
      show s₂.freeblock < fsSize
      omega
    · rw [hfor, hcount]
      dsimp only
      omega
    · rw [Block.lblock_entry hk hmax h₁.ne, dinode_indirect]
      dsimp only
      rw [Function.update_self, Block.entry_store_self _ _ _ hb]
  · intro hne
    have hcnt : cnt inum = k + 1 := by
      have hlt' := (hg.mapped k).1 (hl ▸ hne)
      rcases hnext with hk' | hk' <;> omega
    have hown := (hg.core.block_owned hg.type_ne (k := k) (by omega)).2.2
    rw [Function.update_self, hl] at hown
    have hlt' := Nat.lt_of_lt_of_le hown hg.core.bounds.2
    rw [if_pos (by omega)] at hused
    refine wp_pure ⟨h₁.len, hlt'.le, fun _ => hlt', ?_, fun _ => ⟨?_, hind, hl⟩⟩
    · rw [hcnt]
      omega
    · rw [Next.update_eq hcnt]
      exact hg

theorem fileBlock_spec (h : Grown s₀ node inum din cnt content s)
    (hind : addr din nDirect ≠ 0 ↔ nDirect < cnt inum) (hnext : Next cnt content inum k)
    (hroom : R → RoomFor cnt inum k s) (hmax : k < maxFile) :
    Ensures R (fileBlock din k) s fun r s' => Taken R s₀ node inum k cnt content s r.1 r.2 s' := by
  by_cases hk : k < nDirect
  · exact fileBlock_direct h hind hnext hroom hk
  · exact fileBlock_entry h hind hnext hroom (by omega) hmax

end FileBlock

/-! ## The loop -/

section Loop

variable {R : Prop} {s₀ s : State} {node : Nat → Dinode} {inum k x : Nat} {din : Mem}
  {content : Nat → List UInt8} {c p : List UInt8}

/-- The number of blocks of each file. -/
def counts (content : Nat → List UInt8) (i : Nat) : Nat := Block.nblocks (content i).length

theorem counts_update : counts (Function.update content inum c) =
    Function.update (counts content) inum (Block.nblocks c.length) := by
  funext i
  by_cases hi : i = inum
  · simp [counts, hi]
  · simp [counts, hi]

/-- The bytes of the file are `c` now; neither its inode nor its size is written yet. -/
structure Filling (s₀ : State) (node : Nat → Dinode) (inum : Nat) (content : Nat → List UInt8)
    (c : List UInt8) (din : Mem) (s : State) : Prop where
  grown : Grown s₀ node inum din (counts (Function.update content inum c))
    (Function.update content inum c) s
  indirect : addr din nDirect ≠ 0 ↔ nDirect < Block.nblocks c.length

theorem getD_append_left (c p : List UInt8) {a : Nat} (ha : a < c.length) :
    (c ++ p).getD a 0 = c.getD a 0 := by
  simp [List.getElem?_append_left ha]

theorem getD_of_length_le (c : List UInt8) {a : Nat} (ha : c.length ≤ a) : c.getD a 0 = 0 := by
  simp [List.getElem?_eq_none ha]

/-- The bytes that a round of the loop leaves in the block it writes to. -/
theorem memmove_block {buf : Mem} {k n1 : Nat} (hlo : k * bsize ≤ c.length)
    (hn1 : n1 = min p.length ((k + 1) * bsize - c.length))
    (hbuf : ∀ a, a < bsize → buf a = c.getD (k * bsize + a) 0) {a : Nat} (ha : a < bsize) :
    memmove buf (c.length - k * bsize) (bytes p) 0 n1 a =
      (c ++ p.take n1).getD (k * bsize + a) 0 := by
  have hlen : (p.take n1).length = n1 := by
    rw [List.length_take]
    omega
  rw [Block.memmove_apply]
  by_cases hin : c.length - k * bsize ≤ a ∧ a < c.length - k * bsize + n1
  · have hidx : k * bsize + a - c.length = a - (c.length - k * bsize) := by omega
    rw [if_pos hin, bytes, Nat.zero_add, List.getD_eq_getElem?_getD, List.getD_eq_getElem?_getD,
      List.getElem?_append_right (by omega), hidx, List.getElem?_take_of_lt (by omega)]
  · rw [if_neg hin, hbuf a ha]
    by_cases hold : k * bsize + a < c.length
    · rw [getD_append_left _ _ hold]
    · have hend : c.length + n1 ≤ k * bsize + a := by omega
      rw [getD_of_length_le _ (by omega), getD_of_length_le]
      rw [List.length_append, hlen]
      exact hend

/-- The bytes of the blocks that it does not write to. -/
theorem getD_other_block {k n1 j a : Nat} (hlo : k * bsize ≤ c.length)
    (hn1 : n1 = min p.length ((k + 1) * bsize - c.length)) (hhi : c.length < (k + 1) * bsize)
    (hj : j ≠ k) (ha : a < bsize) :
    (c ++ p.take n1).getD (j * bsize + a) 0 = c.getD (j * bsize + a) 0 := by
  rcases Nat.lt_or_gt_of_ne hj with hlt | hgt
  · have hle : (j + 1) * bsize ≤ k * bsize := Nat.mul_le_mul_right _ hlt
    rw [Nat.succ_mul] at hle
    exact getD_append_left _ _ (by omega)
  · have hle : (k + 1) * bsize ≤ j * bsize := Nat.mul_le_mul_right _ hgt
    have hlen : (c ++ p.take n1).length ≤ j * bsize + a := by
      rw [List.length_append, List.length_take]
      omega
    rw [getD_of_length_le _ hlen, getD_of_length_le _ (by omega)]

/-- One round: the bytes are written to the block that has been found. -/
theorem Found.write {n1 : Nat}
    (h : Found s₀ node inum k (counts (Function.update content inum c))
      (Function.update content inum c) din x s)
    (hlo : k * bsize ≤ c.length) (hhi : c.length < (k + 1) * bsize) (hp : 0 < p.length)
    (hn1 : n1 = min p.length ((k + 1) * bsize - c.length)) :
    Filling s₀ node inum content (c ++ p.take n1) din
      { s with
        blocks := Function.update s.blocks x
          (memmove (s.blocks x) (c.length - k * bsize) (bytes p) 0 n1) } := by
  have hlen : (c ++ p.take n1).length = c.length + n1 := by
    rw [List.length_append, List.length_take]
    omega
  have hcnt : Block.nblocks (c ++ p.take n1).length = k + 1 := by
    rw [hlen]
    unfold Block.nblocks bsize at *
    omega
  have hk : k < Function.update (counts (Function.update content inum c)) inum (k + 1) inum := by
    rw [Function.update_self]
    omega
  have hself : Function.update node inum (dinode din) inum = dinode din := Function.update_self ..
  have hbytes := fun a ha => h.grown.core.bytes inum h.grown.type_ne k hk a ha
  have hown := (h.grown.core.block_owned h.grown.type_ne hk).2.1
  rw [hself, h.block] at hown
  have hwrite := h.grown.core.write h.grown.type_ne hk (c := c ++ p.take n1)
    (m := memmove (s.blocks x) (c.length - k * bsize) (bytes p) 0 n1) ?_ ?_
  · rw [hself, h.block, Function.update_idem] at hwrite
    refine ⟨⟨h.grown.len, h.grown.freeinode, fun b hb => ?_, h.grown.type, h.grown.same, ?_⟩, ?_⟩
    · rw [← h.grown.metas b hb]
      exact Function.update_of_ne (by omega) _ _
    · rw [counts_update, hcnt]
      rw [counts_update, Function.update_idem] at hwrite
      exact hwrite
    · rw [hcnt]
      exact h.indirect
  · intro j hj a ha
    rw [Function.update_self]
    exact getD_other_block hlo hn1 hhi hj ha
  · intro a ha
    refine memmove_block hlo hn1 (fun b hb => ?_) ha
    have hbyte := hbytes b hb
    rwa [hself, h.block, Function.update_self] at hbyte

theorem next_block (content : Nat → List UInt8) (inum : Nat) (c : List UInt8) :
    Next (counts (Function.update content inum c)) (Function.update content inum c) inum
      (c.length / bsize) := by
  unfold Next counts Block.nblocks
  rw [Function.update_self]
  unfold bsize
  omega

/-- The number of blocks of the image that these bytes take. -/
def blocksOf (c : List UInt8) : Nat := blocksFor (Block.nblocks c.length)

theorem blocksFor_mono {m n : Nat} (h : m ≤ n) : blocksFor m ≤ blocksFor n := by
  unfold blocksFor
  split_ifs <;> omega

/-- The bytes that a round takes fit into the last block, and the blocks that are in use after the
    round are those up to it. -/
theorem round_bounds {n1 : Nat} (hp : 0 < p.length)
    (hn1 : n1 = min p.length ((c.length / bsize + 1) * bsize - c.length)) :
    c.length / bsize * bsize ≤ c.length ∧ c.length < (c.length / bsize + 1) * bsize ∧
      (c ++ p.take n1).length = c.length + n1 ∧
      blocksFor (c.length / bsize + 1) = blocksOf (c ++ p.take n1) ∧
      blocksOf (c ++ p.take n1) ≤ blocksOf (c ++ p) := by
  have hlo : c.length / bsize * bsize ≤ c.length := Nat.div_mul_le_self ..
  have hhi : c.length < (c.length / bsize + 1) * bsize := by
    unfold bsize
    omega
  have hlen₁ : (c ++ p.take n1).length = c.length + n1 := by
    rw [List.length_append, List.length_take]
    omega
  refine ⟨hlo, hhi, hlen₁, ?_, ?_⟩
  · rw [blocksOf, hlen₁]
    congr 1
    unfold Block.nblocks bsize at *
    omega
  · refine blocksFor_mono ?_
    rw [hlen₁, List.length_append]
    unfold Block.nblocks bsize
    omega

/-- The rounds of the loop: every one writes the bytes that fit into a block. -/
theorem iappendLoop_spec (fuel : Nat) (hfuel : p.length ≤ fuel)
    (h : Filling s₀ node inum content c din s)
    (hroom : R → s.freeblock + blocksOf (c ++ p) ≤ fsSize + blocksOf c)
    (hmax : R → (c ++ p).length ≤ maxFile * bsize) :
    Ensures R (iappendLoop fuel p din c.length) s fun r s' =>
      Filling s₀ node inum content (c ++ p) r.1 s' ∧ r.2 = (c ++ p).length ∧
        s'.freeblock + blocksOf c = s.freeblock + blocksOf (c ++ p) := by
  induction fuel generalizing p c din s with
  | zero =>
      have hp : p = [] := List.length_eq_zero_iff.1 (by omega)
      subst hp
      rw [List.append_nil]
      exact wp_pure ⟨h, rfl, rfl⟩
  | succ fuel ih =>
      rw [iappendLoop]
      apply wp_ite
      · intro hp
        apply wp_ite
        · intro hfbn
          have hind := h.indirect
          have hcnt : counts (Function.update content inum c) inum = Block.nblocks c.length := by
            rw [counts, Function.update_self]
          obtain ⟨n1, hn1⟩ : ∃ n1, n1 = min p.length ((c.length / bsize + 1) * bsize - c.length) :=
            ⟨_, rfl⟩
          obtain ⟨hlo, hhi, hlen₁, hnow, hrest⟩ := round_bounds hp hn1
          apply wp_bind (fileBlock_spec h.grown (by rwa [hcnt]) (next_block ..) (fun hR => by
            have hfits := hroom hR
            rw [RoomFor, hcnt, hnow]
            exact Nat.le_trans (Nat.add_le_add_left hrest _) hfits) hfbn)
          rintro ⟨din, x⟩ s₁ hx
          have hle : x ≤ fsSize := hx.le
          apply wp_bind (rsect_spec (by omega) fun hR => hx.len ▸ hx.room hR)
          rintro buf s₁ ⟨rfl, rfl, hlt⟩
          rw [hx.len] at hlt
          apply wp_bind (wsect_spec hlt hx.len)
          rintro _ _ rfl
          -- after the round the file is `c ++ p.take n1`, and the others go on with `p.drop n1`
          have hround := (hx.found hlt).write hlo hhi hp hn1
          have hused := hx.used
          rw [hcnt, hnow] at hused
          have happend : c ++ p.take n1 ++ p.drop n1 = c ++ p := by
            rw [List.append_assoc, List.take_append_drop]
          have hused : s₁.freeblock + blocksOf c = s.freeblock + blocksOf (c ++ p.take n1) := hused
          have hagain := ih (p := p.drop n1) (by rw [List.length_drop]; omega) hround
            (fun hR => by
              have hfits := hroom hR
              rw [happend]
              dsimp only
              omega)
            fun hR => by
              rw [happend]
              exact hmax hR
          rw [hlen₁, happend] at hagain
          rw [← hn1]
          apply wp_mono hagain
          rintro ⟨din', off⟩ s₃ ⟨hf, hoff, hused'⟩
          dsimp only at hused'
          exact ⟨hf, hoff, by omega⟩
        · -- `assert(fbn < MAXFILE)` fails only on files that are too large
          refine fun hfbn => wp_stop fun hR => hfbn ?_
          have hfits := hmax hR
          rw [List.length_append] at hfits
          unfold bsize at *
          omega
      · intro hp
        have hp : p = [] := List.length_eq_zero_iff.1 (by omega)
        subst hp
        rw [List.append_nil]
        exact wp_pure ⟨h, rfl, rfl⟩

end Loop

end Cs350.Mkfs
