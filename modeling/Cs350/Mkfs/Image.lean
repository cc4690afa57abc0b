import Cs350.Mkfs.Append
import Mathlib.Algebra.Order.BigOperators.Group.Finset

set_option autoImplicit false

/-! # The image between calls of `iappend`

`Image content s` says that the image of `s` holds the inodes from 1 to `freeinode`, the root
directory first, and that the bytes of inode `i` are those of `content i`. `ialloc` adds an inode
without bytes and `iappend` adds bytes to one. -/

namespace Cs350.Mkfs

open Block (bsize nDirect maxFile Dinode indirectAddr lblock refs memmove)
open FileSys (IType rootIno)
open Prog

/-! ## Inodes on the image -/

/-- The inodes of the image. -/
def nodes (s : State) (inum : Nat) : Dinode :=
  if inum < nInodes then inodeAt s.blocks inum else Dinode.fresh .free

section Nodes

variable {R : Prop} {s s' : State} {inum : Nat} {din : Mem}

theorem iblock_bounds (h : inum < nInodes) : inodestart ≤ iblock inum ∧ iblock inum < bmapstart := by
  have hipb : ipb = 8 := rfl
  have hn : nInodes = 200 := rfl
  have hi : inodestart = 32 := rfl
  have hb : bmapstart = 58 := rfl
  rw [iblock, hipb, hi, hb]
  omega

theorem nmeta_eq : nmeta = bmapstart + 1 := rfl

theorem inodeAt_eq {blocks : Nat → Mem} (h : blocks 1 = superblock) (inum : Nat) :
    inodeAt blocks inum = dinode (dip (blocks (iblock inum)) inum) := by
  have hstart : superblock.load 20 4 = inodestart := by decide
  rw [inodeAt, h, hstart]
  rfl

/-- What holds after `winode` of what held before. -/
structure Wrote (inum : Nat) (din : Mem) (s s' : State) : Prop where
  len : s'.len = s.len
  freeinode : s'.freeinode = s.freeinode
  freeblock : s'.freeblock = s.freeblock
  super : s'.blocks 1 = s.blocks 1
  data : ∀ b, bmapstart ≤ b → s'.blocks b = s.blocks b
  nodes : nodes s' = Function.update (nodes s) inum (dinode din)

theorem dip_memmove_self (buf din : Mem) (inum : Nat) :
    SameDinode (dip (memmove buf (inum % ipb * dinodeSize) din 0 dinodeSize) inum) din := by
  intro a ha
  rw [dip, Block.memmove_apply, if_pos (by omega)]
  congr 1
  omega

theorem dip_memmove_of_ne (buf din : Mem) {i : Nat} (hi : i % ipb ≠ inum % ipb) :
    SameDinode (dip (memmove buf (inum % ipb * dinodeSize) din 0 dinodeSize) i) (dip buf i) := by
  intro a ha
  rw [dip, dip, Block.memmove_apply, if_neg]
  unfold dinodeSize at *
  omega

theorem winode_spec (hinum : inum < nInodes) (hlen : s.len = fsSize)
    (hsuper : s.blocks 1 = superblock) (din : Mem) :
    Ensures R (winode inum din) s fun _ s' => Wrote inum din s s' := by
  obtain ⟨hlo, hhi⟩ := iblock_bounds hinum
  have hfs : bmapstart ≤ fsSize := by decide
  have hone : 1 < inodestart := by decide
  apply wp_bind (rsect_spec (by omega) fun _ => by omega)
  rintro buf s ⟨rfl, rfl, -⟩
  apply wp_mono (wsect_spec (by omega) hlen)
  rintro _ _ rfl
  have hsuper' : Function.update s.blocks (iblock inum) (memmove (s.blocks (iblock inum))
      (inum % ipb * dinodeSize) din 0 dinodeSize) 1 = s.blocks 1 :=
    Function.update_of_ne (by omega) _ _
  refine ⟨rfl, rfl, rfl, hsuper', fun b hb => Function.update_of_ne (by omega) _ _, ?_⟩
  funext i
  by_cases hi : i = inum
  · subst hi
    rw [Function.update_self, nodes, if_pos hinum]
    dsimp only
    rw [inodeAt_eq (hsuper'.trans hsuper), Function.update_self]
    exact dinode_congr (dip_memmove_self _ din i)
  · rw [Function.update_of_ne hi, nodes, nodes]
    split_ifs with hlt
    · dsimp only
      rw [inodeAt_eq (hsuper'.trans hsuper), inodeAt_eq hsuper]
      by_cases hblock : iblock i = iblock inum
      · rw [hblock, Function.update_self]
        refine dinode_congr (dip_memmove_of_ne _ _ fun hmod => hi ?_)
        have hi' := Nat.div_add_mod i ipb
        have hinum' := Nat.div_add_mod inum ipb
        have hdiv : i / ipb = inum / ipb := Nat.add_right_cancel hblock
        rw [hdiv, hmod] at hi'
        exact hi'.symm.trans hinum'
      · rw [Function.update_of_ne hblock]
    · rfl

theorem rinode_spec (hinum : inum < nInodes) (hlen : s.len = fsSize) (hsuper : s.blocks 1 = superblock) :
    Ensures R (rinode inum) s fun din s' => s' = s ∧ dinode din = nodes s inum := by
  have hhi := (iblock_bounds hinum).2
  have hfs : bmapstart ≤ fsSize := by decide
  apply wp_bind (rsect_spec (by omega) fun _ => by omega)
  rintro buf s ⟨rfl, rfl, -⟩
  refine wp_pure ⟨rfl, ?_⟩
  rw [nodes, if_pos hinum, inodeAt_eq hsuper]
  refine dinode_congr fun a ha => ?_
  rw [Block.memmove_apply, if_pos (by omega)]
  rfl

end Nodes

/-! ## The books -/

section Core

variable {node node' : Nat → Dinode} {blocks blocks' : Nat → Mem} {freeblock i : Nat}
  {cnt : Nat → Nat} {content : Nat → List UInt8} {n' : Dinode}

theorem held_same (h : Core node blocks freeblock cnt content) (htype : (node i).type ≠ .free)
    (haddrs : n'.addrs = (node i).addrs) (hdata : ∀ b, nmeta ≤ b → blocks' b = blocks b)
    (p : Block.Place) : Block.held n' blocks' p = Block.held (node i) blocks p := by
  rw [Block.held_addrs haddrs]
  exact Block.held_congr (fun hind => hdata _ (h.indirect_owned htype hind).2.1) p

/-- Only types and addresses count, and data blocks. -/
theorem Core.congr (h : Core node blocks freeblock cnt content)
    (htype : ∀ j, (node' j).type = (node j).type) (haddrs : ∀ j, (node' j).addrs = (node j).addrs)
    (hdata : ∀ b, nmeta ≤ b → blocks' b = blocks b) :
    Core node' blocks' freeblock cnt content := by
  have hl : ∀ j, (node j).type ≠ .free → ∀ k, lblock (node' j) blocks' k = lblock (node j) blocks k :=
    fun j hj k => held_same h hj (haddrs j) hdata (.block k)
  refine ⟨h.bounds, ?_, fun j hj k => ?_, fun b hb hb' => ?_, fun j hj k hk a ha => ?_⟩
  · rw [Block.refs_congr htype fun j hj q => held_same h hj (haddrs j) hdata q]
    exact h.books
  · rw [htype] at hj
    rw [hl j hj]
    exact h.mapped j hj k
  · have hlo := h.bounds.1
    rw [hdata b (by omega)]
    exact h.empty b hb hb'
  · rw [htype] at hj
    rw [hl j hj, hdata _ (h.block_owned hj hk).2.1]
    exact h.bytes j hj k hk a ha

/-- An inode without blocks is added. -/
theorem Core.create (n' : Dinode) (h : Core node blocks freeblock cnt content)
    (hfree : (node i).type = .free)
    (hnone : ∀ k, n'.addrs k = 0) :
    Core (Function.update node i n') blocks freeblock (Function.update cnt i 0)
      (Function.update content i []) := by
  have hzero : ∀ q, Block.held n' blocks q = 0 := by
    intro q
    cases q with
    | indirect => exact hnone _
    | block k =>
        by_cases hk : k < nDirect
        · exact (Block.lblock_direct hk).trans (hnone _)
        · exact Block.lblock_none (by omega) (hnone _)
  have hrefs : refs (Function.update node i n') blocks = refs node blocks := by
    rw [Block.refs_clear node n' (Or.inr hzero)]
    funext x
    split_ifs with hx
    · rw [refs, hx, if_pos hfree]
    · rfl
  refine ⟨h.bounds, hrefs ▸ h.books, fun j hj k => ?_, h.empty, fun j hj k hk a ha => ?_⟩
  · by_cases hji : j = i
    · subst hji
      have hk := hzero (.block k)
      simpa [Block.held] using hk
    · rw [Function.update_of_ne hji] at hj
      rw [Function.update_of_ne hji, Function.update_of_ne hji]
      exact h.mapped j hj k
  · by_cases hji : j = i
    · subst hji
      simp at hk
    · rw [Function.update_of_ne hji] at hj hk
      rw [Function.update_of_ne hji, Function.update_of_ne hji]
      exact h.bytes j hj k hk a ha

end Core

/-! ## The image -/

/-- The type of inode `i` when those below `freeinode` have been allocated. -/
def typeAt (freeinode i : Nat) : IType :=
  if i = 0 ∨ freeinode ≤ i then .free else if i = rootIno then .dir else .file

theorem typeAt_ne {freeinode i : Nat} : typeAt freeinode i ≠ .free ↔ 1 ≤ i ∧ i < freeinode := by
  unfold typeAt
  split_ifs with h h'
  · simp only [ne_eq, not_true_eq_false, false_iff]
    omega
  · simp only [ne_eq, reduceCtorEq, not_false_eq_true, true_iff]
    omega
  · simp only [ne_eq, reduceCtorEq, not_false_eq_true, true_iff]
    omega

/-- The number of blocks of the image that the files take. -/
def total (content : Nat → List UInt8) : Nat :=
  ∑ i ∈ Finset.range nInodes, blocksOf (content i)

/-- The files fit on the image. -/
structure Fits (content : Nat → List UInt8) : Prop where
  room : nmeta + total content ≤ fsSize
  max : ∀ i, (content i).length ≤ maxFile * bsize

theorem total_update (content : Nat → List UInt8) {inum : Nat} (h : inum < nInodes)
    (c : List UInt8) :
    total (Function.update content inum c) + blocksOf (content inum) = total content + blocksOf c := by
  have hmem : inum ∈ Finset.range nInodes := Finset.mem_range.2 h
  rw [total, total, ← Finset.add_sum_erase _ _ hmem, ← Finset.add_sum_erase _ _ hmem,
    Function.update_self]
  have hsame : ∀ i ∈ (Finset.range nInodes).erase inum,
      blocksOf (Function.update content inum c i) = blocksOf (content i) := by
    intro i hi
    rw [Function.update_of_ne (Finset.ne_of_mem_erase hi)]
  rw [Finset.sum_congr rfl hsame]
  omega

theorem blocksOf_mono {c c' : List UInt8} (h : c.length ≤ c'.length) : blocksOf c ≤ blocksOf c' := by
  refine blocksFor_mono ?_
  unfold Block.nblocks bsize
  omega

theorem Fits.mono {content content' : Nat → List UInt8} (h : Fits content')
    (hle : ∀ i, (content i).length ≤ (content' i).length) : Fits content := by
  have htotal : total content ≤ total content' :=
    Finset.sum_le_sum fun i _ => blocksOf_mono (hle i)
  exact ⟨Nat.le_trans (Nat.add_le_add_left htotal _) h.room, fun i => Nat.le_trans (hle i) (h.max i)⟩

structure Image (content : Nat → List UInt8) (s : State) : Prop where
  len : s.len = fsSize
  super : s.blocks 1 = superblock
  freeinode : s.freeinode ≤ nInodes
  type : ∀ i, (nodes s i).type = typeAt s.freeinode i
  free : ∀ i, (nodes s i).type = .free → nodes s i = Dinode.fresh .free
  size : ∀ i, (nodes s i).type ≠ .free → (nodes s i).size = (content i).length
  indirect : ∀ i, (nodes s i).type ≠ .free →
    ((nodes s i).addrs indirectAddr ≠ 0 ↔ nDirect < Block.nblocks (content i).length)
  core : Core (nodes s) s.blocks s.freeblock (counts content) content
  used : s.freeblock = nmeta + total content

section Image

variable {R : Prop} {s s' : State} {content : Nat → List UInt8} {inum : Nat} {p : List UInt8}

theorem Image.inum_lt (h : Image content s) (htype : (nodes s inum).type ≠ .free) :
    inum < nInodes := by
  rw [h.type, typeAt_ne] at htype
  have hle := h.freeinode
  omega

theorem ialloc_spec (h : Image content s) (hlt : s.freeinode < nInodes)
    (hnew : content s.freeinode = []) (type : Nat) (htype : type < 2 ^ 16) (hpos : s.freeinode ≠ 0)
    (hroot : typeOf type = if s.freeinode = rootIno then .dir else .file) :
    Ensures R (ialloc type) s fun inum s' => inum = s.freeinode ∧
      s'.freeinode = s.freeinode + 1 ∧ Image content s' := by
  apply wp_get_bind
  apply wp_modify_bind
  apply wp_bind (winode_spec (s := { s with freeinode := s.freeinode + 1 }) hlt h.len h.super _)
  intro _ s' hw
  have hfreeinode : s'.freeinode = s.freeinode + 1 := hw.freeinode
  refine wp_pure ⟨rfl, hfreeinode, ?_⟩
  have hnodes : nodes s' = Function.update (nodes s) s.freeinode (dinode (newDinode type)) := hw.nodes
  have hfree : (nodes s s.freeinode).type = .free := by
    rw [h.type, typeAt, if_pos (Or.inr (Nat.le_refl _))]
  have hcnt : counts content s.freeinode = 0 := by
    rw [counts, hnew]
    rfl
  have hcore := h.core.create (dinode (newDinode type)) hfree fun k => by
    rw [dinode_newDinode type htype]
  rw [(Function.update_eq_self_iff (f := counts content)).2 hcnt.symm,
    (Function.update_eq_self_iff (f := content)).2 hnew.symm] at hcore
  have hother : ∀ i, i ≠ s.freeinode → nodes s' i = nodes s i := fun i hi => by
    rw [hnodes, Function.update_of_ne hi]
  have hself : nodes s' s.freeinode = dinode (newDinode type) := by
    rw [hnodes, Function.update_self]
  refine ⟨hw.len.trans h.len, hw.super.trans h.super, ?_, fun i => ?_, fun i hi => ?_,
    fun i hi => ?_, fun i hi => ?_, ?_, hw.freeblock.trans h.used⟩
  · rw [hfreeinode]
    exact hlt
  · rw [hfreeinode]
    by_cases hi : i = s.freeinode
    · rw [hi, hself, dinode_newDinode type htype, typeAt, if_neg (by omega)]
      exact hroot
    · rw [hother i hi, h.type, typeAt, typeAt]
      have hiff : (i = 0 ∨ s.freeinode ≤ i) ↔ (i = 0 ∨ s.freeinode + 1 ≤ i) := by omega
      simp only [hiff]
  · by_cases hi' : i = s.freeinode
    · rw [hi', hself, dinode_newDinode type htype] at hi
      have htypeOf : typeOf type = .free := hi
      rw [hroot] at htypeOf
      split_ifs at htypeOf
    · rw [hother i hi'] at hi ⊢
      exact h.free i hi
  · by_cases hi' : i = s.freeinode
    · rw [hi', hself, hnew, dinode_newDinode type htype]
      rfl
    · rw [hother i hi'] at hi ⊢
      exact h.size i hi
  · by_cases hi' : i = s.freeinode
    · rw [hi', hself, hnew, dinode_newDinode type htype]
      simp [Block.nblocks, bsize]
    · rw [hother i hi'] at hi ⊢
      exact h.indirect i hi
  · rw [hw.freeblock, hnodes]
    have hmeta := nmeta_eq
    exact hcore.congr (fun _ => rfl) (fun _ => rfl) fun b hb => hw.data b (by omega)

theorem size_eq (din : Mem) : size din = (dinode din).size := rfl

theorem indirect_eq (din : Mem) : addr din nDirect = (dinode din).addrs indirectAddr := rfl

/-- `iappend` starts with the inode as it is on the image. -/
theorem Image.filling (h : Image content s) (htype : (nodes s inum).type ≠ .free) {din : Mem}
    (hdin : dinode din = nodes s inum) :
    Filling s (nodes s) inum content (content inum) din s := by
  refine ⟨⟨h.len, rfl, fun _ _ => rfl, htype, congrArg Dinode.type hdin, ?_⟩, ?_⟩
  · rw [hdin, Function.update_eq_self, Function.update_eq_self]
    exact h.core
  · rw [indirect_eq, hdin]
    exact h.indirect inum htype

/-- A file has at most `MAXFILE` blocks. -/
theorem Filling.length_le {s₀ : State} {node : Nat → Dinode} {c : List UInt8} {din : Mem}
    (h : Filling s₀ node inum content c din s) : c.length ≤ maxFile * bsize := by
  have hnone : lblock (dinode din) s.blocks maxFile = 0 := by
    rw [lblock, dif_neg (by decide), if_neg (by simp)]
  have hmap := (h.grown.mapped maxFile).not.1 (by simp [hnone])
  rw [counts, Function.update_self] at hmap
  unfold Block.nblocks bsize at *
  omega

/-- `iappend` ends with writing the inode. -/
theorem Image.write (h : Image content s) (hinum : inum < nInodes) {c : List UInt8} {din : Mem}
    {s₁ : State} (hf : Filling s (nodes s) inum content c din s₁)
    (hused : s₁.freeblock + blocksOf (content inum) = s.freeblock + blocksOf c)
    (hw : Wrote inum (setSize din c.length) s₁ s') :
    Image (Function.update content inum c) s' ∧ s'.freeinode = s.freeinode := by
  have hmeta := nmeta_eq
  have hmax : maxFile * bsize < 2 ^ 32 := by decide
  have hdin : dinode (setSize din c.length) = { dinode din with size := c.length } :=
    dinode_setSize (Nat.lt_of_le_of_lt hf.length_le hmax)
  have hfreeinode : s'.freeinode = s.freeinode := hw.freeinode.trans hf.grown.freeinode
  have hsuper : s₁.blocks 1 = s.blocks 1 := hf.grown.metas 1 (by decide)
  have hnodes₁ : nodes s₁ = nodes s := by
    funext i
    rw [nodes, nodes]
    split_ifs with hlt
    · have hhi := (iblock_bounds hlt).2
      rw [inodeAt_eq (hsuper.trans h.super), inodeAt_eq h.super, hf.grown.metas _ (by omega)]
    · rfl
  have hnodes := hw.nodes
  rw [hnodes₁, hdin] at hnodes
  have hother : ∀ i, i ≠ inum → nodes s' i = nodes s i := fun i hi => by
    rw [hnodes, Function.update_of_ne hi]
  have hself : nodes s' inum = { dinode din with size := c.length } := by
    rw [hnodes, Function.update_self]
  refine ⟨⟨hw.len.trans hf.grown.len, (hw.super.trans hsuper).trans h.super,
    hfreeinode ▸ h.freeinode, fun i => ?_, fun i hi => ?_, fun i hi => ?_, fun i hi => ?_, ?_, ?_⟩,
    hfreeinode⟩
  · rw [hfreeinode, ← h.type]
    by_cases hi : i = inum
    · rw [hi, hself]
      exact hf.grown.same
    · rw [hother i hi]
  · by_cases hi' : i = inum
    · rw [hi', hself] at hi
      exact absurd (hf.grown.same.symm.trans hi) hf.grown.type
    · rw [hother i hi'] at hi ⊢
      exact h.free i hi
  · by_cases hi' : i = inum
    · rw [hi', hself, Function.update_self]
    · rw [hother i hi'] at hi ⊢
      rw [Function.update_of_ne hi', h.size i hi]
  · by_cases hi' : i = inum
    · rw [hi', hself, Function.update_self]
      exact hf.indirect
    · rw [hother i hi'] at hi ⊢
      rw [Function.update_of_ne hi', h.indirect i hi]
  · rw [hw.freeblock, hnodes]
    refine hf.grown.core.congr (fun i => ?_) (fun i => ?_) fun b hb => hw.data b (by omega)
    · by_cases hi : i = inum
      · simp [hi]
      · simp [hi]
    · by_cases hi : i = inum
      · simp [hi]
      · simp [hi]
  · have htotal := total_update content hinum c
    have hold := h.used
    rw [hw.freeblock]
    omega

theorem iappend_spec (h : Image content s) (htype : (nodes s inum).type ≠ .free)
    (hfits : R → Fits (Function.update content inum (content inum ++ p))) :
    Ensures R (iappend inum p) s fun _ s' =>
      Image (Function.update content inum (content inum ++ p)) s' ∧ s'.freeinode = s.freeinode := by
  have hinum := h.inum_lt htype
  apply wp_bind (rinode_spec hinum h.len h.super)
  rintro din s ⟨rfl, hdin⟩
  have hsize : size din = (content inum).length := by
    rw [size_eq, hdin]
    exact h.size inum htype
  rw [hsize]
  apply wp_bind (iappendLoop_spec p.length (Nat.le_refl _) (h.filling htype hdin) (fun hR => by
    have hroom := (hfits hR).room
    have htotal := total_update content hinum (content inum ++ p)
    have hused := h.used
    omega) fun hR => by
    have hmax := (hfits hR).max inum
    rwa [Function.update_self] at hmax)
  rintro ⟨din', off⟩ s₁ ⟨hf, rfl, hused⟩
  have hsuper : s₁.blocks 1 = superblock := (hf.grown.metas 1 (by decide)).trans h.super
  exact wp_mono (winode_spec hinum hf.grown.len hsuper _) fun _ s' hw => h.write hinum hf hused hw

end Image

end Cs350.Mkfs
