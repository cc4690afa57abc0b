import Cs350.Block.Refs

set_option autoImplicit false

/-! # Allocating and freeing the blocks of a file

Inside an operation on an inode, its in-memory copy is ahead of the disk. `Mid s₀ ip s` says that
since `s₀` only the addresses of `ip`, the free map and blocks have changed, and that the books
balance if the copy is counted in place of the inode on disk. `bmap` and the loops of `readi`,
`writei` and `itrunc` keep it. -/

namespace Cs350.Block

open FileSys (IType Ip nInode)
open Prog

/-- Correctness of an operation, which does not stop with "freeing free block". -/
abbrev Sat {α : Type} (m : FsM α) (s : Fs) (Q : α → Fs → Prop) : Prop :=
  Prog.wp (fun _ => True) (fun e => e ≠ .freeingFree) m s Q

/-- The number of blocks of a file of the given size. -/
def nblocks (size : Nat) : Nat := (size + bsize - 1) / bsize

/-- As `mkfs` lays the disk out: there is at least a boot block before the data area, and the blocks
    before it are marked as used. -/
structure Layout (sb : Superblock) (bitmap : Nat → Bool) : Prop where
  start : 0 < sb.dataStart
  reserved : ∀ b, b < sb.dataStart → bitmap b = true

/-- The inodes, with the in-memory copy of `ip` in place of the one on disk. -/
def Fs.view (s : Fs) (ip : Ip) : Nat → Dinode :=
  Function.update s.dinode (s.inum ip) (s.node ip)

structure Mid (s₀ : Fs) (ip : Ip) (s : Fs) : Prop where
  sb : s.sb = s₀.sb
  dinode : s.dinode = s₀.dinode
  slots : ∀ jp, jp ≠ ip → s.icache jp = s₀.icache jp
  slot : ∃ a, s.icache ip = { s₀.icache ip with node := { s₀.node ip with addrs := a } }
  layout : Layout s.sb s.bitmap
  books : Books s.sb s.bitmap (refs (s.view ip) s.data)
  others : ∀ i, i ≠ s₀.inum ip → (s₀.dinode i).type ≠ .free →
    Filled (s₀.dinode i) s.data (nblocks (s₀.dinode i).size)

/-! ## The free map -/

section FreeMap

variable {sb : Superblock} {bitmap : Nat → Bool} {b : Nat}

theorem Layout.ne_zero (h : Layout sb bitmap) (hb : sb.IsData b) : b ≠ 0 := by
  have hpos := h.start
  have hle := hb.1
  omega

theorem Layout.take (h : Layout sb bitmap) : Layout sb (Function.update bitmap b true) := by
  refine ⟨h.start, fun c hc => ?_⟩
  by_cases hcb : c = b
  · rw [hcb, Function.update_self]
  · rw [Function.update_of_ne hcb, h.reserved c hc]

theorem Layout.give (h : Layout sb bitmap) (hb : sb.IsData b) :
    Layout sb (Function.update bitmap b false) := by
  refine ⟨h.start, fun c hc => ?_⟩
  have hcb : c ≠ b := by
    have hle := hb.1
    omega
  rw [Function.update_of_ne hcb, h.reserved c hc]

theorem Books.take {own : Nat × Place → Option Nat} (h : Books sb bitmap own) (hb : sb.IsData b)
    (hfree : bitmap b = false) {x : Nat × Place} (hx : own x = none) :
    Books sb (Function.update bitmap b true) (Function.update own x (some b)) := by
  refine Ledger.take h hb (by simp [hfree]) hx fun c => ?_
  by_cases hcb : c = b
  · simp [hcb]
  · simp [hcb]

theorem Books.give {own : Nat × Place → Option Nat} (h : Books sb bitmap own) {x : Nat × Place}
    (hx : own x = some b) :
    Books sb (Function.update bitmap b false) (Function.update own x none) := by
  refine Ledger.give h hx fun c => ?_
  by_cases hcb : c = b
  · simp [hcb]
  · simp [hcb]

/-- The block is free, lies in the data area, and is marked and zeroed. -/
theorem balloc_spec {s : Fs} (hl : Layout s.sb s.bitmap) :
    Sat balloc s fun b s' => s.sb.IsData b ∧ s.bitmap b = false ∧
      s' = (s.setBit b true).setData b (fun _ => 0) := by
  refine wp_get_bind ?_
  split
  next b hfind =>
    refine wp_modify_bind (wp_modify_bind (wp_pure ?_))
    have hbit : s.bitmap b = false := by simpa using List.find?_some hfind
    have hsize : b < s.sb.size.toNat := List.mem_range.1 (List.mem_of_find?_eq_some hfind)
    refine ⟨⟨?_, hsize⟩, hbit, rfl⟩
    by_contra hlt
    rw [hl.reserved b (by omega)] at hbit
    exact nomatch hbit
  next => exact wp_stop (by decide)

/-- A block that is referred to can be freed. -/
theorem bfree_spec {s : Fs} {own : Nat × Place → Option Nat} (h : Books s.sb s.bitmap own)
    {x : Nat × Place} (hx : own x = some b) :
    Sat (bfree b) s fun _ s' => s' = s.setBit b false := by
  have hused : s.bitmap b = true := h.used_of_own hx
  refine wp_get_bind (wp_ite (fun hfree => ?_) fun _ => wp_modify rfl)
  rw [hused] at hfree
  exact nomatch hfree

end FreeMap

/-! ## One change of the inode in memory -/

section Change

variable {s₀ s s' : Fs} {ip : Ip} {p : Place} {b : Nat} {n' : Dinode}

theorem Mid.inum (h : Mid s₀ ip s) : s.inum ip = s₀.inum ip := by
  obtain ⟨a, ha⟩ := h.slot
  rw [Fs.inum, ha, Fs.inum]

theorem Mid.view_self (h : Mid s₀ ip s) : s.view ip (s₀.inum ip) = s.node ip := by
  rw [Fs.view, h.inum, Function.update_self]

theorem Mid.type (h : Mid s₀ ip s) : (s.node ip).type = (s₀.node ip).type := by
  obtain ⟨a, ha⟩ := h.slot
  rw [Fs.node, ha]

theorem Mid.size (h : Mid s₀ ip s) : (s.node ip).size = (s₀.node ip).size := by
  obtain ⟨a, ha⟩ := h.slot
  rw [Fs.node, ha]

theorem setNode_inum (s : Fs) (ip : Ip) (n : Dinode) : (s.setNode ip n).inum ip = s.inum ip := by
  simp [Fs.setNode, Fs.setSlot, Fs.inum]

theorem setNode_node (s : Fs) (ip : Ip) (n : Dinode) : (s.setNode ip n).node ip = n := by
  simp [Fs.setNode, Fs.setSlot, Fs.node]

theorem setNode_view (s : Fs) (ip : Ip) (n : Dinode) :
    (s.setNode ip n).view ip = Function.update (s.view ip) (s.inum ip) n := by
  rw [Fs.view, setNode_inum, setNode_node, Fs.view, Function.update_idem]
  rfl

theorem setNode_self (s : Fs) (ip : Ip) : s.setNode ip (s.node ip) = s := by
  simp [Fs.setNode, Fs.setSlot, Fs.node]

/-- A state with a new free map, new blocks, and a new copy of an inode. -/
def Fs.change (s : Fs) (ip : Ip) (bitmap : Nat → Bool) (data : Nat → Mem) (n : Dinode) : Fs :=
  Fs.setNode { s with bitmap := bitmap, data := data } ip n

/-- What is in use and does not belong to the inode must stay as it is. -/
theorem Mid.change (n' : Dinode) (h : Mid s₀ ip s) {bitmap : Nat → Bool} {data : Nat → Mem}
    (haddrs : ∃ a, n' = { s.node ip with addrs := a }) (hlayout : Layout s.sb bitmap)
    (hbooks : Books s.sb bitmap (refs (Function.update (s.view ip) (s₀.inum ip) n') data))
    (hdata : ∀ c, data c ≠ s.data c →
      s.bitmap c = false ∨ ∃ q, refs (s.view ip) s.data (s₀.inum ip, q) = some c) :
    Mid s₀ ip (s.change ip bitmap data n') where
  sb := h.sb
  dinode := h.dinode
  slots jp hjp := (Function.update_of_ne hjp ..).trans (h.slots jp hjp)
  slot := by
    obtain ⟨a, ha⟩ := h.slot
    obtain ⟨a', rfl⟩ := haddrs
    refine ⟨a', ?_⟩
    show Function.update s.icache ip { s.icache ip with node := _ } ip = _
    rw [Function.update_self, Fs.node, ha]
  layout := hlayout
  books := by
    have hview : (s.change ip bitmap data n').view ip =
        Function.update (s.view ip) (s₀.inum ip) n' := by
      rw [Fs.change, setNode_view, ← h.inum]
      rfl
    rw [hview]
    exact hbooks
  others i hi htype := by
    have hview : s.view ip i = s₀.dinode i := by
      rw [Fs.view, h.inum, Function.update_of_ne hi, h.dinode]
    refine (h.others i hi htype).congr fun q => ?_
    have hheld := Books.held_others h.books hdata hi (by rw [hview]; exact htype) q
    rw [hview] at hheld
    exact hheld

theorem change_node (s : Fs) (ip : Ip) (bitmap : Nat → Bool) (data : Nat → Mem) (n : Dinode) :
    (s.change ip bitmap data n).node ip = n := setNode_node ..

/-- A free block is put at a place that has none. -/
theorem Mid.grow (h : Mid s₀ ip s) (htype : (s₀.node ip).type ≠ .free) (hb : s.sb.IsData b)
    (hfree : s.bitmap b = false) (hp : held (s.node ip) s.data p = 0) {data : Nat → Mem}
    (haddrs : ∃ a, n' = { s.node ip with addrs := a })
    (hself : ∀ q, held n' data q = if q = p then b else held (s.node ip) s.data q)
    (hdata : ∀ c, data c ≠ s.data c →
      c = b ∨ (s.node ip).addrs indirectAddr ≠ 0 ∧ c = (s.node ip).addrs indirectAddr) :
    Mid s₀ ip (s.change ip (Function.update s.bitmap b true) data n') := by
  have htype_view : (s.view ip (s₀.inum ip)).type ≠ .free := by
    rw [h.view_self, h.type]
    exact htype
  have hframe : ∀ c, data c ≠ s.data c →
      s.bitmap c = false ∨ ∃ q, refs (s.view ip) s.data (s₀.inum ip, q) = some c := by
    intro c hc
    rcases hdata c hc with rfl | ⟨hind, rfl⟩
    · exact Or.inl hfree
    · refine Or.inr ⟨.indirect, refs_eq_some.2 ⟨htype_view, ?_, hind⟩⟩
      rw [h.view_self]
      rfl
  refine h.change n' haddrs h.layout.take ?_ hframe
  have hrefs : refs (Function.update (s.view ip) (s₀.inum ip) n') data =
      Function.update (refs (s.view ip) s.data) (s₀.inum ip, p) (some b) := by
    have hupd := refs_update (p := p) (b := b) n' htype_view
      (by obtain ⟨a, rfl⟩ := haddrs; rw [h.view_self]) (by rw [h.view_self]; exact hself)
      fun j hj htype' => Books.held_others h.books hframe hj htype'
    rwa [addr?_eq_some.2 ⟨rfl, h.layout.ne_zero hb⟩] at hupd
  rw [hrefs]
  refine Books.take h.books hb hfree ?_
  rw [refs, if_neg htype_view, h.view_self, hp, addr?_eq_none]

/-- A block is removed from its place. -/
theorem Mid.drop (h : Mid s₀ ip s) (htype : (s₀.node ip).type ≠ .free)
    (hp : held (s.node ip) s.data p = b) (hb : b ≠ 0)
    (haddrs : ∃ a, n' = { s.node ip with addrs := a })
    (hself : ∀ q, held n' s.data q = if q = p then 0 else held (s.node ip) s.data q) :
    Mid s₀ ip (s.change ip (Function.update s.bitmap b false) s.data n') := by
  have htype_view : (s.view ip (s₀.inum ip)).type ≠ .free := by
    rw [h.view_self, h.type]
    exact htype
  have hown : refs (s.view ip) s.data (s₀.inum ip, p) = some b :=
    refs_eq_some.2 ⟨htype_view, by rw [h.view_self]; exact hp, hb⟩
  refine h.change n' haddrs (h.layout.give (h.books.within _ _ hown)) ?_ fun c hc => absurd rfl hc
  have hrefs : refs (Function.update (s.view ip) (s₀.inum ip) n') s.data =
      Function.update (refs (s.view ip) s.data) (s₀.inum ip, p) none :=
    refs_update (p := p) (b := 0) n' htype_view
      (by obtain ⟨a, rfl⟩ := haddrs; rw [h.view_self]) (by rw [h.view_self]; exact hself)
      fun _ _ _ _ => rfl
  rw [hrefs]
  exact Books.give h.books hown

/-- Bytes of one of the file's blocks change. -/
theorem Mid.write (h : Mid s₀ ip s) {k : Nat}
    (hk : refs (s.view ip) s.data (s₀.inum ip, .block k) = some b) (m : Mem) :
    Mid s₀ ip (s.setData b m) := by
  have hchange : s.setData b m =
      s.change ip s.bitmap (Function.update s.data b m) (s.node ip) :=
    (setNode_self (s.setData b m) ip).symm
  have hview : Function.update (s.view ip) (s₀.inum ip) (s.node ip) = s.view ip := by
    rw [← h.view_self, Function.update_eq_self]
  rw [hchange]
  refine h.change _ ⟨_, rfl⟩ h.layout ?_ fun c hc => Or.inr ⟨.block k, ?_⟩
  · rw [hview, refs_congr (fun _ => rfl) (Books.refs_write h.books hk m)]
    exact h.books
  · by_cases hcb : c = b
    · exact hcb ▸ hk
    · exact absurd (Function.update_of_ne hcb ..) hc

end Change

/-! ## `bmap` -/

section Bmap

variable {s₀ s : Fs} {ip : Ip} {cnt bn : Nat}

/-- What `bmap` ensures about its result: it is where logical block `bn` is. -/
structure Mapped (s₀ : Fs) (ip : Ip) (bn cnt b : Nat) (s : Fs) : Prop where
  mid : Mid s₀ ip s
  filled : Filled (s.node ip) s.data (max cnt (bn + 1))
  block : refs (s.view ip) s.data (s₀.inum ip, .block bn) = some b

theorem Mid.mapped (h : Mid s₀ ip s) (htype : (s₀.node ip).type ≠ .free)
    (hf : Filled (s.node ip) s.data (max cnt (bn + 1))) :
    Mapped s₀ ip bn cnt (lblock (s.node ip) s.data bn) s where
  mid := h
  filled := hf
  block := by
    refine refs_eq_some.2 ⟨?_, ?_, ?_⟩
    · rw [h.view_self, h.type]
      exact htype
    · rw [h.view_self]
      rfl
    · exact (hf.block bn).2 (by omega)

/-- Zeroing a free block changes nothing for the file. -/
theorem Mid.held_zeroed (h : Mid s₀ ip s) (htype : (s₀.node ip).type ≠ .free) {b : Nat}
    (hfree : s.bitmap b = false) (m : Mem) (q : Place) :
    held (s.node ip) (Function.update s.data b m) q = held (s.node ip) s.data q := by
  refine held_congr (fun hind => Function.update_of_ne ?_ ..) q
  have hown : refs (s.view ip) s.data (s₀.inum ip, .indirect) =
      some ((s.node ip).addrs indirectAddr) := by
    refine refs_eq_some.2 ⟨?_, ?_, hind⟩
    · rw [h.view_self, h.type]
      exact htype
    · rw [h.view_self]
      rfl
  exact h.books.ne_of_not_used (by simp [hfree]) hown

theorem update_ne {α β : Type} [DecidableEq α] {f : α → β} {a c : α} {v : β}
    (h : Function.update f a v c ≠ f c) : c = a := by
  by_contra hne
  exact h (Function.update_of_ne hne ..)

/-- One more logical block. -/
theorem Mid.grow_mapped (h : Mid s₀ ip s) (htype : (s₀.node ip).type ≠ .free) {b : Nat}
    (hb : s.sb.IsData b) (hfree : s.bitmap b = false)
    (hblock : ∀ k, lblock (s.node ip) s.data k ≠ 0 ↔ k < cnt) {n' : Dinode} {data : Nat → Mem}
    (haddrs : ∃ a, n' = { s.node ip with addrs := a })
    (hself : ∀ q, held n' data q = if q = .block cnt then b else held (s.node ip) s.data q)
    (hdata : ∀ c, data c ≠ s.data c →
      c = b ∨ (s.node ip).addrs indirectAddr ≠ 0 ∧ c = (s.node ip).addrs indirectAddr)
    (hind : (s.node ip).addrs indirectAddr ≠ 0 ↔ nDirect < cnt + 1) :
    Mapped s₀ ip cnt cnt b (s.change ip (Function.update s.bitmap b true) data n') := by
  have hnone : held (s.node ip) s.data (.block cnt) = 0 := by
    by_contra hne
    have hlt := (hblock cnt).1 hne
    omega
  have hmid := h.grow htype hb hfree hnone haddrs hself hdata
  have hfill : Filled n' data (max cnt (cnt + 1)) := by
    rw [max_eq_right (by omega)]
    constructor
    · intro k
      have hk : lblock n' data k = if k = cnt then b else lblock (s.node ip) s.data k := by
        simpa [held] using hself (.block k)
      rw [hk]
      by_cases hkc : k = cnt
      · simp [hkc, h.layout.ne_zero hb]
      · rw [if_neg hkc, hblock]
        omega
    · have hk : n'.addrs indirectAddr = (s.node ip).addrs indirectAddr := by
        simpa [held] using hself .indirect
      rw [hk, hind]
  have hmapped := hmid.mapped htype (by rw [change_node]; exact hfill)
  have hres : lblock ((s.change ip (Function.update s.bitmap b true) data n').node ip) data cnt =
      b := by
    rw [change_node]
    simpa [held] using hself (.block cnt)
  exact hres ▸ hmapped

theorem bmap_direct (h : Mid s₀ ip s) (htype : (s₀.node ip).type ≠ .free)
    (hf : Filled (s.node ip) s.data cnt) (hbn : bn ≤ cnt) (hdir : bn < nDirect) :
    Sat (bmap ip bn) s fun b s' => Mapped s₀ ip bn cnt b s' ∧ (bn < cnt → s' = s) := by
  have hl : lblock (s.node ip) s.data bn = (s.node ip).addrs ⟨bn, by omega⟩ := lblock_direct hdir
  rw [bmap, dif_pos hdir]
  refine wp_get_bind (wp_ite (fun hzero => ?_) fun hne => ?_)
  · obtain rfl : bn = cnt := by
      by_contra hne
      exact (hf.block bn).2 (by omega) (hl.trans hzero)
    refine wp_bind (balloc_spec h.layout) ?_
    rintro b s₁ ⟨hb, hfree, rfl⟩
    refine wp_modify_bind (wp_pure ⟨?_, fun hlt => absurd hlt (lt_irrefl _)⟩)
    have hself : ∀ q, held ((s.node ip).setAddr (Fin.castSucc ⟨bn, hdir⟩) b)
        (Function.update s.data b fun _ => 0) q =
        if q = .block bn then b else held (s.node ip) s.data q := by
      intro q
      rw [held_setAddr, h.held_zeroed htype hfree]
    refine h.grow_mapped htype hb hfree hf.block ⟨_, rfl⟩ hself (fun c hc => Or.inl (update_ne hc)) ?_
    rw [hf.indirect]
    omega
  · have hlt : bn < cnt := (hf.block bn).1 (by rw [hl]; exact hne)
    refine wp_pure ⟨?_, fun _ => rfl⟩
    rw [← hl]
    exact h.mapped htype (by rwa [max_eq_left (by omega)])

/-- The indirect block is there afterwards, and holds the same entries as before. -/
theorem addrOf_indirect (h : Mid s₀ ip s) (htype : (s₀.node ip).type ≠ .free) :
    Sat (addrOf ip indirectAddr) s fun ind s' => Mid s₀ ip s' ∧
      (s'.node ip).addrs indirectAddr = ind ∧ ind ≠ 0 ∧
      (∀ k, lblock (s'.node ip) s'.data k = lblock (s.node ip) s.data k) ∧
      ((s.node ip).addrs indirectAddr ≠ 0 → s' = s) := by
  refine wp_get_bind (wp_ite (fun hzero => ?_) fun hne => ?_)
  · refine wp_bind (balloc_spec h.layout) ?_
    rintro b s₁ ⟨hb, hfree, rfl⟩
    have hself : ∀ q, held ((s.node ip).setAddr indirectAddr b)
        (Function.update s.data b fun _ => 0) q =
        if q = .indirect then b else held (s.node ip) s.data q := by
      intro q
      rw [held_setIndirect hzero (fun j => by rw [Function.update_self, entry_zero]),
        h.held_zeroed htype hfree]
    have hmid := h.grow (p := .indirect) htype hb hfree hzero ⟨_, rfl⟩ hself fun c hc =>
      Or.inl (update_ne hc)
    refine wp_modify_bind (wp_pure ⟨hmid, ?_, h.layout.ne_zero hb, fun k => ?_, fun hne =>
      absurd hzero hne⟩)
    · rw [Fs.setAddr, setNode_node]
      exact setAddr_self indirectAddr b
    · rw [Fs.setAddr, setNode_node]
      exact (hself (.block k)).trans (if_neg (by simp))
  · exact wp_pure ⟨h, rfl, hne, fun _ => rfl, fun _ => rfl⟩

theorem entryOf_spec (h : Mid s₀ ip s) (htype : (s₀.node ip).type ≠ .free)
    (hblock : ∀ k, lblock (s.node ip) s.data k ≠ 0 ↔ k < cnt) {ind : Nat}
    (hind : (s.node ip).addrs indirectAddr = ind) (hne : ind ≠ 0) (hbn : bn ≤ cnt)
    (hdir : nDirect ≤ bn) (hmax : bn < maxFile) :
    Sat (entryOf ind (bn - nDirect)) s fun b s' =>
      Mapped s₀ ip bn cnt b s' ∧ (bn < cnt → s' = s) := by
  subst hind
  have hl : lblock (s.node ip) s.data bn =
      entry (s.data ((s.node ip).addrs indirectAddr)) (bn - nDirect) := lblock_entry hdir hmax hne
  refine wp_get_bind (wp_ite (fun hzero => ?_) fun hnz => ?_)
  · obtain rfl : bn = cnt := by
      by_contra hne
      exact (hblock bn).2 (by omega) (hl.trans hzero)
    refine wp_bind (balloc_spec h.layout) ?_
    rintro b s₁ ⟨hb, hfree, rfl⟩
    refine wp_modify_bind (wp_pure ⟨?_, fun hlt => absurd hlt (lt_irrefl _)⟩)
    -- the zeroed block is another than the indirect block, whose entry is written
    have hself : ∀ q, held (s.node ip) (Function.update (Function.update s.data b fun _ => 0)
        ((s.node ip).addrs indirectAddr) ((s.data ((s.node ip).addrs indirectAddr)).store
          (4 * (bn - nDirect)) 4 b)) q =
        if q = .block bn then b else held (s.node ip) s.data q :=
      held_store hdir hmax (lt_of_lt_of_le hb.2 s.sb.size.toNat_lt.le) hne (Function.update_self ..)
    have hmapped := h.grow_mapped htype hb hfree hblock ⟨_, rfl⟩ hself ?_
      ⟨fun _ => by omega, fun _ => hne⟩
    · have hchange := setNode_self (((s.setBit b true).setData b fun _ => 0).setData
        ((s.node ip).addrs indirectAddr) ((s.data ((s.node ip).addrs indirectAddr)).store
          (4 * (bn - nDirect)) 4 b)) ip
      exact hchange ▸ hmapped
    · intro c hc
      by_cases hci : c = (s.node ip).addrs indirectAddr
      · exact Or.inr ⟨hne, hci⟩
      · rw [Function.update_of_ne hci] at hc
        exact Or.inl (update_ne hc)
  · have hlt : bn < cnt := (hblock bn).1 (by rw [hl]; exact hnz)
    refine wp_pure ⟨?_, fun _ => rfl⟩
    rw [← hl]
    refine h.mapped htype ?_
    rw [max_eq_left (by omega)]
    refine ⟨hblock, ⟨fun _ => by omega, fun _ => hne⟩⟩

/-- The block is there already, or it is the first one that is missing. -/
theorem bmap_spec (h : Mid s₀ ip s) (htype : (s₀.node ip).type ≠ .free)
    (hf : Filled (s.node ip) s.data cnt) (hbn : bn ≤ cnt) (hmax : bn < maxFile) :
    Sat (bmap ip bn) s fun b s' => Mapped s₀ ip bn cnt b s' ∧ (bn < cnt → s' = s) := by
  by_cases hdir : bn < nDirect
  · exact bmap_direct h htype hf hbn hdir
  · have hrange : bn - nDirect < nIndirect := by
      have : maxFile = nDirect + nIndirect := rfl
      omega
    rw [bmap, dif_neg hdir, if_pos hrange]
    refine wp_bind (addrOf_indirect h htype) ?_
    rintro ind s₁ ⟨h₁, hind, hne, hblock, hsame⟩
    refine wp_mono (entryOf_spec h₁ htype (fun k => by rw [hblock, hf.block]) hind hne hbn
      (by omega) hmax) ?_
    rintro b s₂ ⟨hmapped, hkeep⟩
    refine ⟨hmapped, fun hlt => ?_⟩
    rw [hkeep hlt]
    exact hsame (hf.indirect.2 (by omega))

end Bmap

end Cs350.Block
