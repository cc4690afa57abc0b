import Cs350.Block.Ops

set_option autoImplicit false

/-! # The bytes of a file

`byteAt s ip x` is byte `x` of the file that is open as `ip`: the byte at the same place of the
logical block that `x` lies in. `readi` returns these bytes, and `writei` changes those of the range
it is given and no others. -/

namespace Cs350.Block

open FileSys (IType Ip nInode)
open Prog

/-- Byte `x` of a file. -/
def Dinode.byteAt (n : Dinode) (data : Nat → Mem) (x : Nat) : UInt8 :=
  data (lblock n data (x / bsize)) (x % bsize)

def Fs.byteAt (s : Fs) (ip : Ip) (x : Nat) : UInt8 := (s.node ip).byteAt s.data x

/-- The first `cnt` blocks of the file have not changed. -/
def Kept (ip : Ip) (cnt : Nat) (s s' : Fs) : Prop :=
  ∀ k, k < cnt → lblock (s'.node ip) s'.data k = lblock (s.node ip) s.data k ∧
    s'.data (lblock (s.node ip) s.data k) = s.data (lblock (s.node ip) s.data k)

section Kept

variable {s s' s'' : Fs} {ip : Ip} {cnt : Nat}

theorem Kept.refl (s : Fs) : Kept ip cnt s s := fun _ _ => ⟨rfl, rfl⟩

theorem Kept.trans (h : Kept ip cnt s s') (h' : Kept ip cnt s' s'') : Kept ip cnt s s'' := by
  intro k hk
  obtain ⟨hl, hd⟩ := h k hk
  obtain ⟨hl', hd'⟩ := h' k hk
  rw [hl] at hl' hd'
  exact ⟨hl', hd'.trans hd⟩

theorem Kept.byteAt (h : Kept ip cnt s s') {x : Nat} (hx : x / bsize < cnt) :
    s'.byteAt ip x = s.byteAt ip x := by
  obtain ⟨hl, hd⟩ := h _ hx
  rw [Fs.byteAt, Dinode.byteAt, hl, hd]
  rfl

end Kept

/-! ## `bmap` keeps the blocks that are there -/

section Bmap

variable {s₀ s : Fs} {ip : Ip} {cnt bn : Nat}

/-- A block of the file. -/
theorem Mid.ref_block (h : Mid s₀ ip s) (htype : (s₀.node ip).type ≠ .free) {k : Nat}
    (hk : lblock (s.node ip) s.data k ≠ 0) :
    refs (s.view ip) s.data (s₀.inum ip, .block k) = some (lblock (s.node ip) s.data k) := by
  refine refs_eq_some.2 ⟨?_, ?_, hk⟩
  · rw [h.view_self, h.type]
    exact htype
  · rw [h.view_self]
    rfl

/-- A block of the file is neither free nor its indirect block. -/
theorem Mid.block_ne (h : Mid s₀ ip s) (htype : (s₀.node ip).type ≠ .free) {k : Nat}
    (hk : lblock (s.node ip) s.data k ≠ 0) {b : Nat}
    (hb : s.bitmap b = false ∨ (s.node ip).addrs indirectAddr = b) :
    lblock (s.node ip) s.data k ≠ b := by
  have hown := h.ref_block htype hk
  rcases hb with hfree | hind
  · exact h.books.ne_of_not_used (by simp [hfree]) hown
  · intro heq
    have hind' : refs (s.view ip) s.data (s₀.inum ip, .indirect) = some b := by
      refine refs_eq_some.2 ⟨?_, ?_, heq ▸ hk⟩
      · rw [h.view_self, h.type]
        exact htype
      · rw [h.view_self]
        exact hind
    rw [heq] at hown
    exact nomatch congrArg Prod.snd (h.books.once _ _ _ hown hind')

/-- A place that had no block gets one. -/
theorem Mid.kept (h : Mid s₀ ip s) (htype : (s₀.node ip).type ≠ .free) {s' : Fs}
    (hblock : ∀ k, k < cnt → lblock (s.node ip) s.data k ≠ 0)
    (hself : ∀ k, k < cnt → lblock (s'.node ip) s'.data k = lblock (s.node ip) s.data k)
    (hdata : ∀ c, s'.data c ≠ s.data c →
      s.bitmap c = false ∨ (s.node ip).addrs indirectAddr = c) : Kept ip cnt s s' := by
  intro k hk
  refine ⟨hself k hk, ?_⟩
  by_contra hne
  exact h.block_ne htype (hblock k hk) (hdata _ hne) rfl

theorem addrOf_kept (h : Mid s₀ ip s) (htype : (s₀.node ip).type ≠ .free)
    (hblock : ∀ k, k < cnt → lblock (s.node ip) s.data k ≠ 0) {i : Fin (nDirect + 1)}
    (hself : (s.node ip).addrs i = 0 → ∀ b k, k < cnt →
      lblock ((s.node ip).setAddr i b) (Function.update s.data b fun _ => 0) k
        = lblock (s.node ip) (Function.update s.data b fun _ => 0) k) :
    Sat (addrOf ip i) s fun _ s' => Kept ip cnt s s' := by
  refine wp_get_bind (wp_ite (fun hzero => ?_) fun _ => wp_pure (Kept.refl s))
  refine wp_bind (balloc_spec h.layout) ?_
  rintro b s₁ ⟨hb, hfree, rfl⟩
  refine wp_modify_bind (wp_pure (h.kept htype hblock (fun k hk => ?_) fun c hc => ?_))
  · rw [Fs.setAddr, setNode_node]
    exact (hself hzero b k hk).trans (h.held_zeroed htype hfree _ (.block k))
  · exact Or.inl (update_ne hc ▸ hfree)

theorem entryOf_kept (h : Mid s₀ ip s) (htype : (s₀.node ip).type ≠ .free)
    (hblock : ∀ k, k < cnt → lblock (s.node ip) s.data k ≠ 0) {ind : Nat}
    (hind : (s.node ip).addrs indirectAddr = ind) (hne : ind ≠ 0) (hdir : nDirect ≤ bn)
    (hmax : bn < maxFile) :
    Sat (entryOf ind (bn - nDirect)) s fun _ s' => Kept ip cnt s s' := by
  subst hind
  refine wp_get_bind (wp_ite (fun hzero => ?_) fun _ => wp_pure (Kept.refl s))
  refine wp_bind (balloc_spec h.layout) ?_
  rintro b s₁ ⟨hb, hfree, rfl⟩
  have hheld : ∀ k, held (s.node ip) (Function.update (Function.update s.data b fun _ => 0)
      ((s.node ip).addrs indirectAddr) ((s.data ((s.node ip).addrs indirectAddr)).store
        (4 * (bn - nDirect)) 4 b)) (.block k) =
      if Place.block k = .block bn then b else held (s.node ip) s.data (.block k) := fun k =>
    held_store hdir hmax (lt_of_lt_of_le hb.2 s.sb.size.toNat_lt.le) hne (Function.update_self ..)
      (.block k)
  refine wp_modify_bind (wp_pure (h.kept htype hblock (fun k hk => ?_) fun c hc => ?_))
  · -- the entry that is written was zero, so it is none of these
    have hkbn : k ≠ bn := by
      rintro rfl
      exact hblock k hk ((lblock_entry hdir hmax hne).trans hzero)
    exact (hheld k).trans (if_neg (by simpa using hkbn))
  · by_cases hci : c = (s.node ip).addrs indirectAddr
    · exact Or.inr hci.symm
    · exact Or.inl (update_ne ((Function.update_of_ne hci ..).symm.trans_ne hc) ▸ hfree)

theorem bmap_kept (h : Mid s₀ ip s) (htype : (s₀.node ip).type ≠ .free)
    (hf : Filled (s.node ip) s.data cnt) (hmax : bn < maxFile) :
    Sat (bmap ip bn) s fun _ s' => Kept ip cnt s s' := by
  have hblock : ∀ k, k < cnt → lblock (s.node ip) s.data k ≠ 0 := fun k hk => (hf.block k).2 hk
  by_cases hdir : bn < nDirect
  · rw [bmap, dif_pos hdir]
    refine addrOf_kept h htype hblock fun hzero b k hk => ?_
    have hkbn : k ≠ bn := by
      rintro rfl
      exact hblock k hk ((lblock_direct hdir).trans hzero)
    exact (held_setAddr ⟨bn, hdir⟩ b (.block k)).trans (if_neg (by simpa using hkbn))
  · have hrange : bn - nDirect < nIndirect := by
      have : maxFile = nDirect + nIndirect := rfl
      omega
    rw [bmap, dif_neg hdir, if_pos hrange]
    refine wp_bind (wp_and (addrOf_indirect h htype)
      (addrOf_kept h htype hblock fun hzero b k _ => ?_)) ?_
    · refine (held_setIndirect hzero (fun j => ?_) (.block k)).trans (if_neg (by simp))
      rw [Function.update_self, entry_zero]
    · rintro ind s₁ ⟨⟨h₁, hind, hne, hkeep, -⟩, hkept⟩
      have hblock₁ : ∀ k, k < cnt → lblock (s₁.node ip) s₁.data k ≠ 0 := fun k hk => by
        rw [hkeep]
        exact hblock k hk
      exact wp_mono (entryOf_kept h₁ htype hblock₁ hind hne (by omega) hmax)
        fun _ s₂ hkept' => hkept.trans hkept'

end Bmap

/-! ## `readi` -/

section Read

variable {C : Empty → Prop} {E : Panic → Prop} {s : Fs} {ip : Ip}

theorem memmove_apply (dst src : Mem) (d t n a : Nat) :
    memmove dst d src t n a = if d ≤ a ∧ a < d + n then src (t + (a - d)) else dst a := rfl

theorem addrOf_there {k : Fin (nDirect + 1)} (h : (s.node ip).addrs k ≠ 0) :
    wp C E (addrOf ip k) s fun b s' => s' = s ∧ b = (s.node ip).addrs k :=
  wp_get_bind (wp_ite (fun hzero => absurd hzero h) fun _ => wp_pure ⟨rfl, rfl⟩)

/-- `bmap` of a block that is there changes nothing. -/
theorem bmap_there {bn : Nat} (h : lblock (s.node ip) s.data bn ≠ 0) :
    wp C E (bmap ip bn) s fun b s' => s' = s ∧ b = lblock (s.node ip) s.data bn := by
  by_cases hdir : bn < nDirect
  · rw [lblock_direct hdir] at h ⊢
    rw [bmap, dif_pos hdir]
    exact addrOf_there h
  · have hind : (s.node ip).addrs indirectAddr ≠ 0 := fun hzero => h (lblock_none (by omega) hzero)
    have hmax : bn < maxFile := by
      by_contra hge
      exact h (by rw [lblock, dif_neg hdir, if_neg fun hlt => hge hlt.1])
    have hrange : bn - nDirect < nIndirect := by
      have hfile : maxFile = nDirect + nIndirect := rfl
      omega
    rw [lblock_entry (by omega) hmax hind] at h ⊢
    rw [bmap, dif_neg hdir, if_pos hrange]
    apply wp_bind (addrOf_there hind)
    rintro ind s ⟨rfl, rfl⟩
    exact wp_get_bind (wp_ite (fun hzero => absurd hzero h) fun _ => wp_pure ⟨rfl, rfl⟩)

theorem readLoop_bytes (n fuel : Nat) (dst : Mem) (tot off : Nat)
    (hthere : ∀ x, off ≤ x → x < off + (n - tot) → lblock (s.node ip) s.data (x / bsize) ≠ 0)
    (hfuel : n - tot ≤ fuel) :
    wp C E (readLoop ip n fuel dst tot off) s fun dst' s' => s' = s ∧
      ∀ a, dst' a = if tot ≤ a ∧ a < n then s.byteAt ip (off + (a - tot)) else dst a := by
  induction fuel generalizing dst tot off with
  | zero => exact wp_pure ⟨rfl, fun a => by rw [if_neg (by omega)]⟩
  | succ fuel ih =>
      refine wp_ite (fun htot => ?_) fun _ => wp_pure ⟨rfl, fun a => by rw [if_neg (by omega)]⟩
      apply wp_bind (bmap_there (hthere off (Nat.le_refl _) (by omega)))
      rintro b s₁ ⟨rfl, rfl⟩
      refine wp_get_bind ?_
      dsimp only
      generalize hm : min (n - tot) (bsize - off % bsize) = m
      have hpos : 0 < m ∧ m ≤ n - tot ∧ off % bsize + m ≤ bsize := by
        unfold bsize at *
        omega
      refine wp_mono (ih _ (tot + m) (off + m) (fun x hlo hhi => hthere x (by omega) (by omega))
        (by omega)) ?_
      rintro dst' s' ⟨rfl, hdst'⟩
      refine ⟨rfl, fun a => ?_⟩
      rw [hdst']
      by_cases hlate : tot + m ≤ a ∧ a < n
      · rw [if_pos hlate, if_pos (by omega), show off + m + (a - (tot + m)) = off + (a - tot) by omega]
      · rw [if_neg hlate, memmove_apply]
        by_cases hnow : tot ≤ a ∧ a < tot + m
        · -- the bytes of this round lie in one block
          have hdiv : (off + (a - tot)) / bsize = off / bsize := by
            unfold bsize at *
            omega
          have hmod : (off + (a - tot)) % bsize = off % bsize + (a - tot) := by
            unfold bsize at *
            omega
          rw [if_pos hnow, if_pos (by omega), Fs.byteAt, Dinode.byteAt, hdiv, hmod]
        · rw [if_neg hnow, if_neg (by omega)]

/-- What `readi` returns of a file whose blocks are there: the bytes up to the end of the file. -/
theorem readi_there (hdev : (s.node ip).type ≠ .dev) (dst : Mem) {off n : UInt32}
    (hoff : off.toNat ≤ (s.node ip).size) (hwrap : off.toNat + n.toNat < 2 ^ 32)
    (hthere : ∀ x, off.toNat ≤ x → x < off.toNat + min n.toNat ((s.node ip).size - off.toNat) →
      lblock (s.node ip) s.data (x / bsize) ≠ 0) :
    wp C E (readi ip dst off n) s fun r s' => s' = s ∧
      r.1 = min n.toNat ((s.node ip).size - off.toNat) ∧
      ∀ a, r.2 a = if a < min n.toNat ((s.node ip).size - off.toNat) then
        s.byteAt ip (off.toNat + a) else dst a := by
  have hsum : (off + n).toNat = off.toNat + n.toNat := toNat_add_of_lt hwrap
  refine wp_get_bind (wp_ite (fun hno => absurd hno hdev) fun _ => wp_ite (fun hno => ?_) fun _ => ?_)
  · rw [UInt32.lt_iff_toNat_lt, hsum] at hno
    omega
  · have hcut : (if (off + n).toNat > (s.node ip).size then (s.node ip).size - off.toNat
        else n.toNat) = min n.toNat ((s.node ip).size - off.toNat) := by
      rw [hsum]
      split_ifs <;> omega
    rw [hcut]
    generalize min n.toNat ((s.node ip).size - off.toNat) = cnt at hthere ⊢
    refine wp_bind (readLoop_bytes cnt cnt dst 0 off.toNat hthere (by omega)) ?_
    rintro dst' s' ⟨rfl, hdst'⟩
    refine wp_pure ⟨rfl, rfl, fun a => ?_⟩
    show dst' a = _
    rw [hdst', Nat.sub_zero]
    by_cases ha : a < cnt
    · rw [if_pos ⟨Nat.zero_le a, ha⟩, if_pos ha]
    · rw [if_neg fun hlt => ha hlt.2, if_neg ha]

end Read

/-! ## `writei` -/

section Write

variable {s s₀ : Fs} {ip : Ip}

/-- Bytes are written to the block that `bmap` found. -/
theorem Mapped.write_byteAt {bn cnt b : Nat} (h : Mapped s₀ ip bn cnt b s)
    (htype : (s₀.node ip).type ≠ .free) (m : Mem) {x : Nat} (hx : x / bsize < max cnt (bn + 1)) :
    (s.setData b m).byteAt ip x = if x / bsize = bn then m (x % bsize) else s.byteAt ip x := by
  have hrefs := Books.refs_write h.mid.books h.block m (s₀.inum ip)
    (by rw [h.mid.view_self, h.mid.type]; exact htype) (.block (x / bsize))
  rw [h.mid.view_self] at hrefs
  have hl : lblock (s.node ip) (Function.update s.data b m) (x / bsize)
      = lblock (s.node ip) s.data (x / bsize) := hrefs
  show Function.update s.data b m (lblock (s.node ip) (Function.update s.data b m) (x / bsize)) _ = _
  rw [hl]
  have hown := h.mid.ref_block htype ((h.filled.block _).2 hx)
  split_ifs with hbn
  · have hb : lblock (s.node ip) s.data (x / bsize) = b := by
      rw [hbn] at hown ⊢
      exact Option.some.inj (hown.symm.trans h.block)
    rw [hb, Function.update_self]
  · have hne : lblock (s.node ip) s.data (x / bsize) ≠ b := fun heq => by
      rw [heq] at hown
      have hplace := congrArg Prod.snd (h.mid.books.once _ _ _ hown h.block)
      exact hbn (Place.block.inj hplace)
    rw [Function.update_of_ne hne]
    rfl

theorem writeLoop_bytes (htype : (s₀.node ip).type ≠ .free) (src : Mem) (n fuel tot off : Nat)
    (h : Writing s₀ ip off s) (hfuel : n - tot ≤ fuel) (hmax : off + (n - tot) ≤ maxFile * bsize) :
    Sat (writeLoop ip src n fuel tot off) s fun _ s' =>
      ∀ x, x < (s₀.node ip).size ∨ x < off + (n - tot) → s'.byteAt ip x =
        if off ≤ x ∧ x < off + (n - tot) then src (tot + (x - off)) else s.byteAt ip x := by
  induction fuel generalizing s tot off with
  | zero => exact wp_pure fun x _ => by rw [if_neg (by omega)]
  | succ fuel ih =>
      refine wp_ite (fun htot => ?_) fun _ => wp_pure fun x _ => by rw [if_neg (by omega)]
      have hlt : off / bsize < maxFile := by
        unfold maxFile nDirect nIndirect bsize at *
        omega
      refine wp_bind (wp_and (bmap_spec h.mid htype h.filled (next_block _ off) hlt)
        (bmap_kept h.mid htype h.filled hlt)) ?_
      rintro b s₁ ⟨⟨hmapped, hsame⟩, hkept⟩
      refine wp_modify_bind ?_
      generalize hm : min (n - tot) (bsize - off % bsize) = m
      have hpos : 0 < m ∧ m ≤ n - tot ∧ off % bsize + m ≤ bsize := by
        unfold bsize at *
        omega
      have hnext := h.round htype hmapped hsame hpos.1 hpos.2.2
        (memmove (s₁.data b) (off % bsize) src tot m)
      refine wp_mono (ih (tot + m) (off + m) hnext (by omega) (by omega)) fun _ s' hrest => ?_
      intro x hx
      rw [hrest x (by omega)]
      by_cases hlate : off + m ≤ x ∧ x < off + m + (n - (tot + m))
      · rw [if_pos hlate, if_pos (by omega), show tot + m + (x - (off + m)) = tot + (x - off) by omega]
      · -- what is not written by later rounds is in a block that is there
        have hthere : x / bsize < max (max (nblocks (s₀.node ip).size) (nblocks off))
            (off / bsize + 1) := by
          unfold nblocks bsize at *
          omega
        rw [if_neg hlate, hmapped.write_byteAt htype _ hthere, memmove_apply]
        by_cases hnow : off ≤ x ∧ x < off + m
        · have hdiv : x / bsize = off / bsize := by
            unfold bsize at *
            omega
          have hmod : x % bsize = off % bsize + (x - off) := by
            unfold bsize at *
            omega
          rw [if_pos hdiv, if_pos (by omega), if_pos (by omega), hmod, Nat.add_sub_cancel_left]
        · have hold : x / bsize < max (nblocks (s₀.node ip).size) (nblocks off) := by
            unfold nblocks bsize at *
            omega
          rw [show (if off ≤ x ∧ x < off + (n - tot) then src (tot + (x - off)) else s.byteAt ip x)
            = s.byteAt ip x from if_neg (by omega), ← hkept.byteAt hold]
          split_ifs with hdiv hmod
          · exact absurd ⟨by unfold bsize at *; omega, by unfold bsize at *; omega⟩ hnow
          · rw [Fs.byteAt, Dinode.byteAt]
            have hown := (refs_eq_some.1 hmapped.block).2.1
            rw [hmapped.mid.view_self] at hown
            have hb : lblock (s₁.node ip) s₁.data (off / bsize) = b := hown
            rw [hdiv, hb]
          · rfl

/-- What a write leaves of an open file. -/
structure Wrote (ip : Ip) (src : Mem) (off n : Nat) (s s' : Fs) : Prop where
  locked : Locked s' ip
  inum : s'.inum ip = s.inum ip
  type : (s'.node ip).type = (s.node ip).type
  size : (s'.node ip).size = max (s.node ip).size (off + n)
  bytes : ∀ x, x < max (s.node ip).size (off + n) → s'.byteAt ip x =
    if off ≤ x ∧ x < off + n then src (x - off) else s.byteAt ip x

theorem Mid.locked (h : Mid s₀ ip s) (hip : Locked s₀ ip) : Locked s ip := by
  obtain ⟨a, ha⟩ := h.slot
  exact ⟨by rw [ha]; exact hip.ref, by rw [ha]; exact hip.valid⟩

theorem byteAt_addrs {n n' : Dinode} (h : n'.addrs = n.addrs) (data : Nat → Mem) (x : Nat) :
    n'.byteAt data x = n.byteAt data x := by
  have hl : lblock n' data (x / bsize) = lblock n data (x / bsize) := held_addrs h (.block _)
  rw [Dinode.byteAt, Dinode.byteAt, hl]

/-- A write that starts in the file and ends below the largest size succeeds. -/
theorem writei_bytes (h : Sound s) (hip : Locked s ip) (hdev : (s.node ip).type ≠ .dev) (src : Mem)
    {off n : UInt32} (hoff : off.toNat ≤ (s.node ip).size)
    (hmax : off.toNat + n.toNat ≤ maxFile * bsize) :
    Sat (writei ip src off n) s fun r s' =>
      Sound s' ∧ r = n.toNat ∧ Wrote ip src off.toNat n.toNat s s' := by
  refine wp_and (writei_spec h hip src off n) ?_
  have hsum : (off + n).toNat = off.toNat + n.toNat :=
    toNat_add_of_lt (lt_of_le_of_lt hmax (by decide))
  refine wp_get_bind (wp_ite (fun hno => absurd hno hdev) fun _ => wp_ite (fun hno => ?_) fun _ =>
    wp_ite (fun hno => ?_) fun _ => ?_)
  · rw [UInt32.lt_iff_toNat_lt, hsum] at hno
    omega
  · rw [hsum] at hno
    omega
  have hstart := h.writing hip hoff
  refine wp_bind (wp_and (writeLoop_spec (h.type hip) src n.toNat n.toNat 0 off.toNat hstart
    (by omega) (by omega)) (writeLoop_bytes (h.type hip) src n.toNat n.toNat 0 off.toNat hstart
    (by omega) (by omega))) ?_
  rintro off' s' ⟨⟨rfl, hw⟩, hbytes⟩
  rw [Nat.sub_zero] at hbytes ⊢
  have hbytes' : ∀ x, x < max (s.node ip).size (off.toNat + n.toNat) → s'.byteAt ip x =
      if off.toNat ≤ x ∧ x < off.toNat + n.toNat then src (x - off.toNat) else s.byteAt ip x := by
    intro x hx
    rw [hbytes x (by omega), Nat.zero_add]
  have hlocked := hw.mid.locked hip
  refine wp_get_bind (wp_ite (fun hgrow => ?_) fun hno => ?_)
  · refine wp_modify_bind (wp_modify_bind (wp_pure ⟨rfl, ?_⟩))
    have hlt : (s.node ip).size < off.toNat + n.toNat := by
      rw [← hw.mid.size]
      exact hgrow.2
    constructor
    · refine ⟨?_, ?_⟩
      · show 0 < (Function.update s'.icache ip _ ip).ref
        rw [Function.update_self]
        exact hlocked.ref
      · show (Function.update s'.icache ip _ ip).valid = true
        rw [Function.update_self]
        exact hlocked.valid
    · exact (setNode_inum s' ip _).trans hw.mid.inum
    · show ((s'.setNode ip _).node ip).type = _
      rw [setNode_node]
      exact hw.mid.type
    · show ((s'.setNode ip _).node ip).size = _
      rw [setNode_node, max_eq_right hlt.le]
    · intro x hx
      rw [← hbytes' x hx]
      show ((s'.setNode ip _).node ip).byteAt s'.data x = _
      rw [setNode_node]
      exact byteAt_addrs rfl s'.data x
  · refine wp_pure ⟨rfl, hlocked, hw.mid.inum, hw.mid.type, ?_, hbytes'⟩
    rw [not_and_or, hw.mid.size] at hno
    rw [hw.mid.size]
    rcases hno with hn | hle
    · have hn : n.toNat = 0 := by
        rw [gt_iff_lt, UInt32.lt_iff_toNat_lt] at hn
        simpa using hn
      omega
    · omega

end Write

end Cs350.Block
