import Cs350.Block.Content
import Cs350.Lib.Word

set_option autoImplicit false

/-! # Reading, writing and truncating files -/

namespace Cs350.Block

open FileSys (IType Ip nInode)
open Prog

/-- The slots of the cache that are in use hold different inodes, and where the contents have been
    read they are those on disk, of an allocated inode. -/
structure Coherent (s : Fs) : Prop where
  uniq : ∀ ip jp, 0 < (s.icache ip).ref → 0 < (s.icache jp).ref → s.inum ip = s.inum jp → ip = jp
  copy : ∀ ip, 0 < (s.icache ip).ref → (s.icache ip).valid → s.node ip = s.dinode (s.inum ip)
  allocated : ∀ ip, 0 < (s.icache ip).ref → (s.icache ip).valid →
    (s.dinode (s.inum ip)).type ≠ .free

/-- The state between operations. -/
structure Sound (s : Fs) : Prop where
  layout : Layout s.sb s.bitmap
  books : Books s.sb s.bitmap (refs s.dinode s.data)
  filled : ∀ i, (s.dinode i).type ≠ .free →
    Filled (s.dinode i) s.data (nblocks (s.dinode i).size)
  cache : Coherent s

/-- A locked inode. -/
structure Locked (s : Fs) (ip : Ip) : Prop where
  ref : 0 < (s.icache ip).ref
  valid : (s.icache ip).valid

section Start

variable {s s₀ : Fs} {ip : Ip}

theorem Sound.node (h : Sound s) (hip : Locked s ip) : s.node ip = s.dinode (s.inum ip) :=
  h.cache.copy ip hip.ref hip.valid

theorem Sound.type (h : Sound s) (hip : Locked s ip) : (s.node ip).type ≠ .free := by
  rw [h.node hip]
  exact h.cache.allocated ip hip.ref hip.valid

theorem Sound.view (h : Sound s) (hip : Locked s ip) : s.view ip = s.dinode := by
  rw [Fs.view, h.node hip, Function.update_eq_self]

theorem Sound.mid (h : Sound s) (hip : Locked s ip) : Mid s ip s where
  sb := rfl
  dinode := rfl
  slots _ _ := rfl
  slot := ⟨_, rfl⟩
  layout := h.layout
  books := by
    rw [h.view hip]
    exact h.books
  others i _ htype := h.filled i htype

theorem Sound.filled_node (h : Sound s) (hip : Locked s ip) :
    Filled (s.node ip) s.data (nblocks (s.node ip).size) := by
  rw [h.node hip]
  exact h.filled _ (h.cache.allocated ip hip.ref hip.valid)

end Start

/-! ## `readi` and `writei` -/

section Transfer

variable {s s₀ : Fs} {ip : Ip}

theorem readLoop_spec (h : Sound s) (hip : Locked s ip) (n fuel : Nat) (dst : Mem) (tot off : Nat)
    (hoff : off + (n - tot) ≤ (s.node ip).size) :
    Sat (readLoop ip n fuel dst tot off) s fun _ s' => s' = s := by
  induction fuel generalizing dst tot off with
  | zero => exact wp_pure rfl
  | succ fuel ih =>
      refine wp_ite (fun htot => ?_) fun _ => wp_pure rfl
      have hf := h.filled_node hip
      have hbn : off / bsize < nblocks (s.node ip).size := by
        unfold nblocks bsize
        omega
      refine wp_bind (bmap_spec (h.mid hip) (h.type hip) hf hbn.le (hbn.trans_le hf.cnt_le)) ?_
      rintro b s₁ ⟨-, hsame⟩
      obtain rfl := hsame hbn
      exact wp_get_bind (ih _ _ _ (by omega))

/-- Reading leaves everything as it is. -/
theorem readi_spec (h : Sound s) (hip : Locked s ip) (dst : Mem) (off n : UInt32) :
    Sat (readi ip dst off n) s fun _ s' => s' = s := by
  refine wp_get_bind (wp_ite (fun _ => ?_) fun _ => wp_ite (fun _ => wp_pure rfl) fun hoff => ?_)
  · split <;> exact wp_pure rfl
  · rw [not_or] at hoff
    have hsum := add_toNat hoff.2
    refine wp_bind (readLoop_spec h hip _ _ dst 0 off.toNat ?_) fun _ s' hs' => wp_pure hs'
    split_ifs <;> omega

/-- The invariant of the loop of `writei`: the blocks below `off` are there, and as long as the
    size is not passed the copy of the inode is as it was. -/
structure Writing (s₀ : Fs) (ip : Ip) (off : Nat) (s : Fs) : Prop where
  mid : Mid s₀ ip s
  filled : Filled (s.node ip) s.data (max (nblocks (s₀.node ip).size) (nblocks off))
  same : off ≤ (s₀.node ip).size → s.node ip = s₀.node ip

/-- Bytes are written to the block that `bmap` found. -/
theorem Mapped.write {bn cnt b : Nat} (h : Mapped s₀ ip bn cnt b s)
    (htype : (s₀.node ip).type ≠ .free) (m : Mem) :
    Mid s₀ ip (s.setData b m) ∧
      Filled ((s.setData b m).node ip) (s.setData b m).data (max cnt (bn + 1)) := by
  refine ⟨h.mid.write h.block m, h.filled.congr fun q => ?_⟩
  have hheld := Books.refs_write h.mid.books h.block m (s₀.inum ip)
    (by rw [h.mid.view_self, h.mid.type]; exact htype) q
  rw [h.mid.view_self] at hheld
  exact hheld

theorem Sound.writing (h : Sound s) (hip : Locked s ip) {off : Nat} (hoff : off ≤ (s.node ip).size) :
    Writing s ip off s := by
  refine ⟨h.mid hip, ?_, fun _ => rfl⟩
  have hcnt : nblocks off ≤ nblocks (s.node ip).size := by
    unfold nblocks bsize
    omega
  rw [max_eq_left hcnt]
  exact h.filled_node hip

/-- `m` bytes are written to the block that `off` lies in. -/
theorem Writing.round {off b m : Nat} {s₁ : Fs} (h : Writing s₀ ip off s)
    (htype : (s₀.node ip).type ≠ .free)
    (hmapped : Mapped s₀ ip (off / bsize) (max (nblocks (s₀.node ip).size) (nblocks off)) b s₁)
    (hsame : off / bsize < max (nblocks (s₀.node ip).size) (nblocks off) → s₁ = s)
    (hpos : 0 < m) (hm : off % bsize + m ≤ bsize) (bytes : Mem) :
    Writing s₀ ip (off + m) (s₁.setData b bytes) := by
  obtain ⟨hmid, hfill⟩ := hmapped.write htype bytes
  refine ⟨hmid, ?_, fun hle => ?_⟩
  · have hcnt : max (max (nblocks (s₀.node ip).size) (nblocks off)) (off / bsize + 1) =
        max (nblocks (s₀.node ip).size) (nblocks (off + m)) := by
      unfold nblocks bsize at *
      omega
    rw [← hcnt]
    exact hfill
  · -- the block was there, so `bmap` left the inode as it was
    have hthere : off / bsize < max (nblocks (s₀.node ip).size) (nblocks off) := by
      unfold nblocks bsize at *
      omega
    have hnode : s₁.node ip = s₀.node ip := by
      rw [hsame hthere]
      exact h.same (by omega)
    exact hnode

/-- The block that the loop writes to next is there, or is the next one. -/
theorem next_block (size off : Nat) : off / bsize ≤ max (nblocks size) (nblocks off) := by
  unfold nblocks bsize
  omega

theorem writeLoop_spec (htype : (s₀.node ip).type ≠ .free) (src : Mem) (n fuel tot off : Nat)
    (h : Writing s₀ ip off s) (hfuel : n - tot ≤ fuel) (hmax : off + (n - tot) ≤ maxFile * bsize) :
    Sat (writeLoop ip src n fuel tot off) s fun off' s' =>
      off' = off + (n - tot) ∧ Writing s₀ ip off' s' := by
  induction fuel generalizing s tot off with
  | zero => exact wp_pure ⟨by omega, h⟩
  | succ fuel ih =>
      refine wp_ite (fun htot => ?_) fun _ => wp_pure ⟨by omega, h⟩
      have hlt : off / bsize < maxFile := by
        unfold maxFile nDirect nIndirect bsize at *
        omega
      refine wp_bind (bmap_spec h.mid htype h.filled (next_block _ off) hlt) ?_
      rintro b s₁ ⟨hmapped, hsame⟩
      refine wp_modify_bind ?_
      generalize hm : min (n - tot) (bsize - off % bsize) = m
      have hpos : 0 < m ∧ off % bsize + m ≤ bsize := by
        unfold bsize at *
        omega
      have hnext := h.round htype hmapped hsame hpos.1 hpos.2
        (memmove (s₁.data b) (off % bsize) src tot m)
      refine wp_mono (ih (tot + m) (off + m) hnext (by omega) (by omega)) ?_
      rintro off' s' ⟨rfl, h'⟩
      have hoff : off + m + (n - (tot + m)) = off + (n - tot) := by omega
      exact ⟨hoff, h'⟩

end Transfer

/-! ## The end of an operation -/

section Close

variable {s s₀ s' : Fs} {ip : Ip} {n' : Dinode}

/-- One slot and its inode on disk change, and agree afterwards if they have to. -/
theorem Coherent.change (n' : Dinode) (h : Coherent s₀) (hip : 0 < (s₀.icache ip).ref)
    (hslots : ∀ jp, jp ≠ ip → s'.icache jp = s₀.icache jp) (hinum : s'.inum ip = s₀.inum ip)
    (hdinode : s'.dinode = Function.update s₀.dinode (s₀.inum ip) n')
    (hself : 0 < (s'.icache ip).ref → (s'.icache ip).valid → s'.node ip = n' ∧ n'.type ≠ .free) :
    Coherent s' := by
  have hinums : ∀ jp, s'.inum jp = s₀.inum jp := by
    intro jp
    by_cases hjp : jp = ip
    · rw [hjp, hinum]
    · rw [Fs.inum, hslots jp hjp, Fs.inum]
  have hrefs : ∀ jp, 0 < (s'.icache jp).ref → 0 < (s₀.icache jp).ref := by
    intro jp hjp
    by_cases hji : jp = ip
    · rw [hji]
      exact hip
    · rwa [hslots jp hji] at hjp
  have hdisk : ∀ jp, jp ≠ ip → 0 < (s'.icache jp).ref →
      s'.dinode (s'.inum jp) = s₀.dinode (s₀.inum jp) := by
    intro jp hjp href
    have hne : s₀.inum jp ≠ s₀.inum ip := fun heq => hjp (h.uniq jp ip (hrefs jp href) hip heq)
    rw [hdinode, hinums, Function.update_of_ne hne]
  refine ⟨fun jp kp hj hk heq => ?_, fun jp hj hv => ?_, fun jp hj hv => ?_⟩
  · rw [hinums, hinums] at heq
    exact h.uniq jp kp (hrefs jp hj) (hrefs kp hk) heq
  · by_cases hjp : jp = ip
    · subst hjp
      rw [(hself hj hv).1, hdinode, hinum, Function.update_self]
    · rw [hdisk jp hjp hj, Fs.node, hslots jp hjp]
      rw [hslots jp hjp] at hv
      exact h.copy jp (hrefs jp hj) hv
  · by_cases hjp : jp = ip
    · subst hjp
      rw [hdinode, hinum, Function.update_self]
      exact (hself hj hv).2
    · rw [hdisk jp hjp hj]
      rw [hslots jp hjp] at hv
      exact h.allocated jp (hrefs jp hj) hv

/-- `iupdate` at the end of an operation that has changed the copy of an inode. -/
theorem Mid.close (n' : Dinode) (h₀ : Sound s₀) (hip : Locked s₀ ip) (h : Mid s₀ ip s)
    (haddrs : n'.addrs = (s.node ip).addrs) (htype : n'.type = (s₀.node ip).type)
    (hf : Filled n' s.data (nblocks n'.size)) :
    Sound ((s.setNode ip n').setDinode (s.inum ip) n') := by
  have hdinode : ((s.setNode ip n').setDinode (s.inum ip) n').dinode =
      Function.update s₀.dinode (s₀.inum ip) n' := by
    rw [← h.dinode, ← h.inum]
    rfl
  have hview : s.view ip = Function.update s₀.dinode (s₀.inum ip) (s.node ip) := by
    rw [Fs.view, h.dinode, h.inum]
  refine ⟨h.layout, ?_, fun i hi => ?_, ?_⟩
  · have hrefs : refs (Function.update s₀.dinode (s₀.inum ip) n') s.data =
        refs (s.view ip) s.data := by
      rw [hview]
      refine refs_congr (fun j => ?_) fun j _ q => ?_ <;> by_cases hj : j = s₀.inum ip
      · subst hj
        rw [Function.update_self, Function.update_self, htype, h.type]
      · rw [Function.update_of_ne hj, Function.update_of_ne hj]
      · subst hj
        rw [Function.update_self, Function.update_self, held_addrs haddrs]
      · rw [Function.update_of_ne hj, Function.update_of_ne hj]
    rw [hdinode]
    exact hrefs ▸ h.books
  · rw [hdinode] at hi ⊢
    by_cases hj : i = s₀.inum ip
    · subst hj
      rw [Function.update_self]
      exact hf
    · rw [Function.update_of_ne hj] at hi ⊢
      exact h.others i hj hi
  · refine h₀.cache.change n' hip.ref (fun jp hjp => ?_) ?_ hdinode fun _ _ => ⟨?_, ?_⟩
    · exact (Function.update_of_ne hjp ..).trans (h.slots jp hjp)
    · exact (setNode_inum s ip n').trans h.inum
    · exact setNode_node s ip n'
    · rw [htype]
      exact h₀.type hip

/-- The end of an operation that has not changed the copy. -/
theorem Mid.close_same (h₀ : Sound s₀) (hip : Locked s₀ ip) (h : Mid s₀ ip s)
    (hsame : s.node ip = s₀.node ip) (hf : Filled (s.node ip) s.data (nblocks (s.node ip).size)) :
    Sound s := by
  have hclose := h.close (s.node ip) h₀ hip rfl h.type hf
  have hdisk : s.setDinode (s.inum ip) (s.node ip) = s := by
    rw [Fs.setDinode, hsame, h₀.node hip, h.inum, ← h.dinode, Function.update_eq_self]
  rwa [setNode_self, hdisk] at hclose

theorem writei_spec (h : Sound s) (hip : Locked s ip) (src : Mem) (off n : UInt32) :
    Sat (writei ip src off n) s fun _ s' => Sound s' := by
  refine wp_get_bind (wp_ite (fun _ => ?_) fun _ => wp_ite (fun _ => wp_pure h) fun hoff =>
    wp_ite (fun _ => wp_pure h) fun hmax => ?_)
  · split <;> exact wp_pure h
  rw [not_or] at hoff
  have hsum := add_toNat hoff.2
  have hstart := h.writing hip (Nat.le_of_not_lt hoff.1)
  refine wp_bind (writeLoop_spec (h.type hip) src n.toNat n.toNat 0 off.toNat hstart (by omega)
    (by omega)) ?_
  rintro off' s' ⟨hoff', hw⟩
  refine wp_get_bind (wp_ite (fun hgrow => ?_) fun hno => ?_)
  · refine wp_modify_bind (wp_modify_bind (wp_pure ?_))
    have hlt : (s.node ip).size < off' := by
      rw [← hw.mid.size]
      exact hgrow.2
    have hfill : Filled { s'.node ip with size := off' } s'.data (nblocks off') := by
      have hcnt : nblocks (s.node ip).size ≤ nblocks off' := by
        unfold nblocks bsize
        omega
      have hf := hw.filled
      rw [max_eq_right hcnt] at hf
      exact hf.congr fun q => held_addrs rfl q
    rw [setNode_inum, setNode_node]
    exact hw.mid.close _ h hip rfl hw.mid.type hfill
  · have hle : off' ≤ (s.node ip).size := by
      rw [not_and_or, hw.mid.size] at hno
      rcases hno with hn | hle
      · have hn : n.toNat = 0 := by
          rw [gt_iff_lt, UInt32.lt_iff_toNat_lt] at hn
          simpa using hn
        omega
      · omega
    have hcnt : nblocks off' ≤ nblocks (s.node ip).size := by
      unfold nblocks bsize
      omega
    have hf := hw.filled
    rw [max_eq_left hcnt, ← hw.mid.size] at hf
    exact wp_pure (hw.mid.close_same h hip (hw.same hle) hf)

theorem setLinks_spec (h : Sound s) (hip : Locked s ip) (major minor nlink : Int) :
    Sat (setLinks ip major minor nlink) s fun _ s' => Sound s' := by
  refine wp_modify_bind (wp_modify ?_)
  rw [setNode_inum, setNode_node]
  exact (h.mid hip).close _ h hip rfl rfl ((h.filled_node hip).congr fun q => held_addrs rfl q)

end Close

end Cs350.Block
