import Cs350.Block.Cost
import Cs350.Block.Shared
import Cs350.Lib.Splice

set_option autoImplicit false

/-! # A file is an array of bytes

`contents` reads the bytes of a file off the blocks that its inode refers to. On these arrays
`writei` is `splice` and `readi` is a slice, whatever blocks have to be allocated on the way, and
the contents of the other files stay the same. -/

namespace Cs350.Block

open FileSys (IType Ip nInode)
open Prog

/-- The bytes of a file. -/
def Dinode.contents (n : Dinode) (data : Nat → Mem) : List UInt8 :=
  (List.range n.size).map (n.byteAt data)

/-- The bytes of the file with inode number `i`. -/
def Fs.contents (s : Fs) (i : Nat) : List UInt8 := (s.dinode i).contents s.data

/-- The first `n` bytes of a memory. -/
def firstBytes (m : Mem) (n : Nat) : List UInt8 := (List.range n).map m

@[simp] theorem length_contents (n : Dinode) (data : Nat → Mem) :
    (n.contents data).length = n.size := by
  simp [Dinode.contents]

@[simp] theorem length_firstBytes (m : Mem) (n : Nat) : (firstBytes m n).length = n := by
  simp [firstBytes]

theorem getElem?_firstBytes (m : Mem) {n i : Nat} (h : i < n) :
    (firstBytes m n)[i]? = some (m i) := by
  simp [firstBytes, h]

theorem getElem?_contents (n : Dinode) (data : Nat → Mem) {i : Nat} (h : i < n.size) :
    (n.contents data)[i]? = some (n.byteAt data i) := by
  simp [Dinode.contents, h]

theorem contents_congr {n n' : Dinode} {data data' : Nat → Mem} (hsize : n'.size = n.size)
    (h : ∀ x < n.size, n'.byteAt data' x = n.byteAt data x) :
    n'.contents data' = n.contents data := by
  unfold Dinode.contents
  rw [hsize]
  exact List.map_congr_left fun x hx => h x (List.mem_range.1 hx)

/-! ## The other files -/

/-- The blocks of the other files are as they were. -/
def OthersKept (s₀ : Fs) (ip : Ip) (s s' : Fs) : Prop :=
  ∀ j, j ≠ s₀.inum ip → (s₀.dinode j).type ≠ .free → ∀ k < nblocks (s₀.dinode j).size,
    lblock (s₀.dinode j) s'.data k = lblock (s₀.dinode j) s.data k ∧
      s'.data (lblock (s₀.dinode j) s.data k) = s.data (lblock (s₀.dinode j) s.data k)

section Others

variable {s₀ s s' s'' : Fs} {ip : Ip} {cnt bn : Nat}

theorem OthersKept.refl (s₀ : Fs) (ip : Ip) (s : Fs) : OthersKept s₀ ip s s :=
  fun _ _ _ _ _ => ⟨rfl, rfl⟩

theorem OthersKept.trans (h : OthersKept s₀ ip s s') (h' : OthersKept s₀ ip s' s'') :
    OthersKept s₀ ip s s'' := by
  intro j hj htype k hk
  obtain ⟨hl, hd⟩ := h j hj htype k hk
  obtain ⟨hl', hd'⟩ := h' j hj htype k hk
  rw [hl] at hl' hd'
  exact ⟨hl', hd'.trans hd⟩

theorem OthersKept.contents (h : OthersKept s₀ ip s s') {j : Nat} (hj : j ≠ s₀.inum ip)
    (htype : (s₀.dinode j).type ≠ .free) :
    (s₀.dinode j).contents s'.data = (s₀.dinode j).contents s.data := by
  refine contents_congr rfl fun x hx => ?_
  have hk : x / bsize < nblocks (s₀.dinode j).size := by
    unfold nblocks bsize
    omega
  obtain ⟨hl, hd⟩ := h j hj htype _ hk
  rw [Dinode.byteAt, Dinode.byteAt, hl, hd]

/-- Only blocks that are free, or that belong to the inode, have changed. -/
theorem Mid.others_kept (h : Mid s₀ ip s) (hdata : ∀ c, s'.data c ≠ s.data c →
      s.bitmap c = false ∨ ∃ q, refs (s.view ip) s.data (s₀.inum ip, q) = some c) :
    OthersKept s₀ ip s s' := by
  intro j hj htype k hk
  have hview : s.view ip j = s₀.dinode j := by
    rw [Fs.view, h.inum, Function.update_of_ne hj, h.dinode]
  have hheld := Books.held_others h.books hdata hj (by rw [hview]; exact htype) (.block k)
  rw [hview] at hheld
  refine ⟨hheld, ?_⟩
  by_contra hne
  have hown : refs (s.view ip) s.data (j, .block k) =
      some (lblock (s₀.dinode j) s.data k) := by
    refine refs_eq_some.2 ⟨?_, ?_, ((h.others j hj htype).block k).2 hk⟩ <;> rw [hview]
    · exact htype
    · rfl
  rcases hdata _ hne with hfree | ⟨q, hq⟩
  · exact h.books.ne_of_not_used (by simp [hfree]) hown rfl
  · exact hj (congrArg Prod.fst (h.books.once _ _ _ hown hq))

theorem addrOf_others (h : Mid s₀ ip s) (k : Fin (nDirect + 1)) :
    Sat (addrOf ip k) s fun _ s' => OthersKept s₀ ip s s' := by
  refine wp_get_bind (wp_ite (fun _ => ?_) fun _ => wp_pure (OthersKept.refl s₀ ip s))
  refine wp_bind (balloc_spec h.layout) ?_
  rintro b s₁ ⟨hb, hfree, rfl⟩
  refine wp_modify_bind (wp_pure (h.others_kept fun c hc => Or.inl ?_))
  exact update_ne hc ▸ hfree

theorem entryOf_others (h : Mid s₀ ip s) (htype : (s₀.node ip).type ≠ .free)
    (hne : (s.node ip).addrs indirectAddr ≠ 0) (j : Nat) :
    Sat (entryOf ((s.node ip).addrs indirectAddr) j) s fun _ s' => OthersKept s₀ ip s s' := by
  refine wp_get_bind (wp_ite (fun _ => ?_) fun _ => wp_pure (OthersKept.refl s₀ ip s))
  refine wp_bind (balloc_spec h.layout) ?_
  rintro b s₁ ⟨hb, hfree, rfl⟩
  refine wp_modify_bind (wp_pure (h.others_kept fun c hc => ?_))
  by_cases hci : c = (s.node ip).addrs indirectAddr
  · refine Or.inr ⟨.indirect, refs_eq_some.2 ⟨?_, ?_, hci ▸ hne⟩⟩
    · rw [h.view_self, h.type]
      exact htype
    · rw [h.view_self, hci]
      rfl
  · exact Or.inl (update_ne ((Function.update_of_ne hci ..).symm.trans_ne hc) ▸ hfree)

theorem bmap_others (h : Mid s₀ ip s) (htype : (s₀.node ip).type ≠ .free) :
    Sat (bmap ip bn) s fun _ s' => OthersKept s₀ ip s s' := by
  by_cases hdir : bn < nDirect
  · rw [bmap, dif_pos hdir]
    exact addrOf_others h _
  · rw [bmap, dif_neg hdir]
    refine wp_ite (fun _ => ?_) fun _ => wp_stop (by decide)
    refine wp_bind (wp_and (addrOf_indirect h htype) (addrOf_others h _)) ?_
    rintro ind s₁ ⟨⟨h₁, rfl, hne, -, -⟩, hkept⟩
    exact wp_mono (entryOf_others h₁ htype hne _) fun _ s₂ hkept' => hkept.trans hkept'

theorem writeLoop_others (htype : (s₀.node ip).type ≠ .free) (src : Mem) (n fuel tot off : Nat)
    (h : Writing s₀ ip off s) (hmax : off + (n - tot) ≤ maxFile * bsize) :
    Sat (writeLoop ip src n fuel tot off) s fun _ s' => OthersKept s₀ ip s s' := by
  induction fuel generalizing s tot off with
  | zero => exact wp_pure (OthersKept.refl s₀ ip s)
  | succ fuel ih =>
      refine wp_ite (fun htot => ?_) fun _ => wp_pure (OthersKept.refl s₀ ip s)
      have hlt : off / bsize < maxFile := by
        unfold maxFile nDirect nIndirect bsize at *
        omega
      refine wp_bind (wp_and (bmap_spec h.mid htype h.filled (next_block _ off) hlt)
        (bmap_others h.mid htype)) ?_
      rintro b s₁ ⟨⟨hmapped, hsame⟩, hkept⟩
      generalize hm : min (n - tot) (bsize - off % bsize) = m
      have hpos : 0 < m ∧ m ≤ n - tot ∧ off % bsize + m ≤ bsize := by
        unfold bsize at *
        omega
      have hnext := h.round htype hmapped hsame hpos.1 hpos.2.2
        (memmove (s₁.data b) (off % bsize) src tot m)
      have hround : OthersKept s₀ ip s₁
          (s₁.setData b (memmove (s₁.data b) (off % bsize) src tot m)) :=
        hmapped.mid.others_kept fun c hc => Or.inr ⟨_, update_ne hc ▸ hmapped.block⟩
      refine wp_modify_bind (wp_mono (ih (tot + m) (off + m) hnext (by omega)) ?_)
      exact fun _ s₂ hrest => (hkept.trans hround).trans hrest

end Others

/-! ## `writei` -/

/-- `writei` returns -1 at once. -/
def Fs.Refuses (s : Fs) (ip : Ip) (off n : Nat) : Prop :=
  (s.node ip).size < off ∨ 2 ^ 32 ≤ off + n ∨ maxFile * bsize < off + n

instance (s : Fs) (ip : Ip) (off n : Nat) : Decidable (s.Refuses ip off n) :=
  inferInstanceAs (Decidable (_ ∨ _))

/-- What a write of `bytes` at `off` leaves. -/
structure Spliced (ip : Ip) (off : Nat) (bytes : List UInt8) (s s' : Fs) : Prop where
  sound : Sound s'
  locked : Locked s' ip
  inum : s'.inum ip = s.inum ip
  type : (s'.node ip).type = (s.node ip).type
  contents : s'.contents (s.inum ip) = splice (s.contents (s.inum ip)) off bytes
  disk : s'.dinode (s.inum ip) = s'.node ip
  others : ∀ j, j ≠ s.inum ip → s'.dinode j = s.dinode j ∧
    ((s.dinode j).type ≠ .free → s'.contents j = s.contents j)

section Write

variable {C : Empty → Prop} {E : Panic → Prop} {s : Fs} {ip : Ip} {off n : UInt32}

theorem Sound.contents (h : Sound s) (hip : Locked s ip) :
    s.contents (s.inum ip) = (s.node ip).contents s.data := by
  rw [Fs.contents, h.node hip]

theorem Sound.size_le (h : Sound s) (hip : Locked s ip) : (s.node ip).size ≤ maxFile * bsize := by
  have hle := (h.filled_node hip).cnt_le
  unfold nblocks bsize at *
  omega

theorem Spliced.size {bytes : List UInt8} {s' : Fs} (h : Spliced ip off.toNat bytes s s')
    (hs : Sound s) (hip : Locked s ip) (hoff : off.toNat ≤ (s.node ip).size) :
    (s'.node ip).size = max (s.node ip).size (off.toNat + bytes.length) := by
  have hlen := congrArg List.length h.contents
  rw [length_splice (by rw [hs.contents hip, length_contents]; exact hoff), hs.contents hip,
    length_contents, Fs.contents, length_contents, h.disk] at hlen
  exact hlen

theorem writei_others (h : Sound s) (hip : Locked s ip) (src : Mem) :
    Sat (writei ip src off n) s fun _ s' => ∀ j, j ≠ s.inum ip → s'.dinode j = s.dinode j ∧
      ((s.dinode j).type ≠ .free → s'.contents j = s.contents j) := by
  have hsame : ∀ j, j ≠ s.inum ip → s.dinode j = s.dinode j ∧
      ((s.dinode j).type ≠ .free → s.contents j = s.contents j) := fun _ _ => ⟨rfl, fun _ => rfl⟩
  refine wp_get_bind (wp_ite (fun _ => ?_) fun _ => wp_ite (fun _ => wp_pure hsame) fun hoff =>
    wp_ite (fun _ => wp_pure hsame) fun hmax => ?_)
  · split <;> exact wp_pure hsame
  rw [not_or] at hoff
  have hsum := add_toNat hoff.2
  have hstart := h.writing hip (Nat.le_of_not_lt hoff.1)
  refine wp_bind (wp_and (writeLoop_spec (h.type hip) src n.toNat n.toNat 0 off.toNat hstart
    (by omega) (by omega)) (writeLoop_others (h.type hip) src n.toNat n.toNat 0 off.toNat hstart
    (by omega))) ?_
  rintro off' s₁ ⟨⟨-, hw⟩, hkept⟩
  have hloop : ∀ j, j ≠ s.inum ip → s₁.dinode j = s.dinode j ∧
      ((s.dinode j).type ≠ .free → s₁.contents j = s.contents j) := by
    intro j hj
    refine ⟨congrFun hw.mid.dinode j, fun htype => ?_⟩
    rw [Fs.contents, hw.mid.dinode]
    exact hkept.contents hj htype
  refine wp_get_bind (wp_ite (fun _ => ?_) fun _ => wp_pure hloop)
  refine wp_modify_bind (wp_modify_bind (wp_pure fun j hj => ?_))
  rw [setNode_inum, setNode_node]
  -- `iupdate` writes the inode of this file only
  have hdinode : ((s₁.setNode ip { s₁.node ip with size := off' }).setDinode (s₁.inum ip)
      { s₁.node ip with size := off' }).dinode j = s₁.dinode j :=
    Function.update_of_ne (by rw [hw.mid.inum]; exact hj) ..
  refine ⟨hdinode.trans (hloop j hj).1, fun htype => ?_⟩
  rw [Fs.contents, hdinode]
  exact (hloop j hj).2 htype

/-- A write that is not refused. -/
theorem writei_splices (h : Sound s) (hip : Locked s ip) (hdev : (s.node ip).type ≠ .dev)
    (src : Mem) (hacc : ¬ s.Refuses ip off.toNat n.toNat) :
    Takes (s.needed ip off.toNat n.toNat) (writei ip src off n) s fun r s' =>
      r = n.toNat ∧ Spliced ip off.toNat (firstBytes src n.toNat) s s' := by
  obtain ⟨hoff, -, hmax⟩ := not_or.1 hacc |>.imp Nat.le_of_not_lt fun h => not_or.1 h |>.imp_right
    Nat.le_of_not_lt
  refine ((writei_takes h hip hdev src hoff hmax).and (wp_and (writei_bytes h hip hdev src hoff hmax)
    (writei_others h hip src))).mono ?_
  rintro r s' ⟨-, ⟨h', rfl, hwrote⟩, hothers⟩
  refine ⟨rfl, h', hwrote.locked, hwrote.inum, hwrote.type, ?_, ?_, hothers⟩
  · have hlen : off.toNat ≤ ((s.node ip).contents s.data).length := by
      rw [length_contents]
      exact hoff
    rw [← hwrote.inum, h'.contents hwrote.locked, hwrote.inum, h.contents hip]
    -- byte for byte, up to the new size
    refine List.ext_getElem? fun x => ?_
    rw [getElem?_splice hlen, length_firstBytes]
    by_cases hx : x < max (s.node ip).size (off.toNat + n.toNat)
    · rw [getElem?_contents _ _ (by rw [hwrote.size]; exact hx)]
      have hbyte := hwrote.bytes x hx
      rw [Fs.byteAt] at hbyte
      rw [hbyte]
      split_ifs with hin
      · rw [getElem?_firstBytes _ (by omega)]
      · rw [getElem?_contents _ _ (by omega)]
        rfl
    · rw [if_neg (by omega), List.getElem?_eq_none (by rw [length_contents, hwrote.size]; omega),
        List.getElem?_eq_none (by rw [length_contents]; omega)]
  · rw [← hwrote.inum]
    exact (h'.node hwrote.locked).symm

theorem writei_refused (hdev : (s.node ip).type ≠ .dev) (src : Mem)
    (href : s.Refuses ip off.toNat n.toNat) :
    wp C E (writei ip src off n) s fun r s' => r = -1 ∧ s' = s := by
  have hoff := off.toNat_lt
  refine wp_get_bind (wp_ite (fun hno => absurd hno hdev) fun _ => wp_ite (fun _ => wp_pure ⟨rfl, rfl⟩)
    fun hno => wp_ite (fun _ => wp_pure ⟨rfl, rfl⟩) fun hmax => ?_)
  rw [not_or] at hno
  have hsum := add_toNat hno.2
  have hlt := (off + n).toNat_lt
  rcases href with hbig | hwrap | hfull <;> omega

end Write

/-! ## `readi` -/

section Read

variable {C : Empty → Prop} {E : Panic → Prop} {s : Fs} {ip : Ip} {off n : UInt32}

/-- A read from a file. -/
theorem readi_slice (h : Sound s) (hip : Locked s ip) (hdev : (s.node ip).type ≠ .dev) (dst : Mem)
    (hoff : off.toNat ≤ (s.node ip).size) (hwrap : off.toNat + n.toNat < 2 ^ 32) :
    wp C E (readi ip dst off n) s fun r s' => s' = s ∧
      r.1 = min n.toNat ((s.node ip).size - off.toNat) ∧
      firstBytes r.2 (min n.toNat ((s.node ip).size - off.toNat)) =
        ((s.contents (s.inum ip)).drop off.toNat).take n.toNat ∧
      ∀ a, min n.toNat ((s.node ip).size - off.toNat) ≤ a → r.2 a = dst a := by
  refine wp_mono (readi_there hdev dst hoff hwrap fun x _ hx => ?_) ?_
  · refine ((h.filled_node hip).block _).2 ?_
    unfold nblocks bsize
    omega
  rintro ⟨r, dst'⟩ s' ⟨rfl, hr, hdst⟩
  refine ⟨rfl, hr, ?_, fun a ha => ?_⟩ <;> dsimp only at hdst ⊢
  · refine List.ext_getElem? fun a => ?_
    rw [h.contents hip]
    by_cases ha : a < min n.toNat ((s'.node ip).size - off.toNat)
    · rw [getElem?_firstBytes _ ha, List.getElem?_take_of_lt (by omega), List.getElem?_drop,
        getElem?_contents _ _ (by omega), hdst, if_pos ha]
      rfl
    · rw [List.getElem?_eq_none (by rw [length_firstBytes]; omega),
        List.getElem?_eq_none (by
          rw [List.length_take, List.length_drop, length_contents]
          omega)]
  · rw [hdst, if_neg (by omega)]

end Read

/-! ## Both -/

/-- **A regular file is an array of bytes**: `writei` refuses what does not start in the file or ends
    above the largest size, and otherwise, with enough free blocks, overwrites the bytes from `off`
    on; `readi` returns the bytes from `off` on. -/
theorem file_is_array {s : Fs} {ip : Ip} (h : Sound s) (hip : Locked s ip)
    (htype : (s.node ip).type = .file) (mem : Mem) (off n : UInt32) :
    (s.Refuses ip off.toNat n.toNat → (writei ip mem off n s).2 = .ok (-1, s)) ∧
    (¬ s.Refuses ip off.toNat n.toNat → s.needed ip off.toNat n.toNat ≤ s.free →
      ∃ s', (writei ip mem off n s).2 = .ok (n.toNat, s') ∧
        Spliced ip off.toNat (firstBytes mem n.toNat) s s' ∧
        (s'.node ip).size = max (s.node ip).size (off.toNat + n.toNat)) ∧
    (off.toNat ≤ (s.node ip).size → off.toNat + n.toNat < 2 ^ 32 →
      ∃ dst, (readi ip mem off n s).2 =
          .ok ((((min n.toNat ((s.node ip).size - off.toNat) : Nat) : Int), dst), s) ∧
        firstBytes dst (min n.toNat ((s.node ip).size - off.toNat)) =
          ((s.contents (s.inum ip)).drop off.toNat).take n.toNat ∧
        ∀ a, min n.toNat ((s.node ip).size - off.toNat) ≤ a → dst a = mem a) := by
  have hdev : (s.node ip).type ≠ .dev := by
    rw [htype]
    decide
  refine ⟨fun href => ?_, fun hacc hfree => ?_, fun hoff hwrap => ?_⟩
  · obtain ⟨r, s', hrun, rfl, rfl⟩ := wp_runs (C := fun _ => True) (E := fun _ => False)
      (writei_refused hdev mem href) (fun _ _ => trivial) fun _ => id
    exact hrun
  · obtain ⟨r, s', hrun, -, rfl, hspliced⟩ := wp_runs (writei_splices h hip hdev mem hacc)
      (fun _ _ => trivial) fun _ hlt => absurd hlt (Nat.not_lt.2 hfree)
    have hsize := hspliced.size h hip (Nat.le_of_not_lt (not_or.1 hacc).1)
    rw [length_firstBytes] at hsize
    exact ⟨s', hrun, hspliced, hsize⟩
  · obtain ⟨⟨r, dst⟩, s', hrun, rfl, rfl, hbytes, hrest⟩ := wp_runs (C := fun _ => True)
      (E := fun _ => False) (readi_slice h hip hdev mem hoff hwrap) (fun _ _ => trivial) fun _ => id
    exact ⟨dst, hrun, hbytes, hrest⟩

/-- An empty file, locked. -/
def lockedFile : Fs := (Writers.emptyInode .file).setSlot firstSlot ⟨1, 1, true, Dinode.fresh .file⟩

theorem lockedFile_sound : Sound lockedFile :=
  (Writers.emptyInode_sound .file).setSlot (by decide) rfl fun _ _ => ⟨rfl, by decide⟩

theorem lockedFile_locked : Locked lockedFile firstSlot := ⟨by decide, rfl⟩

/-- A write after the end of the empty file is refused, 7000 bytes are written to it, among them the
    first indirect blocks, and the last thousand are read. -/
theorem file_is_array_lockedFile :
    (writei firstSlot (fun _ => 1) 1 5 lockedFile).2 = .ok (-1, lockedFile) ∧
    ∃ s', (writei firstSlot (fun _ => 1) 0 7000 lockedFile).2 = .ok (7000, s') ∧
      Spliced firstSlot 0 (firstBytes (fun _ => 1) 7000) lockedFile s' ∧
      (s'.node firstSlot).size = 7000 ∧
      ∃ dst, (readi firstSlot (fun _ => 0) 6000 2000 s').2 = .ok ((1000, dst), s') ∧
        firstBytes dst 1000 = ((s'.contents (s'.inum firstSlot)).drop 6000).take 2000 := by
  have hrefused := (file_is_array lockedFile_sound lockedFile_locked rfl (fun _ => 1) 1 5).1
    (by decide)
  obtain ⟨s', hrun, hspliced, hsize⟩ := (file_is_array lockedFile_sound lockedFile_locked rfl
    (fun _ => 1) 0 7000).2.1 (by decide) (by decide +kernel)
  have hseven : (s'.node firstSlot).size = 7000 := hsize
  obtain ⟨dst, hread, hbytes, -⟩ := (file_is_array hspliced.sound hspliced.locked hspliced.type
    (fun _ => 0) 6000 2000).2.2 (by rw [hseven]; decide) (by decide)
  rw [hseven] at hread hbytes
  exact ⟨hrefused, s', hrun, hspliced, hseven, dst, hread, hbytes⟩

end Cs350.Block
