import Cs350.Block.Filewrite
import Cs350.Block.Image
import Cs350.Lib.Returns

set_option autoImplicit false

/-! # A write logs what it changes

The log makes an operation atomic only if every block that the operation changes is passed to
`log_write`, and none of them is a block of the log. `Covered` says so of a change of the state: what
differs is in the blocks `ws`, and the disk gets there by a change of these blocks. A round of
`filewrite` covers its changes with its marks. -/

namespace Cs350.Block

open FileSys (IType Ip nInode)
open Prog

structure Covered (r : Regions) (lo : Nat) (s : Fs) (ws : List Nat) (s' : Fs) : Prop where
  sb : s'.sb = s.sb
  bitmap : ∀ b, r.bblock b ∉ ws → s'.bitmap b = s.bitmap b
  dinode : ∀ i, r.iblock i ∉ ws → s'.dinode i = s.dinode i
  data : ∀ b, b ∉ ws → s'.data b = s.data b
  past : ∀ b ∈ ws, lo ≤ b
  onDisk : ∀ d, OnDisk r d s → ∃ d', OnDisk r d' s' ∧ ∀ b, b ∉ ws → d' b = d b

section Covered

variable {r : Regions} {lo : Nat} {s s' s'' : Fs} {ws ws' : List Nat} {b i : Nat}

/-- A change of the cache of inodes only. -/
theorem Covered.cache (hsb : s'.sb = s.sb) (hbitmap : s'.bitmap = s.bitmap)
    (hdinode : s'.dinode = s.dinode) (hdata : s'.data = s.data) : Covered r lo s [] s' where
  sb := hsb
  bitmap _ _ := by rw [hbitmap]
  dinode _ _ := by rw [hdinode]
  data _ _ := by rw [hdata]
  past _ hb := absurd hb List.not_mem_nil
  onDisk d hd := ⟨d, hd.congr hsb hbitmap hdinode hdata, fun _ _ => rfl⟩

theorem Covered.refl (r : Regions) (lo : Nat) (s : Fs) : Covered r lo s [] s :=
  Covered.cache rfl rfl rfl rfl

theorem Covered.trans (h : Covered r lo s ws s') (h' : Covered r lo s' ws' s'') :
    Covered r lo s (ws ++ ws') s'' where
  sb := h'.sb.trans h.sb
  bitmap b hb := by
    rw [List.mem_append, not_or] at hb
    rw [h'.bitmap b hb.2, h.bitmap b hb.1]
  dinode i hi := by
    rw [List.mem_append, not_or] at hi
    rw [h'.dinode i hi.2, h.dinode i hi.1]
  data b hb := by
    rw [List.mem_append, not_or] at hb
    rw [h'.data b hb.2, h.data b hb.1]
  past b hb := (List.mem_append.1 hb).elim (h.past b) (h'.past b)
  onDisk d hd := by
    obtain ⟨d₁, hd₁, hsame⟩ := h.onDisk d hd
    obtain ⟨d₂, hd₂, hsame'⟩ := h'.onDisk d₁ hd₁
    refine ⟨d₂, hd₂, fun b hb => ?_⟩
    rw [List.mem_append, not_or] at hb
    rw [hsame' b hb.2, hsame b hb.1]

theorem ne_of_block {α : Type} {f : α → Nat} {a c : α} (h : f c ∉ [f a]) : c ≠ a := by
  rintro rfl
  exact h (List.mem_singleton_self _)

/-- One block of the disk is rewritten. -/
theorem onDisk_update {v : Log.Block} {d : Log.Disk} (h : OnDisk r (Function.update d b v) s') :
    ∃ d', OnDisk r d' s' ∧ ∀ c, c ∉ [b] → d' c = d c :=
  ⟨_, h, fun _ hc => Function.update_of_ne (ne_of_block (f := id) hc) ..⟩

theorem Covered.markBit (ho : r.Ordered s.sb lo) (hb : b < s.sb.size.toNat) :
    Covered r lo s [r.bblock b] (s.setBit b true) where
  sb := rfl
  bitmap _ hc := Function.update_of_ne (ne_of_block hc) ..
  dinode _ _ := rfl
  data _ _ := rfl
  past c hc := by
    rw [List.mem_singleton.1 hc]
    exact (ho.inodes.trans ho.map).trans (Nat.le_add_left ..)
  onDisk _ hd := onDisk_update (hd.markBit ho hb)

theorem Covered.setData (ho : r.Ordered s.sb lo) (hb : s.sb.IsData b) (m : Mem) :
    Covered r lo s [b] (s.setData b m) where
  sb := rfl
  bitmap _ _ := rfl
  dinode _ _ := rfl
  data _ hc := Function.update_of_ne (ne_of_block (f := id) hc) ..
  past c hc := by
    rw [List.mem_singleton.1 hc]
    exact (ho.inodes.trans (ho.map.trans ho.data)).trans hb.1
  onDisk _ hd := onDisk_update (hd.putData ho hb m)

theorem Covered.setDinode (ho : r.Ordered s.sb lo) (hi : i < s.sb.ninodes.toNat) {n : Dinode}
    (hn : ∀ d, OnDisk r d s → n.Representable) : Covered r lo s [r.iblock i] (s.setDinode i n) where
  sb := rfl
  bitmap _ _ := rfl
  dinode _ hc := Function.update_of_ne (ne_of_block hc) ..
  data _ _ := rfl
  past c hc := by
    rw [List.mem_singleton.1 hc]
    exact ho.inodes.trans (Nat.le_add_left ..)
  onDisk d hd := onDisk_update (hd.putDinode ho hi (hn d hd))

/-- The disk means the state after the change as soon as it holds the logged blocks. -/
theorem Covered.merge (h : Covered r lo s ws s') (ho : r.Ordered s.sb lo) {d c d' : Log.Disk}
    (hd : OnDisk r d s) (hc : OnDisk r c s')
    (hmerge : ∀ b, b = 1 ∨ lo ≤ b → d' b = if b ∈ ws then c b else d b) : OnDisk r d' s' := by
  have hlo := ho.inodes
  have hle := ho.map
  have hdata := ho.data
  have hsb := h.sb
  have himg : ∀ b, b = 1 ∨ lo ≤ b → img d' b = if b ∈ ws then img c b else img d b := by
    intro b hb
    rw [img, hmerge b hb]
    split_ifs <;> rfl
  refine ⟨?_, fun b hb => ?_, fun i hi => ?_, fun b hb a ha => ?_⟩
  · rw [himg 1 (Or.inl rfl)]
    split_ifs
    · exact hc.super
    · rw [hsb]
      exact hd.super
  · have hstart : lo ≤ r.bblock b := (hlo.trans hle).trans (Nat.le_add_left ..)
    rw [himg _ (Or.inr hstart)]
    split_ifs with hmem
    · exact hc.bitmap b hb
    · rw [h.bitmap b hmem]
      rw [hsb] at hb
      exact hd.bitmap b hb
  · have hstart : lo ≤ r.iblock i := hlo.trans (Nat.le_add_left ..)
    rw [himg _ (Or.inr hstart)]
    split_ifs with hmem
    · exact hc.dinode i hi
    · rw [h.dinode i hmem]
      rw [hsb] at hi
      exact hd.dinode i hi
  · have hstart : lo ≤ b := by
      have hstart := hb.1
      rw [hsb] at hstart
      omega
    rw [himg b (Or.inr hstart)]
    split_ifs with hmem
    · exact hc.data b hb a ha
    · rw [h.data b hmem]
      rw [hsb] at hb
      exact hd.data b hb a ha

end Covered

/-! ## The functions of a write -/

/-- If the program returns, it covers its changes with its marks. -/
def Records {α : Type} (r : Regions) (lo : Nat) (m : Logged.LogM α) (s : Fs) : Prop :=
  returns m s fun ws _ s' => Covered r lo s ws s'

section Records

variable {r : Regions} {lo : Nat} {s s₀ : Fs} {ip : Ip} {α β : Type}

theorem Records.pure (a : α) : Records r lo (pure a : Logged.LogM α) s :=
  returns_pure (Covered.refl r lo s)

theorem Records.bind {m : Logged.LogM α} {f : α → Logged.LogM β} {P : α → Fs → Prop}
    (hm : Records r lo m s) (hP : returns m s fun _ a s' => P a s')
    (hf : ∀ a s', P a s' → Records r lo (f a) s') : Records r lo (m >>= f) s :=
  returns_bind (returns_and hm hP) fun _ a s' h => returns_mono (hf a s' h.2) fun _ _ _ h' =>
    h.1.trans h'

theorem Records.modify_bind {g : Fs → Fs} {f : Unit → Logged.LogM β} (hg : Covered r lo s [] (g s))
    (hf : Records r lo (f ()) (g s)) : Records r lo (modify g >>= f) s :=
  returns_modify_bind (returns_mono hf fun _ _ _ h => hg.trans h)

/-- A change of one block that is logged. -/
theorem Records.logged {g : Fs → Fs} {b : Nat} (hg : Covered r lo s [b] (g s)) :
    Records r lo (modify g >>= fun _ => Logged.logWrite b) s :=
  returns_modify_bind (returns_mark hg)

theorem Records.logged_bind {g : Fs → Fs} {b : Nat} {f : Unit → Logged.LogM β}
    (hg : Covered r lo s [b] (g s)) (hf : Records r lo (f ()) (g s)) :
    Records r lo (modify g >>= fun _ => Logged.logWrite b >>= f) s :=
  returns_modify_bind (returns_mark_bind (returns_mono hf fun _ _ _ h => hg.trans h))

theorem balloc_records (ho : r.Ordered s.sb lo) (hl : Layout s.sb s.bitmap) :
    Records r lo (Logged.balloc r) s := by
  refine returns_get_bind ?_
  cases hfind : (List.range s.sb.size.toNat).find? fun b => s.bitmap b = false with
  | none => exact returns_stop _
  | some b =>
      have hsize : b < s.sb.size.toNat := List.mem_range.1 (List.mem_of_find?_eq_some hfind)
      have hdata : s.sb.dataStart ≤ b := by
        by_contra hlt
        have hbit := List.find?_some hfind
        simp [hl.reserved b (by omega)] at hbit
      refine Records.logged_bind (Covered.markBit ho hsize) ?_
      refine Records.bind (P := fun _ _ => True) ?_ (returns_true ..) fun _ _ _ => Records.pure b
      exact Records.logged (Covered.setData (s := s.setBit b true) ho ⟨hdata, hsize⟩ _)

theorem setAddr_covered (s : Fs) (ip : Ip) (k : Fin (nDirect + 1)) (b : Nat) :
    Covered r lo s [] (s.setAddr ip k b) := Covered.cache rfl rfl rfl rfl

theorem addrOf_records (ho : r.Ordered s.sb lo) (hl : Layout s.sb s.bitmap) (ip : Ip)
    (k : Fin (nDirect + 1)) : Records r lo (Logged.addrOf r ip k) s := by
  refine returns_get_bind (returns_ite (fun _ => ?_) fun _ => Records.pure _)
  exact (balloc_records ho hl).bind (returns_true ..) fun b s' _ =>
    Records.modify_bind (setAddr_covered s' ip k b) (Records.pure b)

theorem entryOf_records (ho : r.Ordered s.sb lo) (hl : Layout s.sb s.bitmap) {ind : Nat}
    (hind : s.sb.IsData ind) (j : Nat) : Records r lo (Logged.entryOf r ind j) s := by
  refine returns_get_bind (returns_ite (fun _ => ?_) fun _ => Records.pure _)
  have hsb : returns (Logged.balloc r) s fun _ _ s' => s'.sb = s.sb :=
    returns_mono (balloc_records ho hl) fun _ _ _ h => h.sb
  refine (balloc_records ho hl).bind hsb fun b s' hs' => ?_
  rw [← hs'] at ho hind
  exact Records.logged_bind (Covered.setData ho hind _) (Records.pure b)

theorem bmap_records {bn : Nat} (ho : r.Ordered s₀.sb lo) (hmid : Mid s₀ ip s)
    (htype : (s₀.node ip).type ≠ .free) : Records r lo (Logged.bmap r ip bn) s := by
  have ho₁ : r.Ordered s.sb lo := hmid.sb ▸ ho
  unfold Logged.bmap
  split_ifs
  · exact addrOf_records ho₁ hmid.layout ip _
  · refine (addrOf_records ho₁ hmid.layout ip _).bind
      (returns_of_agrees (Logged.addrOf_agrees r ip _) (addrOf_indirect hmid htype) fun _ => trivial) ?_
    rintro ind s₁ ⟨h₁, hind, hne, -, -⟩
    have hown : refs (s₁.view ip) s₁.data (s₀.inum ip, .indirect) = some ind := by
      refine refs_eq_some.2 ⟨?_, ?_, hne⟩
      · rw [h₁.view_self, h₁.type]
        exact htype
      · rw [h₁.view_self, held, hind]
    exact entryOf_records (h₁.sb ▸ ho) h₁.layout (h₁.books.within _ _ hown) _
  · exact returns_stop _

theorem writeLoop_records (ho : r.Ordered s₀.sb lo) (htype : (s₀.node ip).type ≠ .free) (src : Mem)
    (n fuel tot off : Nat) (hw : Writing s₀ ip off s) (hmax : off + (n - tot) ≤ maxFile * bsize) :
    Records r lo (Logged.writeLoop r ip src n fuel tot off) s := by
  induction fuel generalizing s tot off with
  | zero => exact Records.pure off
  | succ fuel ih =>
      refine returns_ite (fun htot => ?_) fun _ => Records.pure off
      have hlt : off / bsize < maxFile := by
        unfold maxFile nDirect nIndirect bsize at *
        omega
      refine (bmap_records ho hw.mid htype).bind (returns_of_agrees (Logged.bmap_agrees r ip _)
        (bmap_spec hw.mid htype hw.filled (next_block _ off) hlt) fun _ => trivial) ?_
      rintro b s₁ ⟨hmapped, hsame⟩
      generalize hm : min (n - tot) (bsize - off % bsize) = m
      have hpos : 0 < m ∧ off % bsize + m ≤ bsize := by
        unfold bsize at *
        omega
      have hnext := hw.round htype hmapped hsame hpos.1 hpos.2
        (memmove (s₁.data b) (off % bsize) src tot m)
      exact Records.logged_bind
        (Covered.setData (hmapped.mid.sb ▸ ho) (hmapped.mid.books.within _ _ hmapped.block) _)
        (ih (tot + m) (off + m) hnext (by omega))

/-- The copy of the inode that `iupdate` writes has values of its types, because the inode that was
    read has. -/
theorem Mid.representable (h : Mid s₀ ip s) (h₀ : Sound s₀) (hip : Locked s₀ ip)
    (hi : s₀.inum ip < s₀.sb.ninodes.toNat) {d : Log.Disk} (hd : OnDisk r d s) {size : Nat}
    (hsize : size ≤ maxFile * bsize) : { s.node ip with size := size : Dinode }.Representable := by
  have hread : Mkfs.dinode (Mkfs.dip (img d (r.iblock (s₀.inum ip))) (s₀.inum ip)) = s₀.node ip := by
    rw [hd.dinode _ (by rw [h.sb]; exact hi), h.dinode, h₀.node hip]
  have hrep := dinode_representable (Mkfs.dip (img d (r.iblock (s₀.inum ip))) (s₀.inum ip))
  rw [hread] at hrep
  obtain ⟨addrs, hslot⟩ := h.slot
  have hnode : s.node ip = { s₀.node ip with addrs := addrs } := by rw [Fs.node, hslot]
  have hmax : maxFile * bsize < 2 ^ 32 := by decide
  refine ⟨?_, ?_, ?_, Nat.lt_of_le_of_lt hsize hmax, fun k => ?_⟩
  · rw [hnode]
    exact hrep.major
  · rw [hnode]
    exact hrep.minor
  · rw [hnode]
    exact hrep.nlink
  · -- a block of the disk, or none
    obtain ⟨p, hp⟩ : ∃ p, held (s.node ip) s.data p = (s.node ip).addrs k := by
      by_cases hk : k.val < nDirect
      · exact ⟨.block k, lblock_direct hk⟩
      · refine ⟨.indirect, ?_⟩
        have hlast : k = indirectAddr := Fin.ext (by
          have hlt := k.isLt
          show k.val = nDirect
          omega)
        rw [hlast]
        rfl
    by_cases hzero : (s.node ip).addrs k = 0
    · show (s.node ip).addrs k < _
      rw [hzero]
      decide
    · have hown : refs (s.view ip) s.data (s₀.inum ip, p) = some ((s.node ip).addrs k) := by
        refine refs_eq_some.2 ⟨?_, ?_, hzero⟩
        · rw [h.view_self, h.type]
          exact h₀.type hip
        · rw [h.view_self, hp]
      exact Nat.lt_trans (h.books.within _ _ hown).2 s.sb.size.toNat_lt

/-- **A write covers its changes with the blocks that it logs.** -/
theorem writei_records (ho : r.Ordered s.sb lo) (hs : Sound s) (hip : Locked s ip)
    (hi : s.inum ip < s.sb.ninodes.toNat) (src : Mem) (off n : UInt32) :
    Records r lo (Logged.writei r ip src off n) s := by
  refine returns_get_bind (returns_ite (fun _ => ?_) fun _ => returns_ite (fun _ => Records.pure _)
    fun hoff => returns_ite (fun _ => Records.pure _) fun hmax => ?_)
  · cases (s.driver ip).bind Devsw.write <;> exact Records.pure _
  rw [not_or] at hoff
  have hsum := add_toNat hoff.2
  have hstart := hs.writing hip (Nat.le_of_not_lt hoff.1)
  refine (writeLoop_records ho (hs.type hip) src n.toNat n.toNat 0 off.toNat hstart (by omega)).bind
    (returns_of_agrees (Logged.writeLoop_agrees r ip src _ _ _ _) (writeLoop_spec (hs.type hip) src
      n.toNat n.toNat 0 off.toNat hstart (by omega) (by omega)) fun _ => trivial) ?_
  rintro off' s' ⟨hoff', hw⟩
  refine returns_get_bind (returns_ite (fun _ => ?_) fun _ => Records.pure _)
  refine Records.modify_bind (Covered.cache rfl rfl rfl rfl) ?_
  refine Records.bind (P := fun _ _ => True) ?_ (returns_true ..) fun _ _ _ => Records.pure _
  refine returns_get_bind (Records.logged ?_)
  rw [setNode_inum, setNode_node, hw.mid.inum]
  refine Covered.setDinode (s := s'.setNode ip _) (hw.mid.sb ▸ ho) ?_ fun d hd => ?_
  · show s.inum ip < s'.sb.ninodes.toNat
    rw [hw.mid.sb]
    exact hi
  · refine hw.mid.representable hs hip hi (hd.congr rfl rfl rfl rfl) ?_
    omega

end Records

end Cs350.Block
