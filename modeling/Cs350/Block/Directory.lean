import Cs350.Block.Array
import Cs350.Block.Lookup
import Cs350.Lib.Slots

set_option autoImplicit false

/-! # A directory is a finite map

A directory is a file of entries of 16 bytes, and an entry with inode number 0 is empty. `dirlink`
puts a name into the first empty entry or after the last one, and `sys_unlink` overwrites an entry
with zeros. Names are cut to `DIRSIZ` characters, without a NUL at the end if they are that long. -/

namespace Cs350.Block

open FileSys (IType Ip nInode)
open Prog Transition Slots

/-! ## Names and entries -/

/-- The characters from `i` on, up to a NUL and `n` at most. -/
def chars (m : Mem) : Nat → Nat → List UInt8
  | _, 0 => []
  | i, n + 1 => if m i = 0 then [] else m i :: chars m (i + 1) n

/-- What is kept of a name. -/
def entryName (name : List UInt8) : List UInt8 := (name.takeWhile (· ≠ 0)).take dirsiz

/-- An entry: empty, or a name and an inode number. -/
def dirSlot (de : Mem) : Option (List UInt8 × Nat) :=
  if direntInum de = 0 then none else some (chars de 2 dirsiz, direntInum de)

/-- The entries of a directory. -/
def Fs.slots (s : Fs) (dp : Ip) : List (Option (List UInt8 × Nat)) :=
  (List.range ((s.node dp).size / direntSize)).map fun j => dirSlot (s.direntAt dp j)

section Names

variable {m m' : Mem} {i j n : Nat}

theorem chars_congr (h : ∀ k, k < n → m' (j + k) = m (i + k)) : chars m' j n = chars m i n := by
  induction n generalizing i j with
  | zero => rfl
  | succ n ih =>
      have h0 : m' j = m i := h 0 (Nat.succ_pos n)
      have hrest : chars m' (j + 1) n = chars m (i + 1) n := by
        refine ih fun k hk => ?_
        have hk' := h (k + 1) (Nat.succ_lt_succ hk)
        rwa [Nat.add_right_comm j 1 k, Nat.add_right_comm i 1 k]
      rw [chars, chars, h0, hrest]

/-- `strncmp` compares the characters up to the first NUL, `n` at most. -/
theorem strncmp_chars : strncmp m m' i j n = true ↔ chars m i n = chars m' j n := by
  induction n generalizing i j with
  | zero => simp [strncmp, chars]
  | succ n ih =>
      rw [strncmp, chars, chars]
      by_cases hne : m i = m' j
      · by_cases hnul : m' j = 0
        · simp [hne, hnul]
        · simp [hne, hnul, ih]
      · rw [if_pos hne]
        by_cases hi : m i = 0 <;> by_cases hj : m' j = 0 <;> simp_all

theorem chars_list (l : List UInt8) (hl : 0 ∉ l) (h : ∀ k, m (i + k) = l.getD k 0) :
    chars m i n = l.take n := by
  induction n generalizing i l with
  | zero => simp [chars]
  | succ n ih =>
      have h0 := h 0
      cases l with
      | nil => simp_all [chars]
      | cons c l =>
          rw [List.mem_cons, not_or] at hl
          have hrest := ih (i := i + 1) l hl.2 fun k => by
            have hk := h (k + 1)
            rw [List.getD_cons_succ] at hk
            rw [← hk, Nat.add_assoc, Nat.add_comm 1 k]
          have hc : m i = c := h0
          rw [chars, hc, if_neg (Ne.symm hl.1), hrest, List.take_succ_cons]

theorem chars_cstr (name : List UInt8) : chars (cstr name) 0 dirsiz = entryName name := by
  refine chars_list (name.takeWhile (· ≠ 0)) (fun hmem => ?_) fun k => by rw [Nat.zero_add]; rfl
  simpa using List.mem_takeWhile_imp hmem

/-- Only the bytes of the entry count. -/
theorem dirSlot_congr {de de' : Mem} (h : ∀ a, a < direntSize → de' a = de a) :
    dirSlot de' = dirSlot de := by
  have hname : chars de' 2 dirsiz = chars de 2 dirsiz :=
    chars_congr fun k hk => h (2 + k) (by unfold dirsiz at hk; unfold direntSize; omega)
  rw [dirSlot, dirSlot, direntInum_congr h, hname]

/-- The entry that `dirlink` writes. -/
theorem dirSlot_new {inum : Nat} (name : List UInt8) (de : Mem) (hpos : 0 < inum)
    (hlt : inum < 65536) :
    dirSlot ((memmove de 2 (cstr name) 0 dirsiz).store 0 2 inum) = some (entryName name, inum) := by
  have hinum : direntInum ((memmove de 2 (cstr name) 0 dirsiz).store 0 2 inum) = inum := by
    rw [direntInum, Mem.load_store]
    exact Nat.mod_eq_of_lt hlt
  have hname : chars ((memmove de 2 (cstr name) 0 dirsiz).store 0 2 inum) 2 dirsiz =
      entryName name := by
    rw [← chars_cstr]
    refine chars_congr fun k hk => ?_
    rw [Mem.store_apply _ _ _ _ _ (Or.inr (by omega)), memmove_apply,
      if_pos ⟨Nat.le_add_right .., by omega⟩, Nat.add_sub_cancel_left]
  rw [dirSlot, hinum, if_neg hpos.ne', hname]

theorem dirSlot_zero : dirSlot (fun _ => 0) = none := by decide

theorem namecmp_chars (name : List UInt8) (de : Mem) :
    namecmp name de = true ↔ chars de 2 dirsiz = entryName name := by
  rw [namecmp, strncmp_chars, chars_cstr, eq_comm]

end Names

/-! ## The state of a directory -/

/-- A locked directory, of whole entries. -/
structure Directory (s : Fs) (dp : Ip) : Prop where
  sound : Sound s
  locked : Locked s dp
  dir : (s.node dp).type = .dir
  aligned : (s.node dp).size % direntSize = 0

/-- Every slot of the inode cache is in use. -/
def Fs.CacheFull (s : Fs) : Prop := ∀ ip, (s.icache ip).ref ≠ 0

/-- The program returns as `Q` says, unless the cache is full or `k` blocks are not free. -/
abbrev Serves {α : Type} (k : Nat) (m : FsM α) (s : Fs) (Q : α → Fs → Prop) : Prop :=
  wp (fun _ => True) (fun _ => s.CacheFull ∨ s.free < k) m s Q

section State

variable {C : Empty → Prop} {E : Panic → Prop} {s s' : Fs} {dp : Ip} {j : Nat}

/-- The number of entries. -/
def Fs.entries (s : Fs) (dp : Ip) : Nat := (s.node dp).size / direntSize

theorem Directory.size (h : Directory s dp) :
    (s.node dp).size = s.entries dp * direntSize :=
  (Nat.div_mul_cancel (Nat.dvd_of_mod_eq_zero h.aligned)).symm

@[simp] theorem length_slots (s : Fs) (dp : Ip) : (s.slots dp).length = s.entries dp := by
  simp [Fs.slots, Fs.entries]

theorem getElem?_slots (hj : j < s.entries dp) :
    (s.slots dp)[j]? = some (dirSlot (s.direntAt dp j)) := by
  unfold Fs.slots Fs.entries at *
  rw [List.getElem?_map, List.getElem?_range hj]
  rfl

theorem slots_congr (hnode : s'.node dp = s.node dp) (hdata : s'.data = s.data) :
    s'.slots dp = s.slots dp := by
  unfold Fs.slots Fs.direntAt Fs.byteAt
  rw [hnode, hdata]

/-- Entry `j` is read. -/
theorem Directory.readi (h : Directory s dp) (hj : j < s.entries dp) (de : Mem) :
    Total (readi dp de (UInt32.ofNat (j * direntSize)) (UInt32.ofNat direntSize)) s fun r s' =>
      s' = s ∧ r.1 = direntSize ∧ ∀ a, a < direntSize → r.2 a = s.direntAt dp j a := by
  have hsize := h.size
  have hmax := h.sound.size_le h.locked
  have hle : (j + 1) * direntSize ≤ (s.node dp).size := by
    rw [hsize]
    exact Nat.mul_le_mul_right _ hj
  have hentries : HasEntries s dp j := by
    refine ⟨h.dir, lt_of_le_of_lt hmax (by decide), hle, fun x hx => ?_⟩
    refine ((h.sound.filled_node h.locked).block _).2 ?_
    unfold nblocks bsize
    omega
  exact hentries.readi le_rfl de

theorem direntOffs_eq (h : Directory s dp) :
    direntOffs (s.node dp).size = (List.range' 0 (s.entries dp)).map (· * direntSize) := by
  have hcount : ((s.node dp).size + direntSize - 1) / direntSize = s.entries dp := by
    have hsize := h.size
    unfold direntSize at *
    omega
  rw [direntOffs, hcount, List.range_eq_range']

end State

/-! ## `dirlookup` -/

/-- `iget` has put the inode into slot `ip`, or taken another reference to it. -/
structure Got (inum : Nat) (ip : Ip) (s s' : Fs) : Prop where
  cache : ∃ slot, s' = s.setSlot ip slot
  inum : s'.inum ip = inum
  counted : (0 < (s.icache ip).ref ∧
      s'.icache ip = { s.icache ip with ref := (s.icache ip).ref + 1 }) ∨
    (s.icache ip).ref = 0 ∧ (s'.icache ip).ref = 1 ∧ (s'.icache ip).valid = false

section Lookup

variable {s : Fs} {dp : Ip}

theorem iget_got (s : Fs) (inum : Nat) :
    wp (fun _ => True) (fun _ => s.CacheFull) (iget inum) s fun ip s' => Got inum ip s s' := by
  refine wp_get_bind ?_
  split
  next ip hfind =>
    have hfound : 0 < (s.icache ip).ref ∧ (s.icache ip).inum = inum := by
      simpa using List.find?_some hfind
    refine wp_modify_bind (wp_pure ⟨⟨_, rfl⟩, ?_, Or.inl ⟨hfound.1, ?_⟩⟩)
    · simp [Fs.inum, Fs.setSlot, hfound.2]
    · simp [Fs.setSlot]
  next =>
    split
    next ip hfind =>
      have hfound : (s.icache ip).ref = 0 := by simpa using List.find?_some hfind
      refine wp_modify_bind (wp_pure ⟨⟨_, rfl⟩, ?_, Or.inr ⟨hfound, ?_, ?_⟩⟩) <;>
        simp [Fs.inum, Fs.setSlot]
    next hnone =>
      refine wp_stop fun ip => ?_
      simpa using List.find?_eq_none.1 hnone ip (List.mem_finRange ip)

/-- What the loop of `dirlookup` finds, from entry `j` on. -/
inductive Looked (s : Fs) (dp : Ip) (name : List UInt8) (j : Nat) :
    Option (Ip × Nat) → Fs → Prop
  | missing (h : ∀ i v, j ≤ i → (s.slots dp)[i]? ≠ some (some (entryName name, v))) :
      Looked s dp name j none s
  | found {i inum : Nat} {ip : Ip} {s' : Fs} (hi : j ≤ i ∧ i < s.entries dp)
      (hslot : (s.slots dp)[i]? = some (some (entryName name, inum))) (hgot : Got inum ip s s') :
      Looked s dp name j (some (ip, i * direntSize)) s'

theorem Looked.skip {name : List UInt8} {j : Nat} {r : Option (Ip × Nat)} {s' : Fs}
    (h : Looked s dp name (j + 1) r s')
    (hj : ∀ v, (s.slots dp)[j]? ≠ some (some (entryName name, v))) : Looked s dp name j r s' := by
  cases h with
  | missing h =>
      refine .missing fun i v hi => ?_
      rcases hi.eq_or_lt with rfl | hlt
      · exact hj v
      · exact h i v hlt
  | found hi hslot hgot => exact .found ⟨(Nat.le_succ j).trans hi.1, hi.2⟩ hslot hgot

theorem dirlookupLoop_looked (h : Directory s dp) (name : List UInt8) (n j : Nat)
    (hj : j + n = s.entries dp) (de : Mem) :
    wp (fun _ => True) (fun _ => s.CacheFull)
      (dirlookupLoop dp name ((List.range' j n).map (· * direntSize)) de) s
      (Looked s dp name j) := by
  induction n generalizing j de with
  | zero =>
      refine wp_pure (.missing fun i v hi => ?_)
      rw [List.getElem?_eq_none (by rw [length_slots]; omega)]
      exact (Option.some_ne_none _).symm
  | succ n ih =>
      have hlt : j < s.entries dp := by omega
      rw [List.range'_succ, List.map_cons, dirlookupLoop]
      refine wp_bind (wp_errors (h.readi hlt de) fun _ he => False.elim he) ?_
      rintro ⟨r, de'⟩ s' ⟨rfl, hr, hde⟩
      have hinum' := direntInum_congr hde
      have hname' := namecmp_congr name hde
      have hslot := getElem?_slots hlt
      dsimp only at hr hinum' hname' ⊢
      rw [if_neg (by simp [hr]), hinum', hname']
      refine wp_ite (fun hzero => ?_) fun hne => wp_ite (fun hname => ?_) fun hname => ?_
      · -- an empty entry
        refine wp_mono (ih (j + 1) (by omega) de') fun r s₁ hr => hr.skip fun v hv => ?_
        rw [hslot, dirSlot, if_pos hzero] at hv
        simp at hv
      · refine wp_bind (iget_got s' _) fun ip s₁ hgot => wp_pure ?_
        refine .found ⟨le_rfl, hlt⟩ ?_ hgot
        rw [hslot, dirSlot, if_neg hne, (namecmp_chars name _).1 hname]
      · refine wp_mono (ih (j + 1) (by omega) de') fun r s₁ hr => hr.skip fun v hv => hname ?_
        rw [hslot, dirSlot, if_neg hne] at hv
        rw [namecmp_chars]
        simpa using (congrArg (Option.map (Option.map Prod.fst)) hv)

theorem dirlookup_looked (h : Directory s dp) (name : List UInt8) (de : Mem) :
    wp (fun _ => True) (fun _ => s.CacheFull) (dirlookup dp name de) s (Looked s dp name 0) := by
  refine wp_get_bind (wp_ite (fun hno => absurd h.dir hno) fun _ => ?_)
  rw [direntOffs_eq h]
  exact dirlookupLoop_looked h name _ 0 (Nat.zero_add _) de

end Lookup

/-! ## Writing an entry -/

section Write

variable {C : Empty → Prop} {E : Panic → Prop} {s s' : Fs} {dp : Ip}

/-- `dirlink` writes to the first empty entry, or after the last one. -/
theorem dirlinkLoop_empty (h : Directory s dp) (n j : Nat) (hj : j + n = s.entries dp) (de : Mem) :
    Total (dirlinkLoop dp (s.entries dp * direntSize) ((List.range' j n).map (· * direntSize)) de) s
      fun r s' => s' = s ∧ ∃ i ≤ s.entries dp, r.1 = i * direntSize ∧
        ∀ p, (s.slots dp)[i]? ≠ some (some p) := by
  induction n generalizing j de with
  | zero =>
      refine wp_pure ⟨rfl, s.entries dp, le_rfl, rfl, fun p => ?_⟩
      rw [List.getElem?_eq_none (by rw [length_slots])]
      nofun
  | succ n ih =>
      have hlt : j < s.entries dp := by omega
      rw [List.range'_succ, List.map_cons, dirlinkLoop]
      refine wp_bind (h.readi hlt de) ?_
      rintro ⟨r, de'⟩ s' ⟨rfl, hr, hde⟩
      have hinum' := direntInum_congr hde
      dsimp only at hr hinum' ⊢
      rw [if_neg (by simp [hr]), hinum']
      refine wp_ite (fun hzero => wp_pure ⟨rfl, j, hlt.le, rfl, fun p => ?_⟩) fun _ =>
        ih (j + 1) (by omega) de'
      rw [getElem?_slots hlt, dirSlot, if_pos hzero]
      simp

/-- `writei` leaves the references to inodes as they are. -/
theorem writei_refs (h : Sound s) (hip : Locked s dp) (src : Mem) (off n : UInt32) :
    Sat (writei dp src off n) s fun _ s' => ∀ jp, (s'.icache jp).ref = (s.icache jp).ref ∧
      (s'.icache jp).valid = (s.icache jp).valid := by
  have hsame : ∀ jp, (s.icache jp).ref = (s.icache jp).ref ∧
    (s.icache jp).valid = (s.icache jp).valid := fun _ => ⟨rfl, rfl⟩
  refine wp_get_bind (wp_ite (fun _ => ?_) fun _ => wp_ite (fun _ => wp_pure hsame) fun hoff =>
    wp_ite (fun _ => wp_pure hsame) fun hmax => ?_)
  · split <;> exact wp_pure hsame
  rw [not_or] at hoff
  have hsum := add_toNat hoff.2
  refine wp_bind (writeLoop_spec (h.type hip) src n.toNat n.toNat 0 off.toNat
    (h.writing hip (Nat.le_of_not_lt hoff.1)) (by omega) (by omega)) ?_
  rintro off' s₁ ⟨-, hw⟩
  have hslots : ∀ jp, (s₁.icache jp).ref = (s.icache jp).ref ∧
      (s₁.icache jp).valid = (s.icache jp).valid := by
    intro jp
    by_cases hjp : jp = dp
    · obtain ⟨a, ha⟩ := hw.mid.slot
      rw [hjp, ha]
      exact ⟨rfl, rfl⟩
    · rw [hw.mid.slots jp hjp]
      exact ⟨rfl, rfl⟩
  refine wp_get_bind (wp_ite (fun _ => ?_) fun _ => wp_pure hslots)
  refine wp_modify_bind (wp_modify_bind (wp_pure fun jp => ?_))
  rw [← (hslots jp).1, ← (hslots jp).2]
  by_cases hjp : jp = dp
  · subst hjp
    simp [Fs.setNode, Fs.setDinode, Fs.setSlot]
  · simp [Fs.setNode, Fs.setDinode, Fs.setSlot, Function.update_of_ne hjp]

/-- What `writei` of entry `i` leaves. -/
structure Entered (dp : Ip) (i : Nat) (de : Mem) (s s' : Fs) : Prop where
  directory : Directory s' dp
  inum : s'.inum dp = s.inum dp
  slots : s'.slots dp = store i (dirSlot de) (s.slots dp)
  refs : ∀ jp, (s'.icache jp).ref = (s.icache jp).ref ∧ (s'.icache jp).valid = (s.icache jp).valid

/-- An entry that is written is the entry of its slot, and the other slots stay. -/
theorem slots_wrote {i : Nat} (hi : i ≤ s.entries dp) {de : Mem}
    (hwrote : Wrote dp de (i * direntSize) direntSize s s')
    (hcount : (s'.node dp).size = max (s.entries dp) (i + 1) * direntSize) :
    s'.slots dp = store i (dirSlot de) (s.slots dp) := by
  have hentries : s'.entries dp = max (s.entries dp) (i + 1) := by
    rw [Fs.entries, hcount]
    exact Nat.mul_div_cancel _ (by decide)
  refine List.ext_getElem? fun j => ?_
  rw [getElem?_store (by rw [length_slots]; exact hi)]
  by_cases hj : j < s'.entries dp
  · have hjsize : (j + 1) * direntSize ≤ (s'.node dp).size := by
      rw [hcount]
      exact Nat.mul_le_mul_right _ (hentries ▸ hj)
    have hbyte : ∀ a, a < direntSize → s'.byteAt dp (j * direntSize + a) =
        if i * direntSize ≤ j * direntSize + a ∧ j * direntSize + a < i * direntSize + direntSize
        then de (j * direntSize + a - i * direntSize) else s.byteAt dp (j * direntSize + a) := by
      intro a ha
      refine hwrote.bytes _ ?_
      rw [← hwrote.size]
      rw [Nat.succ_mul] at hjsize
      omega
    rw [getElem?_slots hj]
    split_ifs with hji
    · -- the entry that is written
      subst hji
      refine congrArg some (dirSlot_congr fun a ha => ?_)
      rw [Fs.direntAt, hbyte a ha, if_pos ⟨Nat.le_add_right .., by omega⟩,
        Nat.add_sub_cancel_left]
    · rw [getElem?_slots (by omega)]
      refine congrArg some (dirSlot_congr fun a ha => ?_)
      rw [Fs.direntAt, hbyte a ha, if_neg]
      · rfl
      · unfold direntSize at *
        omega
  · -- after the last entry
    rw [List.getElem?_eq_none (by rw [length_slots]; omega), if_neg (by omega),
      List.getElem?_eq_none (by rw [length_slots]; omega)]

theorem writeEntry (h : Directory s dp) {i : Nat} (hi : i ≤ s.entries dp)
    (hmax : (i + 1) * direntSize ≤ maxFile * bsize) (de : Mem) :
    Takes (s.needed dp (i * direntSize) direntSize)
      (writei dp de (UInt32.ofNat (i * direntSize)) (UInt32.ofNat direntSize)) s fun r s' =>
        r = direntSize ∧ Entered dp i de s s' := by
  have hsize := h.size
  have hle := Nat.mul_le_mul_right direntSize hi
  have hnext : (i + 1) * direntSize = i * direntSize + direntSize := Nat.succ_mul ..
  have hdev : (s.node dp).type ≠ .dev := by
    rw [h.dir]
    decide
  have hbound : maxFile * bsize < UInt32.size := by decide
  have hoff : (UInt32.ofNat (i * direntSize)).toNat = i * direntSize :=
    UInt32.toNat_ofNat_of_lt' (by omega)
  have hn : (UInt32.ofNat direntSize).toNat = direntSize := rfl
  have hstart : (UInt32.ofNat (i * direntSize)).toNat ≤ (s.node dp).size := by
    rw [hoff, hsize]
    exact hle
  have hend : (UInt32.ofNat (i * direntSize)).toNat + (UInt32.ofNat direntSize).toNat ≤
      maxFile * bsize := by
    rw [hoff, hn, ← hnext]
    exact hmax
  have htakes := writei_takes h.sound h.locked hdev de hstart hend
  have hbytes := writei_bytes h.sound h.locked hdev de hstart hend
  rw [hoff, hn] at htakes hbytes
  refine (htakes.and (wp_and hbytes (writei_refs h.sound h.locked de _ _))).mono ?_
  rintro r s' ⟨-, ⟨hsound, rfl, hwrote⟩, hrefs⟩
  have hcount : (s'.node dp).size = max (s.entries dp) (i + 1) * direntSize := by
    rw [hwrote.size, hsize, ← hnext]
    exact Nat.mul_max_mul_right ..
  refine ⟨rfl, ⟨hsound, hwrote.locked, hwrote.type.trans h.dir, ?_⟩, hwrote.inum,
    slots_wrote hi hwrote hcount, hrefs⟩
  rw [hcount]
  exact Nat.mul_mod_left ..

end Write

/-! ## References -/

section References

variable {C : Empty → Prop} {E : Panic → Prop} {s s' : Fs} {dp ip : Ip} {inum : Nat}

/-- A reference is dropped, and the inode is not freed. -/
theorem iput_drops (h : ¬ ((s.icache ip).valid = true ∧ (s.icache ip).ref = 1)) :
    wp C E (iput ip) s fun _ s' =>
      s' = s.setSlot ip { s.icache ip with ref := (s.icache ip).ref - 1 } := by
  refine wp_bind (P := fun _ s' => s' = s) ?_ ?_
  · exact wp_get_bind (wp_ite (fun hfree => absurd ⟨hfree.1, hfree.2.2⟩ h) fun _ => wp_pure rfl)
  · rintro - _ rfl
    exact wp_modify rfl

/-- The number of references to a slot changes. -/
theorem Directory.setRef (h : Directory s dp) (href : 0 < (s.icache ip).ref) (r : Int)
    (hr : ip = dp → 0 < r) : Directory (s.setSlot ip { s.icache ip with ref := r }) dp ∧
      (s.setSlot ip { s.icache ip with ref := r }).slots dp = s.slots dp ∧
      (s.setSlot ip { s.icache ip with ref := r }).inum dp = s.inum dp := by
  have hinum : (s.setSlot ip { s.icache ip with ref := r }).inum dp = s.inum dp := by
    by_cases hip : dp = ip
    · subst hip
      simp [Fs.inum, Fs.setSlot]
    · simp [Fs.inum, Fs.setSlot, Function.update_of_ne hip]
  have hnode : (s.setSlot ip { s.icache ip with ref := r }).node dp = s.node dp := by
    by_cases hip : dp = ip
    · subst hip
      simp [Fs.node, Fs.setSlot]
    · simp [Fs.node, Fs.setSlot, Function.update_of_ne hip]
  refine ⟨⟨h.sound.setRef href r, ?_, ?_, ?_⟩, slots_congr hnode rfl, hinum⟩
  · by_cases hip : dp = ip
    · subst hip
      exact ⟨by simpa [Fs.setSlot] using hr rfl, by simpa [Fs.setSlot] using h.locked.valid⟩
    · refine ⟨?_, ?_⟩ <;> simp only [Fs.setSlot, Function.update_of_ne hip]
      · exact h.locked.ref
      · exact h.locked.valid
  · rw [hnode]
    exact h.dir
  · rw [hnode]
    exact h.aligned

/-- After `iget` the directory is as it was. -/
theorem Got.directory (hgot : Got inum ip s s') (h : Directory s dp) (hs : Sound s') :
    Directory s' dp ∧ s'.slots dp = s.slots dp ∧ s'.inum dp = s.inum dp := by
  obtain ⟨⟨slot, rfl⟩, -, hcounted⟩ := hgot
  have hsame : ((s.setSlot ip slot).icache dp).node = (s.icache dp).node ∧
      ((s.setSlot ip slot).icache dp).inum = (s.icache dp).inum ∧
      ((s.setSlot ip slot).icache dp).valid = (s.icache dp).valid ∧
      0 < ((s.setSlot ip slot).icache dp).ref := by
    by_cases hip : dp = ip
    · subst hip
      rcases hcounted with ⟨href, hslot⟩ | ⟨hzero, -⟩
      · rw [hslot]
        exact ⟨rfl, rfl, rfl, Int.lt_add_one_of_le href.le⟩
      · exact absurd hzero h.locked.ref.ne'
    · simp only [Fs.setSlot, Function.update_of_ne hip]
      exact ⟨trivial, trivial, trivial, h.locked.ref⟩
  obtain ⟨hnode, hinum, hvalid, href⟩ := hsame
  have hnode' : (s.setSlot ip slot).node dp = s.node dp := hnode
  refine ⟨⟨hs, ⟨href, hvalid.trans h.locked.valid⟩, ?_, ?_⟩, slots_congr hnode' rfl, hinum⟩
  · rw [hnode']
    exact h.dir
  · rw [hnode']
    exact h.aligned

/-- The reference that `iget` took can be dropped again. -/
theorem Got.drop (hgot : Got inum ip s s') (h : Directory s dp) : 0 < (s'.icache ip).ref ∧
    ¬ ((s'.icache ip).valid = true ∧ (s'.icache ip).ref = 1) ∧
      (ip = dp → 0 < (s'.icache ip).ref - 1) := by
  rcases hgot.counted with ⟨href, hslot⟩ | ⟨hzero, hone, hinvalid⟩
  · rw [hslot]
    exact ⟨by dsimp only; omega, fun hno => by dsimp only at hno; omega, fun _ => by dsimp only; omega⟩
  · refine ⟨by omega, fun hno => ?_, fun hip => ?_⟩
    · rw [hinvalid] at hno
      exact nomatch hno.1
    · subst hip
      exact absurd hzero h.locked.ref.ne'

end References

/-! ## `dirlink` and the erasure of an entry -/

/-- What `sys_unlink` does to the directory: find the entry, overwrite it with zeros, and in the end
    drop the reference to the inode. `none` is the panic "unlink: writei". -/
def unlinkEntry (dp : Ip) (name : List UInt8) (de : Mem) : FsM (Option Int) := do
  match ← dirlookup dp name de with
  | none => pure (some (-1))
  | some (ip, off) => do
      -- `memset(&de, 0, sizeof(de))`
      let r ← writei dp (fun _ => 0) (UInt32.ofNat off) (UInt32.ofNat direntSize)
      if r ≠ direntSize then
        pure none
      else do
        iput ip
        pure (some 0)

/-- Only the inode cache has changed. -/
def SameDisk (s s' : Fs) : Prop := s' = { s with icache := s'.icache }

/-- What `dirlink` does. -/
inductive Linked (dp : Ip) (name : List UInt8) (inum : Nat) (s : Fs) : Int → Fs → Prop
  | present {s' : Fs} (hfind : find (entryName name) (s.slots dp) ≠ none) (hdisk : SameDisk s s')
      (hslots : s'.slots dp = s.slots dp) : Linked dp name inum s (-1) s'
  | new {s' : Fs} {i : Nat} (hfind : find (entryName name) (s.slots dp) = none)
      (hi : i ≤ s.entries dp) (hempty : ∀ p, (s.slots dp)[i]? ≠ some (some p))
      (hslots : s'.slots dp = store i (some (entryName name, inum)) (s.slots dp)) :
      Linked dp name inum s 0 s'

/-- What the erasure does. -/
inductive Unlinked (dp : Ip) (name : List UInt8) (s : Fs) : Option Int → Fs → Prop
  | absent (hfind : find (entryName name) (s.slots dp) = none) :
      Unlinked dp name s (some (-1)) s
  | erased {s' : Fs} {i v : Nat} (hslot : (s.slots dp)[i]? = some (some (entryName name, v)))
      (hslots : s'.slots dp = store i none (s.slots dp)) : Unlinked dp name s (some 0) s'

section Operations

variable {s : Fs} {dp : Ip}

theorem find_of_missing {name : List UInt8} (h : ∀ i v, 0 ≤ i →
      (s.slots dp)[i]? ≠ some (some (entryName name, v))) :
    find (entryName name) (s.slots dp) = none :=
  find_none.2 fun i v => h i v (Nat.zero_le i)

theorem needed_le {i : Nat} (h : Directory s dp) (hi : i ≤ s.entries dp) :
    s.needed dp (i * direntSize) direntSize ≤ s.needed dp (s.node dp).size direntSize := by
  have hle := Nat.mul_le_mul_right direntSize hi
  rw [← h.size] at hle
  refine Nat.sub_le_sub_right (blocksFor_mono ?_) _
  unfold nblocks bsize
  omega

theorem needed_zero {i : Nat} (h : Directory s dp) (hi : i < s.entries dp) :
    s.needed dp (i * direntSize) direntSize = 0 := by
  have hle := Nat.mul_le_mul_right direntSize (Nat.succ_le_of_lt hi)
  rw [← h.size, Nat.succ_mul] at hle
  rw [Fs.needed, Nat.max_eq_left hle, Nat.sub_self]

/-- The lookup at the start of both operations. -/
theorem dirlookup_serves (h : Directory s dp) (name : List UInt8) (de : Mem) (k : Nat) :
    Serves k (dirlookup dp name de) s fun r s' => Looked s dp name 0 r s' ∧ Sound s' := by
  refine wp_mono (wp_errors (wp_and_errors (dirlookup_looked h name de)
    (dirlookup_spec h.sound h.locked name de)) fun _ hE => Or.inl hE.1) ?_
  rintro r s' ⟨hlooked, hsound⟩
  refine ⟨hlooked, ?_⟩
  cases r with
  | none =>
      obtain rfl : s' = s := hsound
      exact h.sound
  | some found => exact hsound.1

theorem dirlink_linked (h : Directory s dp) (name : List UInt8) {inum : Nat} (hpos : 0 < inum)
    (hlt : inum < 65536) (hroom : (s.node dp).size < maxFile * bsize) (de : Mem) :
    Serves (s.needed dp (s.node dp).size direntSize) (dirlink dp name inum de) s fun r s' =>
      Directory s' dp ∧ s'.inum dp = s.inum dp ∧ Linked dp name inum s r s' := by
  have hsize := h.size
  refine wp_bind (dirlookup_serves h name de _) ?_
  rintro r s₁ ⟨hlooked, hsound⟩
  cases hlooked with
  | missing hmissing =>
      refine wp_get_bind ?_
      rw [direntOffs_eq h]
      dsimp only
      rw [List.length_map, List.length_range']
      refine wp_bind (wp_errors (dirlinkLoop_empty h _ 0 (Nat.zero_add _) de) nofun) ?_
      rintro ⟨off, de'⟩ s' ⟨rfl, i, hi, hoff, hempty⟩
      obtain rfl : off = i * direntSize := hoff
      have hend : (i + 1) * direntSize ≤ maxFile * bsize := by
        unfold maxFile nDirect nIndirect bsize direntSize at *
        omega
      -- after the last entry the directory grows, and a block may be needed
      refine wp_bind (wp_errors (writeEntry h hi hend _) fun _ hE =>
        Or.inr (hE.trans_le (needed_le h hi))) ?_
      rintro r s₂ ⟨-, rfl, hentered⟩
      rw [if_neg (not_not.2 rfl)]
      refine wp_pure ⟨hentered.directory, hentered.inum,
        .new (find_of_missing hmissing) hi hempty ?_⟩
      rw [hentered.slots, dirSlot_new name de' hpos hlt]
  | @found i v ip _ hi hslot hgot =>
      obtain ⟨hdir, hslots, hinum⟩ := hgot.directory h hsound
      obtain ⟨href, hkept, hself⟩ := hgot.drop h
      obtain ⟨hdir', hslots', hinum'⟩ := hdir.setRef href _ hself
      -- `iput` of the inode that was found
      refine wp_bind (iput_drops hkept) ?_
      rintro - _ rfl
      refine wp_pure ⟨hdir', hinum'.trans hinum,
        .present (fun hnone => find_none.1 hnone i v hslot) ?_ (hslots'.trans hslots)⟩
      obtain ⟨⟨slot, rfl⟩, -⟩ := hgot
      rfl

theorem unlinkEntry_unlinked (h : Directory s dp) (name : List UInt8) (de : Mem) :
    Serves 0 (unlinkEntry dp name de) s fun r s' =>
      Directory s' dp ∧ s'.inum dp = s.inum dp ∧ Unlinked dp name s r s' := by
  refine wp_bind (dirlookup_serves h name de _) ?_
  rintro r s₁ ⟨hlooked, hsound⟩
  cases hlooked with
  | missing hmissing => exact wp_pure ⟨h, rfl, .absent (find_of_missing hmissing)⟩
  | @found i v ip _ hi hslot hgot =>
      obtain ⟨hdir, hslots, hinum⟩ := hgot.directory h hsound
      obtain ⟨href, hkept, hself⟩ := hgot.drop h
      have hi' : i < s₁.entries dp := by
        rw [← length_slots, hslots, length_slots]
        exact hi.2
      have hend : (i + 1) * direntSize ≤ maxFile * bsize := by
        refine (Nat.mul_le_mul_right _ (Nat.succ_le_of_lt hi')).trans ?_
        rw [← hdir.size]
        exact hdir.sound.size_le hdir.locked
      refine wp_bind (wp_errors (writeEntry hdir hi'.le hend fun _ => 0) fun _ hE => ?_) ?_
      · rw [needed_zero hdir hi'] at hE
        exact absurd hE (Nat.not_lt_zero _)
      rintro r s₂ ⟨-, rfl, hentered⟩
      rw [if_neg (not_not.2 rfl)]
      -- the reference to the inode is dropped at the end
      obtain ⟨hrefs, hvalid⟩ := hentered.refs ip
      rw [← hrefs] at href hself
      rw [← hrefs, ← hvalid] at hkept
      obtain ⟨hdir', hslots', hinum'⟩ := hentered.directory.setRef href _ hself
      refine wp_bind (iput_drops hkept) ?_
      rintro - _ rfl
      refine wp_pure ⟨hdir', hinum'.trans (hentered.inum.trans hinum), .erased hslot ?_⟩
      rw [hslots', hentered.slots, hslots, dirSlot_zero]

end Operations

/-! ## Runs -/

/-- An operation on the directory; `de` is what is on the stack for the entry. -/
inductive DirEvent
  | link (name : List UInt8) (inum : Nat) (de : Mem)
  | unlink (name : List UInt8) (de : Mem)

/-- A `dirlink` into a directory below the largest size of a file, or an erasure, that returns. -/
def DirStep (dp : Ip) (s : Fs) : DirEvent → Fs → Prop
  | .link name inum de, s' => 0 < inum ∧ inum < 65536 ∧ (s.node dp).size < maxFile * bsize ∧
      ∃ r, (dirlink dp name inum de s).2 = .ok (r, s')
  | .unlink name de, s' => ∃ r, (unlinkEntry dp name de s).2 = .ok (r, s')

section Runs

variable {s₀ s s' : Fs} {dp : Ip}

/-- After `dirlink` the name has its inode number, if it was not there, and nothing else changes. -/
theorem Linked.find {name : List UInt8} {inum : Nat} {r : Int} (h : Linked dp name inum s r s')
    (hd : Distinct (s.slots dp)) : Distinct (s'.slots dp) ∧ (r = -1 ∨ r = 0) ∧
      (r = -1 ↔ find (entryName name) (s.slots dp) ≠ none) ∧
      (r = -1 → SameDisk s s' ∧ s'.slots dp = s.slots dp) ∧
      (r ≠ -1 → ∀ k, find k (s'.slots dp) =
        if k = entryName name then some inum else find k (s.slots dp)) := by
  cases h with
  | present hfind hdisk hslots =>
      exact ⟨hslots ▸ hd, Or.inl rfl, iff_of_true rfl hfind, fun _ => ⟨hdisk, hslots⟩,
        fun hno => absurd rfl hno⟩
  | new hfind hi hempty hslots =>
      rw [← length_slots] at hi
      rw [hslots]
      exact ⟨hd.put hi hfind, Or.inr rfl, iff_of_false (by decide) (not_not.2 hfind),
        fun hno => absurd hno (by decide), fun _ k => find_put hd hi hempty hfind⟩

/-- After an erasure the name is not there, and nothing else changes. -/
theorem Unlinked.find {name : List UInt8} {r : Option Int} (h : Unlinked dp name s r s')
    (hd : Distinct (s.slots dp)) : Distinct (s'.slots dp) ∧ r ≠ none ∧
      ∀ k, find k (s'.slots dp) =
        if k = entryName name then none else find k (s.slots dp) := by
  cases h with
  | absent hfind =>
      refine ⟨hd, Option.some_ne_none _, fun k => ?_⟩
      split_ifs with hk
      · rw [hk, hfind]
      · rfl
  | erased hslot hslots =>
      rw [hslots]
      have hi := (List.getElem?_eq_some_iff.1 hslot).1
      exact ⟨hd.clear hi.le, Option.some_ne_none _, fun k => find_clear hd hslot⟩

theorem DirStep.keeps {e : DirEvent} (hs : DirStep dp s e s')
    (h : Directory s dp ∧ Distinct (s.slots dp)) : Directory s' dp ∧ Distinct (s'.slots dp) := by
  cases e with
  | link name inum de =>
      obtain ⟨hpos, hlt, hroom, r, hrun⟩ := hs
      obtain ⟨hdir, -, hlinked⟩ :=
        wp_of_run (dirlink_linked h.1 name hpos hlt hroom de) (fun _ _ => trivial) hrun
      exact ⟨hdir, (hlinked.find h.2).1⟩
  | unlink name de =>
      obtain ⟨r, hrun⟩ := hs
      obtain ⟨hdir, -, hunlinked⟩ :=
        wp_of_run (unlinkEntry_unlinked h.1 name de) (fun _ _ => trivial) hrun
      exact ⟨hdir, (hunlinked.find h.2).1⟩

end Runs

/-! An empty directory. -/

end Cs350.Block
