import Cs350.Sysfile.View

set_option autoImplicit false

/-! # Entries of directories

`dirlookup`, `dirlink`, `isdirempty` and the erasure of an entry, as what they do to the list of
entries that the bytes of the directory stand for. -/

namespace Cs350.Sysfile

open Block (Fs Dinode Sound Locked Directory direntSize dirsiz direntInum chars maxFile bsize)
open FileSys (IType Ip Name Dirent)
open Prog

/-! ## Names -/

section Names

theorem nameOf_inj {a b : List UInt8} : nameOf a = nameOf b ↔ a = b :=
  (List.map_injective_iff.2 fun _ _ h => charOf_inj.1 h).eq_iff

theorem entryName_of_notMem {name : List UInt8} (h : 0 ∉ name) :
    Block.entryName name = name.take dirsiz := by
  rw [Block.entryName, List.takeWhile_eq_self_iff.2]
  intro c hc
  have hne : c ≠ 0 := fun h0 => h (h0 ▸ hc)
  simpa using hne

theorem chars_length (m : Mem) (i n : Nat) : (chars m i n).length ≤ n := by
  induction n generalizing i with
  | zero => exact Nat.zero_le 0
  | succ n ih =>
      rw [Block.chars]
      split_ifs
      · exact Nat.zero_le _
      · exact Nat.succ_le_succ (ih (i + 1))

/-- Comparing the name with the bytes of an entry is comparing it with the entry. -/
theorem namecmp_direntOf {name : List UInt8} (h : 0 ∉ name) (de : Mem) :
    Block.namecmp name de = FileSys.namecmp (nameOf name) (direntOf de).name := by
  have hlen : (chars de 2 dirsiz).take dirsiz = chars de 2 dirsiz :=
    List.take_of_length_le (chars_length de 2 dirsiz)
  have hiff : Block.namecmp name de = true ↔
      FileSys.namecmp (nameOf name) (direntOf de).name = true := by
    rw [Block.namecmp_chars, entryName_of_notMem h, FileSys.namecmp, decide_eq_true_eq, direntOf]
    dsimp only
    rw [nameOf, nameOf, ← List.map_take, ← List.map_take]
    change _ ↔ nameOf (name.take dirsiz) = nameOf ((chars de 2 dirsiz).take dirsiz)
    rw [nameOf_inj, hlen, eq_comm]
  exact Bool.eq_iff_iff.2 hiff

theorem namecmp_nameOf {s t : List UInt8} (hs : 0 ∉ s) (ht : 0 ∉ t) :
    namecmp s t = FileSys.namecmp (nameOf s) (nameOf t) := by
  have hiff : namecmp s t = true ↔ FileSys.namecmp (nameOf s) (nameOf t) = true := by
    rw [namecmp, Block.strncmp_chars, Block.chars_cstr, Block.chars_cstr, entryName_of_notMem hs,
      entryName_of_notMem ht, FileSys.namecmp, decide_eq_true_eq, nameOf, nameOf, ← List.map_take,
      ← List.map_take]
    exact nameOf_inj.symm
  exact Bool.eq_iff_iff.2 hiff

theorem direntOf_congr {de de' : Mem} (h : ∀ a, a < direntSize → de' a = de a) :
    direntOf de' = direntOf de := by
  have hname : chars de' 2 dirsiz = chars de 2 dirsiz :=
    Block.chars_congr fun k hk => h (2 + k) (by unfold dirsiz at hk; unfold direntSize; omega)
  rw [direntOf, direntOf, Block.direntInum_congr h, hname]

theorem direntOf_zero : direntOf (fun _ => 0) = ⟨0, []⟩ := by decide

/-- The entry that `dirlink` writes. -/
theorem direntOf_new {name : List UInt8} (h : 0 ∉ name) (inum : Nat) (de : Mem) :
    direntOf ((Block.memmove de 2 (Block.cstr name) 0 dirsiz).store 0 2 inum) =
      ⟨inum % 65536, (nameOf name).take FileSys.dirsiz⟩ := by
  have hinum : direntInum ((Block.memmove de 2 (Block.cstr name) 0 dirsiz).store 0 2 inum) =
      inum % 65536 := by
    rw [Block.direntInum, Mem.load_store]
    rfl
  have hname : chars ((Block.memmove de 2 (Block.cstr name) 0 dirsiz).store 0 2 inum) 2 dirsiz =
      name.take dirsiz := by
    rw [← entryName_of_notMem h, ← Block.chars_cstr]
    refine Block.chars_congr fun k hk => ?_
    rw [Mem.store_apply _ _ _ _ _ (Or.inr (by omega)), Block.memmove_apply,
      if_pos ⟨Nat.le_add_right .., by omega⟩, Nat.add_sub_cancel_left]
  rw [direntOf, hinum, hname, nameOf, nameOf, List.map_take]
  rfl

end Names

/-! ## Entries -/

section Entries

variable {s : Fs} {dp : Ip} {n : Dinode} {data data' : Nat → Mem}

@[simp] theorem entriesOf_length (n : Dinode) (data : Nat → Mem) :
    (entriesOf n data).length = n.size / direntSize := by
  simp [entriesOf]

theorem getElem?_entriesOf {j : Nat} (hj : j < n.size / direntSize) :
    (entriesOf n data)[j]? = some (direntOf fun a => n.byteAt data (j * direntSize + a)) := by
  rw [entriesOf, List.getElem?_map, List.getElem?_range hj]
  rfl

/-- Only the bytes of the file count. -/
theorem entriesOf_congr {n' : Dinode} (hsize : n'.size = n.size)
    (h : ∀ x < n.size, n'.byteAt data' x = n.byteAt data x) :
    entriesOf n' data' = entriesOf n data := by
  unfold entriesOf
  rw [hsize]
  refine List.map_congr_left fun j hj => direntOf_congr fun a ha => h _ ?_
  have hlt := List.mem_range.1 hj
  unfold direntSize at *
  omega

theorem inodeOf_of_contents (htype : n.type ≠ .free → n.contents data' = n.contents data) :
    inodeOf n data' = inodeOf n data := by
  unfold inodeOf
  split_ifs with hdir
  · congr 1
    refine entriesOf_congr rfl fun x hx => ?_
    have hbytes := htype (by rw [hdir]; decide)
    have hbyte := congrArg (fun l => l[x]?) hbytes
    rw [Block.getElem?_contents _ _ hx, Block.getElem?_contents _ _ hx] at hbyte
    exact Option.some.inj hbyte
  · rfl

theorem Good.directory (h : Good s) (hdp : Locked s dp) (hdir : (s.node dp).type = .dir) :
    Directory s dp := by
  refine ⟨h.sound, hdp, hdir, ?_⟩
  rw [h.sound.node hdp] at hdir ⊢
  exact h.aligned _ hdir

/-- The entries of a locked directory. -/
theorem names_entries (h : Directory s dp) :
    ((names s).node dp).entries = entriesOf (s.node dp) s.data := by
  rw [names_node h.sound h.locked, inodeOf, if_pos h.dir]

/-- The entry at `j` is read. -/
theorem read_direntOf (h : Directory s dp) {j : Nat} (hj : j < s.entries dp) (de : Mem) :
    Block.Total (Block.readi dp de (UInt32.ofNat (j * direntSize)) (UInt32.ofNat direntSize)) s
      fun r s' => s' = s ∧ r.1 = direntSize ∧ (entriesOf (s.node dp) s.data).drop j =
        direntOf r.2 :: (entriesOf (s.node dp) s.data).drop (j + 1) := by
  have hentry : (entriesOf (s.node dp) s.data)[j]? =
      some (direntOf fun a => (s.node dp).byteAt s.data (j * direntSize + a)) := getElem?_entriesOf hj
  obtain ⟨hlt, hget⟩ := List.getElem?_eq_some_iff.1 hentry
  refine wp_mono (h.readi hj de) ?_
  rintro r s' ⟨rfl, hr, hde⟩
  refine ⟨rfl, hr, ?_⟩
  rw [List.drop_eq_getElem_cons hlt, hget, direntOf_congr hde]
  rfl

end Entries

/-! ## `dirlookup` -/

section Lookup

variable {s : Fs} {dp : Ip} {name : List UInt8}

/-- The end of `dirlookup`. -/
def found : Option (Dirent × Nat) → FileSys.FsM (Option (Ip × Nat))
  | some (de, off) => do
      let ip ← FileSys.iget de.inum
      pure (some (ip, off))
  | none => pure none

/-- The test of `dirlookup`. -/
def Named (name : List UInt8) (p : Dirent × Nat) : Prop :=
  p.1.inum ≠ 0 ∧ FileSys.namecmp (nameOf name) p.1.name

instance decidableNamed (name : List UInt8) : DecidablePred (Named name) := fun _ =>
  inferInstanceAs (Decidable (_ ∧ _))

theorem dirlookup_eq (dp : Ip) (name : List UInt8) :
    FileSys.dirlookup dp (nameOf name) = (do
      let fs ← Prog.get
      if (fs.node dp).type ≠ .dir then
        Prog.stop .dirlookupNotDir
      else
        found ((fs.node dp).entries.zipIdx.find? fun p => Named name p)) := by
  refine bind_congr fun fs => ?_
  refine if_congr Iff.rfl rfl ?_
  rw [found.eq_def]
  rfl

/-- What both sides of `dirlookup` return. -/
def SameEntry (s : Fs) (dp : Ip) (s' : Fs) : Option (Ip × Nat) → Option (Ip × Nat) → Prop
  | none, r => r = none ∧ s' = s ∧ (s.node dp).type = .dir
  | some (ip, off), r => ∃ i, r = some (ip, i) ∧ off = i * direntSize ∧ i < s.entries dp ∧
      (s.node dp).type = .dir ∧ Gets s ip s'

theorem dirlookupLoop_sim (hg : Good s) (h : Directory s dp) (hname : 0 ∉ name) (n j : Nat)
    (hj : j + n = s.entries dp) (de : Mem) :
    Sim₀ (Block.dirlookupLoop dp name ((List.range' j n).map (· * direntSize)) de) s
      (found ((((entriesOf (s.node dp) s.data).drop j).zipIdx j).find? fun p => Named name p))
      fun r r' s' => SameEntry s dp s' r r' := by
  have hlen : (entriesOf (s.node dp) s.data).length = s.entries dp := entriesOf_length ..
  induction n generalizing j de with
  | zero =>
      rw [List.drop_of_length_le (by omega)]
      exact refines_pure ⟨rfl, hg, rfl, rfl, h.dir⟩
  | succ n ih =>
      have hlt : j < s.entries dp := by omega
      rw [List.range'_succ, List.map_cons, Block.dirlookupLoop]
      refine refines_left (wp_errors (read_direntOf h hlt de) fun _ he => False.elim he)
        (fun _ => trivial) ?_
      rintro ⟨r, de'⟩ s' ⟨rfl, hr, hdrop⟩
      dsimp only at hr hdrop ⊢
      rw [if_neg (by simp [hr]), hdrop, List.zipIdx_cons, List.find?_cons]
      by_cases hzero : direntInum de' = 0
      · have hno : ¬ Named name (direntOf de', j) := fun h' => h'.1 hzero
        rw [if_pos hzero, decide_eq_false hno]
        exact ih (j + 1) (by omega) de'
      rw [if_neg hzero]
      by_cases hcmp : Block.namecmp name de' = true
      · have hyes : Named name (direntOf de', j) := ⟨hzero, by rw [← namecmp_direntOf hname]; exact hcmp⟩
        rw [if_pos hcmp, decide_eq_true hyes]
        refine refines_bind (iget_sim hg _) ?_
        rintro ip s₁ _ _ ⟨rfl, hg₁, rfl, hgets⟩
        exact refines_pure ⟨rfl, hg₁, j, rfl, rfl, hlt, h.dir, hgets⟩
      · have hno : ¬ Named name (direntOf de', j) :=
          fun h' => hcmp (by rw [namecmp_direntOf hname]; exact h'.2)
        rw [if_neg hcmp, decide_eq_false hno]
        exact ih (j + 1) (by omega) de'

theorem dirlookup_sim (hg : Good s) (hdp : Locked s dp) (hname : 0 ∉ name) (de : Mem) :
    Sim₀ (Block.dirlookup dp name de) s (FileSys.dirlookup dp (nameOf name))
      fun r r' s' => SameEntry s dp s' r r' := by
  have htype : ((names s).node dp).type = (s.node dp).type := by
    rw [names_node hg.sound hdp]
    rfl
  rw [dirlookup_eq]
  refine refines_get_bind (refines_ite (by rw [htype]) (fun _ => refines_stop rfl) fun hdir => ?_)
  have h := hg.directory hdp (not_not.1 hdir)
  rw [names_entries h, Block.direntOffs_eq h]
  exact dirlookupLoop_sim hg h hname _ 0 (Nat.zero_add _) de

end Lookup

/-! ## Writing an entry -/

section Write

variable {s : Fs} {dp : Ip} {i : Nat}

/-- Runs that can stop with a full disk only. -/
abbrev Fills {α : Type} (m : Block.FsM α) (s : Fs) : Prop :=
  wp (fun _ => True) (fun e => e = .outOfBlocks) m s fun _ _ => True

theorem balloc_fills (s : Fs) : Fills Block.balloc s := by
  refine wp_get_bind ?_
  split
  · exact wp_modify_bind (wp_modify_bind (wp_pure trivial))
  · exact wp_stop rfl

theorem bmap_fills (s : Fs) (ip : Ip) {bn : Nat} (h : bn < maxFile) : Fills (Block.bmap ip bn) s := by
  have haddr : ∀ k s, Fills (Block.addrOf ip k) s := fun k s =>
    wp_get_bind (wp_ite (fun _ => wp_bind (balloc_fills s) fun _ _ _ => wp_modify_bind (wp_pure trivial))
      fun _ => wp_pure trivial)
  have hentry : ∀ ind j s, Fills (Block.entryOf ind j) s := fun ind j s =>
    wp_get_bind (wp_ite (fun _ => wp_bind (balloc_fills s) fun _ _ _ => wp_modify_bind (wp_pure trivial))
      fun _ => wp_pure trivial)
  unfold Block.bmap
  split_ifs with hdir hind
  · exact haddr _ s
  · exact wp_bind (haddr _ s) fun ind s' _ => hentry ind _ s'
  · unfold maxFile at h
    omega

theorem writeLoop_fills (ip : Ip) (src : Mem) (n fuel tot off : Nat) (s : Fs)
    (h : off + (n - tot) ≤ maxFile * bsize) : Fills (Block.writeLoop ip src n fuel tot off) s := by
  induction fuel generalizing s tot off with
  | zero => exact wp_pure trivial
  | succ fuel ih =>
      refine wp_ite (fun htot => ?_) fun _ => wp_pure trivial
      have hlt : off / bsize < maxFile := Nat.div_lt_of_lt_mul (by rw [Nat.mul_comm]; omega)
      refine wp_bind (bmap_fills s ip hlt) fun b s₁ _ => wp_modify_bind (ih _ _ _ ?_)
      omega

theorem writei_fills (s : Fs) (ip : Ip) (src : Mem) (off n : UInt32) :
    Fills (Block.writei ip src off n) s := by
  refine wp_get_bind (wp_ite (fun _ => ?_) fun _ => wp_ite (fun _ => wp_pure trivial) fun hoff =>
    wp_ite (fun _ => wp_pure trivial) fun hmax => ?_)
  · split <;> exact wp_pure trivial
  · rw [not_or] at hoff
    have hsum := add_toNat hoff.2
    refine wp_bind (writeLoop_fills ip src _ _ 0 _ s (by omega)) fun off' s' _ => ?_
    exact wp_get_bind (wp_ite (fun _ => wp_modify_bind (wp_modify_bind (wp_pure trivial)))
      fun _ => wp_pure trivial)

/-- What `writei` does not change. -/
structure Framed (s : Fs) (dp : Ip) (s' : Fs) : Prop where
  sb : s'.sb = s.sb
  slots : ∀ jp, ∃ n, s'.icache jp = { s.icache jp with node := n }
  node : ∃ size addrs, s'.node dp = { s.node dp with size := size, addrs := addrs }

theorem Framed.refl (s : Fs) (dp : Ip) : Framed s dp s := ⟨rfl, fun _ => ⟨_, rfl⟩, _, _, rfl⟩

theorem Framed.stays {s' : Fs} (h : Framed s dp s') : Stays s s' := by
  refine ⟨funext fun jp => ?_, fun O L hO => hO.congr fun jp => ?_⟩
  · obtain ⟨n, hn⟩ := h.slots jp
    rw [Fs.inum, hn]
    rfl
  · obtain ⟨n, hn⟩ := h.slots jp
    rw [hn]
    exact ⟨rfl, rfl⟩

theorem writei_framed (h : Sound s) (hdp : Locked s dp) (src : Mem) (off n : UInt32) :
    Block.Sat (Block.writei dp src off n) s fun _ s' => Framed s dp s' := by
  refine wp_get_bind (wp_ite (fun _ => ?_) fun _ => wp_ite (fun _ => wp_pure (.refl s dp)) fun hoff =>
    wp_ite (fun _ => wp_pure (.refl s dp)) fun hmax => ?_)
  · split <;> exact wp_pure (.refl s dp)
  rw [not_or] at hoff
  have hsum := add_toNat hoff.2
  refine wp_bind (Block.writeLoop_spec (h.type hdp) src n.toNat n.toNat 0 off.toNat
    (h.writing hdp (Nat.le_of_not_lt hoff.1)) (by omega) (by omega)) ?_
  rintro off' s₁ ⟨-, hw⟩
  obtain ⟨a, ha⟩ := hw.mid.slot
  have hnode : s₁.node dp = { s.node dp with addrs := a } := congrArg Block.Inode.node ha
  have hslots : ∀ jp, ∃ n, s₁.icache jp = { s.icache jp with node := n } := by
    intro jp
    by_cases hjp : jp = dp
    · exact ⟨{ s.node dp with addrs := a }, by rw [hjp, ha]⟩
    · exact ⟨(s.icache jp).node, hw.mid.slots jp hjp⟩
  refine wp_get_bind (wp_ite (fun _ => ?_) fun _ => wp_pure ⟨hw.mid.sb, hslots, _, a, hnode⟩)
  refine wp_modify_bind (wp_modify_bind (wp_pure ⟨hw.mid.sb, fun jp => ?_, off', a, ?_⟩))
  · by_cases hjp : jp = dp
    · refine ⟨{ s₁.node dp with size := off' }, ?_⟩
      rw [hjp]
      refine (setSlot_self s₁ dp _).trans ?_
      rw [ha]
    · obtain ⟨n', hn'⟩ := hslots jp
      exact ⟨n', (setSlot_of_ne s₁ hjp _).trans hn'⟩
  · refine (Block.setNode_node s₁ dp _).trans ?_
    rw [hnode]

/-- The entries after a write of 16 bytes at entry `i`. -/
theorem entriesOf_wrote {s' : Fs} {de : Mem} (h : Directory s dp) (hi : i ≤ s.entries dp)
    (hwrote : Block.Wrote dp de (i * direntSize) direntSize s s') :
    (s'.node dp).size % direntSize = 0 ∧ entriesOf (s'.node dp) s'.data =
      FileSys.writeEntry (entriesOf (s.node dp) s.data) i (direntOf de) := by
  have hsize := h.size
  have hnext : (i + 1) * direntSize = i * direntSize + direntSize := Nat.succ_mul ..
  have hcount : (s'.node dp).size = max (s.entries dp) (i + 1) * direntSize := by
    rw [hwrote.size, hsize, ← hnext]
    exact Nat.mul_max_mul_right ..
  have hentries : (s'.node dp).size / direntSize = max (s.entries dp) (i + 1) := by
    rw [hcount]
    exact Nat.mul_div_cancel _ (by decide)
  refine ⟨by rw [hcount]; exact Nat.mul_mod_left .., List.ext_getElem? fun j => ?_⟩
  have hlen : (entriesOf (s.node dp) s.data).length = s.entries dp := entriesOf_length ..
  have hspec : (FileSys.writeEntry (entriesOf (s.node dp) s.data) i (direntOf de))[j]? =
      if j = i then some (direntOf de) else (entriesOf (s.node dp) s.data)[j]? := by
    rw [FileSys.writeEntry]
    split_ifs with hlt hji hji
    · rw [hji, List.getElem?_set_self hlt]
    · rw [List.getElem?_set_ne (Ne.symm hji)]
    · rw [hji, List.getElem?_append_right (by omega), hlen]
      have hzero : i - s.entries dp = 0 := by omega
      rw [hzero]
      rfl
    · rw [List.getElem?_append]
      split_ifs with hjlt
      · rfl
      · rw [List.getElem?_eq_none (by rw [List.length_singleton]; omega),
          List.getElem?_eq_none (by omega)]
  rw [hspec]
  by_cases hj : j < max (s.entries dp) (i + 1)
  · have hbyte : ∀ a, a < direntSize → (s'.node dp).byteAt s'.data (j * direntSize + a) =
        if i * direntSize ≤ j * direntSize + a ∧ j * direntSize + a < i * direntSize + direntSize
        then de (j * direntSize + a - i * direntSize)
        else (s.node dp).byteAt s.data (j * direntSize + a) := by
      intro a ha
      refine hwrote.bytes _ ?_
      rw [← hwrote.size, hcount]
      have hle := Nat.mul_le_mul_right direntSize (Nat.succ_le_of_lt hj)
      rw [Nat.succ_mul] at hle
      omega
    rw [getElem?_entriesOf (by rw [hentries]; exact hj)]
    split_ifs with hji
    · -- the entry that is written
      subst hji
      refine congrArg some (direntOf_congr fun a ha => ?_)
      rw [hbyte a ha, if_pos ⟨Nat.le_add_right .., by omega⟩, Nat.add_sub_cancel_left]
    · have hjs : j < s.entries dp := by omega
      rw [getElem?_entriesOf hjs]
      refine congrArg some (direntOf_congr fun a ha => ?_)
      rw [hbyte a ha, if_neg]
      unfold direntSize at *
      omega
  · -- after the last entry
    rw [List.getElem?_eq_none (by rw [entriesOf_length, hentries]; omega), if_neg (by omega),
      List.getElem?_eq_none (by rw [hlen]; omega)]

/-- What a write to one inode does to the names: if any, it changes the entries there. -/
theorem Framed.names {s' : Fs} (hframed : Framed s dp s') (hg : Good s) (hdp : Locked s dp)
    (hs' : Sound s') (hothers : ∀ j, j ≠ s.inum dp → s'.dinode j = s.dinode j ∧
      ((s.dinode j).type ≠ .free → s'.contents j = s.contents j))
    (haligned : (s.node dp).type = .dir → (s'.node dp).size % direntSize = 0) :
    Good s' ∧ names s' = (names s).setEntries dp (inodeOf (s'.node dp) s'.data).entries := by
  obtain ⟨size, addrs, hnode⟩ := hframed.node
  have hlocked : Locked s' dp := by
    obtain ⟨n, hn⟩ := hframed.slots dp
    exact ⟨by rw [hn]; exact hdp.ref, by rw [hn]; exact hdp.valid⟩
  have hdisk : s'.dinode (s.inum dp) = s'.node dp := by
    rw [← congrFun hframed.stays.inum dp]
    exact (hs'.node hlocked).symm
  have hkind : (s'.node dp).type = (s.node dp).type := by
    rw [hnode]
  refine ⟨⟨hs', fun jp => ?_, fun j hj => ?_⟩, names_eq (by rw [hframed.sb]; rfl) (fun j => ?_)
    fun jp => ?_⟩
  · obtain ⟨n, hn⟩ := hframed.slots jp
    rw [hn]
    exact hg.refs jp
  · by_cases hji : j = s.inum dp
    · rw [hji, hdisk, hkind] at hj
      rw [hji, hdisk]
      exact haligned hj
    · rw [(hothers j hji).1] at hj ⊢
      exact hg.aligned j hj
  · show _ = Function.update (Sysfile.names s).inode (s.inum dp) { (Sysfile.names s).node dp with
      entries := (inodeOf (s'.node dp) s'.data).entries } j
    by_cases hji : j = s.inum dp
    · rw [hji, Function.update_self, hdisk, names_node hg.sound hdp]
      simp only [hnode, inodeOf]
    · rw [Function.update_of_ne hji, (hothers j hji).1]
      refine inodeOf_of_contents fun htype => ?_
      have hcontents := (hothers j hji).2 htype
      rwa [Fs.contents, (hothers j hji).1] at hcontents
  · obtain ⟨n, hn⟩ := hframed.slots jp
    rw [hn]
    rfl

/-- A write of an entry, in the names. -/
theorem writeEntry_names (hg : Good s) (h : Directory s dp) (hi : i ≤ s.entries dp)
    (hmax : (i + 1) * direntSize ≤ maxFile * bsize) (de : Mem) :
    wp (fun _ => True) (fun e => e = .outOfBlocks)
      (Block.writei dp de (UInt32.ofNat (i * direntSize)) (UInt32.ofNat direntSize)) s
      fun r s' => r = direntSize ∧ Good s' ∧ Stays s s' ∧ names s' = (names s).setEntries dp
        (FileSys.writeEntry ((names s).node dp).entries i (direntOf de)) := by
  have hsize := h.size
  have hle := Nat.mul_le_mul_right direntSize hi
  have hnext : (i + 1) * direntSize = i * direntSize + direntSize := Nat.succ_mul ..
  have hdev : (s.node dp).type ≠ .dev := by
    rw [h.dir]
    decide
  have hbound : maxFile * bsize < UInt32.size := by decide
  have hoff : (UInt32.ofNat (i * direntSize)).toNat = i * direntSize :=
    UInt32.toNat_ofNat_of_lt' (by omega)
  have hn : (UInt32.ofNat direntSize).toNat = direntSize := rfl
  have hstart : (UInt32.ofNat (i * direntSize)).toNat ≤ (s.node dp).size := by
    rw [hoff, hsize]
    exact hle
  have hend : (UInt32.ofNat (i * direntSize)).toNat + (UInt32.ofNat direntSize).toNat ≤
      maxFile * bsize := by
    rw [hoff, hn]
    omega
  have hbytes := Block.writei_bytes h.sound h.locked hdev de hstart hend
  rw [hoff, hn] at hbytes
  refine wp_mono (wp_errors (wp_and_errors (writei_fills s dp de _ _) (wp_and hbytes
    (wp_and (Block.writei_others h.sound h.locked de) (writei_framed h.sound h.locked de _ _))))
    fun _ he => he.1) ?_
  rintro r s' ⟨-, ⟨hs', rfl, hwrote⟩, hothers, hframed⟩
  obtain ⟨haligned, hentries⟩ := entriesOf_wrote h hi hwrote
  have hdir : (s'.node dp).type = .dir := hwrote.type.trans h.dir
  obtain ⟨hg', hnames⟩ := hframed.names hg h.locked hs' hothers fun _ => haligned
  refine ⟨rfl, hg', hframed.stays, ?_⟩
  rw [hnames, names_entries h, ← hentries, inodeOf, if_pos hdir]

/-- The names know nothing of what is in a file. -/
theorem writei_names {ip : Ip} (hg : Good s) (hip : Locked s ip) (htype : (s.node ip).type ≠ .dir)
    (src : Mem) (off n : UInt32) :
    wp (fun _ => True) (fun e => e = .outOfBlocks) (Block.writei ip src off n) s
      fun _ s' => Good s' ∧ Stays s s' ∧ names s' = names s := by
  refine wp_mono (wp_errors (wp_and_errors (writei_fills s ip src off n)
    (wp_and (Block.writei_spec hg.sound hip src off n)
      (wp_and (Block.writei_others hg.sound hip src) (writei_framed hg.sound hip src off n))))
    fun _ he => he.1) ?_
  rintro r s' ⟨-, hs', hothers, hframed⟩
  obtain ⟨hg', hnames⟩ := hframed.names hg hip hs' hothers fun hdir => absurd hdir htype
  refine ⟨hg', hframed.stays, ?_⟩
  obtain ⟨size, addrs, hnode⟩ := hframed.node
  have hnone : (inodeOf (s'.node ip) s'.data).entries = ((names s).node ip).entries := by
    rw [names_node hg.sound hip]
    simp only [hnode, inodeOf, if_neg htype]
  rw [hnames, hnone]
  unfold FileSys.Fs.setEntries FileSys.Fs.setInode
  congr 1
  exact Function.update_eq_self _ (names s).inode

end Write

/-! ## `dirlink` and `isdirempty` -/

section Loops

variable {s : Fs} {dp : Ip}

/-- `dirlink` writes to the first entry that is not in use, or after the last one. -/
theorem dirlinkLoop_first (h : Directory s dp) (n j : Nat) (hj : j + n = s.entries dp) (de : Mem) :
    Block.Total (Block.dirlinkLoop dp (s.entries dp * direntSize)
      ((List.range' j n).map (· * direntSize)) de) s fun r s' => s' = s ∧ r.1 =
        (j + ((entriesOf (s.node dp) s.data).drop j).findIdx fun de => de.inum = 0) * direntSize := by
  have hlen : (entriesOf (s.node dp) s.data).length = s.entries dp := entriesOf_length ..
  induction n generalizing j de with
  | zero =>
      rw [List.drop_of_length_le (by omega)]
      refine wp_pure ⟨rfl, ?_⟩
      rw [List.findIdx_nil, ← hj]
  | succ n ih =>
      have hlt : j < s.entries dp := by omega
      rw [List.range'_succ, List.map_cons, Block.dirlinkLoop]
      refine wp_bind (read_direntOf h hlt de) ?_
      rintro ⟨r, de'⟩ s' ⟨rfl, hr, hdrop⟩
      dsimp only at hr hdrop ⊢
      rw [if_neg (by simp [hr]), hdrop, List.findIdx_cons]
      have hinum : (direntOf de').inum = direntInum de' := rfl
      rw [hinum]
      refine wp_ite (fun hzero => wp_pure ⟨rfl, ?_⟩) fun hne => wp_mono (ih (j + 1) (by omega) de') ?_
      · simp [hzero]
      · rintro r₁ s₁ ⟨rfl, hr₁⟩
        refine ⟨rfl, ?_⟩
        rw [hr₁, decide_eq_false hne]
        congr 1
        simp only [cond_false]
        omega

theorem dirlink_sim {name : List UInt8} (hg : Good s) (hdp : Locked s dp) (hname : 0 ∉ name)
    (inum : Nat) (de : Mem) :
    Sim₀ (Block.dirlink dp name inum de) s (FileSys.dirlink dp (nameOf name) inum)
      fun r r' s' => r' = r ∧ ∀ O L, Holds s O L → Holds s' O L := by
  refine refines_bind (dirlookup_sim hg hdp hname de) ?_
  rintro r s₁ r' _ ⟨rfl, hg₁, hsame⟩
  cases r with
  | some found =>
      obtain ⟨ip, off⟩ := found
      obtain ⟨i, rfl, rfl, -, -, hgets⟩ := hsame
      have hheld : 0 < (s₁.icache ip).ref :=
        (hgets.holds 0 [] ⟨fun jp => by simpa using hg.refs jp, by simp⟩).ref_pos
          (Multiset.mem_cons_self ip 0)
      refine refines_bind (iput_sim hg₁ hheld) ?_
      rintro _ s₂ _ _ ⟨rfl, hg₂, hput⟩
      refine refines_pure ⟨rfl, hg₂, rfl, fun O L hO => ?_⟩
      exact hput O L L (hgets.holds O L hO) fun jp hjp => ⟨hjp, (hO.locked jp hjp).1⟩
  | none =>
      obtain ⟨rfl, rfl, hdir⟩ := hsame
      have h := hg.directory hdp hdir
      have hsize := h.size
      have hmax := h.sound.size_le h.locked
      refine refines_get_bind ?_
      rw [Block.direntOffs_eq h]
      dsimp only
      rw [List.length_map, List.length_range', names_entries h]
      refine refines_left (wp_errors (dirlinkLoop_first h _ 0 (Nat.zero_add _) de)
        fun _ he => False.elim he) (fun _ => trivial) ?_
      rintro ⟨off, de'⟩ s₂ ⟨rfl, hoff⟩
      rw [List.drop_zero, Nat.zero_add] at hoff
      generalize hi : (entriesOf (s₂.node dp) s₂.data).findIdx (fun de => de.inum = 0) = i at hoff
      have hle : i ≤ s₂.entries dp := by
        have hbound : (entriesOf (s₂.node dp) s₂.data).findIdx (fun de => de.inum = 0) ≤ _ :=
          List.findIdx_le_length
        rw [hi, entriesOf_length] at hbound
        exact hbound
      obtain rfl : off = i * direntSize := hoff
      dsimp only
      by_cases hfits : (i + 1) * direntSize ≤ maxFile * bsize
      · refine refines_left (writeEntry_names hg h hle hfits _) (fun _ => trivial) ?_
        rintro r s₃ ⟨rfl, hg₃, hstays, hnames⟩
        rw [direntOf_new hname, names_entries h] at hnames
        have hroom : ¬ i + 1 > FileSys.maxDirents := by
          unfold FileSys.maxDirents maxFile Block.nDirect Block.nIndirect bsize direntSize at *
          omega
        rw [if_neg (not_not.2 rfl), if_neg hroom]
        refine refines_right (b := ()) rfl (refines_right (b := ()) rfl ?_)
        exact refines_pure ⟨hnames.symm, hg₃, rfl, hstays.holds⟩
      · -- the directory has its largest size
        have hmul := Nat.mul_le_mul_right direntSize hle
        rw [← hsize] at hmul
        have hoff : (UInt32.ofNat (i * direntSize)).toNat = i * direntSize :=
          UInt32.toNat_ofNat_of_lt' (Nat.lt_of_le_of_lt (hmul.trans hmax) (by decide))
        have hn : (UInt32.ofNat direntSize).toNat = direntSize := rfl
        have hrefuses : s₂.Refuses dp (UInt32.ofNat (i * direntSize)).toNat
            (UInt32.ofNat direntSize).toNat := by
          refine .inr (.inr ?_)
          rw [hoff, hn, ← Nat.succ_mul]
          exact Nat.lt_of_not_le hfits
        have hfull : i + 1 > FileSys.maxDirents := by
          unfold FileSys.maxDirents maxFile Block.nDirect Block.nIndirect bsize direntSize at *
          omega
        refine refines_left (C := fun _ => True)
          (Block.writei_refused (by rw [hdir]; decide) _ hrefuses) (fun _ => trivial) ?_
        rintro r s₃ ⟨rfl, rfl⟩
        rw [if_pos (by decide), if_pos hfull]
        exact refines_stop rfl

/-- The loop of `isdirempty`. -/
theorem isdiremptyLoop_names (h : Directory s dp) (n j : Nat) (hj : j + n = s.entries dp) (de : Mem) :
    wp (fun _ => True) (fun _ => False)
      (isdiremptyLoop dp ((List.range' j n).map (· * direntSize)) de) s fun r s' => s' = s ∧
        r = ((entriesOf (s.node dp) s.data).drop j).all fun de => de.inum = 0 := by
  have hlen : (entriesOf (s.node dp) s.data).length = s.entries dp := entriesOf_length ..
  induction n generalizing j de with
  | zero =>
      rw [List.drop_of_length_le (by omega)]
      exact wp_pure ⟨rfl, rfl⟩
  | succ n ih =>
      have hlt : j < s.entries dp := by omega
      rw [List.range'_succ, List.map_cons, isdiremptyLoop]
      refine wp_bind (wp_mapError (read_direntOf h hlt de) fun _ => False.elim) ?_
      rintro ⟨r, de'⟩ s' ⟨rfl, hr, hdrop⟩
      dsimp only at hr hdrop ⊢
      rw [if_neg (by simp [hr]), hdrop, List.all_cons]
      have hinum : (direntOf de').inum = direntInum de' := rfl
      rw [hinum]
      refine wp_ite (fun hne => wp_pure ⟨rfl, ?_⟩) fun hzero => wp_mono (ih (j + 1) (by omega) de') ?_
      · simp [hne]
      · rintro r₁ s₁ ⟨rfl, rfl⟩
        exact ⟨rfl, by simp [not_not.1 hzero]⟩

theorem isdirempty_names (hg : Good s) (hdp : Locked s dp) (hdir : (s.node dp).type = .dir)
    (de : Mem) : wp (fun _ => True) (fun _ => False) (isdirempty dp de) s fun r s' => s' = s ∧
      r = FileSys.isdirempty ((names s).node dp).entries := by
  have h := hg.directory hdp hdir
  have hrange : (List.range' 0 (s.entries dp)).drop 2 = List.range' 2 (s.entries dp - 2) := by
    rw [List.drop_range']
  refine wp_get_bind ?_
  rw [Block.direntOffs_eq h, ← List.map_drop, hrange, names_entries h, FileSys.isdirempty]
  by_cases htwo : 2 ≤ s.entries dp
  · exact isdiremptyLoop_names h _ 2 (by omega) de
  · have hlen : (entriesOf (s.node dp) s.data).length = s.entries dp := entriesOf_length ..
    have hnone : s.entries dp - 2 = 0 := by omega
    rw [hnone, List.drop_of_length_le (by omega)]
    exact wp_pure ⟨rfl, rfl⟩

end Loops

end Cs350.Sysfile
