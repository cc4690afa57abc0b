import Cs350.Sysfile.Defs

set_option autoImplicit false

/-! # What the bytes of the disk say about names

`names s` is the state of `FileSys`, read from the bytes: the entries of a directory are the pieces of
16 bytes of its file, and the rest of an inode is as it is on disk. The functions on inodes do to
`names s` what their counterparts there do. -/

namespace Cs350.Sysfile

open Block (Fs Dinode Sound Locked Coherent direntSize dirsiz direntInum chars)
open FileSys (IType Ip Name Dirent nInode)
open Prog

/-! ## The view -/

def nameOf (name : List UInt8) : Name := name.map charOf

/-- The entry in the 16 bytes. -/
def direntOf (de : Mem) : Dirent := ⟨direntInum de, nameOf (chars de 2 dirsiz)⟩

/-- The entries in the bytes of a file. -/
def entriesOf (n : Dinode) (data : Nat → Mem) : List Dirent :=
  (List.range (n.size / direntSize)).map fun j =>
    direntOf fun a => n.byteAt data (j * direntSize + a)

def inodeOf (n : Dinode) (data : Nat → Mem) : FileSys.Inode where
  type := n.type
  major := n.major
  minor := n.minor
  nlink := n.nlink
  entries := if n.type = .dir then entriesOf n data else []

def slotOf (slot : Block.Inode) : FileSys.Slot := ⟨slot.inum, slot.ref.toNat, slot.valid⟩

def names (s : Fs) : FileSys.Fs where
  ninodes := s.sb.ninodes.toNat
  inode i := inodeOf (s.dinode i) s.data
  icache ip := slotOf (s.icache ip)

/-- The states between calls: directories are whole entries, and no slot has been put too often. -/
structure Good (s : Fs) : Prop where
  sound : Sound s
  refs : ∀ ip, 0 ≤ (s.icache ip).ref
  aligned : ∀ i, (s.dinode i).type = .dir → (s.dinode i).size % direntSize = 0

/-- The references in `O` are held, and the inodes in `L` have been locked since. -/
structure Holds (s : Fs) (O : Multiset Ip) (L : List Ip) : Prop where
  refs : ∀ ip, (O.count ip : Int) ≤ (s.icache ip).ref
  locked : ∀ ip ∈ L, ip ∈ O ∧ (s.icache ip).valid = true

/-- The panic of `FileSys`, if it has one. -/
def panicOf : Panic → Option FileSys.Panic
  | .fs .iallocNoInodes => some .iallocNoInodes
  | .fs .igetNoInodes => some .igetNoInodes
  | .fs .ilock => some .ilock
  | .fs .noType => some .noType
  | .fs .dirlookupNotDir => some .dirlookupNotDir
  | .fs .dirlink => some .dirlink
  | .unlinkNlink => some .unlinkNlink
  | .createDots => some .createDots
  | .createDirlink => some .createDirlink
  | .stuck => some .stuck
  | _ => none

/-- The call does to the bytes what the one of `FileSys` does to the names. What `FileSys` knows
    nothing of is that the disk may be full. -/
abbrev Sim {α β : Type} (m : FsM α) (s : Fs) (m' : FileSys.FsM β) (Q : α → β → Fs → Prop) : Prop :=
  refines (fun e => e = .fs .outOfBlocks) (fun e e' => panicOf e = some e') m s m' (names s)
    fun a s' b t' => t' = names s' ∧ Good s' ∧ Q a b s'

/-- The same for a function of `fs.c`. -/
abbrev Sim₀ {α β : Type} (m : Block.FsM α) (s : Fs) (m' : FileSys.FsM β) (Q : α → β → Fs → Prop) :
    Prop :=
  refines (fun e => e = .outOfBlocks) (fun e e' => panicOf (.fs e) = some e') m s m' (names s)
    fun a s' b t' => t' = names s' ∧ Good s' ∧ Q a b s'

theorem Sim₀.call {α β : Type} {m : Block.FsM α} {s : Fs} {m' : FileSys.FsM β}
    {Q : α → β → Fs → Prop} (h : Sim₀ m s m' Q) : Sim (call m) s m' Q :=
  refines_mapError h (fun e he => by rw [he]) fun _ _ h' => h'

/-! ## Held references -/

section Holds

variable {s s' : Fs} {O O' : Multiset Ip} {L L' : List Ip} {ip : Ip}

@[simp] theorem setSlot_self (s : Fs) (ip : Ip) (slot : Block.Inode) :
    (s.setSlot ip slot).icache ip = slot := Function.update_self (f := s.icache) ..

theorem setSlot_of_ne (s : Fs) {ip jp : Ip} (h : jp ≠ ip) (slot : Block.Inode) :
    (s.setSlot ip slot).icache jp = s.icache jp := Function.update_of_ne (f := s.icache) h ..

theorem Holds.ref_pos (h : Holds s O L) (hip : ip ∈ O) : 0 < (s.icache ip).ref := by
  have hcount := h.refs ip
  have hpos := Multiset.count_pos.2 hip
  omega

theorem Holds.lockedAt (h : Holds s O L) (hip : ip ∈ L) : Locked s ip :=
  ⟨h.ref_pos (h.locked ip hip).1, (h.locked ip hip).2⟩

theorem Holds.mono (h : Holds s O L) (hO : O' ≤ O) (hL : ∀ ip ∈ L', ip ∈ L ∧ ip ∈ O') :
    Holds s O' L' where
  refs ip := by
    have hle := Multiset.count_le_of_le ip hO
    have hcount := h.refs ip
    omega
  locked ip hip := ⟨(hL ip hip).2, (h.locked ip (hL ip hip).1).2⟩

theorem Holds.congr (h : Holds s O L)
    (hslots : ∀ ip, (s'.icache ip).ref = (s.icache ip).ref ∧
      (s'.icache ip).valid = (s.icache ip).valid) : Holds s' O L where
  refs ip := by
    rw [(hslots ip).1]
    exact h.refs ip
  locked ip hip := by
    rw [(hslots ip).2]
    exact h.locked ip hip

/-- One slot changes, and with it the references to it that are held. -/
theorem Holds.setSlot (h : Holds s O L) {slot : Block.Inode} (href : (O'.count ip : Int) ≤ slot.ref)
    (hO : ∀ jp, jp ≠ ip → O'.count jp = O.count jp)
    (hL : ∀ jp ∈ L', jp ∈ O' ∧ (jp ≠ ip → jp ∈ L) ∧ (jp = ip → slot.valid = true)) :
    Holds (s.setSlot ip slot) O' L' where
  refs jp := by
    by_cases hjp : jp = ip
    · rw [hjp, setSlot_self]
      exact href
    · rw [setSlot_of_ne s hjp, hO jp hjp]
      exact h.refs jp
  locked jp hjp := by
    obtain ⟨hmem, hother, hself⟩ := hL jp hjp
    refine ⟨hmem, ?_⟩
    by_cases heq : jp = ip
    · rw [heq, setSlot_self]
      exact hself heq
    · rw [setSlot_of_ne s heq]
      exact (h.locked jp (hother heq)).2

/-- The reference that is given. -/
theorem Holds.give (h : Holds s O L) {slot : Block.Inode} (href : (O.count ip : Int) + 1 ≤ slot.ref)
    (hvalid : ip ∈ O → slot.valid = (s.icache ip).valid) :
    Holds (s.setSlot ip slot) (ip ::ₘ O) L := by
  refine h.setSlot ?_ (fun jp hjp => Multiset.count_cons_of_ne hjp O) fun jp hjp => ?_
  · rw [Multiset.count_cons_self]
    exact_mod_cast href
  · obtain ⟨hmem, hread⟩ := h.locked jp hjp
    refine ⟨Multiset.mem_cons_of_mem hmem, fun _ => hjp, ?_⟩
    rintro rfl
    rw [hvalid hmem, hread]

end Holds

/-! ## The view of a change -/

section View

variable {s : Fs} {ip : Ip}

theorem names_eq {fs : FileSys.Fs} (hninodes : s.sb.ninodes.toNat = fs.ninodes)
    (hinode : ∀ i, inodeOf (s.dinode i) s.data = fs.inode i)
    (hslot : ∀ ip, slotOf (s.icache ip) = fs.icache ip) : names s = fs := by
  unfold names
  rw [hninodes, funext hinode, funext hslot]

theorem names_setSlot (s : Fs) (ip : Ip) (slot : Block.Inode) :
    names (s.setSlot ip slot) = (names s).setSlot ip (slotOf slot) := by
  unfold names FileSys.Fs.setSlot
  congr 1
  funext jp
  by_cases hjp : jp = ip
  · rw [hjp, setSlot_self, Function.update_self]
  · rw [setSlot_of_ne s hjp, Function.update_of_ne hjp]

theorem names_setDinode (s : Fs) (i : Nat) (n : Dinode) :
    names (s.setDinode i n) = (names s).setInode i (inodeOf n s.data) := by
  unfold names FileSys.Fs.setInode
  congr 1
  funext j
  by_cases hj : j = i
  · rw [hj, Function.update_self]
    show inodeOf (Function.update s.dinode i n i) s.data = _
    rw [Function.update_self]
  · rw [Function.update_of_ne hj]
    show inodeOf (Function.update s.dinode i n j) s.data = _
    rw [Function.update_of_ne hj]

/-- What is known of a locked inode is its copy. -/
theorem names_node (h : Sound s) (hip : Locked s ip) :
    (names s).node ip = inodeOf (s.node ip) s.data := by
  rw [h.node hip]
  rfl

theorem Good.congr {s' : Fs} (h : Good s) (hs : Sound s') (hrefs : ∀ ip, 0 ≤ (s'.icache ip).ref)
    (hdinode : s'.dinode = s.dinode) : Good s' := by
  refine ⟨hs, hrefs, fun i hi => ?_⟩
  rw [hdinode] at hi ⊢
  exact h.aligned i hi

theorem refs_setSlot (h : ∀ ip, 0 ≤ (s.icache ip).ref) {slot : Block.Inode} (href : 0 ≤ slot.ref)
    (jp : Ip) : 0 ≤ ((s.setSlot ip slot).icache jp).ref := by
  by_cases hjp : jp = ip
  · rw [hjp, setSlot_self]
    exact href
  · rw [setSlot_of_ne s hjp]
    exact h jp

end View

/-! ## The inode cache -/

section Cache

variable {s : Fs} {ip : Ip} {inum : Nat}

theorem slotOf_incref (slot : Block.Inode) (h : 0 ≤ slot.ref) :
    slotOf { slot with ref := slot.ref + 1 } = { slotOf slot with ref := (slotOf slot).ref + 1 } := by
  unfold slotOf
  congr 1
  show (slot.ref + 1).toNat = slot.ref.toNat + 1
  omega

/-- What `iget` leaves alone. -/
structure Gets (s : Fs) (ip : Ip) (s' : Fs) : Prop where
  dinode : s'.dinode = s.dinode
  data : s'.data = s.data
  inum : ∀ jp, 0 < (s.icache jp).ref → s'.inum jp = s.inum jp
  holds : ∀ O L, Holds s O L → Holds s' (ip ::ₘ O) L

theorem iget_names (h : ∀ ip, 0 ≤ (s.icache ip).ref) (inum : Nat) :
    refines (fun e => e = .outOfBlocks) (fun e e' => panicOf (.fs e) = some e') (Block.iget inum) s
      (FileSys.iget inum) (names s) fun ip s' ip' t' => t' = names s' ∧ ip' = ip ∧
        (∀ jp, 0 ≤ (s'.icache jp).ref) ∧ Gets s ip s' := by
  have hused : (fun ip => decide (0 < (s.icache ip).ref ∧ (s.icache ip).inum = inum)) =
      fun ip => decide (0 < ((names s).icache ip).ref ∧ ((names s).icache ip).inum = inum) := by
    funext ip
    simp [names, slotOf]
  have hfree : (fun ip => decide ((s.icache ip).ref = 0)) =
      fun ip => decide (((names s).icache ip).ref = 0) := by
    funext ip
    have hpos := h ip
    have hiff : (s.icache ip).ref = 0 ↔ (s.icache ip).ref.toNat = 0 := by omega
    exact decide_eq_decide.2 hiff
  refine refines_get_bind ?_
  rw [← hused, ← hfree]
  cases hfind : (List.finRange nInode).find?
      (fun ip => decide (0 < (s.icache ip).ref ∧ (s.icache ip).inum = inum)) with
  | some ip =>
      have hfound : 0 < (s.icache ip).ref ∧ (s.icache ip).inum = inum := by
        simpa using List.find?_some hfind
      refine refines_bind (refines_modify (Q := fun _ s' _ t' => t' = names s' ∧
        s' = s.setSlot ip { s.icache ip with ref := (s.icache ip).ref + 1 }) ⟨?_, rfl⟩) ?_
      · rw [names_setSlot, slotOf_incref _ (h ip)]
        rfl
      · rintro _ _ _ _ ⟨rfl, rfl⟩
        refine refines_pure ⟨rfl, rfl, refs_setSlot h (by dsimp only; omega), rfl, rfl,
          fun jp _ => ?_, fun O L hO => hO.give ?_ fun _ => rfl⟩
        · by_cases hjp : jp = ip
          · rw [hjp, Fs.inum, setSlot_self]
            rfl
          · rw [Fs.inum, setSlot_of_ne s hjp]
            rfl
        · have hcount := hO.refs ip
          dsimp only
          omega
  | none =>
      dsimp only
      cases hnew : (List.finRange nInode).find? (fun ip => decide ((s.icache ip).ref = 0)) with
      | none => exact refines_stop rfl
      | some ip =>
          have hzero : (s.icache ip).ref = 0 := by simpa using List.find?_some hnew
          refine refines_bind (refines_modify (Q := fun _ s' _ t' => t' = names s' ∧
            s' = s.setSlot ip ⟨inum, 1, false, (s.icache ip).node⟩) ⟨?_, rfl⟩) ?_
          · rw [names_setSlot]
            rfl
          · rintro _ _ _ _ ⟨rfl, rfl⟩
            refine refines_pure ⟨rfl, rfl, refs_setSlot h Int.one_nonneg, rfl, rfl,
              fun jp hjp => ?_, fun O L hO => hO.give ?_ fun hip => ?_⟩
            · have hne : jp ≠ ip := fun heq => by rw [heq] at hjp; omega
              rw [Fs.inum, setSlot_of_ne s hne]
              rfl
            · have hcount := hO.refs ip
              dsimp only
              omega
            · have hpos := hO.ref_pos hip
              omega

theorem iget_sim (h : Good s) (inum : Nat) :
    Sim₀ (Block.iget inum) s (FileSys.iget inum) fun ip ip' s' => ip' = ip ∧ Gets s ip s' := by
  refine refines_mono (refines_and (iget_names h.refs inum) (Block.iget_spec h.sound inum)
    fun _ => trivial) ?_
  rintro ip s' ip' t' ⟨⟨rfl, rfl, hrefs, hgets⟩, hs, -⟩
  exact ⟨rfl, h.congr hs hrefs hgets.dinode, rfl, hgets⟩

theorem idup_sim (h : Good s) (href : 0 < (s.icache ip).ref) :
    Sim₀ (Block.idup ip) s (FileSys.idup ip) fun ip₁ ip₂ s' =>
      ip₁ = ip ∧ ip₂ = ip ∧ Gets s ip s' := by
  refine refines_bind (refines_modify (Q := fun _ s' _ t' => t' = names s' ∧
    s' = s.setSlot ip { s.icache ip with ref := (s.icache ip).ref + 1 }) ⟨?_, rfl⟩) ?_
  · rw [names_setSlot, slotOf_incref _ href.le]
    rfl
  · rintro _ _ _ _ ⟨rfl, rfl⟩
    refine refines_pure ⟨rfl, h.congr (h.sound.setRef href _) (refs_setSlot h.refs ?_) rfl, rfl, rfl,
      rfl, rfl, fun jp _ => ?_, fun O L hO => hO.give ?_ fun _ => rfl⟩
    · dsimp only
      omega
    · by_cases hjp : jp = ip
      · rw [hjp, Fs.inum, setSlot_self]
        rfl
      · rw [Fs.inum, setSlot_of_ne s hjp]
        rfl
    · have hcount := hO.refs ip
      dsimp only
      omega

theorem ilock_sim (h : Good s) (href : 0 < (s.icache ip).ref) :
    Sim₀ (Block.ilock ip) s (FileSys.ilock ip) fun _ _ s' =>
      s'.dinode = s.dinode ∧ s'.data = s.data ∧ s'.inum = s.inum ∧
        ∀ O L, Holds s O L → ip ∈ O → Holds s' O (ip :: L) := by
  have hslot : ((names s).icache ip).ref = (s.icache ip).ref.toNat := rfl
  refine refines_get_bind (refines_ite (by rw [hslot]; omega) (fun hlt => absurd hlt (by omega))
    fun _ => refines_ite Iff.rfl (fun hvalid => ?_) fun _ => ?_)
  · refine refines_pure ⟨rfl, h, rfl, rfl, rfl, fun O L hO hip => ⟨hO.refs, fun jp hjp => ?_⟩⟩
    rcases List.mem_cons.1 hjp with rfl | hjp
    · exact ⟨hip, hvalid⟩
    · exact hO.locked jp hjp
  · refine refines_modify_left ?_
    have hnode : ((names s).node ip).type = (s.dinode (s.inum ip)).type := rfl
    refine refines_ite (by rw [hnode]) (fun _ => refines_stop rfl) fun htype => ?_
    refine refines_of_wp (C := fun _ => True) (wp_pure (Q := fun _ s' => s' = _) rfl)
      (fun _ => trivial) ?_
    rintro _ _ rfl
    refine ⟨(), _, rfl, ?_, h.congr (h.sound.setSlot href rfl fun _ _ => ⟨rfl, htype⟩)
      (refs_setSlot h.refs href.le) rfl, rfl, rfl, ?_, fun O L hO hip => ?_⟩
    · rw [names_setSlot]
      rfl
    · funext jp
      by_cases hjp : jp = ip
      · rw [hjp, Fs.inum, setSlot_self]
        rfl
      · rw [Fs.inum, setSlot_of_ne s hjp]
        rfl
    · refine hO.setSlot (hO.refs ip) (fun _ _ => rfl) fun jp hjp => ?_
      rcases List.mem_cons.1 hjp with rfl | hjp
      · exact ⟨hip, fun hne => absurd rfl hne, fun _ => rfl⟩
      · exact ⟨(hO.locked jp hjp).1, fun _ => hjp, fun _ => rfl⟩

end Cache

/-! ## Fields of an inode -/

section Fields

variable {s : Fs} {ip : Ip}

/-- The references and the cache are as they were. -/
structure Stays (s s' : Fs) : Prop where
  inum : s'.inum = s.inum
  holds : ∀ O L, Holds s O L → Holds s' O L

theorem Stays.refl (s : Fs) : Stays s s := ⟨rfl, fun _ _ h => h⟩

theorem setNode_stays (s : Fs) (ip : Ip) (n : Dinode) (i : Nat) :
    Stays s ((s.setNode ip n).setDinode i n) := by
  have hslots : ∀ jp, ∃ n', ((s.setNode ip n).setDinode i n).icache jp = { s.icache jp with node := n' } := by
    intro jp
    by_cases hjp : jp = ip
    · exact ⟨n, by rw [hjp]; exact setSlot_self s ip _⟩
    · exact ⟨(s.icache jp).node, setSlot_of_ne s hjp _⟩
  refine ⟨funext fun jp => ?_, fun O L hO => hO.congr fun jp => ?_⟩
  · obtain ⟨n', hn'⟩ := hslots jp
    rw [Fs.inum, hn']
    rfl
  · obtain ⟨n', hn'⟩ := hslots jp
    rw [hn']
    exact ⟨rfl, rfl⟩

theorem names_iupdate (s : Fs) (ip : Ip) (n : Dinode) :
    names ((s.setNode ip n).setDinode (s.inum ip) n) =
      (names s).setInode (s.inum ip) (inodeOf n s.data) := by
  rw [names_setDinode]
  unfold Fs.setNode
  rw [names_setSlot]
  unfold FileSys.Fs.setInode FileSys.Fs.setSlot
  congr 1
  exact Function.update_eq_self ip (names s).icache

theorem Good.iupdate {n : Dinode} (h : Good s)
    (hs : Sound ((s.setNode ip n).setDinode (s.inum ip) n))
    (hn : n.type = .dir → n.size % direntSize = 0) :
    Good ((s.setNode ip n).setDinode (s.inum ip) n) := by
  refine ⟨hs, fun jp => ?_, fun i hi => ?_⟩
  · have href : 0 ≤ ({ s.icache ip with node := n } : Block.Inode).ref := h.refs ip
    exact refs_setSlot h.refs href jp
  · change (Function.update s.dinode (s.inum ip) n i).type = .dir at hi
    show (Function.update s.dinode (s.inum ip) n i).size % direntSize = 0
    by_cases hi' : i = s.inum ip
    · rw [hi', Function.update_self] at hi ⊢
      exact hn hi
    · rw [Function.update_of_ne hi'] at hi ⊢
      exact h.aligned i hi

theorem setLinks_sim (h : Good s) (hip : Locked s ip) (major minor nlink : Int) :
    Sim₀ (Block.setLinks ip major minor nlink) s
      (Prog.modify fun fs => fs.setInode (fs.icache ip).inum
        { fs.node ip with major := major, minor := minor, nlink := nlink })
      fun _ _ s' => Stays s s' := by
  generalize hn : ({ s.node ip with major := major, minor := minor, nlink := nlink } : Dinode) = n
  have hrun : wp (fun _ => True) (fun _ => False) (Block.setLinks ip major minor nlink) s
      fun _ s' => s' = (s.setNode ip n).setDinode (s.inum ip) n := by
    refine wp_modify_bind (wp_modify ?_)
    rw [Block.setNode_inum, Block.setNode_node, hn]
  refine refines_of_wp (wp_errors (wp_and_errors hrun (Block.setLinks_spec h.sound hip major minor nlink))
    fun e he => he.1.elim) (fun _ => trivial) ?_
  rintro _ _ ⟨rfl, hs⟩
  refine ⟨(), _, rfl, ?_, h.iupdate hs fun hdir => ?_, setNode_stays s ip _ _⟩
  · show (names s).setInode (s.inum ip) _ = _
    rw [names_node h.sound hip, names_iupdate, ← hn]
    rfl
  · rw [← hn, h.sound.node hip] at hdir ⊢
    exact h.aligned _ hdir

/-- The fields that `setLinks` writes back are those of the inode. -/
theorem names_setNlink (h : Sound s) (hip : Locked s ip) (f : Int → Int) :
    (names s).setNlink ip (f ((names s).node ip).nlink) =
      (names s).setInode ((names s).icache ip).inum { (names s).node ip with
        major := (s.node ip).major, minor := (s.node ip).minor, nlink := f (s.node ip).nlink } := by
  rw [FileSys.Fs.setNlink, names_node h hip]
  rfl

theorem addLink_sim (h : Good s) (hip : Locked s ip) :
    Sim (addLink ip) s (FileSys.addLink ip) fun _ _ s' => Stays s s' :=
  refines_get_left (refines_congr (setLinks_sim h hip _ _ _).call
    (congrArg (fun fs => Except.ok ((), fs))
      (names_setNlink h.sound hip fun n => FileSys.short (n + 1))))

theorem dropLink_sim (h : Good s) (hip : Locked s ip) :
    Sim (dropLink ip) s (FileSys.dropLink ip) fun _ _ s' => Stays s s' :=
  refines_get_left (refines_congr (setLinks_sim h hip _ _ _).call
    (congrArg (fun fs => Except.ok ((), fs))
      (names_setNlink h.sound hip fun n => FileSys.short (n - 1))))

end Fields

/-! ## `iput` and `ialloc` -/

section Free

variable {s : Fs} {ip : Ip}

/-- Runs that can stop with "freeing free block" only, and that leave the bytes of blocks alone. -/
abbrev Frees {α : Type} (m : Block.FsM α) (s : Fs) : Prop :=
  wp (fun _ => True) (fun e => e = .freeingFree) m s fun _ s' => s'.data = s.data

theorem bfree_frees (s : Fs) (b : Nat) : Frees (Block.bfree b) s :=
  wp_get_bind (wp_ite (fun _ => wp_stop rfl) fun _ => wp_modify rfl)

theorem itrunc_frees (s : Fs) (ip : Ip) : Frees (Block.itrunc ip) s := by
  have hdirect : ∀ i s, Frees (Block.itruncDirect ip i) s := fun i s =>
    wp_get_bind (wp_ite (fun _ => wp_pure rfl) fun _ =>
      wp_bind (bfree_frees s _) fun _ _ h => wp_modify h)
  have hentry : ∀ a j s, Frees (Block.itruncEntry a j) s := fun a j s =>
    wp_ite (fun _ => wp_pure rfl) fun _ => bfree_frees s _
  have hindirect : ∀ s, Frees (Block.itruncIndirect ip) s := by
    intro s
    refine wp_get_bind (wp_ite (fun _ => wp_pure rfl) fun _ => ?_)
    refine wp_bind (wp_each (I := fun _ s' => s'.data = s.data) (fun j _ s' hs' =>
      wp_mono (hentry _ j s') fun _ _ h => h.trans hs') _ rfl) fun _ s₁ h₁ => ?_
    exact wp_bind (bfree_frees s₁ _) fun _ _ h => wp_modify (h.trans h₁)
  refine wp_bind (wp_each (I := fun _ s' => s'.data = s.data) (fun i _ s' hs' =>
    wp_mono (hdirect i s') fun _ _ h => h.trans hs') _ rfl) fun _ s₁ h₁ => ?_
  refine wp_bind (hindirect s₁) fun _ s₂ h₂ => ?_
  exact wp_modify_bind (wp_modify (h₂.trans h₁))

/-- The inode that `iput` frees. -/
structure Freed (s : Fs) (ip : Ip) (s' : Fs) : Prop where
  sb : s'.sb = s.sb
  data : s'.data = s.data
  dinode : ∃ n, s'.dinode = Function.update s.dinode (s.inum ip) n ∧ n.type = .free ∧
    n.major = (s.node ip).major ∧ n.minor = (s.node ip).minor ∧ n.nlink = (s.node ip).nlink
  slots : ∃ n, s'.icache = Function.update s.icache ip { s.icache ip with valid := false, node := n }

/-- `itrunc` changes the copy of the inode, and at last writes it back. -/
theorem itrunc_mid (h : Sound s) (hip : Locked s ip) :
    wp (fun _ => True) (fun _ => False) (Block.itrunc ip) s fun _ t => t.data = s.data ∧
      ∃ s₂, Block.Mid s ip s₂ ∧ t = (s₂.setNode ip { s₂.node ip with size := 0 }).setDinode
        (s₂.inum ip) { s₂.node ip with size := 0 } := by
  have hmid : Block.Sat (Block.itrunc ip) s fun _ t => ∃ s₂, Block.Mid s ip s₂ ∧
      t = (s₂.setNode ip { s₂.node ip with size := 0 }).setDinode (s₂.inum ip)
        { s₂.node ip with size := 0 } := by
    refine wp_bind (Block.itrunc_direct (h.type hip) (h.mid hip)) ?_
    rintro _ s₁ ⟨h₁, hdirect⟩
    refine wp_bind (Block.itruncIndirect_spec (h.type hip) h₁ hdirect) ?_
    rintro _ s₂ ⟨h₂, -⟩
    refine wp_modify_bind (wp_modify ⟨s₂, h₂, ?_⟩)
    rw [Block.setNode_inum, Block.setNode_node]
  refine wp_mono (wp_errors (wp_and_errors hmid (itrunc_frees s ip)) ?_) fun _ _ h' => ⟨h'.2, h'.1⟩
  rintro e ⟨hne, rfl⟩
  exact hne rfl

/-- The condition on which `iput` frees an inode. -/
def Unused (s : Fs) (ip : Ip) : Prop :=
  (s.icache ip).valid ∧ (s.node ip).nlink = 0 ∧ (s.icache ip).ref = 1

theorem iputFree_freed (h : Sound s) (href : 0 < (s.icache ip).ref) :
    wp (fun _ => True) (fun _ => False) (Block.iputFree ip) s fun _ s' => Sound s' ∧
      (Unused s ip → Freed s ip s') ∧ (¬ Unused s ip → s' = s) := by
  have hfreed : wp (fun _ => True) (fun _ => False) (Block.iputFree ip) s fun _ s' =>
      (Unused s ip → Freed s ip s') ∧ (¬ Unused s ip → s' = s) := by
    refine wp_get_bind (wp_ite (fun hcond => ?_) fun hcond =>
      wp_pure ⟨fun h' => absurd h' hcond, fun _ => rfl⟩)
    refine wp_bind (itrunc_mid h ⟨href, hcond.1⟩) ?_
    rintro _ t ⟨hdata, s₂, h₂, rfl⟩
    refine wp_modify_bind (wp_modify_bind (wp_modify ⟨fun _ => ?_, fun h' => absurd hcond h'⟩))
    obtain ⟨a, ha⟩ := h₂.slot
    have hnode : s₂.node ip = { s.node ip with addrs := a } := congrArg Block.Inode.node ha
    simp only [Fs.setNode, Fs.setSlot, Fs.setDinode, Fs.node, Fs.inum, Function.update_self,
      Function.update_idem]
    have hinum : (s₂.icache ip).inum = s.inum ip := h₂.inum
    refine ⟨h₂.sb, hdata, ⟨{ s₂.node ip with type := .free, size := 0 }, ?_, rfl, ?_, ?_, ?_⟩,
      ⟨{ s₂.node ip with type := .free, size := 0 }, ?_⟩⟩
    · rw [hinum, h₂.dinode]
      rfl
    · rw [hnode]
    · rw [hnode]
    · rw [hnode]
    · funext jp
      show Function.update s₂.icache ip _ jp = Function.update s.icache ip _ jp
      by_cases hjp : jp = ip
      · rw [hjp, Function.update_self, Function.update_self, hnode, ha]
      · rw [Function.update_of_ne hjp, Function.update_of_ne hjp, h₂.slots jp hjp]
  refine wp_mono (wp_errors (wp_and_errors (Block.iputFree_spec h href) hfreed) fun _ he => he.2) ?_
  exact fun _ s' h' => ⟨h'.1.1, h'.2⟩

theorem Holds.put {O : Multiset Ip} {L L' : List Ip} (h : Holds s (ip ::ₘ O) L)
    {slot : Block.Inode} (href : slot.ref = (s.icache ip).ref - 1)
    (hvalid : slot.valid = (s.icache ip).valid ∨ (s.icache ip).ref = 1)
    (hL : ∀ jp ∈ L', jp ∈ L ∧ jp ∈ O) : Holds (s.setSlot ip slot) O L' := by
  refine h.setSlot ?_ (fun jp hjp => (Multiset.count_cons_of_ne hjp O).symm) fun jp hjp =>
    ⟨(hL jp hjp).2, fun _ => (hL jp hjp).1, ?_⟩
  · have hcount := h.refs ip
    rw [Multiset.count_cons_self] at hcount
    omega
  · rintro rfl
    have hcount := h.refs jp
    have hpos := Multiset.count_pos.2 (hL jp hjp).2
    rw [Multiset.count_cons_self] at hcount
    rcases hvalid with hvalid | hone
    · rw [hvalid]
      exact (h.locked jp (hL jp hjp).1).2
    · omega

/-- The freed inode has no entries. -/
theorem Freed.names {s₁ : Fs} (h : Freed s ip s₁) (hs : Sound s) (hip : Locked s ip) :
    names s₁ = (names s).freeInode ip := by
  obtain ⟨n, hdinode, hfree, hmajor, hminor, hnlink⟩ := h.dinode
  obtain ⟨n', hslots⟩ := h.slots
  refine names_eq (by rw [h.sb]; rfl) (fun i => ?_) fun jp => ?_
  · show _ = Function.update (Sysfile.names s).inode (s.inum ip)
      { (Sysfile.names s).node ip with type := .free, entries := [] } i
    rw [hdinode, h.data, names_node hs hip]
    by_cases hi : i = s.inum ip
    · rw [hi, Function.update_self, Function.update_self]
      unfold inodeOf
      rw [hfree, hmajor, hminor, hnlink, if_neg (by decide)]
    · rw [Function.update_of_ne hi, Function.update_of_ne hi]
      rfl
  · show _ = Function.update (Sysfile.names s).icache ip
      { (Sysfile.names s).icache ip with valid := false } jp
    rw [hslots]
    by_cases hjp : jp = ip
    · rw [hjp, Function.update_self, Function.update_self]
      rfl
    · rw [Function.update_of_ne hjp, Function.update_of_ne hjp]
      rfl

theorem unused_iff (h : Sound s) (href : 0 < (s.icache ip).ref) : Unused s ip ↔
    ((names s).icache ip).valid ∧ ((names s).node ip).nlink = 0 ∧ ((names s).icache ip).ref = 1 := by
  have hone : (s.icache ip).ref = 1 ↔ (s.icache ip).ref.toNat = 1 := by omega
  unfold Unused
  rw [hone]
  refine and_congr_right fun hvalid => and_congr_left fun _ => ?_
  rw [names_node h ⟨href, hvalid⟩]
  rfl

theorem slotOf_decref (slot : Block.Inode) :
    slotOf { slot with ref := slot.ref - 1 } = { slotOf slot with ref := (slotOf slot).ref - 1 } := by
  unfold slotOf
  congr 1
  show (slot.ref - 1).toNat = slot.ref.toNat - 1
  omega

/-- `iput` frees the inode of the names if it frees the one on disk. -/
theorem iput_sim (h : Good s) (href : 0 < (s.icache ip).ref) :
    Sim₀ (Block.iput ip) s (FileSys.iput ip) fun _ _ s' =>
      ∀ O L L', Holds s (ip ::ₘ O) L → (∀ jp ∈ L', jp ∈ L ∧ jp ∈ O) → Holds s' O L' := by
  have hdone : wp (fun _ => True) (fun _ => False) (Block.iput ip) s fun _ s' => ∃ s₁,
      ((Unused s ip → Freed s ip s₁) ∧ (¬ Unused s ip → s₁ = s)) ∧
      s' = s₁.setSlot ip { s₁.icache ip with ref := (s₁.icache ip).ref - 1 } :=
    wp_bind (iputFree_freed h.sound href) fun _ s₁ h₁ => wp_modify ⟨s₁, h₁.2, rfl⟩
  have hrun := wp_errors (wp_and_errors (Block.iput_spec h.sound href) hdone) fun _ he => he.2
  refine refines_of_wp (wp_errors hrun fun _ => False.elim) (fun _ => trivial) ?_
  rintro _ s' ⟨hs, s₁, ⟨hfreed, hsame⟩, rfl⟩
  have hiff := unused_iff h.sound href
  have hfinal : names (s₁.setSlot ip { s₁.icache ip with ref := (s₁.icache ip).ref - 1 }) =
      (names s₁).decref ip := by
    rw [names_setSlot, slotOf_decref]
    rfl
  by_cases hun : Unused s ip
  · have hf := hfreed hun
    have hnames := hf.names h.sound ⟨href, hun.1⟩
    obtain ⟨n, hslots⟩ := hf.slots
    obtain ⟨n', hdinode, hfree, -⟩ := hf.dinode
    refine ⟨(), (names s₁).decref ip, ?_, hfinal.symm, ⟨hs, fun jp => ?_, fun i hi => ?_⟩,
      fun O L L' hO hL => ?_⟩
    · rw [hnames]
      show ((if _ then _ else _ : FileSys.FsM Unit) (names s)).2 = _
      rw [if_pos (hiff.1 hun)]
      rfl
    · by_cases hjp : jp = ip
      · rw [hjp, setSlot_self, hslots, Function.update_self]
        dsimp only
        omega
      · rw [setSlot_of_ne s₁ hjp, hslots, Function.update_of_ne hjp]
        exact h.refs jp
    · change (s₁.dinode i).type = .dir at hi
      show (s₁.dinode i).size % direntSize = 0
      rw [hdinode] at hi ⊢
      by_cases hi' : i = s.inum ip
      · rw [hi', Function.update_self, hfree] at hi
        exact absurd hi (by decide)
      · rw [Function.update_of_ne hi'] at hi ⊢
        exact h.aligned i hi
    · -- the slot is as if only it had changed
      have hput : Holds (s.setSlot ip { s.icache ip with
          valid := false, node := n, ref := (s.icache ip).ref - 1 }) O L' :=
        hO.put rfl (.inr hun.2.2) hL
      refine hput.congr fun jp => ?_
      by_cases hjp : jp = ip
      · rw [hjp, setSlot_self, setSlot_self, hslots, Function.update_self]
        exact ⟨rfl, rfl⟩
      · rw [setSlot_of_ne s₁ hjp, setSlot_of_ne s hjp, hslots, Function.update_of_ne hjp]
        exact ⟨rfl, rfl⟩
  · obtain rfl := hsame hun
    refine ⟨(), (names s₁).decref ip, ?_, hfinal.symm, ⟨hs, refs_setSlot h.refs (by dsimp only; omega),
      h.aligned⟩, fun O L L' hO hL => hO.put rfl (.inl rfl) hL⟩
    show ((if _ then _ else _ : FileSys.FsM Unit) (names s₁)).2 = _
    rw [if_neg (fun h' => hun (hiff.2 h'))]
    rfl

theorem inodeOf_fresh (type : IType) (data : Nat → Mem) :
    inodeOf (Dinode.fresh type) data = ⟨type, 0, 0, 0, []⟩ := by
  have hnone : entriesOf (Dinode.fresh type) data = [] := by
    simp [entriesOf, Dinode.fresh]
  unfold inodeOf
  rw [hnone, ite_self]
  rfl

theorem ialloc_sim (h : Good s) (type : IType) :
    Sim₀ (Block.ialloc type) s (FileSys.ialloc type) fun ip ip' s' => ip' = ip ∧
      ∀ O L, Holds s O L → Holds s' (ip ::ₘ O) L := by
  refine refines_mono (refines_and (P := fun ip s' ip' t' => t' = names s' ∧ ip' = ip ∧
    (∀ jp, 0 ≤ (s'.icache jp).ref) ∧ ∃ i, Gets (s.setDinode i (Dinode.fresh type)) ip s') ?_
    (Block.ialloc_spec h.sound type) fun _ => trivial) ?_
  · have hfree : (List.range' 1 (s.sb.ninodes.toNat - 1)).find?
          (fun i => decide ((s.dinode i).type = .free)) =
        (List.range' 1 ((names s).ninodes - 1)).find?
          (fun i => decide (((names s).inode i).type = .free)) := rfl
    unfold Block.ialloc FileSys.ialloc
    refine refines_get_bind ?_
    rw [← hfree]
    cases (List.range' 1 (s.sb.ninodes.toNat - 1)).find?
        (fun i => decide ((s.dinode i).type = .free)) with
    | none => exact refines_stop rfl
    | some i =>
        refine refines_bind (refines_modify (Q := fun _ s' _ t' => t' = names s' ∧
          s' = s.setDinode i (Dinode.fresh type)) ⟨?_, rfl⟩) ?_
        · rw [names_setDinode, inodeOf_fresh]
        · rintro _ _ _ _ ⟨rfl, rfl⟩
          refine refines_mono (iget_names (s := s.setDinode i (Dinode.fresh type)) h.refs i) ?_
          exact fun ip s' ip' t' h' => ⟨h'.1, h'.2.1, h'.2.2.1, i, h'.2.2.2⟩
  · rintro ip s' ip' t' ⟨⟨rfl, rfl, hrefs, i, hgets⟩, hs⟩
    refine ⟨rfl, ⟨hs, hrefs, fun j hj => ?_⟩, rfl, fun O L hO =>
      hgets.holds O L (hO.congr fun _ => ⟨rfl, rfl⟩)⟩
    rw [hgets.dinode] at hj ⊢
    change (Function.update s.dinode i (Dinode.fresh type) j).type = .dir at hj
    show (Function.update s.dinode i (Dinode.fresh type) j).size % direntSize = 0
    by_cases hji : j = i
    · rw [hji, Function.update_self]
      rfl
    · rw [Function.update_of_ne hji] at hj ⊢
      exact h.aligned j hj

end Free

end Cs350.Sysfile
