import Cs350.FileSys.Tree

set_option autoImplicit false

/-! # References to inodes, and the laws of an invariant

`Refs fs O H` is what holds of the inode cache whatever the directories look like: the reference
counts are exact, no inode is in two slots, and an inode does not become free while it is held. `O`
lists the references that exist at a point, one element for each. `H` are those of which it is known
that the inode is allocated: all of them, except for one that was just found in a directory and has
not been locked yet.

What else a development wants to keep of the file system is a predicate on the inodes and the cache.
`Laws` lists what such a predicate has to satisfy, one law for each way in which the functions of
`fs.c` and `sysfile.c` change the state; the specifications of these functions are proved from the
laws alone. -/

namespace Cs350.FileSys

/-- The inode is held in the cache. -/
def InUse (fs : Fs) (i : Nat) : Prop :=
  ∃ ip, 0 < (fs.icache ip).ref ∧ (fs.icache ip).inum = i

/-- The inodes that a walk from the root or from an inode in use can come to. -/
inductive Reach (fs : Fs) : Nat → Prop
  | root : Reach fs rootIno
  | inUse {i : Nat} : InUse fs i → Reach fs i
  | entry {d : Nat} {de : Dirent} :
      Reach fs d → de ∈ (fs.inode d).entries → de.inum ≠ 0 → Reach fs de.inum

structure Refs (fs : Fs) (O H : Multiset Ip) : Prop where
  ref : ∀ ip, (fs.icache ip).ref = O.count ip
  uniq : ∀ ip jp, 0 < (fs.icache ip).ref → 0 < (fs.icache jp).ref →
    (fs.icache ip).inum = (fs.icache jp).inum → ip = jp
  sub : H ⊆ O
  held : ∀ ip ∈ H, (fs.node ip).type ≠ .free
  valid : ∀ ip, 0 < (fs.icache ip).ref → (fs.icache ip).valid → (fs.node ip).type ≠ .free

section Slots

variable {fs fs' : Fs} {O H : Multiset Ip} {ip jp : Ip} {i : Nat}

@[simp] theorem setSlot_inode (fs : Fs) (ip : Ip) (slot : Slot) :
    (fs.setSlot ip slot).inode = fs.inode := rfl

@[simp] theorem setSlot_ninodes (fs : Fs) (ip : Ip) (slot : Slot) :
    (fs.setSlot ip slot).ninodes = fs.ninodes := rfl

@[simp] theorem setSlot_icache_self (fs : Fs) (ip : Ip) (slot : Slot) :
    (fs.setSlot ip slot).icache ip = slot := Function.update_self _ _ _

theorem setSlot_icache_of_ne (fs : Fs) (slot : Slot) (h : jp ≠ ip) :
    (fs.setSlot ip slot).icache jp = fs.icache jp := Function.update_of_ne h _ _

theorem setSlot_node_self (fs : Fs) (ip : Ip) (slot : Slot) :
    (fs.setSlot ip slot).node ip = fs.inode slot.inum := by
  rw [Fs.node, setSlot_icache_self, setSlot_inode]

theorem setSlot_node_of_ne (fs : Fs) (slot : Slot) (h : jp ≠ ip) :
    (fs.setSlot ip slot).node jp = fs.node jp := by
  rw [Fs.node, setSlot_icache_of_ne _ _ h, setSlot_inode, Fs.node]

@[simp] theorem setInode_icache (fs : Fs) (i : Nat) (n : Inode) :
    (fs.setInode i n).icache = fs.icache := rfl

@[simp] theorem setInode_ninodes (fs : Fs) (i : Nat) (n : Inode) :
    (fs.setInode i n).ninodes = fs.ninodes := rfl

theorem Refs.ref_pos (h : Refs fs O H) (hip : ip ∈ O) : 0 < (fs.icache ip).ref := by
  rw [h.ref]
  exact Multiset.count_pos.2 hip

theorem Refs.mem_of_pos (h : Refs fs O H) (hpos : 0 < (fs.icache ip).ref) : ip ∈ O := by
  rw [h.ref] at hpos
  exact Multiset.count_pos.1 hpos

theorem Refs.reach_slot (h : Refs fs O H) (hip : ip ∈ O) : Reach fs (fs.icache ip).inum :=
  .inUse ⟨ip, h.ref_pos hip, rfl⟩

theorem Refs.mono {H' : Multiset Ip} (h : Refs fs O H) (hsub : H' ⊆ H) : Refs fs O H' :=
  ⟨h.ref, h.uniq, fun _ hx => h.sub (hsub hx), fun ip hip => h.held ip (hsub hip), h.valid⟩

/-- A change of one slot that keeps apart what is held. -/
theorem Refs.setSlot {O' H' : Multiset Ip} (h : Refs fs O H) (slot : Slot)
    (hself : slot.ref = O'.count ip) (hother : ∀ jp, jp ≠ ip → O'.count jp = O.count jp)
    (huniq : 0 < slot.ref → ∀ jp, jp ≠ ip → 0 < (fs.icache jp).ref →
      (fs.icache jp).inum ≠ slot.inum)
    (hsub : H' ⊆ O') (hheld : ∀ jp ∈ H', jp ≠ ip → jp ∈ H)
    (htype : ip ∈ H' → (fs.inode slot.inum).type ≠ .free)
    (hvalid : 0 < slot.ref → slot.valid → (fs.inode slot.inum).type ≠ .free) :
    Refs (fs.setSlot ip slot) O' H' where
  ref := by
    intro jp
    by_cases hj : jp = ip
    · subst hj
      rw [setSlot_icache_self, hself]
    · rw [setSlot_icache_of_ne _ _ hj, hother jp hj, h.ref]
  uniq := by
    intro jp kp hjp hkp heq
    by_cases hj : jp = ip
    · by_cases hk : kp = ip
      · rw [hj, hk]
      · subst hj
        rw [setSlot_icache_self] at hjp heq
        rw [setSlot_icache_of_ne _ _ hk] at hkp heq
        exact absurd heq.symm (huniq hjp kp hk hkp)
    · by_cases hk : kp = ip
      · subst hk
        rw [setSlot_icache_self] at hkp heq
        rw [setSlot_icache_of_ne _ _ hj] at hjp heq
        exact absurd heq (huniq hkp jp hj hjp)
      · rw [setSlot_icache_of_ne _ _ hj] at hjp heq
        rw [setSlot_icache_of_ne _ _ hk] at hkp heq
        exact h.uniq jp kp hjp hkp heq
  sub := hsub
  held := by
    intro jp hjp
    by_cases hj : jp = ip
    · subst hj
      rw [setSlot_node_self]
      exact htype hjp
    · rw [setSlot_node_of_ne _ _ hj]
      exact h.held jp (hheld jp hjp hj)
  valid := by
    intro jp hpos hv
    by_cases hj : jp = ip
    · subst hj
      rw [setSlot_icache_self] at hpos hv
      rw [setSlot_node_self]
      exact hvalid hpos hv
    · rw [setSlot_icache_of_ne _ _ hj] at hpos hv
      rw [setSlot_node_of_ne _ _ hj]
      exact h.valid jp hpos hv

/-- One more reference to an inode that is held. -/
theorem Refs.incref (h : Refs fs O H) (hpos : 0 < (fs.icache ip).ref) :
    Refs (fs.setSlot ip { fs.icache ip with ref := (fs.icache ip).ref + 1 }) (ip ::ₘ O) H := by
  apply h.setSlot
  · rw [Multiset.count_cons_self, h.ref]
  · intro jp hj
    rw [Multiset.count_cons_of_ne hj]
  · intro _ jp hj hjp heq
    exact hj (h.uniq jp ip hjp hpos heq)
  · exact fun _ hx => Multiset.mem_cons_of_mem (h.sub hx)
  · exact fun _ hx _ => hx
  · exact h.held ip
  · exact fun _ => h.valid ip hpos

/-- A free slot is taken for an inode that was not held. -/
theorem Refs.newSlot (h : Refs fs O H) (hzero : (fs.icache ip).ref = 0) (hnot : ¬ InUse fs i) :
    Refs (fs.setSlot ip { inum := i, ref := 1, valid := false }) (ip ::ₘ O) H := by
  have hmem : ip ∉ H := by
    intro hip
    have := h.ref_pos (h.sub hip)
    omega
  apply h.setSlot
  · rw [Multiset.count_cons_self, ← h.ref, hzero]
  · intro jp hj
    rw [Multiset.count_cons_of_ne hj]
  · intro _ jp _ hjp heq
    exact hnot ⟨jp, hjp, heq⟩
  · exact fun _ hx => Multiset.mem_cons_of_mem (h.sub hx)
  · exact fun _ hx _ => hx
  · exact fun hip => absurd hip hmem
  · exact fun _ hv => absurd hv (by simp)

/-- An inode that was seen to have a type. -/
theorem Refs.lock (h : Refs fs O H) (hip : ip ∈ O) (htype : (fs.node ip).type ≠ .free) :
    Refs fs O (ip ::ₘ H) := by
  refine ⟨h.ref, h.uniq, ?_, ?_, h.valid⟩
  · intro jp hjp
    rcases Multiset.mem_cons.1 hjp with rfl | hjp
    · exact hip
    · exact h.sub hjp
  · intro jp hjp
    rcases Multiset.mem_cons.1 hjp with rfl | hjp
    · exact htype
    · exact h.held jp hjp

theorem Refs.setValid (h : Refs fs O H) (htype : (fs.node ip).type ≠ .free) :
    Refs (fs.setSlot ip { fs.icache ip with valid := true }) O H := by
  apply h.setSlot
  · exact h.ref ip
  · exact fun _ _ => rfl
  · intro hpos jp hj hjp heq
    exact hj (h.uniq jp ip hjp hpos heq)
  · exact h.sub
  · exact fun _ hx _ => hx
  · exact h.held ip
  · exact fun _ _ => htype

theorem Refs.decref (h : Refs fs (ip ::ₘ O) H) (hsub : H ⊆ O) : Refs (fs.decref ip) O H := by
  have hpos := h.ref_pos (Multiset.mem_cons_self ip O)
  apply h.setSlot
  · have href := h.ref ip
    rw [Multiset.count_cons_self] at href
    show (fs.icache ip).ref - 1 = O.count ip
    omega
  · intro jp hj
    rw [Multiset.count_cons_of_ne hj]
  · intro _ jp hj hjp heq
    exact hj (h.uniq jp ip hjp hpos heq)
  · exact hsub
  · exact fun _ hx _ => hx
  · exact h.held ip
  · exact fun _ => h.valid ip hpos

end Slots

/-! ## What is within reach -/

section Reach

variable {fs fs' : Fs} {ip : Ip} {i j : Nat} {node : Inode}

/-- With the same inodes, holding nothing new means reaching nothing new. -/
theorem Reach.of_slots (h : Reach fs' i) (hinode : fs'.inode = fs.inode)
    (huse : ∀ i, InUse fs' i → Reach fs i) : Reach fs i := by
  induction h with
  | root => exact .root
  | inUse hi => exact huse _ hi
  | entry _ hde hne ih =>
      rw [hinode] at hde
      exact .entry ih hde hne

/-- What a directory within reach names is within reach. -/
theorem Reach.entries {d : Nat} (h : Reach fs d) :
    ∀ de ∈ (fs.inode d).entries, de.inum ≠ 0 → Reach fs de.inum :=
  fun _ hde hne => .entry h hde hne

/-- A slot comes to hold something within reach, or nothing. -/
theorem Reach.of_setSlot {slot : Slot} (h : Reach (fs.setSlot ip slot) i)
    (hreach : 0 < slot.ref → Reach fs slot.inum) : Reach fs i := by
  refine h.of_slots rfl ?_
  rintro j ⟨jp, hpos, rfl⟩
  by_cases hj : jp = ip
  · subst hj
    rw [setSlot_icache_self] at hpos ⊢
    exact hreach hpos
  · rw [setSlot_icache_of_ne _ _ hj] at hpos ⊢
    exact .inUse ⟨jp, hpos, rfl⟩

/-- An inode comes to name nothing that was not within reach. -/
theorem Reach.of_setInode (h : Reach (fs.setInode i node) j)
    (hentries : Reach fs i → ∀ de ∈ node.entries, de.inum ≠ 0 → Reach fs de.inum) :
    Reach fs j := by
  induction h with
  | root => exact .root
  | inUse hj => exact .inUse hj
  | @entry d de _ hde hne ih =>
      have hde : de ∈ (Function.update fs.inode i node d).entries := hde
      by_cases hd : d = i
      · subst hd
        rw [Function.update_self] at hde
        exact hentries ih de hde hne
      · rw [Function.update_of_ne hd] at hde
        exact .entry ih hde hne

end Reach

section Inodes

variable {fs : Fs} {O H : Multiset Ip} {ip jp dp : Ip} {i : Nat} {node : Inode}

/-- A change of one inode that keeps its type. -/
theorem Refs.setInode (h : Refs fs O H) (htype : node.type = (fs.inode i).type) :
    Refs (fs.setInode i node) O H := by
  have hnode : ∀ jp, ((fs.setInode i node).node jp).type = (fs.node jp).type := by
    intro jp
    show (Function.update fs.inode i node (fs.icache jp).inum).type = _
    by_cases hj : (fs.icache jp).inum = i
    · rw [hj, Function.update_self, htype, Fs.node, hj]
    · rw [Function.update_of_ne hj, Fs.node]
  refine ⟨h.ref, h.uniq, h.sub, ?_, ?_⟩
  · intro jp hjp
    rw [hnode]
    exact h.held jp hjp
  · intro jp hpos hv
    rw [hnode]
    exact h.valid jp hpos hv

/-- The last reference to an inode is in no other slot. -/
theorem Refs.inum_ne (h : Refs fs (ip ::ₘ O) H) (hjp : 0 < (fs.icache jp).ref) (hne : jp ≠ ip) :
    (fs.icache jp).inum ≠ (fs.icache ip).inum :=
  fun heq => hne (h.uniq jp ip hjp (h.ref_pos (Multiset.mem_cons_self ip O)) heq)

theorem freeInode_icache_of_ne (fs : Fs) (hne : jp ≠ ip) :
    ((fs.freeInode ip).decref ip).icache jp = fs.icache jp := by
  rw [Fs.decref, setSlot_icache_of_ne _ _ hne, Fs.freeInode, setSlot_icache_of_ne _ _ hne]
  rfl

theorem freeInode_icache_self (fs : Fs) (hone : (fs.icache ip).ref = 1) :
    ((fs.freeInode ip).decref ip).icache ip
      = { inum := (fs.icache ip).inum, ref := 0, valid := false } := by
  simp [Fs.decref, Fs.freeInode, hone]

theorem freeInode_inode (fs : Fs) (ip : Ip) :
    ((fs.freeInode ip).decref ip).inode = Function.update fs.inode (fs.icache ip).inum
      { fs.node ip with type := .free, entries := [] } := rfl

theorem freeInode_node (h : Refs fs (ip ::ₘ O) H) (hjp : 0 < (fs.icache jp).ref) (hne : jp ≠ ip) :
    ((fs.freeInode ip).decref ip).node jp = fs.node jp := by
  rw [Fs.node, freeInode_icache_of_ne fs hne, freeInode_inode,
    Function.update_of_ne (h.inum_ne hjp hne), Fs.node]

/-- The freeing branch of `iput`. -/
theorem Refs.free (h : Refs fs (ip ::ₘ O) H) (hsub : H ⊆ O) (hone : (fs.icache ip).ref = 1) :
    Refs ((fs.freeInode ip).decref ip) O H := by
  have hip : ip ∉ O := by
    have href := h.ref ip
    rw [Multiset.count_cons_self, hone] at href
    exact Multiset.count_eq_zero.1 (by omega)
  have hne : ∀ jp, 0 < (((fs.freeInode ip).decref ip).icache jp).ref →
      jp ≠ ip ∧ 0 < (fs.icache jp).ref := by
    intro jp hpos
    have hj : jp ≠ ip := by
      rintro rfl
      rw [freeInode_icache_self fs hone] at hpos
      exact absurd hpos (by simp)
    rw [freeInode_icache_of_ne fs hj] at hpos
    exact ⟨hj, hpos⟩
  refine ⟨?_, ?_, hsub, ?_, ?_⟩
  · intro jp
    by_cases hj : jp = ip
    · rw [hj, freeInode_icache_self fs hone, Multiset.count_eq_zero.2 hip]
    · rw [freeInode_icache_of_ne fs hj, h.ref, Multiset.count_cons_of_ne hj]
  · intro jp kp hjp hkp heq
    obtain ⟨hj, hjp⟩ := hne jp hjp
    obtain ⟨hk, hkp⟩ := hne kp hkp
    rw [freeInode_icache_of_ne fs hj, freeInode_icache_of_ne fs hk] at heq
    exact h.uniq jp kp hjp hkp heq
  · intro jp hjp
    have hj : jp ≠ ip := fun heq => hip (heq ▸ hsub hjp)
    rw [freeInode_node h (h.ref_pos (h.sub hjp)) hj]
    exact h.held jp hjp
  · intro jp hpos hv
    obtain ⟨hj, hpos⟩ := hne jp hpos
    rw [freeInode_icache_of_ne fs hj] at hv
    rw [freeInode_node h hpos hj]
    exact h.valid jp hpos hv

/-! ## A new inode -/

/-- The state with inode `i` set to `node`, locked in slot `ip`. -/
def Fs.withNew (fs : Fs) (i : Nat) (ip : Ip) (node : Inode) : Fs :=
  (fs.setInode i node).setSlot ip { inum := i, ref := 1, valid := true }

theorem withNew_node (fs : Fs) (i : Nat) (ip : Ip) (node : Inode) :
    (fs.withNew i ip node).node ip = node := by
  unfold Fs.node Fs.withNew
  rw [setSlot_icache_self]
  exact Function.update_self _ _ _

theorem withNew_icache (fs : Fs) (i : Nat) (ip : Ip) (node : Inode) :
    (fs.withNew i ip node).icache ip = { inum := i, ref := 1, valid := true } :=
  setSlot_icache_self _ _ _

theorem withNew_icache_of_ne (fs : Fs) (i : Nat) (node : Inode) (h : jp ≠ ip) :
    (fs.withNew i ip node).icache jp = fs.icache jp := by
  rw [Fs.withNew, setSlot_icache_of_ne _ _ h]
  rfl

theorem withNew_node_of_ne (fs : Fs) (node : Inode) (hne : dp ≠ ip)
    (hinum : (fs.icache dp).inum ≠ i) : (fs.withNew i ip node).node dp = fs.node dp := by
  rw [Fs.node, withNew_icache_of_ne fs i node hne]
  exact Function.update_of_ne hinum _ _

/-- What can be reached from a new inode is itself or could be reached before. -/
theorem Reach.of_withNew {j : Nat} (h : Reach (fs.withNew i ip node) j)
    (hentries : ∀ de ∈ node.entries, Reach fs de.inum ∨ de.inum = i) : Reach fs j ∨ j = i := by
  induction h with
  | root => exact Or.inl .root
  | inUse hj =>
      obtain ⟨jp, hpos, rfl⟩ := hj
      by_cases hjp : jp = ip
      · rw [hjp, withNew_icache]
        exact Or.inr rfl
      · rw [withNew_icache_of_ne fs i node hjp] at hpos ⊢
        exact Or.inl (.inUse ⟨jp, hpos, rfl⟩)
  | @entry d de _ hde hne ih =>
      have hde : de ∈ (Function.update fs.inode i node d).entries := hde
      by_cases hd : d = i
      · subst hd
        rw [Function.update_self] at hde
        exact hentries de hde
      · rw [Function.update_of_ne hd] at hde
        exact Or.inl (.entry (ih.resolve_right hd) hde hne)

/-- An inode that is free is not in use. -/
theorem Refs.not_inUse (h : Refs fs O O) (hfree : (fs.inode i).type = .free) : ¬ InUse fs i := by
  rintro ⟨jp, hpos, rfl⟩
  exact h.held jp (h.mem_of_pos hpos) hfree

/-- The slot and the inode of a new inode are not those of one that is held. -/
theorem Refs.new_ne (h : Refs fs O H) (hdp : dp ∈ H) (hfree : (fs.inode i).type = .free)
    (hzero : (fs.icache ip).ref = 0) : dp ≠ ip ∧ (fs.icache dp).inum ≠ i := by
  constructor
  · rintro rfl
    have := h.ref_pos (h.sub hdp)
    omega
  · rintro rfl
    exact h.held dp hdp hfree

theorem Refs.withNew (h : Refs fs O O) (hfree : (fs.inode i).type = .free)
    (hzero : (fs.icache ip).ref = 0) (htype : node.type ≠ .free) :
    Refs (fs.withNew i ip node) (ip ::ₘ O) (ip ::ₘ O) := by
  have hnot := h.not_inUse hfree
  have hnode : ∀ jp, jp ≠ ip → 0 < (fs.icache jp).ref →
      (fs.withNew i ip node).node jp = fs.node jp :=
    fun jp hj hpos => withNew_node_of_ne fs node hj fun heq => hnot ⟨jp, hpos, heq⟩
  refine ⟨?_, ?_, Multiset.Subset.refl _, ?_, ?_⟩
  · intro jp
    by_cases hj : jp = ip
    · rw [hj, withNew_icache, Multiset.count_cons_self, ← h.ref, hzero]
    · rw [withNew_icache_of_ne fs i node hj, Multiset.count_cons_of_ne hj, h.ref]
  · intro jp kp hjp hkp heq
    by_cases hj : jp = ip
    · by_cases hk : kp = ip
      · rw [hj, hk]
      · rw [hj, withNew_icache, withNew_icache_of_ne fs i node hk] at heq
        rw [withNew_icache_of_ne fs i node hk] at hkp
        exact absurd ⟨kp, hkp, heq.symm⟩ hnot
    · by_cases hk : kp = ip
      · rw [hk, withNew_icache, withNew_icache_of_ne fs i node hj] at heq
        rw [withNew_icache_of_ne fs i node hj] at hjp
        exact absurd ⟨jp, hjp, heq⟩ hnot
      · rw [withNew_icache_of_ne fs i node hj] at hjp heq
        rw [withNew_icache_of_ne fs i node hk] at hkp heq
        exact h.uniq jp kp hjp hkp heq
  · intro jp hjp
    by_cases hj : jp = ip
    · rw [hj, withNew_node]
      exact htype
    · have hmem : jp ∈ O := (Multiset.mem_cons.1 hjp).resolve_left hj
      rw [hnode jp hj (h.ref_pos hmem)]
      exact h.held jp hmem
  · intro jp hpos hv
    by_cases hj : jp = ip
    · rw [hj, withNew_node]
      exact htype
    · rw [withNew_icache_of_ne fs i node hj] at hpos hv
      rw [hnode jp hj hpos]
      exact h.valid jp hpos hv

end Inodes

/-! ## Laws -/

/-- The entries that `create` writes into the new directory `i` of parent `d`. -/
def dots (i d : Nat) : List Dirent :=
  writeEntry [⟨i % 65536, ['.']⟩] ([⟨i % 65536, ['.']⟩].findIdx fun de : Dirent => de.inum = 0)
    ⟨d % 65536, ['.', '.']⟩

/-- What `T fs P` has to satisfy to be kept by the functions of the file system, given that the marks
    they leave satisfy `C`; the ways to stop are those of `E`. `P` lists the inodes that have a link
    to spare at a point inside a call. -/
structure Laws (C : Mark → Prop) (E : Panic → Prop) (T : Fs → Multiset Nat → Prop) : Prop where
  halts : ∀ e, e ≠ .noType → e ≠ .stuck → E e
  typed : ∀ {fs O H P ip}, Refs fs O H → T fs P → ip ∈ O → (fs.node ip).type = .free → E .noType
  /-- a slot is taken, or another reference to what it holds, or it becomes valid -/
  slot : ∀ {fs P ip} (slot : Slot), T fs P →
    (0 < (fs.icache ip).ref → 0 < slot.ref ∧ slot.inum = (fs.icache ip).inum ∧
      ((fs.icache ip).valid → slot.valid)) →
    (0 < slot.ref → Reach fs slot.inum) → T (fs.setSlot ip slot) P
  /-- `iput`, when it frees nothing -/
  decref : ∀ {fs O H P ip}, Refs fs (ip ::ₘ O) H → T fs P →
    ¬ ((fs.icache ip).valid ∧ (fs.node ip).nlink = 0 ∧ (fs.icache ip).ref = 1) →
    T (fs.decref ip) P
  /-- `iput`, when it frees the inode -/
  free : ∀ {fs O H P ip}, Refs fs (ip ::ₘ O) H → T fs P → (fs.icache ip).valid →
    (fs.node ip).nlink = 0 → (fs.icache ip).ref = 1 → C (.frees fs ip) →
    T ((fs.freeInode ip).decref ip) P
  /-- `nlink++` -/
  bump : ∀ {fs O H P ip}, Refs fs O H → ip ∈ H → (fs.icache ip).valid → T fs P →
    C (.bumps (fs.node ip).nlink) →
    T (fs.setNlink ip (short ((fs.node ip).nlink + 1))) ((fs.icache ip).inum ::ₘ P)
  /-- `nlink--` -/
  lower : ∀ {fs O H P ip}, Refs fs O H → ip ∈ H → (fs.icache ip).valid →
    T fs ((fs.icache ip).inum ::ₘ P) → T (fs.setNlink ip (short ((fs.node ip).nlink - 1))) P
  /-- `dirlink` enters the inode of `ip` in the directory `dp` -/
  enter : ∀ {fs O P ip dp} {name : Name}, Refs fs O O → ip ∈ O → dp ∈ O →
    (fs.node dp).type = .dir →
    (∀ de ∈ (fs.node dp).entries, de.inum ≠ 0 → ¬ namecmp name de.name) →
    ((fs.node ip).type = .dir → (fs.node ip).nlink = 1 ∧
      (fs.node ip).entries = dots (fs.icache ip).inum (fs.icache dp).inum) →
    C (.enters fs dp name) →
    T fs ((fs.icache ip).inum ::ₘ
      if (fs.node ip).type = .dir then (fs.icache dp).inum ::ₘ P else P) →
    T (fs.setEntries dp (writeEntry (fs.node dp).entries
      ((fs.node dp).entries.findIdx fun de => de.inum = 0)
      { inum := (fs.icache ip).inum % 65536, name := name.take dirsiz })) P
  /-- `sys_unlink` erases an entry of the directory `dp` -/
  erase : ∀ {fs O P dp} {off : Nat} {de : Dirent}, Refs fs O O → dp ∈ O →
    (fs.node dp).type = .dir → (fs.node dp).entries[off]? = some de → de.inum ≠ 0 →
    ¬ namecmp de.name ['.'] → ¬ namecmp de.name ['.', '.'] →
    ((fs.inode de.inum).type = .dir → isdirempty (fs.inode de.inum).entries) → T fs P →
    T (fs.setEntries dp ((fs.node dp).entries.set off { inum := 0, name := [] }))
      (de.inum ::ₘ if (fs.inode de.inum).type = .dir then (fs.icache dp).inum ::ₘ P else P)
  /-- `create` makes a new inode, with the first two entries of a directory -/
  alloc : ∀ {fs O P ip} {i : Nat} {node : Inode}, Refs fs O O → T fs P → P.count i = 0 →
    (fs.inode i).type = .free → 0 < i → i < fs.ninodes → (fs.icache ip).ref = 0 →
    node.type ≠ .free → node.nlink = 1 → (node.type ≠ .dir → node.entries = []) →
    (node.type = .dir → ∃ dp ∈ O, node.entries = dots i (fs.icache dp).inum) →
    T (fs.withNew i ip node) (i ::ₘ P)

/-- The references are right, and so is what is kept besides. -/
structure Inv (T : Fs → Multiset Nat → Prop) (fs : Fs) (O H : Multiset Ip) (P : Multiset Nat) :
    Prop where
  refs : Refs fs O H
  kept : T fs P

end Cs350.FileSys
