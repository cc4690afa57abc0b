import Cs350.FileSys.Calls
import Cs350.FileSys.TreeSteps
import Cs350.Lib.Returns

set_option autoImplicit false

/-! # Walks that change nothing

`iput` frees the inode if the reference it drops is the last one and there are no links. What makes
a walk free nothing is an invariant of all runs, `Guarded`: an inode without links is in a valid slot
of the cache, so an inode that a walk has to take into the cache itself has links. The specifications
here say of the functions of `fs.c` that they give back the references they took and leave the inodes
as they were. -/

namespace Cs350.FileSys

open Prog

/-! ## Inodes without links are held -/

/-- An inode within reach that has no links is in a valid slot; and numbers of inodes fit into
    directory entries, and link counts into a `short`. -/
structure Guarded (fs : Fs) (_ : Multiset Nat) : Prop where
  held : ∀ i, Reach fs i → Allocated fs.inode i → (fs.inode i).nlink = 0 →
    ∃ ip, 0 < (fs.icache ip).ref ∧ (fs.icache ip).valid ∧ (fs.icache ip).inum = i
  small : fs.ninodes ≤ 65536
  bound : ∀ i, Allocated fs.inode i → i < fs.ninodes
  range : ∀ i, -32768 ≤ (fs.inode i).nlink ∧ (fs.inode i).nlink ≤ 32767

theorem short_range (x : Int) : -32768 ≤ short x ∧ short x ≤ 32767 := by
  unfold short
  omega

/-- `nlink++` and then `nlink--`. -/
theorem short_undo {n : Int} (h : -32768 ≤ n ∧ n ≤ 32767) : short (short (n + 1) - 1) = n := by
  unfold short
  omega

section Laws

variable {fs : Fs} {O H : Multiset Ip} {P P' : Multiset Nat} {ip : Ip} {i : Nat} {node : Inode}

theorem Guarded.inum_mod (h : Guarded fs P) (hip : (fs.node ip).type ≠ .free) :
    (fs.icache ip).inum % 65536 = (fs.icache ip).inum := by
  have hlt := h.bound _ hip
  have hsmall := h.small
  exact Nat.mod_eq_of_lt (by omega)

theorem Guarded.setSlot (h : Guarded fs P) (slot : Slot)
    (hreach : 0 < slot.ref → Reach fs slot.inum)
    (hkeep : 0 < (fs.icache ip).ref → (fs.icache ip).valid → 0 < slot.ref ∧ slot.valid ∧
      slot.inum = (fs.icache ip).inum ∨ (fs.node ip).nlink ≠ 0) :
    Guarded (fs.setSlot ip slot) P := by
  refine ⟨fun i hi halloc hzero => ?_, h.small, h.bound, h.range⟩
  obtain ⟨jp, hpos, hvalid, rfl⟩ := h.held i (hi.of_setSlot hreach) halloc hzero
  by_cases hj : jp = ip
  · subst hj
    rcases hkeep hpos hvalid with ⟨hpos', hvalid', hinum⟩ | hne
    · exact ⟨jp, by rwa [setSlot_icache_self], by rwa [setSlot_icache_self],
        by rwa [setSlot_icache_self]⟩
    · exact absurd hzero hne
  · exact ⟨jp, by rwa [setSlot_icache_of_ne _ _ hj], by rwa [setSlot_icache_of_ne _ _ hj],
      by rw [setSlot_icache_of_ne _ _ hj]⟩

/-- A change of one inode that names nothing new and, if it is left without links, had none before or
    is in a valid slot. -/
theorem Guarded.setInode (h : Guarded fs P) (htype : node.type = (fs.inode i).type)
    (hentries : Reach fs i → ∀ de ∈ node.entries, de.inum ≠ 0 → Reach fs de.inum)
    (hrange : -32768 ≤ node.nlink ∧ node.nlink ≤ 32767)
    (hheld : node.nlink = 0 → (fs.inode i).nlink = 0 ∨
      ∃ ip, 0 < (fs.icache ip).ref ∧ (fs.icache ip).valid ∧ (fs.icache ip).inum = i) :
    Guarded (fs.setInode i node) P' := by
  have hnode : ∀ j, j ≠ i → (fs.setInode i node).inode j = fs.inode j :=
    fun j hj => Function.update_of_ne hj _ _
  have hself : (fs.setInode i node).inode i = node := Function.update_self _ _ _
  refine ⟨fun j hj halloc hzero => ?_, h.small, fun j halloc => ?_, fun j => ?_⟩
  · have hreach := hj.of_setInode hentries
    by_cases hji : j = i
    · subst hji
      rw [hself] at hzero
      rw [Allocated, hself, htype] at halloc
      rcases hheld hzero with hold | hslot
      · exact h.held j hreach halloc hold
      · exact hslot
    · rw [hnode j hji] at hzero
      rw [Allocated, hnode j hji] at halloc
      exact h.held j hreach halloc hzero
  · by_cases hji : j = i
    · subst hji
      rw [Allocated, hself, htype] at halloc
      exact h.bound j halloc
    · rw [Allocated, hnode j hji] at halloc
      exact h.bound j halloc
  · by_cases hji : j = i
    · subst hji
      rw [hself]
      exact hrange
    · rw [hnode j hji]
      exact h.range j

theorem Guarded.free (hrefs : Refs fs (ip ::ₘ O) H) (h : Guarded fs P) :
    Guarded ((fs.freeInode ip).decref ip) P := by
  have hself : ((fs.freeInode ip).decref ip).inode (fs.icache ip).inum
      = { fs.node ip with type := .free, entries := [] } := by
    rw [freeInode_inode, Function.update_self]
  have hnode : ∀ j, j ≠ (fs.icache ip).inum →
      ((fs.freeInode ip).decref ip).inode j = fs.inode j := by
    intro j hj
    rw [freeInode_inode, Function.update_of_ne hj]
  have halloc : ∀ j, Allocated ((fs.freeInode ip).decref ip).inode j →
      j ≠ (fs.icache ip).inum ∧ Allocated fs.inode j := by
    intro j hj
    have hne : j ≠ (fs.icache ip).inum := by
      rintro rfl
      rw [Allocated, hself] at hj
      exact hj rfl
    rw [Allocated, hnode j hne] at hj
    exact ⟨hne, hj⟩
  have hreach : ∀ j, Reach ((fs.freeInode ip).decref ip) j → Reach fs j := by
    intro j hj
    have hslot : Reach fs (fs.icache ip).inum := hrefs.reach_slot (Multiset.mem_cons_self ip O)
    induction hj with
    | root => exact .root
    | inUse hj =>
        obtain ⟨jp, hpos, rfl⟩ := hj
        by_cases hjp : jp = ip
        · subst hjp
          rw [Fs.decref, setSlot_icache_self, Fs.freeInode, setSlot_icache_self]
          exact hslot
        · rw [freeInode_icache_of_ne fs hjp] at hpos ⊢
          exact .inUse ⟨jp, hpos, rfl⟩
    | @entry d de _ hde hne ih =>
        by_cases hd : d = (fs.icache ip).inum
        · rw [hd, hself] at hde
          exact absurd hde List.not_mem_nil
        · rw [hnode d hd] at hde
          exact .entry ih hde hne
  refine ⟨fun j hj hj' hzero => ?_, h.small, fun j hj => ?_, fun j => ?_⟩
  · obtain ⟨hne, hold⟩ := halloc j hj'
    rw [hnode j hne] at hzero
    obtain ⟨jp, hpos, hvalid, rfl⟩ := h.held j (hreach j hj) hold hzero
    have hjp : jp ≠ ip := fun heq => hne (by rw [heq])
    refine ⟨jp, ?_, ?_, ?_⟩ <;> rw [freeInode_icache_of_ne fs hjp]
    · exact hpos
    · exact hvalid
  · exact h.bound j (halloc j hj).2
  · by_cases hji : j = (fs.icache ip).inum
    · rw [hji, hself]
      exact h.range _
    · rw [hnode j hji]
      exact h.range j

theorem Guarded.alloc (hrefs : Refs fs O O) (h : Guarded fs P) (hpos : 0 < i)
    (hlt : i < fs.ninodes) (hzero : (fs.icache ip).ref = 0) (hnlink : node.nlink = 1)
    (hflat : node.type ≠ .dir → node.entries = [])
    (hdots : node.type = .dir → ∃ dp ∈ O, node.entries = dots i (fs.icache dp).inum) :
    Guarded (fs.withNew i ip node) P' := by
  have hsmall := h.small
  have hself : (fs.withNew i ip node).inode i = node := Function.update_self _ _ _
  have hnode : ∀ j, j ≠ i → (fs.withNew i ip node).inode j = fs.inode j :=
    fun j hj => Function.update_of_ne hj _ _
  have hbound : ∀ dp ∈ O, (fs.icache dp).inum < 65536 := by
    intro dp hdp
    have := h.bound _ (hrefs.held dp hdp)
    omega
  have hentries := hrefs.reach_new hpos (by omega) hbound hflat hdots
  refine ⟨fun j hj halloc hj0 => ?_, hsmall, fun j halloc => ?_, fun j => ?_⟩
  · by_cases hji : j = i
    · rw [hji, hself, hnlink] at hj0
      exact nomatch hj0
    · rw [hnode j hji] at hj0
      rw [Allocated, hnode j hji] at halloc
      have hreach := (hj.of_withNew hentries).resolve_right hji
      obtain ⟨jp, hpos, hvalid, rfl⟩ := h.held j hreach halloc hj0
      have hjp : jp ≠ ip := by
        rintro rfl
        omega
      refine ⟨jp, ?_, ?_, ?_⟩ <;> rw [withNew_icache_of_ne fs i node hjp]
      · exact hpos
      · exact hvalid
  · by_cases hji : j = i
    · rw [hji]
      exact hlt
    · rw [Allocated, hnode j hji] at halloc
      exact h.bound j halloc
  · by_cases hji : j = i
    · rw [hji, hself, hnlink]
      decide
    · rw [hnode j hji]
      exact h.range j

/-- Whatever the calls do, inodes without links are held. -/
theorem laws_guarded : Laws (fun _ => True) (fun e => e ≠ .stuck) Guarded where
  halts _ _ hne := hne
  typed _ _ _ _ := nofun
  slot slot h hkeep hreach := by
    refine h.setSlot slot hreach fun hpos hvalid => ?_
    obtain ⟨hpos', hinum, hvalid'⟩ := hkeep hpos
    exact Or.inl ⟨hpos', hvalid' hvalid, hinum⟩
  decref {fs} O H P ip hrefs h hnot := by
    refine h.setSlot _ (fun _ => hrefs.reach_slot (Multiset.mem_cons_self ip O)) fun hpos hvalid => ?_
    by_cases hzero : (fs.node ip).nlink = 0
    · have hone : (fs.icache ip).ref ≠ 1 := fun hone => hnot ⟨hvalid, hzero, hone⟩
      exact Or.inl ⟨show 0 < (fs.icache ip).ref - 1 by omega, hvalid, rfl⟩
    · exact Or.inr hzero
  free hrefs h _ _ _ _ := h.free hrefs
  bump hrefs hip hvalid h _ := by
    refine h.setInode rfl Reach.entries (short_range _) fun _ => Or.inr ⟨_, ?_, hvalid, rfl⟩
    exact hrefs.ref_pos (hrefs.sub hip)
  lower hrefs hip hvalid h := by
    refine h.setInode rfl Reach.entries (short_range _) fun _ => Or.inr ⟨_, ?_, hvalid, rfl⟩
    exact hrefs.ref_pos (hrefs.sub hip)
  enter hrefs hip _ _ _ _ _ h := by
    refine h.setInode rfl (fun hreach de hde hne => ?_) (h.range _) Or.inl
    rcases mem_writeEntry hde with hde | rfl
    · exact hreach.entries de hde hne
    · show Reach _ (_ % 65536)
      rw [h.inum_mod (hrefs.held _ hip)]
      exact hrefs.reach_slot hip
  erase _ _ _ _ _ _ _ _ h := by
    refine h.setInode rfl (fun hreach de hde hne => ?_) (h.range _) Or.inl
    rcases List.mem_or_eq_of_mem_set hde with hde | rfl
    · exact hreach.entries de hde hne
    · exact absurd rfl hne
  alloc hrefs h _ _ hpos hlt hzero _ hnlink hflat hdots :=
    h.alloc hrefs hpos hlt hzero hnlink hflat hdots

end Laws

theorem boot_guarded : Guarded boot.fs 0 := by
  have hnlink : ∀ i, (boot.fs.inode i).nlink = if i = rootIno then 1 else 0 := by
    intro i
    show (if i = rootIno then _ else _ : Inode).nlink = _
    split_ifs <;> rfl
  have hroot : ∀ i, Allocated boot.fs.inode i → i = rootIno := by
    intro i hi
    by_contra hne
    exact hi (congrArg Inode.type (if_neg hne))
  refine ⟨fun i _ hi hzero => ?_, by decide, fun i hi => ?_, fun i => ?_⟩
  · rw [hnlink, if_pos (hroot i hi)] at hzero
    exact nomatch hzero
  · rw [hroot i hi]
    decide
  · rw [hnlink]
    split_ifs <;> decide

/-! ## Marks and references -/

/-- The call has run `itrunc` nowhere: `iput` has freed no inode. -/
def Quiet (ws : List Mark) : Prop := ∀ fs ip, Mark.frees fs ip ∉ ws

/-- A reference besides those in `O` can be dropped without freeing the inode. -/
def Spare (fs : Fs) (O : Multiset Ip) (ip : Ip) : Prop :=
  (fs.node ip).type = .free ∨ (fs.node ip).nlink ≠ 0 ∨ ip ∈ O

/-- The outcome of a walk: no inode is changed or freed, and the reference it ends with can be
    dropped again. -/
structure Calm (fs : Fs) (O : Multiset Ip) (P : Multiset Nat) (r : Option Ip) (ws : List Mark)
    (fs' : Fs) : Prop where
  quiet : Quiet ws
  same : Same fs fs' O
  inv : Inv Guarded fs' (r.elim O (· ::ₘ O)) O P
  spare : ∀ ip, r = some ip → Spare fs' O ip

section Functions

variable {fs fs' fs'' : Fs} {O O' H : Multiset Ip} {P : Multiset Nat} {ip jp dp cwd : Ip}
  {ws ws' : List Mark} {r : Option Ip} {i : Nat}

theorem quiet_nil : Quiet [] := fun _ _ h => nomatch h

theorem Quiet.append (h : Quiet ws) (h' : Quiet ws') : Quiet (ws ++ ws') := by
  intro fs ip hmem
  rcases List.mem_append.1 hmem with hmem | hmem
  · exact h fs ip hmem
  · exact h' fs ip hmem

theorem Quiet.bumps (h : Quiet ws) (n : Int) : Quiet (.bumps n :: ws) := by
  intro fs ip hmem
  rcases List.mem_cons.1 hmem with hmem | hmem
  · exact nomatch hmem
  · exact h fs ip hmem

theorem Same.refl (fs : Fs) (O : Multiset Ip) : Same fs fs O :=
  ⟨rfl, rfl, fun _ _ => rfl, fun _ _ => id⟩

theorem Same.trans (h : Same fs fs' O) (h' : Same fs' fs'' O) : Same fs fs'' O :=
  ⟨h'.inode.trans h.inode, h'.ninodes.trans h.ninodes,
    fun jp hj => (h'.slot jp hj).trans (h.slot jp hj),
    fun jp hj hv => h'.valid jp hj (h.valid jp hj hv)⟩

theorem Same.mono (h : Same fs fs' O) (hsub : O' ⊆ O) : Same fs fs' O' :=
  ⟨h.inode, h.ninodes, fun jp hj => h.slot jp (hsub hj), fun jp hj => h.valid jp (hsub hj)⟩

theorem Same.of_cons (h : Same fs fs' (ip ::ₘ O)) : Same fs fs' O :=
  h.mono (Multiset.subset_cons O ip)

theorem Spare.of_same (h : Spare fs O ip) (hsame : Same fs fs' O') (hip : ip ∈ O') :
    Spare fs' O ip := by
  unfold Spare
  rw [hsame.node hip]
  exact h

theorem Spare.of_mem (fs : Fs) (hip : ip ∈ O) : Spare fs O ip := Or.inr (Or.inr hip)

/-- What `iget` adds can be dropped again: an inode that was not in use has links. -/
theorem Inv.spare (h : Inv Guarded fs O H P) (h' : Inv Guarded fs' (ip ::ₘ O) H P)
    (hsame : Same fs fs' O) (hreach : Reach fs (fs'.icache ip).inum) : Spare fs' O ip := by
  by_cases hip : ip ∈ O
  · exact Spare.of_mem fs' hip
  · by_cases hfree : (fs'.node ip).type = .free
    · exact Or.inl hfree
    · refine Or.inr (Or.inl fun hzero => hip ?_)
      unfold Fs.node at hfree hzero
      rw [hsame.inode] at hfree hzero
      obtain ⟨jp, hpos, -, hinum⟩ := h.kept.held _ hreach hfree hzero
      have hjp := h.refs.mem_of_pos hpos
      rw [← hsame.slot jp hjp] at hinum
      have hone := h'.refs.ref_pos (Multiset.mem_cons_self ip O)
      have hpos' := h'.refs.ref_pos (Multiset.mem_cons_of_mem hjp)
      rw [← h'.refs.uniq jp ip hpos' hone hinum]
      exact hjp

theorem iget_quiet (i : Nat) (fs : Fs) : returns (iget i) fs fun ws _ _ => ws = [] := by
  unfold iget
  apply returns_get_bind
  split
  next =>
    apply returns_modify_bind
    exact returns_pure rfl
  next =>
    split
    next =>
      apply returns_modify_bind
      exact returns_pure rfl
    next => exact returns_stop _

theorem iget_calm (h : Inv Guarded fs O H P) (hreach : Reach fs i) :
    returns (iget i) fs fun ws ip fs' => ws = [] ∧ Inv Guarded fs' (ip ::ₘ O) H P ∧
      Same fs fs' O ∧ Spare fs' O ip := by
  have hspec := returns_of_wp (iget_spec laws_guarded h hreach) fun _ => trivial
  apply returns_mono (returns_and (iget_quiet i fs) hspec)
  rintro ws ip fs' ⟨rfl, hinv, rfl, hsame⟩
  exact ⟨rfl, hinv, hsame, h.spare hinv hsame hreach⟩

theorem ilock_quiet (ip : Ip) (fs : Fs) : returns (ilock ip) fs fun ws _ _ => ws = [] := by
  unfold ilock
  apply returns_get_bind
  split_ifs
  · exact returns_stop _
  · exact returns_pure rfl
  · exact returns_stop _
  · exact returns_modify rfl

theorem ilock_calm (h : Inv Guarded fs O H P) (hip : ip ∈ O) :
    returns (ilock ip) fs fun ws _ fs' => ws = [] ∧ Inv Guarded fs' O (ip ::ₘ H) P ∧
      Same fs fs' O ∧ (fs'.icache ip).valid :=
  returns_mono
    (returns_and (ilock_quiet ip fs)
      (returns_of_wp (ilock_spec laws_guarded h hip) fun _ => trivial))
    fun _ _ _ h => h

/-- `iput` of a reference that can be dropped. -/
theorem iput_calm (h : Inv Guarded fs (ip ::ₘ O) H P) (hsub : H ⊆ O) (hspare : Spare fs O ip) :
    returns (iput ip) fs fun ws _ fs' => ws = [] ∧ Inv Guarded fs' O H P ∧ Same fs fs' O := by
  have hpos := h.refs.ref_pos (Multiset.mem_cons_self ip O)
  have hnot : ¬ ((fs.icache ip).valid ∧ (fs.node ip).nlink = 0 ∧ (fs.icache ip).ref = 1) := by
    rintro ⟨hvalid, hzero, hone⟩
    rcases hspare with hfree | hlinks | hmem
    · exact h.refs.valid ip hpos hvalid hfree
    · exact hlinks hzero
    · have href := h.refs.ref ip
      have := Multiset.count_pos.2 hmem
      rw [Multiset.count_cons_self] at href
      omega
  unfold iput
  apply returns_get_bind
  rw [if_neg hnot]
  refine returns_modify ⟨rfl, ⟨h.refs.decref hsub, ?_⟩, Same.setSlot fs fun _ => ⟨rfl, id⟩⟩
  exact laws_guarded.decref h.refs h.kept hnot

/-- The same where every inode that is held is known to be allocated. -/
theorem iput_calm_held (h : Inv Guarded fs (ip ::ₘ O) (ip ::ₘ O) P) (hspare : Spare fs O ip) :
    returns (iput ip) fs fun ws _ fs' => ws = [] ∧ Inv Guarded fs' O O P ∧ Same fs fs' O :=
  iput_calm ⟨h.refs.mono (Multiset.subset_cons O ip), h.kept⟩ (Multiset.Subset.refl O) hspare

theorem dirlookup_quiet (dp : Ip) (name : Name) (fs : Fs) :
    returns (dirlookup dp name) fs fun ws _ _ => ws = [] := by
  unfold dirlookup
  apply returns_get_bind
  split_ifs
  · exact returns_stop _
  · split
    next =>
      apply returns_bind (iget_quiet _ fs)
      rintro _ ip fs' rfl
      exact returns_pure rfl
    next => exact returns_pure rfl

/-- A used entry of the directory has the name. -/
def HasName (fs : Fs) (dp : Ip) (name : Name) : Prop :=
  ∃ de ∈ (fs.node dp).entries, de.inum ≠ 0 ∧ namecmp name de.name

theorem dirlookup_calm (h : Inv Guarded fs O H P) (hdp : dp ∈ O) (name : Name) :
    returns (dirlookup dp name) fs fun ws r fs' => ws = [] ∧
      match r with
      | none => fs' = fs ∧ ¬ HasName fs dp name
      | some (ip, _) => HasName fs dp name ∧ Inv Guarded fs' (ip ::ₘ O) H P ∧ Same fs fs' O ∧
          Spare fs' O ip := by
  have hspec := returns_of_wp (dirlookup_spec laws_guarded h hdp name) fun _ => trivial
  apply returns_mono (returns_and (dirlookup_quiet dp name fs) hspec)
  rintro ws r fs' ⟨rfl, -, hr⟩
  refine ⟨rfl, ?_⟩
  cases r with
  | none => exact ⟨hr.1, fun ⟨de, hde, hne, hcmp⟩ => hr.2 de hde hne hcmp⟩
  | some x =>
      obtain ⟨hinv, hsame, de, hget, hne, hcmp, hinum⟩ := hr
      have hde := List.mem_of_getElem? hget
      have hreach := Reach.entry (h.refs.reach_slot hdp) hde hne
      rw [← hinum] at hreach
      exact ⟨⟨de, hde, hne, hcmp⟩, hinv, hsame, h.spare hinv hsame hreach⟩

theorem Calm.after (h : Same fs fs' O) (hr : Calm fs' O P r ws fs'') : Calm fs O P r ws fs'' :=
  ⟨hr.quiet, h.trans hr.same, hr.inv, hr.spare⟩

theorem namexLoop_calm (nameiparent : Bool) (n : Nat) (path : List Char) (name : Name)
    (hlen : path.length < n) (h : Inv Guarded fs (ip ::ₘ O) O P) (hspare : Spare fs O ip) :
    returns (namexLoop nameiparent n path name ip) fs fun ws r fs' =>
      Calm fs O P (r.map Prod.fst) ws fs' := by
  induction n generalizing fs path name ip with
  | zero => omega
  | succ n ih =>
      have hrefl := Multiset.Subset.refl O
      have hip := Multiset.mem_cons_self ip O
      have hdone : ∀ {fs}, Inv Guarded fs (ip ::ₘ O) O P → Spare fs O ip →
          Calm fs O P (some ip) [] fs := fun {fs} h hspare =>
        ⟨quiet_nil, Same.refl fs O, h, fun jp heq => Option.some.inj heq ▸ hspare⟩
      unfold namexLoop
      split
      next =>
        apply returns_ite
        · intro _
          apply returns_bind (iput_calm h hrefl hspare)
          rintro _ _ fs' ⟨rfl, hinv, hsame⟩
          exact returns_pure ⟨quiet_nil, hsame, hinv, fun _ heq => nomatch heq⟩
        · intro _
          exact returns_pure (hdone h hspare)
      next name path' hskip =>
        have hshort := skipelem_length hskip
        apply returns_bind (ilock_calm h hip)
        rintro _ _ fs₁ ⟨rfl, hinv₁, hsame₁, -⟩
        have hspare₁ := hspare.of_same hsame₁ hip
        apply returns_get_bind
        apply returns_ite
        · intro _
          apply returns_bind (iput_calm_held hinv₁ hspare₁)
          rintro _ _ fs₂ ⟨rfl, hinv₂, hsame₂⟩
          exact returns_pure
            ⟨quiet_nil, hsame₁.of_cons.trans hsame₂, hinv₂, fun _ heq => nomatch heq⟩
        · intro _
          apply returns_ite
          · intro _
            have hinv₁' : Inv Guarded fs₁ (ip ::ₘ O) O P :=
              ⟨hinv₁.refs.mono (Multiset.subset_cons O ip), hinv₁.kept⟩
            exact returns_pure (.after hsame₁.of_cons (hdone hinv₁' hspare₁))
          · intro _
            apply returns_bind (dirlookup_calm hinv₁ hip name)
            rintro _ r fs₂ ⟨rfl, hr⟩
            split
            next =>
              obtain ⟨rfl, -⟩ := hr
              apply returns_bind (iput_calm_held hinv₁ hspare₁)
              rintro _ _ fs₂ ⟨rfl, hinv₂, hsame₂⟩
              exact returns_pure
                ⟨quiet_nil, hsame₁.of_cons.trans hsame₂, hinv₂, fun _ heq => nomatch heq⟩
            next next off =>
              obtain ⟨-, hinv₂, hsame₂, hspare₂⟩ := hr
              have hspare₂' := hspare₁.of_same hsame₂ hip
              have hrefs₂ := hinv₂.refs.mono (Multiset.subset_cons O ip)
              rw [Multiset.cons_swap] at hrefs₂
              -- what was just found is dropped last
              have hdir : Spare fs₂ (next ::ₘ O) ip :=
                hspare₂'.imp_right (Or.imp_right Multiset.mem_cons_of_mem)
              apply returns_bind
                (iput_calm ⟨hrefs₂, hinv₂.kept⟩ (Multiset.subset_cons O next) hdir)
              rintro _ _ fs₃ ⟨rfl, hinv₃, hsame₃⟩
              have hnext : Spare fs₂ O next := by
                rcases hspare₂ with hfree | hlinks | hmem
                · exact Or.inl hfree
                · exact Or.inr (Or.inl hlinks)
                · rcases Multiset.mem_cons.1 hmem with rfl | hmem
                  · exact hspare₂'
                  · exact Spare.of_mem fs₂ hmem
              have hnext₃ := hnext.of_same hsame₃ (Multiset.mem_cons_self next O)
              apply returns_mono (ih path' name (by omega) hinv₃ hnext₃)
              intro ws r fs₄ hr₄
              exact hr₄.after ((hsame₁.of_cons.trans hsame₂.of_cons).trans hsame₃.of_cons)

theorem namex_calm (nameiparent : Bool) (path : List Char) (h : Inv Guarded fs O O P)
    (hcwd : cwd ∈ O) : returns (namex cwd path nameiparent) fs fun ws r fs' =>
      Calm fs O P (r.map Prod.fst) ws fs' := by
  have hloop : ∀ ip fs', Inv Guarded fs' (ip ::ₘ O) O P → Same fs fs' O → Spare fs' O ip →
      returns (namexLoop nameiparent (path.length + 1) path [] ip) fs' fun ws r fs'' =>
        Calm fs O P (r.map Prod.fst) ws fs'' := by
    intro ip fs' hinv hsame hspare
    apply returns_mono
      (namexLoop_calm nameiparent _ path [] (Nat.lt_succ_self _) hinv hspare)
    intro ws r fs'' hr
    exact hr.after hsame
  unfold namex
  apply returns_ite
  · intro _
    apply returns_bind (iget_calm h .root)
    rintro _ ip fs' ⟨rfl, hinv, hsame, hspare⟩
    exact hloop ip fs' hinv hsame hspare
  · intro _
    have hidup : returns (idup cwd) fs fun ws ip fs' => ws = [] ∧ ip = cwd ∧
        Inv Guarded fs' (ip ::ₘ O) O P ∧ Same fs fs' O := by
      have hspec := returns_of_wp (idup_spec laws_guarded h hcwd) fun _ => trivial
      have hquiet : returns (idup cwd) fs fun ws _ _ => ws = [] :=
        returns_modify_bind (returns_pure rfl)
      apply returns_mono (returns_and hquiet hspec)
      rintro ws ip fs' ⟨rfl, rfl, hinv, hsame⟩
      exact ⟨rfl, rfl, hinv, hsame⟩
    apply returns_bind hidup
    rintro _ ip fs' ⟨rfl, rfl, hinv, hsame⟩
    exact hloop ip fs' hinv hsame (Spare.of_mem fs' hcwd)

theorem namei_calm (path : List Char) (h : Inv Guarded fs O O P) (hcwd : cwd ∈ O) :
    returns (namei cwd path) fs fun ws r fs' => Calm fs O P r ws fs' := by
  unfold namei
  apply returns_bind (namex_calm false path h hcwd)
  intro ws r fs' hr
  refine returns_pure ?_
  rw [List.append_nil]
  exact hr

theorem nameiparent_calm (path : List Char) (h : Inv Guarded fs O O P) (hcwd : cwd ∈ O) :
    returns (nameiparent cwd path) fs fun ws r fs' => Calm fs O P (r.map Prod.fst) ws fs' :=
  namex_calm true path h hcwd

end Functions

end Cs350.FileSys
