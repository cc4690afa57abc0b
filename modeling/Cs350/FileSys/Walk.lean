import Cs350.FileSys.Refs

set_option autoImplicit false

/-! # What the functions of `fs.c` keep

One specification for each function, for any invariant that satisfies the laws: run in a state that
satisfies the invariant, it keeps the invariant, adds or drops the references it is meant to, and
leaves the inodes that others hold as they are. -/

namespace Cs350.FileSys

open Prog

/-- The slots of `O` hold the same inodes as before, of the same types. -/
def Keeps (fs fs' : Fs) (O : Multiset Ip) : Prop :=
  ∀ jp ∈ O, (fs'.icache jp).inum = (fs.icache jp).inum ∧
    (fs'.node jp).type = (fs.node jp).type ∧ ((fs.icache jp).valid → (fs'.icache jp).valid)

/-- The inodes are the same as before, and so are those held by the slots of `O`. -/
structure Same (fs fs' : Fs) (O : Multiset Ip) : Prop where
  inode : fs'.inode = fs.inode
  ninodes : fs'.ninodes = fs.ninodes
  slot : ∀ jp ∈ O, (fs'.icache jp).inum = (fs.icache jp).inum
  valid : ∀ jp ∈ O, (fs.icache jp).valid → (fs'.icache jp).valid

section Frames

variable {fs fs' fs'' : Fs} {O O' : Multiset Ip} {ip jp : Ip}

theorem Same.node (h : Same fs fs' O) (hj : jp ∈ O) : fs'.node jp = fs.node jp := by
  rw [Fs.node, h.inode, h.slot jp hj, Fs.node]

theorem Same.keeps (h : Same fs fs' O) : Keeps fs fs' O :=
  fun jp hj => ⟨h.slot jp hj, by rw [h.node hj], h.valid jp hj⟩

theorem Keeps.refl (fs : Fs) (O : Multiset Ip) : Keeps fs fs O :=
  fun _ _ => ⟨rfl, rfl, id⟩

theorem Keeps.trans (h : Keeps fs fs' O) (h' : Keeps fs' fs'' O) : Keeps fs fs'' O := by
  intro jp hj
  obtain ⟨hinum, htype, hvalid⟩ := h jp hj
  obtain ⟨hinum', htype', hvalid'⟩ := h' jp hj
  exact ⟨hinum'.trans hinum, htype'.trans htype, hvalid' ∘ hvalid⟩

theorem Keeps.mono (h : Keeps fs fs' O) (hsub : O' ⊆ O) : Keeps fs fs' O' :=
  fun jp hj => h jp (hsub hj)

theorem Keeps.of_cons (h : Keeps fs fs' (ip ::ₘ O)) : Keeps fs fs' O :=
  fun jp hj => h jp (Multiset.mem_cons_of_mem hj)

theorem Same.setSlot (fs : Fs) {slot : Slot}
    (h : ip ∈ O → slot.inum = (fs.icache ip).inum ∧ ((fs.icache ip).valid → slot.valid)) :
    Same fs (fs.setSlot ip slot) O := by
  refine ⟨rfl, rfl, fun jp hj => ?_, fun jp hj => ?_⟩ <;> by_cases hjp : jp = ip
  · subst hjp
    rw [setSlot_icache_self]
    exact (h hj).1
  · rw [setSlot_icache_of_ne _ _ hjp]
  · subst hjp
    rw [setSlot_icache_self]
    exact (h hj).2
  · rw [setSlot_icache_of_ne _ _ hjp]
    exact id

/-- A change of one inode that keeps its type. -/
theorem Keeps.setInode (fs : Fs) {i : Nat} {n : Inode} (h : n.type = (fs.inode i).type) :
    Keeps fs (fs.setInode i n) O := by
  intro jp _
  refine ⟨rfl, ?_, id⟩
  show (Function.update fs.inode i n (fs.icache jp).inum).type = (fs.inode (fs.icache jp).inum).type
  by_cases hi : (fs.icache jp).inum = i
  · rw [hi, Function.update_self, h]
  · rw [Function.update_of_ne hi]

end Frames

section Cache

variable {C : Mark → Prop} {E : Panic → Prop} {T : Fs → Multiset Nat → Prop}
  {fs : Fs} {O H : Multiset Ip} {P : Multiset Nat} {ip : Ip} {i : Nat}

/-- `iget` takes the slot that holds the inode, or else a free one. -/
theorem iget_cases (hE : E .igetNoInodes) (fs : Fs) (i : Nat) :
    wp C E (iget i) fs fun ip fs' =>
      (0 < (fs.icache ip).ref ∧ (fs.icache ip).inum = i ∧
        fs' = fs.setSlot ip { fs.icache ip with ref := (fs.icache ip).ref + 1 }) ∨
      (¬ InUse fs i ∧ (fs.icache ip).ref = 0 ∧
        fs' = fs.setSlot ip { inum := i, ref := 1, valid := false }) := by
  unfold iget
  apply wp_get_bind
  split
  next ip hfind =>
    have hip := List.find?_some hfind
    rw [decide_eq_true_eq] at hip
    apply wp_modify_bind
    exact wp_pure (Or.inl ⟨hip.1, hip.2, rfl⟩)
  next hnone =>
    have hnot : ¬ InUse fs i := by
      rintro ⟨ip, hpos, hi⟩
      exact List.find?_eq_none.1 hnone ip (List.mem_finRange ip) (by simp [hpos, hi])
    split
    next ip hfind =>
      have hip := List.find?_some hfind
      rw [decide_eq_true_eq] at hip
      apply wp_modify_bind
      exact wp_pure (Or.inr ⟨hnot, hip, rfl⟩)
    next => exact wp_stop hE

theorem iget_spec (laws : Laws C E T) (hinv : Inv T fs O H P) (hreach : Reach fs i) :
    wp C E (iget i) fs fun ip fs' =>
      Inv T fs' (ip ::ₘ O) H P ∧ (fs'.icache ip).inum = i ∧ Same fs fs' O := by
  apply wp_mono (iget_cases (laws.halts _ nofun nofun) fs i)
  rintro ip fs' (⟨hpos, hi, rfl⟩ | ⟨hnot, hzero, rfl⟩)
  · have hkept := laws.slot { fs.icache ip with ref := (fs.icache ip).ref + 1 } hinv.kept
      (fun _ => ⟨Nat.succ_pos _, rfl, id⟩) (fun _ => .inUse ⟨ip, hpos, rfl⟩)
    refine ⟨⟨hinv.refs.incref hpos, hkept⟩, ?_, Same.setSlot fs fun _ => ⟨rfl, id⟩⟩
    rw [setSlot_icache_self]
    exact hi
  · have hkept := laws.slot { inum := i, ref := 1, valid := false } hinv.kept
      (fun hpos : 0 < (fs.icache ip).ref => absurd hpos (by omega)) (fun _ => hreach)
    refine ⟨⟨hinv.refs.newSlot hzero hnot, hkept⟩, by rw [setSlot_icache_self], ?_⟩
    apply Same.setSlot fs
    intro hip
    have := hinv.refs.ref_pos hip
    omega

theorem idup_spec (laws : Laws C E T) (hinv : Inv T fs O H P) (hip : ip ∈ O) :
    wp C E (idup ip) fs fun jp fs' => jp = ip ∧ Inv T fs' (ip ::ₘ O) H P ∧ Same fs fs' O := by
  have hpos := hinv.refs.ref_pos hip
  have hkept := laws.slot { fs.icache ip with ref := (fs.icache ip).ref + 1 } hinv.kept
    (fun _ => ⟨Nat.succ_pos _, rfl, id⟩) (fun _ => hinv.refs.reach_slot hip)
  unfold idup
  apply wp_modify_bind
  exact wp_pure ⟨rfl, ⟨hinv.refs.incref hpos, hkept⟩, Same.setSlot fs fun _ => ⟨rfl, id⟩⟩

/-- An inode that is locked has a type. -/
theorem ilock_spec (laws : Laws C E T) (hinv : Inv T fs O H P) (hip : ip ∈ O) :
    wp C E (ilock ip) fs fun _ fs' =>
      Inv T fs' O (ip ::ₘ H) P ∧ Same fs fs' O ∧ (fs'.icache ip).valid := by
  have hpos := hinv.refs.ref_pos hip
  unfold ilock
  apply wp_get_bind
  split_ifs with href hvalid hfree
  · exact wp_stop (laws.halts _ nofun nofun)
  · have hlock := hinv.refs.lock hip (hinv.refs.valid ip hpos hvalid)
    exact wp_pure ⟨⟨hlock, hinv.kept⟩, ⟨rfl, rfl, fun _ _ => rfl, fun _ _ => id⟩, hvalid⟩
  · exact wp_stop (laws.typed hinv.refs hinv.kept hip hfree)
  · have hkept := laws.slot { fs.icache ip with valid := true } hinv.kept
      (fun hpos => ⟨hpos, rfl, fun _ => rfl⟩) (fun _ => hinv.refs.reach_slot hip)
    have hself : ((fs.setSlot ip { fs.icache ip with valid := true }).node ip).type ≠ .free := by
      rw [setSlot_node_self]
      exact hfree
    refine wp_modify ⟨⟨(hinv.refs.setValid hfree).lock hip hself, hkept⟩, ?_, ?_⟩
    · exact Same.setSlot fs fun _ => ⟨rfl, fun _ => rfl⟩
    · rw [setSlot_icache_self]

/-- `iput` drops a reference that is not among those in `H`. -/
theorem iput_spec (laws : Laws C E T) (hinv : Inv T fs (ip ::ₘ O) H P) (hsub : H ⊆ O) :
    wp C E (iput ip) fs fun _ fs' => Inv T fs' O H P ∧ Keeps fs fs' O := by
  unfold iput
  apply wp_get_bind
  split_ifs with hfree
  · obtain ⟨hvalid, hzero, hone⟩ := hfree
    apply wp_mark_bind
    intro hok
    have hkept := laws.free hinv.refs hinv.kept hvalid hzero hone hok
    apply wp_modify_bind
    refine wp_modify ⟨⟨hinv.refs.free hsub hone, hkept⟩, ?_⟩
    intro jp hj
    have hne : jp ≠ ip := by
      rintro rfl
      have href := hinv.refs.ref jp
      have := Multiset.count_pos.2 hj
      rw [Multiset.count_cons_self] at href
      omega
    have hpos := hinv.refs.ref_pos (Multiset.mem_cons_of_mem hj)
    rw [freeInode_icache_of_ne fs hne, freeInode_node hinv.refs hpos hne]
    exact ⟨rfl, rfl, id⟩
  · have hsame : Same fs (fs.decref ip) O := Same.setSlot fs fun _ => ⟨rfl, id⟩
    exact wp_modify ⟨⟨hinv.refs.decref hsub, laws.decref hinv.refs hinv.kept hfree⟩, hsame.keeps⟩

/-- The same where every inode that is held is known to be allocated. -/
theorem iput_held (laws : Laws C E T) (hinv : Inv T fs (ip ::ₘ O) (ip ::ₘ O) P) :
    wp C E (iput ip) fs fun _ fs' => Inv T fs' O O P ∧ Keeps fs fs' O :=
  iput_spec laws ⟨hinv.refs.mono (Multiset.subset_cons O ip), hinv.kept⟩ (Multiset.Subset.refl O)

theorem addLink_spec (laws : Laws C E T) (hinv : Inv T fs O H P) (hip : ip ∈ H)
    (hvalid : (fs.icache ip).valid) :
    wp C E (addLink ip) fs fun _ fs' =>
      Inv T fs' O H ((fs.icache ip).inum ::ₘ P) ∧ Keeps fs fs' O := by
  unfold addLink
  apply wp_mark_bind
  intro hok
  have hrefs : Refs (fs.setNlink ip (short ((fs.node ip).nlink + 1))) O H := hinv.refs.setInode rfl
  exact wp_modify ⟨⟨hrefs, laws.bump hinv.refs hip hvalid hinv.kept hok⟩, Keeps.setInode fs rfl⟩

theorem dropLink_spec (laws : Laws C E T) (hinv : Inv T fs O H ((fs.icache ip).inum ::ₘ P))
    (hip : ip ∈ H) (hvalid : (fs.icache ip).valid) :
    wp C E (dropLink ip) fs fun _ fs' => Inv T fs' O H P ∧ Keeps fs fs' O := by
  have hrefs : Refs (fs.setNlink ip (short ((fs.node ip).nlink - 1))) O H := hinv.refs.setInode rfl
  exact wp_modify ⟨⟨hrefs, laws.lower hinv.refs hip hvalid hinv.kept⟩, Keeps.setInode fs rfl⟩

end Cache

section Directories

variable {C : Mark → Prop} {E : Panic → Prop} {T : Fs → Multiset Nat → Prop}
  {fs : Fs} {O H : Multiset Ip} {P : Multiset Nat} {dp ip : Ip} {name : Name}

/-- A name that is found belongs to the entry at the index returned; a name that is not found
    belongs to no entry. -/
theorem dirlookup_spec (laws : Laws C E T) (hinv : Inv T fs O H P) (hdp : dp ∈ O) (name : Name) :
    wp C E (dirlookup dp name) fs fun r fs' =>
      (fs.node dp).type = .dir ∧
        match r with
        | none => fs' = fs ∧ ∀ de ∈ (fs.node dp).entries, de.inum ≠ 0 → ¬ namecmp name de.name
        | some (ip, off) => Inv T fs' (ip ::ₘ O) H P ∧ Same fs fs' O ∧
            ∃ de, (fs.node dp).entries[off]? = some de ∧ de.inum ≠ 0 ∧ namecmp name de.name ∧
              (fs'.icache ip).inum = de.inum := by
  unfold dirlookup
  apply wp_get_bind
  split_ifs with hdir
  · exact wp_stop (laws.halts _ nofun nofun)
  · rw [not_not] at hdir
    split
    next de off hfind =>
      have hpred := List.find?_some hfind
      rw [decide_eq_true_eq] at hpred
      have hget := List.mem_zipIdx_iff_getElem?.1 (List.mem_of_find?_eq_some hfind)
      have hreach : Reach fs de.inum :=
        .entry (hinv.refs.reach_slot hdp) (List.mem_of_getElem? hget) hpred.1
      apply wp_bind (iget_spec laws hinv hreach)
      rintro ip fs' ⟨hinv', hinum, hsame⟩
      exact wp_pure ⟨hdir, hinv', hsame, de, hget, hpred.1, hpred.2, hinum⟩
    next hnone =>
      refine wp_pure ⟨hdir, rfl, fun de hde hne hcmp => ?_⟩
      obtain ⟨off, hoff⟩ := List.mem_iff_getElem?.1 hde
      have hmem : (de, off) ∈ (fs.node dp).entries.zipIdx := List.mem_zipIdx_iff_getElem?.2 hoff
      exact List.find?_eq_none.1 hnone _ hmem (by simp [hne, hcmp])

/-- `dirlink` either enters the inode, using up the links to spare, or finds the name and does
    nothing. -/
theorem dirlink_spec (laws : Laws C E T)
    (hinv : Inv T fs O O ((fs.icache ip).inum ::ₘ
      if (fs.node ip).type = .dir then (fs.icache dp).inum ::ₘ P else P))
    (hip : ip ∈ O) (hdp : dp ∈ O) (name : Name)
    (hnew : (fs.node ip).type = .dir → (fs.node ip).nlink = 1 ∧
      (fs.node ip).entries = dots (fs.icache ip).inum (fs.icache dp).inum) :
    wp C E (dirlink dp name (fs.icache ip).inum) fs fun r fs' => Keeps fs fs' O ∧
      ((r = 0 ∧ Inv T fs' O O P) ∨
        (r = -1 ∧ Inv T fs' O O ((fs.icache ip).inum ::ₘ
          if (fs.node ip).type = .dir then (fs.icache dp).inum ::ₘ P else P))) := by
  unfold dirlink
  apply wp_bind (dirlookup_spec laws hinv hdp name)
  rintro r fs' ⟨hdir, hr⟩
  split
  next r jp off =>
    obtain ⟨hinv', hsame, -⟩ := hr
    apply wp_bind (iput_spec laws hinv' (Multiset.Subset.refl O))
    rintro _ fs'' ⟨hinv'', hkeeps⟩
    exact wp_pure ⟨hsame.keeps.trans hkeeps, Or.inr ⟨rfl, hinv''⟩⟩
  next r =>
    obtain ⟨rfl, hnone⟩ := hr
    apply wp_get_bind
    apply wp_ite
    · intro _
      exact wp_stop (laws.halts _ nofun nofun)
    · intro _
      apply wp_mark_bind
      intro hok
      have hkept := laws.enter hinv.refs hip hdp hdir hnone hnew hok hinv.kept
      apply wp_modify_bind
      exact wp_pure ⟨Keeps.setInode fs' rfl, Or.inl ⟨rfl, hinv.refs.setInode rfl, hkept⟩⟩

end Directories

section Paths

variable {C : Mark → Prop} {E : Panic → Prop} {T : Fs → Multiset Nat → Prop}
  {fs fs' fs'' : Fs} {O : Multiset Ip} {P : Multiset Nat} {ip cwd : Ip}

/-- A path element takes at least one character. -/
theorem skipelem_length {path rest : List Char} {name : Name}
    (h : skipelem path = some (name, rest)) : rest.length < path.length := by
  unfold skipelem at h
  simp only at h
  split_ifs at h with hnil
  obtain ⟨-, rfl⟩ := Prod.mk.inj (Option.some.inj h)
  have hle : (path.dropWhile fun c => decide (c = '/')).length ≤ path.length :=
    (List.dropWhile_suffix _).length_le
  cases hs : path.dropWhile fun c => decide (c = '/') with
  | nil => exact absurd hs hnil
  | cons c s =>
      have hc := List.head_dropWhile_not (fun c => decide (c = '/')) hnil
      have hne : c ≠ '/' := by simpa [hs] using hc
      rw [hs, List.length_cons] at hle
      have h1 := (List.dropWhile_suffix (l := s) fun c => decide (c ≠ '/')).length_le
      have h2 := (List.dropWhile_suffix (l := s.dropWhile fun c => decide (c ≠ '/'))
        fun c => decide (c = '/')).length_le
      rw [List.dropWhile_cons_of_pos (by simpa using hne)]
      omega

/-- The outcome of a walk: a reference to the inode it came to, if it came to one. -/
structure Found (T : Fs → Multiset Nat → Prop) (fs : Fs) (O : Multiset Ip) (P : Multiset Nat)
    (r : Option Ip) (fs' : Fs) : Prop where
  keeps : Keeps fs fs' O
  inv : Inv T fs' (r.elim O (· ::ₘ O)) O P

theorem Found.after {r : Option Ip} (h : Keeps fs fs' O) (hr : Found T fs' O P r fs'') :
    Found T fs O P r fs'' :=
  ⟨h.trans hr.keeps, hr.inv⟩

/-- A walk gives up the reference it started with, for one to the inode it ends at. -/
theorem namexLoop_spec (laws : Laws C E T) (nameiparent : Bool) (n : Nat) (path : List Char)
    (name : Name) (hlen : path.length < n) (hinv : Inv T fs (ip ::ₘ O) O P) :
    wp C E (namexLoop nameiparent n path name ip) fs fun r fs' =>
      Found T fs O P (r.map Prod.fst) fs' := by
  induction n generalizing fs path name ip with
  | zero => omega
  | succ n ih =>
      have hrefl := Multiset.Subset.refl O
      have hip := Multiset.mem_cons_self ip O
      unfold namexLoop
      split
      next =>
        apply wp_ite
        · intro _
          apply wp_bind (iput_spec laws hinv hrefl)
          rintro _ fs' ⟨hinv', hkeeps⟩
          exact wp_pure ⟨hkeeps, hinv'⟩
        · intro _
          exact wp_pure ⟨Keeps.refl fs O, hinv⟩
      next name path' hskip =>
        have hshort := skipelem_length hskip
        apply wp_bind (ilock_spec laws hinv hip)
        rintro _ fs' ⟨hinv', hsame, -⟩
        have hkeeps' := hsame.keeps.of_cons
        apply wp_get_bind
        apply wp_ite
        · intro _
          apply wp_bind (iput_held laws hinv')
          rintro _ fs'' ⟨hinv'', hkeeps⟩
          exact wp_pure ⟨hkeeps'.trans hkeeps, hinv''⟩
        · intro _
          apply wp_ite
          · intro _
            exact wp_pure ⟨hkeeps', hinv'.refs.mono (Multiset.subset_cons O ip), hinv'.kept⟩
          · intro _
            apply wp_bind (dirlookup_spec laws hinv' hip name)
            rintro r fs₁ ⟨-, hr⟩
            split
            next =>
              obtain ⟨rfl, -⟩ := hr
              apply wp_bind (iput_held laws hinv')
              rintro _ fs₂ ⟨hinv₂, hkeeps⟩
              exact wp_pure ⟨hkeeps'.trans hkeeps, hinv₂⟩
            next next off =>
              -- the reference to the directory is dropped before the next inode is locked
              obtain ⟨hinv₁, hsame₁, -⟩ := hr
              have hrefs₁ := hinv₁.refs.mono (Multiset.subset_cons O ip)
              rw [Multiset.cons_swap] at hrefs₁
              apply wp_bind (iput_spec laws ⟨hrefs₁, hinv₁.kept⟩ (Multiset.subset_cons O next))
              rintro _ fs₂ ⟨hinv₂, hkeeps₂⟩
              apply wp_mono (ih path' name (by omega) hinv₂)
              intro r fs₃ hr₃
              exact hr₃.after ((hkeeps'.trans hsame₁.keeps.of_cons).trans hkeeps₂.of_cons)

theorem namex_spec (laws : Laws C E T) (nameiparent : Bool) (path : List Char)
    (hinv : Inv T fs O O P) (hcwd : cwd ∈ O) :
    wp C E (namex cwd path nameiparent) fs fun r fs' => Found T fs O P (r.map Prod.fst) fs' := by
  have hloop : ∀ ip fs', Inv T fs' (ip ::ₘ O) O P → Same fs fs' O →
      wp C E (namexLoop nameiparent (path.length + 1) path [] ip) fs' fun r fs'' =>
        Found T fs O P (r.map Prod.fst) fs'' := by
    intro ip fs' hinv' hsame
    apply wp_mono (namexLoop_spec laws nameiparent _ path [] (Nat.lt_succ_self _) hinv')
    intro r fs'' hr
    exact hr.after hsame.keeps
  unfold namex
  apply wp_ite
  · intro _
    apply wp_bind (iget_spec laws hinv .root)
    rintro ip fs' ⟨hinv', -, hsame⟩
    exact hloop ip fs' hinv' hsame
  · intro _
    apply wp_bind (idup_spec laws hinv hcwd)
    rintro ip fs' ⟨rfl, hinv', hsame⟩
    exact hloop ip fs' hinv' hsame

theorem namei_spec (laws : Laws C E T) (path : List Char) (hinv : Inv T fs O O P)
    (hcwd : cwd ∈ O) : wp C E (namei cwd path) fs fun r fs' => Found T fs O P r fs' := by
  unfold namei
  apply wp_bind (namex_spec laws false path hinv hcwd)
  intro r fs' hr
  exact wp_pure hr

theorem nameiparent_spec (laws : Laws C E T) (path : List Char) (hinv : Inv T fs O O P)
    (hcwd : cwd ∈ O) :
    wp C E (nameiparent cwd path) fs fun r fs' => Found T fs O P (r.map Prod.fst) fs' :=
  namex_spec laws true path hinv hcwd

end Paths

end Cs350.FileSys
