import Cs350.FileSys.Calm

set_option autoImplicit false

/-! # Names that are not made or removed

The calls of `sysfile.c` that take or make names, where they fail: `sys_link` takes back the link that
it added, and the others drop what they hold. `create` either has found the file, or the name, or has
made a new inode. -/

namespace Cs350.FileSys

open Prog

/-! ## Link and unlink -/

section Names

variable {fs fs' : Fs} {O H : Multiset Ip} {P : Multiset Nat} {ip dp cwd : Ip}

theorem ilock_found_calm (ip : Ip) (h : Inv Guarded fs (ip ::ₘ O) O P) :
    returns (ilock ip) fs fun ws _ fs' => ws = [] ∧ Inv Guarded fs' (ip ::ₘ O) (ip ::ₘ O) P ∧
      Same fs fs' (ip ::ₘ O) ∧ (fs'.icache ip).valid :=
  ilock_calm h (Multiset.mem_cons_self ip O)

/-- `dirlink` that finds the name. -/
theorem dirlink_calm (h : Inv Guarded fs O H P) (hdp : dp ∈ O) (name : Name) (inum : Nat) :
    returns (dirlink dp name inum) fs fun ws r fs' => r < 0 → ws = [] ∧ Inv Guarded fs' O H P ∧
      Same fs fs' O := by
  unfold dirlink
  apply returns_bind (dirlookup_calm h hdp name)
  rintro _ r fs₁ ⟨rfl, hr⟩
  split
  next ip off =>
    obtain ⟨-, hinv₁, hsame₁, hspare₁⟩ := hr
    apply returns_bind (iput_calm hinv₁ h.refs.sub hspare₁)
    rintro _ _ fs₂ ⟨rfl, hinv₂, hsame₂⟩
    exact returns_pure fun _ => ⟨rfl, hinv₂, hsame₁.trans hsame₂⟩
  next =>
    apply returns_get_bind
    apply returns_ite
    · exact fun _ => returns_stop _
    · intro _
      apply returns_mark_bind
      apply returns_modify_bind
      exact returns_pure fun hneg => absurd hneg (by decide)

/-- `sys_link` after `bad:`, from a state in which the link count is one too high. -/
theorem linkBad_calm {fs₀ : Fs} (hspare : Spare fs₀ O ip)
    (hrange : -32768 ≤ (fs₀.node ip).nlink ∧ (fs₀.node ip).nlink ≤ 32767)
    (hsame : Same (fs₀.setNlink ip (short ((fs₀.node ip).nlink + 1))) fs (ip ::ₘ O))
    (h : Inv Guarded fs (ip ::ₘ O) (ip ::ₘ O) ((fs₀.icache ip).inum ::ₘ 0)) :
    returns (linkBad ip) fs fun ws _ fs' => ws = [] ∧ Same fs₀ fs' O := by
  have hip := Multiset.mem_cons_self ip O
  unfold linkBad
  have h' : Inv Guarded fs (ip ::ₘ O) O ((fs₀.icache ip).inum ::ₘ 0) :=
    ⟨h.refs.mono (Multiset.subset_cons O ip), h.kept⟩
  apply returns_bind (ilock_found_calm ip h')
  rintro _ _ fs₁ ⟨rfl, hinv₁, hsame₁, hvalid₁⟩
  have hall := hsame.trans hsame₁
  have hinum : (fs₁.icache ip).inum = (fs₀.icache ip).inum := hall.slot ip hip
  have hnode : fs₁.node ip = { fs₀.node ip with nlink := short ((fs₀.node ip).nlink + 1) } := by
    rw [hall.node hip]
    exact Function.update_self _ _ _
  rw [← hinum] at hinv₁
  have hspec := returns_of_wp (dropLink_spec laws_guarded hinv₁ hip hvalid₁) fun _ => trivial
  have hrun : returns (dropLink ip) fs₁ fun ws _ fs' => ws = [] ∧
      fs' = fs₁.setNlink ip (short ((fs₁.node ip).nlink - 1)) := returns_modify ⟨rfl, rfl⟩
  apply returns_bind (returns_and hrun hspec)
  rintro _ _ _ ⟨⟨rfl, rfl⟩, hinv₂, -⟩
  -- the inode is as it was
  have hback : (fs₁.setNlink ip (short ((fs₁.node ip).nlink - 1))).inode = fs₀.inode := by
    show Function.update fs₁.inode (fs₁.icache ip).inum _ = _
    rw [hall.inode, hinum, hnode, short_undo hrange]
    show Function.update (Function.update fs₀.inode _ _) _ _ = _
    rw [Function.update_idem]
    exact Function.update_eq_self _ _
  have hsame₂ : Same fs₀ (fs₁.setNlink ip (short ((fs₁.node ip).nlink - 1))) (ip ::ₘ O) :=
    ⟨hback, hall.ninodes, hall.slot, hall.valid⟩
  apply returns_bind (iput_calm_held hinv₂ (hspare.of_same hsame₂ hip))
  rintro _ _ fs₃ ⟨rfl, -, hsame₃⟩
  exact returns_pure ⟨rfl, hsame₂.of_cons.trans hsame₃⟩

/-- A failed call of `fs.c` has changed nothing. -/
def FailsCalm (fs : Fs) (O : Multiset Ip) (ws : List Mark) (r : Int) (fs' : Fs) : Prop :=
  r = -1 → Quiet ws ∧ Same fs fs' O

theorem sysLink_calm (h : Inv Guarded fs O O 0) (hcwd : cwd ∈ O) (old new : List Char) :
    returns (sysLink cwd old new) fs (FailsCalm fs O) := by
  unfold sysLink
  apply returns_bind (namei_calm old h hcwd)
  intro ws r fs₁ hr
  split
  next =>
    refine returns_pure fun _ => ⟨?_, hr.same⟩
    rw [List.append_nil]
    exact hr.quiet
  next ip =>
    have hip := Multiset.mem_cons_self ip O
    have hinv₁ : Inv Guarded fs₁ (ip ::ₘ O) O 0 := hr.inv
    apply returns_bind (ilock_found_calm ip hinv₁)
    rintro _ _ fs₂ ⟨rfl, hinv₂, hsame₂, hvalid₂⟩
    have hspare₂ := (hr.spare ip rfl).of_same hsame₂ hip
    have hback := hr.same.trans hsame₂.of_cons
    apply returns_get_bind
    apply returns_ite
    · intro _
      apply returns_bind (iput_calm_held hinv₂ hspare₂)
      rintro _ _ fs₃ ⟨rfl, -, hsame₃⟩
      exact returns_pure fun _ => ⟨hr.quiet.append quiet_nil, hback.trans hsame₃⟩
    · intro _
      have hrange := hinv₂.kept.range (fs₂.icache ip).inum
      have hspec := returns_of_wp (addLink_spec laws_guarded hinv₂ hip hvalid₂) fun _ => trivial
      have hrun : returns (addLink ip) fs₂ fun ws _ fs' => ws = [.bumps (fs₂.node ip).nlink] ∧
          fs' = fs₂.setNlink ip (short ((fs₂.node ip).nlink + 1)) :=
        returns_mark_bind (returns_modify ⟨rfl, rfl⟩)
      apply returns_bind (returns_and hrun hspec)
      rintro _ _ _ ⟨⟨rfl, rfl⟩, hinv₃, -⟩
      apply returns_bind (nameiparent_calm new hinv₃ (Multiset.mem_cons_of_mem hcwd))
      intro ws₄ r fs₄ hr₄
      -- every way out from here leads through the rollback, or returns 0
      have hquiet : ∀ ws', ws' = [] → Quiet (ws ++ ([] ++ ([.bumps (fs₂.node ip).nlink] ++
          (ws₄ ++ ws')))) := by
        rintro _ rfl
        exact hr.quiet.append ((hr₄.quiet.append quiet_nil).bumps _)
      split
      next =>
        apply returns_mono (linkBad_calm hspare₂ hrange hr₄.same hr₄.inv)
        rintro _ r fs₅ ⟨rfl, hsame₅⟩ _
        exact ⟨hquiet _ rfl, hback.trans hsame₅⟩
      next dp name =>
        have hdp := Multiset.mem_cons_self dp (ip ::ₘ O)
        apply returns_bind (ilock_found_calm dp (O := ip ::ₘ O) hr₄.inv)
        rintro _ _ fs₅ ⟨rfl, hinv₅, hsame₅, -⟩
        have hspare₅ := (hr₄.spare dp rfl).of_same hsame₅ hdp
        apply returns_get_bind
        apply returns_bind (dirlink_calm hinv₅ hdp name _)
        intro ws₆ r₆ fs₆ hr₆
        apply returns_ite
        · intro hneg
          obtain ⟨rfl, hinv₆, hsame₆⟩ := hr₆ hneg
          apply returns_bind (iput_calm_held hinv₆ (hspare₅.of_same hsame₆ hdp))
          rintro _ _ fs₇ ⟨rfl, hinv₇, hsame₇⟩
          have hsame := ((hr₄.same.trans hsame₅.of_cons).trans hsame₆.of_cons).trans hsame₇
          apply returns_mono (linkBad_calm hspare₂ hrange hsame hinv₇)
          rintro _ r fs₈ ⟨rfl, hsame₈⟩ _
          exact ⟨hquiet _ rfl, hback.trans hsame₈⟩
        · intro _
          apply returns_bind (returns_true _ _)
          rintro _ _ fs₇ -
          apply returns_bind (returns_true _ _)
          rintro _ _ fs₈ -
          exact returns_pure fun heq => absurd heq (by decide)

theorem unlinkEntry_zero (dp ip : Ip) (off : Nat) (fs : Fs) :
    returns (unlinkEntry dp ip off) fs fun _ r _ => r = 0 := by
  have hrest : ∀ fs', returns (do
      iunlockput dp
      dropLink ip
      iunlockput ip
      pure (0 : Int) : FsM Int) fs' fun _ r _ => r = 0 := by
    intro fs'
    apply returns_bind (returns_true _ _)
    rintro _ _ _ -
    apply returns_bind (returns_true _ _)
    rintro _ _ _ -
    apply returns_bind (returns_true _ _)
    rintro _ _ _ -
    exact returns_pure rfl
  unfold unlinkEntry
  apply returns_modify_bind
  apply returns_get_bind
  apply returns_ite
  · intro _
    apply returns_bind (returns_true _ _)
    rintro _ _ fs' -
    exact hrest fs'
  · exact fun _ => hrest _

theorem sysUnlink_calm (h : Inv Guarded fs O O 0) (hcwd : cwd ∈ O) (path : List Char) :
    returns (sysUnlink cwd path) fs (FailsCalm fs O) := by
  unfold sysUnlink
  apply returns_bind (nameiparent_calm path h hcwd)
  intro ws r fs₁ hr
  split
  next =>
    refine returns_pure fun _ => ⟨?_, hr.same⟩
    rw [List.append_nil]
    exact hr.quiet
  next dp name =>
    have hdp := Multiset.mem_cons_self dp O
    apply returns_bind (ilock_found_calm dp hr.inv)
    rintro _ _ fs₂ ⟨rfl, hinv₂, hsame₂, -⟩
    have hspare₂ := (hr.spare dp rfl).of_same hsame₂ hdp
    have hback := hr.same.trans hsame₂.of_cons
    have hquiet : Quiet (ws ++ []) := hr.quiet.append quiet_nil
    apply returns_ite
    · intro _
      apply returns_bind (iput_calm_held hinv₂ hspare₂)
      rintro _ _ fs₃ ⟨rfl, -, hsame₃⟩
      exact returns_pure fun _ => ⟨hquiet, hback.trans hsame₃⟩
    · intro _
      apply returns_bind (dirlookup_calm hinv₂ hdp name)
      rintro _ r fs₃ ⟨rfl, hr₃⟩
      split
      next =>
        obtain ⟨rfl, -⟩ := hr₃
        apply returns_bind (iput_calm_held hinv₂ hspare₂)
        rintro _ _ fs₃ ⟨rfl, -, hsame₃⟩
        exact returns_pure fun _ => ⟨hquiet, hback.trans hsame₃⟩
      next ip off =>
        obtain ⟨-, hinv₃, hsame₃, hspare₃⟩ := hr₃
        have hip := Multiset.mem_cons_self ip (dp ::ₘ O)
        apply returns_bind (ilock_found_calm ip hinv₃)
        rintro _ _ fs₄ ⟨rfl, hinv₄, hsame₄, -⟩
        apply returns_get_bind
        apply returns_ite
        · exact fun _ => returns_stop _
        · intro _
          apply returns_ite
          · intro _
            apply returns_bind (iput_calm_held hinv₄ (hspare₃.of_same hsame₄ hip))
            rintro _ _ fs₅ ⟨rfl, hinv₅, hsame₅⟩
            have hsame := (hsame₃.trans hsame₄.of_cons).trans hsame₅
            apply returns_bind (iput_calm_held hinv₅ (hspare₂.of_same hsame hdp))
            rintro _ _ fs₆ ⟨rfl, -, hsame₆⟩
            exact returns_pure fun _ => ⟨hquiet, (hback.trans hsame.of_cons).trans hsame₆⟩
          · intro _
            apply returns_mono (unlinkEntry_zero dp ip off fs₄)
            intro _ r _ hzero heq
            exact absurd (hzero.symm.trans heq) (by decide)

end Names

/-! ## Create -/

/-- The parent of the path exists, and has no entry with its last name. -/
def Missing (cwd : Ip) (path : List Char) (fs : Fs) : Prop :=
  ∃ ws dp name fs', nameiparent cwd path fs = (ws, .ok (some (dp, name), fs')) ∧
    ¬ HasName fs' dp name

/-- Slot `ip` holds a new inode, which has a link. -/
structure Made (fs fs' : Fs) (ip : Ip) : Prop where
  old : (fs.inode (fs'.icache ip).inum).type = .free
  new : (fs'.node ip).type ≠ .free
  linked : (fs'.node ip).nlink ≠ 0

section Create

variable {fs fs' : Fs} {O H : Multiset Ip} {P : Multiset Nat} {ip dp cwd : Ip}

theorem missing_iff {ws : List Mark} {path : List Char} {name : Name}
    (hrun : nameiparent cwd path fs = (ws, .ok (some (dp, name), fs'))) :
    Missing cwd path fs ↔ ¬ HasName fs' dp name := by
  constructor
  · rintro ⟨ws', dp', name', fs'', hrun', hnone⟩
    cases hrun.symm.trans hrun'
    exact hnone
  · exact fun hnone => ⟨ws, dp, name, fs', hrun, hnone⟩

theorem HasName.of_same {name : Name} (h : HasName fs' dp name) (hsame : Same fs fs' O)
    (hdp : dp ∈ O) : HasName fs dp name := by
  unfold HasName at h ⊢
  rwa [hsame.node hdp] at h

/-- What a change of one inode leaves alone. -/
structure Apart (i : Nat) (fs fs' : Fs) : Prop where
  slot : ∀ jp, (fs'.icache jp).inum = (fs.icache jp).inum
  inode : ∀ j, j ≠ i → fs'.inode j = fs.inode j

theorem Apart.node {i : Nat} (h : Apart i fs fs') (hip : (fs.icache ip).inum ≠ i) :
    fs'.node ip = fs.node ip := by
  rw [Fs.node, h.slot, h.inode _ hip, Fs.node]

theorem dirlink_apart (fs : Fs) (dp : Ip) (name : Name) (inum : Nat) :
    returns (dirlink dp name inum) fs fun _ r fs' => r < 0 ∨ Apart (fs.icache dp).inum fs fs' := by
  have hnone : returns (dirlookup dp name) fs fun _ r fs' => r = none → fs' = fs := by
    unfold dirlookup
    apply returns_get_bind
    split_ifs
    · exact returns_stop _
    · split
      next =>
        apply returns_bind (returns_true _ _)
        rintro _ ip fs' -
        exact returns_pure fun heq => nomatch heq
      next => exact returns_pure fun _ => rfl
  unfold dirlink
  apply returns_bind hnone
  intro _ r fs₁ hr
  split
  next =>
    apply returns_bind (returns_true _ _)
    rintro _ _ fs₂ -
    exact returns_pure (Or.inl (by decide))
  next =>
    obtain rfl := hr rfl
    apply returns_get_bind
    apply returns_ite
    · exact fun _ => returns_stop _
    · intro _
      apply returns_mark_bind
      apply returns_modify_bind
      exact returns_pure (Or.inr ⟨fun _ => rfl, fun j hj => Function.update_of_ne hj _ _⟩)

theorem iput_apart (fs : Fs) (ip : Ip) :
    returns (iput ip) fs fun _ _ fs' => Apart (fs.icache ip).inum fs fs' := by
  have hdecref : ∀ (fs : Fs) jp, ((fs.decref ip).icache jp).inum = (fs.icache jp).inum := by
    intro fs jp
    by_cases hj : jp = ip
    · rw [hj, Fs.decref, setSlot_icache_self]
    · rw [Fs.decref, setSlot_icache_of_ne _ _ hj]
  unfold iput
  apply returns_get_bind
  split_ifs
  · apply returns_mark_bind
    apply returns_modify_bind
    refine returns_modify ⟨fun jp => ?_, fun j hj => Function.update_of_ne hj _ _⟩
    rw [hdecref]
    by_cases hj : jp = ip
    · rw [hj, Fs.freeInode, setSlot_icache_self]
    · rw [Fs.freeInode, setSlot_icache_of_ne _ _ hj]
      rfl
  · exact returns_modify ⟨hdecref fs, fun _ _ => rfl⟩

theorem createNew_made (h : Refs fs (dp ::ₘ O) (dp ::ₘ O)) (name : Name) (major minor : Int) :
    returns (createNew dp name .file major minor) fs fun _ ip fs' => Made fs fs' ip := by
  unfold createNew
  have halloc := returns_of_wp (ialloc_spec (C := fun _ => True) (E := fun _ => True) trivial
    trivial h .file) fun _ => trivial
  apply returns_bind halloc
  rintro _ ip _ ⟨i, hfree, hpos, hlt, hzero, rfl⟩
  obtain ⟨hne, hinum⟩ := h.new_ne (Multiset.mem_cons_self dp O) hfree hzero
  have htype : ∀ n : Inode, n.type = .file → (((fs.setInode i n).setSlot ip
      { inum := i, ref := 1, valid := false }).node ip).type ≠ .free := by
    intro n hn
    rw [newSlot_node, hn]
    nofun
  apply returns_bind (returns_of_wp (C := fun _ => True) (E := fun _ => True)
    (ilock_fresh _ (by rw [setSlot_icache_self]) (by rw [setSlot_icache_self]) (htype _ rfl))
    fun _ => trivial)
  rintro _ _ _ rfl
  rw [setSlot_icache_self]
  simp only [newSlot_locked]
  apply returns_modify_bind
  rw [withNew_setInode, withNew_node, if_neg (by decide)]
  have hdp := withNew_icache_of_ne fs i
    { type := .file, major := major, minor := minor, nlink := 1, entries := [] } hne
  generalize hnew : fs.withNew i ip
    { type := .file, major := major, minor := minor, nlink := 1, entries := [] } = fs₁ at hdp ⊢
  have hself : (fs₁.icache ip).inum = i := by rw [← hnew, withNew_icache]
  have hdp : (fs₁.icache dp).inum = (fs.icache dp).inum := congrArg Slot.inum hdp
  apply returns_get_bind
  apply returns_bind (dirlink_apart fs₁ dp name _)
  rintro _ r fs₂ hr₂
  apply returns_ite
  · exact fun _ => returns_stop _
  · intro hr
    have hapart₂ := hr₂.resolve_left hr
    apply returns_bind (iput_apart fs₂ dp)
    rintro _ _ fs₃ hapart₃
    have hinum₁ : (fs₁.icache ip).inum ≠ (fs₁.icache dp).inum := by
      rw [hself, hdp]
      exact hinum.symm
    have hinum₂ : (fs₂.icache ip).inum ≠ (fs₂.icache dp).inum := by
      rw [hapart₂.slot, hapart₂.slot]
      exact hinum₁
    have hkeep : fs₃.node ip = fs₁.node ip :=
      (hapart₃.node hinum₂).trans (hapart₂.node hinum₁)
    rw [← hnew, withNew_node] at hkeep
    refine returns_pure ⟨?_, ?_, ?_⟩
    · rw [hapart₃.slot, hapart₂.slot, hself]
      exact hfree
    · rw [hkeep]
      nofun
    · rw [hkeep]
      exact Int.one_ne_zero

/-- `create` that returns nothing has done nothing; otherwise it has found the file, or made it. -/
theorem create_calm (h : Inv Guarded fs O O 0) (hcwd : cwd ∈ O) (path : List Char) (type : IType)
    (major minor : Int) :
    returns (create cwd path type major minor) fs fun ws r fs' =>
      (¬ (type = .file ∧ Missing cwd path fs) → r = none ∨ type = .file →
        Quiet ws ∧ Same fs fs' O ∧ ∀ ip, r = some ip → Spare fs' O ip) ∧
      (type = .file ∧ Missing cwd path fs → ∃ ip, r = some ip ∧ Made fs fs' ip) := by
  unfold create
  apply returns_bind (returns_and (returns_run _ _) (nameiparent_calm path h hcwd))
  rintro ws r fs₁ ⟨hrun, hr⟩
  split
  next =>
    refine returns_pure ⟨fun _ _ => ⟨?_, hr.same, fun _ heq => nomatch heq⟩, fun hmiss => ?_⟩
    · rw [List.append_nil]
      exact hr.quiet
    · obtain ⟨-, ws', dp, name, fs', hrun', -⟩ := hmiss
      exact nomatch hrun.symm.trans hrun'
  next dp name =>
    have hdp := Multiset.mem_cons_self dp O
    have hmissing := missing_iff hrun
    apply returns_bind (ilock_found_calm dp hr.inv)
    rintro _ _ fs₂ ⟨rfl, hinv₂, hsame₂, hvalid₂⟩
    have hspare₂ := (hr.spare dp rfl).of_same hsame₂ hdp
    have hback := hr.same.trans hsame₂.of_cons
    have hquiet : Quiet (ws ++ []) := hr.quiet.append quiet_nil
    apply returns_bind (dirlookup_calm hinv₂ hdp name)
    rintro _ r fs₃ ⟨rfl, hr₃⟩
    split
    next ip off =>
      obtain ⟨hname, hinv₃, hsame₃, hspare₃⟩ := hr₃
      have hnot : ¬ (type = .file ∧ Missing cwd path fs) :=
        fun hmiss => hmissing.1 hmiss.2 (hname.of_same hsame₂ hdp)
      have hrefs₃ := hinv₃.refs.mono (Multiset.subset_cons O dp)
      rw [Multiset.cons_swap] at hrefs₃
      have hdir : Spare fs₃ (ip ::ₘ O) dp :=
        (hspare₂.of_same hsame₃ hdp).imp_right (Or.imp_right Multiset.mem_cons_of_mem)
      apply returns_bind (iput_calm ⟨hrefs₃, hinv₃.kept⟩ (Multiset.subset_cons O ip) hdir)
      rintro _ _ fs₄ ⟨rfl, hinv₄, hsame₄⟩
      have hip := Multiset.mem_cons_self ip O
      apply returns_bind (ilock_found_calm ip hinv₄)
      rintro _ _ fs₅ ⟨rfl, hinv₅, hsame₅, -⟩
      have hspare₅ : Spare fs₅ O ip := by
        have hip₃ : Spare fs₃ O ip := by
          rcases hspare₃ with hfree | hlinks | hmem
          · exact Or.inl hfree
          · exact Or.inr (Or.inl hlinks)
          · rcases Multiset.mem_cons.1 hmem with rfl | hmem
            · exact hspare₂.of_same hsame₃ hdp
            · exact Spare.of_mem fs₃ hmem
        exact (hip₃.of_same hsame₄ hip).of_same hsame₅ hip
      have hsame := ((hback.trans hsame₃.of_cons).trans hsame₄.of_cons).trans hsame₅.of_cons
      apply returns_get_bind
      apply returns_ite
      · intro _
        refine returns_pure ⟨fun _ _ => ⟨hquiet, hsame, fun jp heq => ?_⟩, fun hmiss => ?_⟩
        · exact Option.some.inj heq ▸ hspare₅
        · exact absurd hmiss hnot
      · intro _
        apply returns_bind (iput_calm_held hinv₅ hspare₅)
        rintro _ _ fs₆ ⟨rfl, -, hsame₆⟩
        refine returns_pure ⟨fun _ _ => ⟨hquiet, hsame.trans hsame₆, fun _ heq => nomatch heq⟩, ?_⟩
        exact fun hmiss => absurd hmiss hnot
    next =>
      obtain ⟨rfl, hnone⟩ := hr₃
      have hmiss : Missing cwd path fs := hmissing.2 fun hname => hnone (by
        unfold HasName at hname ⊢
        rwa [hsame₂.node hdp])
      by_cases htype : type = .file
      · subst htype
        apply returns_bind (createNew_made hinv₂.refs name major minor)
        rintro _ ip fs₄ hmade
        refine returns_pure ⟨fun hnot => absurd ⟨rfl, hmiss⟩ hnot, fun _ => ⟨ip, rfl, ?_⟩⟩
        have hold := hmade.old
        rw [hback.inode] at hold
        exact ⟨hold, hmade.new, hmade.linked⟩
      · apply returns_bind (returns_true _ _)
        rintro _ ip fs₄ -
        refine returns_pure ⟨fun _ hr => ?_, fun hmiss => absurd hmiss.1 htype⟩
        rcases hr with heq | heq
        · exact nomatch heq
        · exact absurd heq htype

theorem create_put_calm (h : Inv Guarded fs O O 0) (hcwd : cwd ∈ O) (path : List Char)
    (type : IType) (htype : type ≠ .file) (major minor : Int) :
    returns (do
      match ← create cwd path type major minor with
      | none => pure (-1 : Int)
      | some ip => do
          iunlockput ip
          pure 0) fs (FailsCalm fs O) := by
  apply returns_bind (create_calm h hcwd path type major minor)
  rintro ws r fs₁ ⟨hcalm, -⟩
  split
  next =>
    obtain ⟨hquiet, hsame, -⟩ := hcalm (fun hmiss => htype hmiss.1) (Or.inl rfl)
    exact returns_pure fun _ => ⟨hquiet.append quiet_nil, hsame⟩
  next ip =>
    apply returns_bind (returns_true _ _)
    rintro _ _ fs₂ -
    exact returns_pure fun heq => absurd heq (by decide)

/-- An `open` that creates a file. -/
def Creates (cwd : Ip) (path : List Char) (omode : BitVec 32) (fs : Fs) : Prop :=
  omode &&& oCreate ≠ 0 ∧ Missing cwd path fs

theorem openInode_calm (h : Inv Guarded fs O O 0) (hcwd : cwd ∈ O) (path : List Char)
    (omode : BitVec 32) :
    returns (openInode cwd path omode) fs fun ws r fs' =>
      (¬ Creates cwd path omode fs →
        Quiet ws ∧ Same fs fs' O ∧ ∀ ip, r = some ip → Spare fs' O ip) ∧
      (Creates cwd path omode fs → ∃ ip, r = some ip ∧ Made fs fs' ip) := by
  unfold openInode
  apply returns_ite
  · intro hcreate
    apply returns_mono (create_calm h hcwd path .file 0 0)
    rintro ws r fs₁ ⟨hcalm, hmade⟩
    refine ⟨fun hnot => hcalm (fun hmiss => hnot ⟨hcreate, hmiss.2⟩) (Or.inr rfl), ?_⟩
    exact fun hcreates => hmade ⟨rfl, hcreates.2⟩
  · intro hcreate
    apply returns_bind (namei_calm path h hcwd)
    intro ws r fs₁ hr
    split
    next =>
      refine returns_pure ⟨fun _ => ⟨hr.quiet.append quiet_nil, hr.same, fun _ h => nomatch h⟩, ?_⟩
      exact fun hcreates => absurd hcreates.1 hcreate
    next ip =>
      apply returns_bind (ilock_found_calm ip hr.inv)
      rintro _ _ fs₂ ⟨rfl, hinv₂, hsame₂, -⟩
      have hspare₂ := (hr.spare ip rfl).of_same hsame₂ (Multiset.mem_cons_self ip O)
      have hback := hr.same.trans hsame₂.of_cons
      have hquiet := hr.quiet.append quiet_nil
      apply returns_get_bind
      apply returns_ite
      · intro _
        apply returns_bind (iput_calm_held hinv₂ hspare₂)
        rintro _ _ fs₃ ⟨rfl, -, hsame₃⟩
        refine returns_pure ⟨fun _ => ⟨hquiet, hback.trans hsame₃, fun _ h => nomatch h⟩, ?_⟩
        exact fun hcreates => absurd hcreates.1 hcreate
      · intro _
        refine returns_pure ⟨fun _ => ⟨hquiet, hback, fun jp heq => ?_⟩, ?_⟩
        · exact Option.some.inj heq ▸ hspare₂
        · exact fun hcreates => absurd hcreates.1 hcreate

end Create

end Cs350.FileSys
