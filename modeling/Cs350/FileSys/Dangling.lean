import Cs350.FileSys.Calls
import Cs350.FileSys.TreeSteps

set_option autoImplicit false

/-! # Dangling entries

`Sound` says that every inode a walk can come to is allocated, on top of the tree being well formed.
It satisfies the laws under a condition on the marks: when `iput` frees an inode, no other directory
within reach has it as its `..`, and a link count that is incremented has room.

`sys_unlink` does not see to the first. A directory may be removed while a process is still in it,
its parent may be removed next, and then `..` of the first names an inode that is free. -/

namespace Cs350.FileSys

open Prog Transition

structure Sound (fs : Fs) (P : Multiset Nat) : Prop where
  tree : Tree false fs.ninodes fs.inode P
  closed : ∀ i, Reach fs i → Allocated fs.inode i

/-- The condition on the marked points. When `iput` frees an inode, no other directory within reach
    (with the reference that is being dropped left out) has it as its `..`; and a link count that is
    incremented is below the largest `short`. -/
def Mark.Ok : Mark → Prop
  | .frees fs ip => ∀ d, Reach (fs.decref ip) d → d ≠ (fs.icache ip).inum →
      dotdot (fs.inode d).entries ≠ (fs.icache ip).inum
  | .bumps nlink => nlink < 32767
  | .enters _ _ _ => True

/-- The ways to stop other than `panic("ilock: no type")`. -/
def Panic.Benign (e : Panic) : Prop := e ≠ .noType ∧ e ≠ .stuck

section Laws

variable {fs : Fs} {O H : Multiset Ip} {P P' : Multiset Nat} {ip dp : Ip} {i : Nat} {node : Inode}

theorem Sound.setSlot (h : Sound fs P) (slot : Slot) (hreach : 0 < slot.ref → Reach fs slot.inum) :
    Sound (fs.setSlot ip slot) P :=
  ⟨h.tree, fun i hi => h.closed i (hi.of_setSlot hreach)⟩

/-- A change of one inode that stays allocated and names nothing new. -/
theorem Sound.setInode (h : Sound fs P)
    (htree : Tree false fs.ninodes (Function.update fs.inode i node) P')
    (htype : node.type ≠ .free)
    (hentries : Reach fs i → ∀ de ∈ node.entries, de.inum ≠ 0 → Reach fs de.inum) :
    Sound (fs.setInode i node) P' := by
  refine ⟨htree, fun j hj => ?_⟩
  show (Function.update fs.inode i node j).type ≠ .free
  by_cases hji : j = i
  · subst hji
    rw [Function.update_self]
    exact htype
  · rw [Function.update_of_ne hji]
    exact h.closed j (hj.of_setInode hentries)

/-- The root has a link. -/
theorem Sound.root_nlink (h : Sound fs P) : 0 < (fs.inode rootIno).nlink := by
  have hlinks := (h.tree.links rootIno (h.closed _ .root)).1
  rw [surplus, if_pos rfl] at hlinks
  omega

/-- The freeing branch of `iput`, under the condition on marks. -/
theorem Sound.free (hrefs : Refs fs (ip ::ₘ O) H) (h : Sound fs P)
    (hvalid : (fs.icache ip).valid) (hzero : (fs.node ip).nlink = 0)
    (hone : (fs.icache ip).ref = 1) (hok : (Mark.frees fs ip).Ok) :
    Sound ((fs.freeInode ip).decref ip) P := by
  have halloc := hrefs.valid ip (by omega) hvalid
  have hnode : ∀ j, j ≠ (fs.icache ip).inum →
      ((fs.freeInode ip).decref ip).inode j = fs.inode j := by
    intro j hj
    rw [freeInode_inode, Function.update_of_ne hj]
  have hdecref : ∀ j, Reach (fs.decref ip) j → Reach fs j :=
    fun j hj => hj.of_setSlot fun _ => hrefs.reach_slot (Multiset.mem_cons_self ip O)
  -- nothing that can still be reached is the freed inode
  have hreach : ∀ j, Reach ((fs.freeInode ip).decref ip) j →
      j ≠ (fs.icache ip).inum ∧ Reach (fs.decref ip) j := by
    intro j hj
    induction hj with
    | root =>
        refine ⟨fun heq => ?_, .root⟩
        have hroot := h.root_nlink
        rw [heq] at hroot
        have hzero : (fs.inode (fs.icache ip).inum).nlink = 0 := hzero
        omega
    | inUse hj =>
        obtain ⟨jp, hpos, rfl⟩ := hj
        have hjp : jp ≠ ip := by
          rintro rfl
          rw [freeInode_icache_self fs hone] at hpos
          cases hpos
        rw [freeInode_icache_of_ne fs hjp] at hpos ⊢
        refine ⟨hrefs.inum_ne hpos hjp, .inUse ⟨jp, ?_, ?_⟩⟩
        · rw [Fs.decref, setSlot_icache_of_ne _ _ hjp]
          exact hpos
        · rw [Fs.decref, setSlot_icache_of_ne _ _ hjp]
    | @entry d de _ hde hne ih =>
        obtain ⟨hd, hreach⟩ := ih
        rw [hnode d hd] at hde
        refine ⟨?_, .entry hreach hde hne⟩
        rcases (h.tree.shape d (h.tree.dir_of_mem hde)).mem_cases hde with heq | heq | hrest
        · rw [heq]
          exact hd
        · rw [heq]
          exact hok d hreach hd
        · exact h.tree.inum_ne halloc hzero hrest
  refine ⟨h.tree.free halloc hzero rfl rfl (h.tree.top _)
    (fun hdir => absurd hdir Bool.false_ne_true), fun j hj => ?_⟩
  obtain ⟨hne, hj⟩ := hreach j hj
  rw [Allocated, hnode j hne]
  exact h.closed j (hdecref j hj)

/-- A new inode, held by a slot that was free. -/
theorem Sound.alloc (hrefs : Refs fs O O) (h : Sound fs P) (hP : P.count i = 0)
    (hfree : (fs.inode i).type = .free) (hpos : 0 < i) (hlt : i < fs.ninodes)
    (htype : node.type ≠ .free) (hnlink : node.nlink = 1)
    (hflat : node.type ≠ .dir → node.entries = [])
    (hdots : node.type = .dir → ∃ dp ∈ O, node.entries = dots i (fs.icache dp).inum) :
    Sound (fs.withNew i ip node) (i ::ₘ P) := by
  have hroot : i ≠ rootIno := by
    rintro rfl
    exact h.closed _ .root hfree
  have hsmall := h.tree.small
  have hbound : ∀ dp ∈ O, (fs.icache dp).inum < 65536 := by
    intro dp hdp
    have hrange := (h.tree.range _ (hrefs.held dp hdp)).2
    omega
  have hnewentry := hrefs.reach_new hpos (by omega) hbound hflat hdots
  refine ⟨h.tree.allocNew hP hfree hpos hlt hroot hnlink hflat ?_, fun j hj => ?_⟩
  · intro hdir
    obtain ⟨dp, hdp, hes⟩ := hdots hdir
    exact ⟨dp, hrefs.held dp hdp, hes⟩
  · show (Function.update fs.inode i node j).type ≠ .free
    by_cases hji : j = i
    · subst hji
      rw [Function.update_self]
      exact htype
    · rw [Function.update_of_ne hji]
      exact h.closed j ((hj.of_withNew hnewentry).resolve_right hji)

/-- Under the condition on the marks, no walk comes to a free inode. -/
theorem laws_sound : Laws Mark.Ok Panic.Benign Sound where
  halts _ hne hne' := ⟨hne, hne'⟩
  typed hrefs h hip hfree := absurd hfree (h.closed _ (hrefs.reach_slot hip))
  slot slot h _ hreach := h.setSlot slot hreach
  decref hrefs h _ := h.setSlot _ fun _ => hrefs.reach_slot (Multiset.mem_cons_self _ _)
  free hrefs h hvalid hzero hone hok := h.free hrefs hvalid hzero hone hok
  bump hrefs hip _ h hok :=
    h.setInode (h.tree.bump (hrefs.held _ hip) hok) (hrefs.held _ hip) Reach.entries
  lower hrefs hip _ h :=
    h.setInode (h.tree.lower (hrefs.held _ hip)) (hrefs.held _ hip) Reach.entries
  enter hrefs hip hdp hdir hnone hnew _ h := by
    refine h.setInode (Tree.enter (hrefs.held _ hip) hdir hnone (fun hd => (hnew hd).2) h.tree)
      (hrefs.held _ hdp) ?_
    intro hreach de hde hne
    rcases mem_writeEntry hde with hde | rfl
    · exact hreach.entries de hde hne
    · show Reach _ (_ % 65536)
      rw [h.tree.inum_mod (hrefs.held _ hip)]
      exact hrefs.reach_slot hip
  erase hrefs hdp hdir hget hne hdot hdots _ h := by
    refine h.setInode (h.tree.eraseEntry hdir hget hne hdot hdots) (hrefs.held _ hdp) ?_
    intro hreach de hde hne
    rcases List.mem_or_eq_of_mem_set hde with hde | rfl
    · exact hreach.entries de hde hne
    · exact absurd rfl hne
  alloc hrefs h hP hfree hpos hlt _ htype hnlink hflat hdots :=
    h.alloc hrefs hP hfree hpos hlt htype hnlink hflat hdots

end Laws

/-! ## Runs -/

/-- The inodes of the tree: the root, and what an entry other than `.` and `..` of one of them
    names. -/
inductive Linked (fs : Fs) : Nat → Prop
  | root : Linked fs rootIno
  | entry {d : Nat} {de : Dirent} : Linked fs d → de ∈ (fs.inode d).entries → de.inum ≠ 0 →
      ¬ namecmp de.name ['.'] → ¬ namecmp de.name ['.', '.'] → Linked fs de.inum

/-- The inode is the current directory of a process, or an open file refers to it. -/
def Held (st : St) (i : Nat) : Prop :=
  ∃ ip, (st.fs.icache ip).inum = i ∧
    ((∃ p, st.cwd p = some ip) ∨ ∃ f, (st.file f).kind = .inode ip)

/-- No entry of a directory that is linked or held dangles. -/
def NoDangling (st : St) : Prop :=
  ∀ d, (st.fs.inode d).type = .dir → Linked st.fs d ∨ Held st d →
    ∀ de ∈ (st.fs.inode d).entries, de.inum ≠ 0 → Allocated st.fs.inode de.inum

/-- As long as the machine runs no entry dangles, and `ilock` has not found a free inode. -/
def NeverDangling : Machine → Prop
  | .running st => NoDangling st
  | .panicked e => e ≠ .noType

theorem Linked.reach {fs : Fs} {i : Nat} (h : Linked fs i) : Reach fs i := by
  induction h with
  | root => exact .root
  | entry _ hde hne _ _ ih => exact .entry ih hde hne

theorem Held.reach {T : Fs → Multiset Nat → Prop} {st : St} {i : Nat} (h : Held st i)
    (hst : Boundary T st) : Reach st.fs i := by
  obtain ⟨ip, rfl, hholder⟩ := h
  apply hst.inv.refs.reach_slot
  rcases hholder with ⟨p, hp⟩ | ⟨f, hf⟩
  · exact cwd_mem_holders hp
  · apply Multiset.mem_add.2 (Or.inr _)
    rw [Multiset.mem_sum]
    refine ⟨f, Finset.mem_univ f, ?_⟩
    rw [hf]
    exact Multiset.mem_singleton_self ip

theorem Boundary.noDangling {st : St} (h : Boundary Sound st) : NoDangling st := by
  intro d _ hd de hde hne
  have hreach : Reach st.fs d := hd.elim Linked.reach fun hheld => hheld.reach h
  exact h.inv.kept.closed _ (.entry hreach hde hne)

/-- **No dangling entries**, in every run in which no call frees a directory that another one within
    reach has as its `..`, nor increments a link count beyond a `short`. -/
theorem no_dangling {st : St} {tr : List (Machine × (Pid × Call))} {s : Machine}
    (hst : Boundary Sound st) (hrun : Run Step (.running st) tr s)
    (hmeets : ∀ x ∈ tr, Call.Meets Mark.Ok x.1 x.2) : Along NeverDangling tr s := by
  have hkept : ∀ s : Machine, Kept Panic.Benign Sound s → NeverDangling s := by
    intro s hs
    cases s with
    | running st => exact Boundary.noDangling hs
    | panicked e => exact hs.1
  obtain ⟨hall, hlast⟩ := run_keeps laws_sound hst hrun hmeets
  exact ⟨fun x hx => hkept _ (hall x hx), hkept _ hlast⟩

theorem boot_sound : Sound boot.fs 0 := by
  refine ⟨boot_tree false, fun i hi => ?_⟩
  have hroot : i = rootIno := by
    induction hi with
    | root => rfl
    | inUse hi =>
        obtain ⟨ip, hpos, rfl⟩ := hi
        have hip : ip = rootSlot := Multiset.mem_singleton.1 (boot_refs.mem_of_pos hpos)
        rw [hip]
        rfl
    | @entry d de _ hde _ ih =>
        rw [ih] at hde
        rcases List.mem_cons.1 hde with rfl | hde
        · rfl
        · rw [List.mem_singleton.1 hde]
  rw [hroot]
  nofun

/-- A mark that meets the condition whatever the state. -/
def Mark.plain : Mark → Bool
  | .frees _ _ => false
  | .bumps nlink => nlink < 32767
  | .enters _ _ _ => true

theorem Mark.Ok.of_plain {w : Mark} (h : w.plain) : w.Ok := by
  cases w with
  | frees fs ip => cases h
  | bumps nlink =>
      have hlt : nlink < 32767 := of_decide_eq_true h
      exact hlt
  | enters fs dp name => trivial

/-- A directory inside another one, visited and left. -/
def twoDirs : List (Pid × Call) :=
  [(0, .mkdir ['a']), (0, .mkdir ['a', '/', 'b']), (0, .chdir ['a', '/', 'b']),
    (0, .chdir ['.', '.'])]

theorem no_dangling_two_dirs :
    ∃ tr s, tr.map Prod.snd = twoDirs ∧ Run Step (.running boot) tr s ∧
      Along NeverDangling tr s := by
  have hsome : ((play next (.running boot) twoDirs).map fun r =>
      r.1.all fun x => (x.1.marks x.2).all Mark.plain) = some true := by decide +kernel
  obtain ⟨⟨tr, s⟩, hplay, hplain⟩ := Option.map_eq_some_iff.1 hsome
  obtain ⟨hrun, hlabels⟩ := play_run hplay
  refine ⟨tr, s, hlabels, hrun, no_dangling (boot_boundary boot_sound) hrun ?_⟩
  intro x hx
  apply Call.Meets.of_marks
  intro w hw
  exact Mark.Ok.of_plain (List.all_eq_true.1 (List.all_eq_true.1 hplain x hx) w hw)

/-- A process in a directory that is removed, and whose parent is removed after it. -/
def removedParent : List (Pid × Call) :=
  [(0, .mkdir ['a']), (0, .mkdir ['a', '/', 'b']), (0, .chdir ['a', '/', 'b']),
    (0, .unlink ['.', '.', '/', 'b']), (0, .unlink ['/', 'a']), (0, .chdir ['.', '.'])]

theorem removed_parent_dangles :
    ¬ ∀ (st : St) (tr : List (Machine × (Pid × Call))) (s : Machine), Boundary Sound st →
      Run Step (.running st) tr s → Along NeverDangling tr s := by
  intro hclaim
  have hsome : ((play next (.running boot) removedParent).map fun r =>
      match r.2 with
      | .panicked e => decide (e = .noType)
      | .running _ => false) = some true := by decide +kernel
  obtain ⟨⟨tr, s⟩, hplay, hlast⟩ := Option.map_eq_some_iff.1 hsome
  obtain ⟨hrun, -⟩ := play_run hplay
  have hgood := (hclaim boot tr s (boot_boundary boot_sound) hrun).2
  cases s with
  | running st => cases hlast
  | panicked e => exact hgood (of_decide_eq_true hlast)

end Cs350.FileSys
