import Cs350.FileSys.Links
import Cs350.Sysfile.Run

set_option autoImplicit false

/-! # Link counts on the disk

What every run on the names keeps, every run on the bytes keeps of the names that they stand for. So
the link counts in the inodes on the disk agree with the bytes of the directories. -/

namespace Cs350.Sysfile

open Block (Fs Locked direntSize direntInum)
open FileSys (Ip Name Mark Laws Inv Exact rootIno)
open Prog Transition

/-! ## Calls on the names -/

section Names

variable {C : Mark → Prop} {E : FileSys.Panic → Prop} {T : FileSys.Fs → Multiset Nat → Prop}
  {fs : FileSys.Fs} {O : Multiset Ip} {ip cwd : Ip}

/-- An inode that is locked for a moment. -/
theorem ilock_inv (laws : Laws C E T) (hinv : Inv T fs O O 0) (hip : ip ∈ O) :
    wp C E (FileSys.ilock ip) fs fun _ fs' => Inv T fs' O O 0 :=
  wp_mono (FileSys.ilock_spec laws hinv hip) fun _ _ h =>
    ⟨h.1.refs.mono (Multiset.subset_cons O ip), h.1.kept⟩

theorem chdirNames_spec (laws : Laws C E T) (hinv : Inv T fs O O 0) (hcwd : cwd ∈ O)
    (path : List Char) :
    wp C E (chdirNames cwd path) fs fun r fs' =>
      Inv T fs' (r.elim O (· ::ₘ O.erase cwd)) (r.elim O (· ::ₘ O.erase cwd)) 0 := by
  unfold chdirNames
  refine wp_bind (FileSys.namei_spec laws path hinv hcwd) fun r fs₁ hr => ?_
  cases r with
  | none => exact wp_pure hr.inv
  | some ip =>
      refine wp_bind (FileSys.ilock_found laws hr.inv) ?_
      rintro _ fs₂ ⟨hinv₂, -, -⟩
      refine wp_get_bind (wp_ite (fun _ => ?_) fun _ => ?_)
      · refine wp_bind (FileSys.iput_held laws hinv₂) ?_
        rintro _ fs₃ ⟨hinv₃, -⟩
        exact wp_pure hinv₃
      · rw [← Multiset.cons_erase hcwd, Multiset.cons_swap] at hinv₂
        refine wp_bind (FileSys.iput_held laws hinv₂) ?_
        rintro _ fs₃ ⟨hinv₃, -⟩
        exact wp_pure hinv₃

/-- **Every call** on the names keeps what the laws keep. -/
theorem Op.names_spec {op : Op} (laws : Laws C E T) (hinv : Inv T fs O O 0) (hlegal : op.Legal O fs) :
    wp C E op.names fs fun r fs' => Inv T fs' (op.after O r) (op.after O r) 0 := by
  cases op with
  | openInode cwd path omode =>
      refine wp_bind (FileSys.openInode_spec laws hinv hlegal.1 _ omode) fun r fs₁ h₁ => wp_pure ?_
      cases r with
      | none => exact h₁
      | some ip => exact h₁
  | link cwd old new =>
      exact wp_bind (FileSys.sysLink_spec laws hinv hlegal.1 _ _) fun _ _ h₁ => wp_pure h₁
  | unlink cwd path =>
      exact wp_bind (FileSys.sysUnlink_spec laws hinv hlegal.1 _) fun _ _ h₁ => wp_pure h₁
  | mkdir cwd path =>
      exact wp_bind (FileSys.sysMkdir_spec laws hinv hlegal.1 _) fun _ _ h₁ => wp_pure h₁
  | mknod cwd path major minor =>
      exact wp_bind (FileSys.sysMknod_spec laws hinv hlegal.1 _ major minor) fun _ _ h₁ => wp_pure h₁
  | chdir cwd path =>
      refine wp_bind (chdirNames_spec laws hinv hlegal.1 _) fun r fs₁ h₁ => wp_pure ?_
      cases r with
      | none => exact h₁
      | some ip => exact h₁
  | exec cwd path reads ok =>
      exact wp_bind (FileSys.exec_spec laws hinv hlegal.1 _ ok) fun _ _ h₁ => wp_pure h₁
  | idup ip =>
      have hip : ip ∈ O := hlegal
      refine wp_bind (FileSys.idup_spec laws hinv hip) ?_
      rintro _ fs₁ ⟨rfl, h₁, -⟩
      exact wp_pure ⟨h₁.refs.mono (Multiset.cons_subset.2 ⟨hip, Multiset.Subset.refl O⟩), h₁.kept⟩
  | iput ip =>
      rw [← Multiset.cons_erase hlegal] at hinv
      refine wp_bind (FileSys.iput_held laws hinv) ?_
      rintro _ fs₁ ⟨h₁, -⟩
      exact wp_pure h₁
  | filestat ip =>
      exact wp_bind (wp_bind (ilock_inv laws hinv hlegal) fun _ _ h₁ =>
        wp_get_bind (wp_pure h₁)) fun _ _ h₂ => wp_pure h₂
  | fileread ip dst off n =>
      exact wp_bind (wp_bind (ilock_inv laws hinv hlegal) fun _ _ h₁ => wp_pure h₁)
        fun _ _ h₂ => wp_pure h₂
  | filewrite ip src off n =>
      exact wp_bind (wp_bind (ilock_inv laws hinv hlegal.1) fun _ _ h₁ => wp_pure h₁)
        fun _ _ h₂ => wp_pure h₂

end Names

/-! ## Runs on the bytes -/

/-- The condition on the marks that a call leaves on the names. -/
def Meets (C : Mark → Prop) : Machine Fs Panic → Op × Option Reply → Prop
  | .running s _, (op, _) => ∀ w ∈ (op.names (names s)).1, C w
  | .panicked _, _ => True

/-- The machine runs in a state whose names have the invariant. -/
def Kept (T : FileSys.Fs → Multiset Nat → Prop) : Machine Fs Panic → Prop
  | .running s O => Good s ∧ Inv T (names s) O O 0
  | .panicked _ => True

section Runs

variable {C : Mark → Prop} {E : FileSys.Panic → Prop} {T : FileSys.Fs → Multiset Nat → Prop} {s : Fs}
  {O : Multiset Ip} {m m' : Machine Fs Panic} {a : Op × Option Reply}

theorem Good.holds (hg : Good s) (hinv : Inv T (names s) O O 0) : Holds s O [] := by
  refine ⟨fun ip => ?_, by simp⟩
  have href : (s.icache ip).ref.toNat = O.count ip := hinv.refs.ref ip
  have hpos := hg.refs ip
  omega

theorem step_kept (laws : Laws C E T) (hkept : Kept T m) (hmeets : Meets C m a)
    (hstep : Step m a m') : Kept T m' := by
  cases hstep with
  | @ret s s' O op r de hlegal hrun =>
      obtain ⟨hg, hinv⟩ := hkept
      have hmarks : ∀ w ∈ (op.names (names s)).1, C w := hmeets
      obtain ⟨r', _, hnames, rfl, hg', hr, -⟩ :=
        refines_ok (Op.run_sim de hg (hg.holds hinv) hlegal) hrun
      rw [hr] at hnames
      have hinv' := wp_of_run (Op.names_spec laws hinv hlegal) hmarks hnames
      exact ⟨hg', hinv'⟩
  | panic de hlegal hrun => trivial

theorem run_kept {tr : List (Machine Fs Panic × (Op × Option Reply))} (laws : Laws C E T)
    (hg : Good s) (hinv : Inv T (names s) O O 0) (hrun : Run Step (.running s O) tr m)
    (hmeets : ∀ x ∈ tr, Meets C x.1 x.2) : Along (Kept T) tr m :=
  hrun.invariant_of_steps ⟨hg, hinv⟩ (fun _ _ _ hk hm hstep => step_kept laws hk hm hstep) hmeets

end Runs

/-! ## Link counts -/

/-- The bytes of entry `j` of the directory with number `d`, on the disk. -/
def diskDirent (s : Fs) (d j : Nat) : Mem := fun a =>
  (s.dinode d).byteAt s.data (j * direntSize + a)

/-- The number of entries that name `i` on the disk, without `.`, and without the `..` of directories
    that have no links. -/
def entriesNaming (s : Fs) (i : Nat) : Nat :=
  ∑ d ∈ Finset.range s.sb.ninodes.toNat, if (s.dinode d).type = .dir then
    (List.range ((s.dinode d).size / direntSize)).countP fun j =>
      direntInum (diskDirent s d j) = i ∧ ¬ Block.namecmp dot (diskDirent s d j) ∧
        (Block.namecmp dotdot (diskDirent s d j) → (s.dinode d).nlink ≠ 0)
  else 0

/-- Link counts are exact, and an inode that no entry names is held. -/
def LinksExact : Machine Fs Panic → Prop
  | .running s O => ∀ i, (s.dinode i).type ≠ .free → i ≠ rootIno →
      (s.dinode i).nlink = entriesNaming s i ∧
        (entriesNaming s i = 0 → ∃ ip ∈ O, s.inum ip = i)
  | .panicked _ => True

theorem namecmp_swap {name : List UInt8} (h : 0 ∉ name) (de : Mem) :
    FileSys.namecmp (direntOf de).name (nameOf name) = Block.namecmp name de := by
  rw [namecmp_direntOf h, FileSys.namecmp, FileSys.namecmp]
  exact decide_eq_decide.2 eq_comm

theorem entriesNaming_names (s : Fs) (i : Nat) :
    FileSys.entriesNaming (names s) i = entriesNaming s i := by
  refine Finset.sum_congr rfl fun d _ => ?_
  change (if (s.dinode d).type = .dir then _ else _) = _
  split_ifs with hdir
  · have hentries : ((names s).inode d).entries = entriesOf (s.dinode d) s.data := if_pos hdir
    rw [FileSys.namesIn, hentries, entriesOf, List.countP_map]
    refine List.countP_congr fun j _ => ?_
    have hdot := namecmp_swap (show 0 ∉ dot by decide) (diskDirent s d j)
    have hdotdot := namecmp_swap (show 0 ∉ dotdot by decide) (diskDirent s d j)
    rw [← hdot, ← hdotdot]
    rfl
  · rfl

/-- **Link counts on the disk are exact**, in every run of calls on the bytes in which no call enters a
    name in a directory that has been removed, nor increments a link count beyond a `short`: the count
    in an inode is the number of entries in the bytes of the directories that name it. -/
theorem link_counts_on_disk {s : Fs} {O : Multiset Ip} {m : Machine Fs Panic}
    {tr : List (Machine Fs Panic × (Op × Option Reply))} (hg : Good s)
    (hinv : Inv Exact (names s) O O 0) (hrun : Run Step (.running s O) tr m)
    (hmeets : ∀ x ∈ tr, Meets Mark.Entered x.1 x.2) : Along LinksExact tr m := by
  have hexact : ∀ m : Machine Fs Panic, Kept Exact m → LinksExact m := by
    rintro (⟨s, O⟩ | e) hkept
    · intro i hi hroot
      obtain ⟨-, hinv⟩ := hkept
      have hnlink := hinv.kept.nlink_eq hi hroot
      rw [entriesNaming_names] at hnlink
      refine ⟨hnlink, fun hzero => ?_⟩
      obtain ⟨ip, hpos, hinum, -⟩ := hinv.kept.orphan i hi (hnlink.trans (by rw [hzero]; rfl))
      exact ⟨ip, hinv.refs.mem_of_pos hpos, hinum⟩
    · trivial
  obtain ⟨hall, hlast⟩ := run_kept FileSys.laws_exact hg hinv hrun hmeets
  exact ⟨fun x hx => hexact _ (hall x hx), hexact _ hlast⟩

end Cs350.Sysfile
