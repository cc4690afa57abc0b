import Cs350.FileSys.Rollback

set_option autoImplicit false

/-! # Calls that fail

What a call leaves behind that returns -1. Every failure after some work undoes that work:
`sys_link` takes the link back, `sys_pipe` closes both files and gives the descriptor up, a walk drops
what it holds. The exception is `sys_open` with `O_CREATE`: it creates the file before it takes a
`struct file` and a descriptor, and when there is none of these left the new file stays. -/

namespace Cs350.FileSys

open Prog Transition

/-! ## Descriptors and files -/

/-- What a failed call leaves as it was: the inodes, the slots and files in use, the pipes and the
    descriptors. -/
structure Untouched (st : St) (ws : List Mark) (st' : St) : Prop where
  quiet : Quiet ws
  same : Same st.fs st'.fs st.holders
  procs : SameProcs st st'
  file : ∀ f, (st.file f).ref ≠ 0 → st'.file f = st.file f
  pipe : st'.pipe = st.pipe

section Files

variable {st st' : St} {p : Pid} {cwd : Ip} {f : FileId}

theorem Untouched.refl (st : St) : Untouched st [] st :=
  ⟨quiet_nil, Same.refl _ _, ⟨rfl, rfl⟩, fun _ _ => rfl, rfl⟩

theorem onFs_calm {m : FsM Int} (hm : returns m st.fs (FailsCalm st.fs st.holders)) :
    returns (onFs m) st fun ws r st' => r = -1 → Untouched st ws st' := by
  apply returns_zoom
  apply returns_mono hm
  intro ws r fs' hfails hr
  obtain ⟨hquiet, hsame⟩ := hfails hr
  exact ⟨hquiet, hsame, ⟨rfl, rfl⟩, fun _ _ => rfl, rfl⟩

theorem filealloc_calm (st : St) :
    returns filealloc st fun ws r st' => ws = [] ∧
      match r with
      | none => st' = st
      | some f => (st.file f).ref = 0 ∧ st' = st.setFile f { st.file f with ref := 1 } := by
  unfold filealloc
  apply returns_get_bind
  split
  next f hfind =>
    have hzero := List.find?_some hfind
    rw [decide_eq_true_eq] at hzero
    apply returns_modify_bind
    exact returns_pure ⟨rfl, hzero, rfl⟩
  next => exact returns_pure ⟨rfl, rfl⟩

theorem fdalloc_calm (st : St) (p : Pid) (f : FileId) :
    returns (fdalloc p f) st fun ws r st' => ws = [] ∧
      match r with
      | none => st' = st
      | some fd => st.ofile p fd = none ∧ st' = st.setOfile p fd (some f) := by
  unfold fdalloc
  apply returns_get_bind
  split
  next fd hfind =>
    have hnone := List.find?_some hfind
    rw [decide_eq_true_eq] at hnone
    apply returns_modify_bind
    exact returns_pure ⟨rfl, hnone, rfl⟩
  next => exact returns_pure ⟨rfl, rfl⟩

/-- The last reference to a file without a type. -/
theorem fileclose_none (href : (st.file f).ref = 1) (hkind : (st.file f).kind = .none) :
    returns (fileclose f) st fun ws _ st' =>
      ws = [] ∧ st' = st.setFile f { st.file f with ref := 0, kind := .none } := by
  unfold fileclose
  apply returns_get_bind
  dsimp only
  rw [if_neg (by omega), if_neg (by omega), hkind]
  apply returns_modify_bind
  exact returns_pure ⟨rfl, rfl⟩

/-- The last reference to one end of a pipe. -/
theorem fileclose_pipe {page : Nat} {q : Pipe} (href : (st.file f).ref = 1)
    (hkind : (st.file f).kind = .pipe page) (hpipe : st.pipe page = some q) :
    returns (fileclose f) st fun ws _ st' => ws = [] ∧
      st' = (st.setFile f { st.file f with ref := 0, kind := .none }).setPipe page
        (q.close (st.file f).writable) := by
  unfold fileclose
  apply returns_get_bind
  dsimp only
  rw [if_neg (by omega), if_neg (by omega), hkind]
  apply returns_modify_bind
  unfold pipeclose
  apply returns_get_bind
  have hpipe' : (st.setFile f { st.file f with ref := 0, kind := .none }).pipe page = some q := hpipe
  rw [hpipe']
  dsimp only
  apply returns_ite
  · intro hclosed
    exact returns_modify ⟨rfl, by rw [Pipe.close, if_pos hclosed]⟩
  · intro hopen
    exact returns_modify ⟨rfl, by rw [Pipe.close, if_neg hopen]⟩

theorem sysDup_calm (st : St) (p : Pid) (fd : Int) :
    returns (sysDup p fd) st fun ws r st' => r = -1 → Untouched st ws st' := by
  unfold sysDup
  apply returns_get_bind
  split
  next => exact returns_pure fun _ => Untouched.refl st
  next f _ =>
    apply returns_bind (fdalloc_calm st p f)
    rintro _ r st₁ ⟨rfl, hr⟩
    split
    next =>
      rw [show st₁ = st from hr]
      exact returns_pure fun _ => Untouched.refl st
    next fd =>
      apply returns_bind (returns_true _ _)
      rintro _ _ st₂ -
      exact returns_pure fun heq => by omega

/-- Only files that were not in use have been changed, and pipes. -/
structure Aside (st st' : St) : Prop where
  fs : st'.fs = st.fs
  procs : SameProcs st st'
  file : ∀ f, (st.file f).ref ≠ 0 → st'.file f = st.file f

theorem Aside.setFile (h : Aside st st') (href : (st.file f).ref = 0) (file : File) :
    Aside st (st'.setFile f file) := by
  refine ⟨h.fs, ⟨h.procs.ofile, h.procs.cwd⟩, fun g hg => ?_⟩
  have hne : g ≠ f := by
    rintro rfl
    exact hg href
  rw [setFile_file_of_ne _ _ hne]
  exact h.file g hg

theorem Aside.setPipe (h : Aside st st') (page : Nat) (pipe : Option Pipe) :
    Aside st (st'.setPipe page pipe) := ⟨h.fs, ⟨h.procs.ofile, h.procs.cwd⟩, h.file⟩

theorem Aside.untouched (h : Aside st st') (hpipe : st'.pipe = st.pipe) : Untouched st [] st' := by
  refine ⟨quiet_nil, ?_, h.procs, h.file, hpipe⟩
  rw [h.fs]
  exact Same.refl _ _

/-- The two ends of a new pipe in `page`. -/
structure Piped (st st' : St) (rf wf : FileId) (page : Nat) : Prop where
  aside : Aside st st'
  free : (st.file rf).ref = 0 ∧ (st.file wf).ref = 0 ∧ st.pipe page = none
  ne : rf ≠ wf
  read : (st'.file rf).ref = 1 ∧ (st'.file rf).kind = .pipe page ∧ (st'.file rf).writable = false
  write : (st'.file wf).ref = 1 ∧ (st'.file wf).kind = .pipe page ∧ (st'.file wf).writable = true
  pipe : st'.pipe = Function.update st.pipe page (some { readopen := true, writeopen := true })

theorem pipealloc_calm {page : Option Nat} (h : ∀ f, (st.file f).ref = 0 → (st.file f).kind = .none)
    (hpage : ∀ n, page = some n → st.pipe n = none) :
    returns (pipealloc page) st fun ws r st' => ws = [] ∧
      match r with
      | none => Untouched st [] st'
      | some (rf, wf) => ∃ n, Piped st st' rf wf n := by
  have hrefl : Aside st st := ⟨rfl, ⟨rfl, rfl⟩, fun _ _ => rfl⟩
  unfold pipealloc
  apply returns_bind (filealloc_calm st)
  rintro _ r st₁ ⟨rfl, hr⟩
  split
  next =>
    rw [show st₁ = st from hr]
    exact returns_pure ⟨rfl, Untouched.refl st⟩
  next f0 =>
    obtain ⟨href0, rfl⟩ := hr
    have haside₁ := hrefl.setFile href0 { st.file f0 with ref := 1 }
    have hkind0 : ((st.setFile f0 { st.file f0 with ref := 1 }).file f0).kind = .none := by
      rw [setFile_file_self]
      exact h f0 href0
    have href0' : ((st.setFile f0 { st.file f0 with ref := 1 }).file f0).ref = 1 := by
      rw [setFile_file_self]
    generalize hst₁ : st.setFile f0 { st.file f0 with ref := 1 } = st₁ at *
    have hpipe₁ : st₁.pipe = st.pipe := by
      rw [← hst₁]
      rfl
    apply returns_bind (filealloc_calm st₁)
    rintro _ r st₂ ⟨rfl, hr⟩
    split
    next =>
      rw [show st₂ = st₁ from hr]
      apply returns_bind (fileclose_none href0' hkind0)
      rintro _ _ _ ⟨rfl, rfl⟩
      exact returns_pure ⟨rfl, (haside₁.setFile href0 _).untouched hpipe₁⟩
    next f1 =>
      obtain ⟨href1, rfl⟩ := hr
      have hne : f0 ≠ f1 := by
        rintro rfl
        omega
      have hold1 : st₁.file f1 = st.file f1 := by
        rw [← hst₁]
        exact setFile_file_of_ne _ _ hne.symm
      rw [hold1] at href1
      have haside₂ := haside₁.setFile href1 { st₁.file f1 with ref := 1 }
      have hself0 : (st₁.setFile f1 { st₁.file f1 with ref := 1 }).file f0 = st₁.file f0 :=
        setFile_file_of_ne _ _ hne
      have hself1 : (st₁.setFile f1 { st₁.file f1 with ref := 1 }).file f1
          = { st₁.file f1 with ref := 1 } := setFile_file_self _ _ _
      have hkind1 : (st₁.file f1).kind = .none := by
        rw [hold1]
        exact h f1 href1
      have hpipe₂ : (st₁.setFile f1 { st₁.file f1 with ref := 1 }).pipe = st.pipe := hpipe₁
      generalize hst₂ : st₁.setFile f1 { st₁.file f1 with ref := 1 } = st₂ at *
      split
      next =>
        apply returns_bind (fileclose_none (by rw [hself0]; exact href0') (by rw [hself0]; exact hkind0))
        rintro _ _ _ ⟨rfl, rfl⟩
        have hself1' : ∀ file, (st₂.setFile f0 file).file f1 = st₂.file f1 :=
          fun file => setFile_file_of_ne _ _ hne.symm
        apply returns_bind (fileclose_none (by rw [hself1', hself1])
          (by rw [hself1', hself1]; exact hkind1))
        rintro _ _ _ ⟨rfl, rfl⟩
        exact returns_pure ⟨rfl, ((haside₂.setFile href0 _).setFile href1 _).untouched hpipe₂⟩
      next n =>
        apply returns_modify_bind
        apply returns_modify_bind
        apply returns_modify_bind
        refine returns_pure ⟨rfl, n, ?_, ⟨href0, href1, hpage n rfl⟩, hne, ?_, ?_, ?_⟩
        · exact ((haside₂.setPipe n _).setFile href0 _).setFile href1 _
        · rw [setFile_file_of_ne _ _ hne, setFile_file_self]
          refine ⟨?_, rfl, rfl⟩
          show (st₂.file f0).ref = 1
          rw [hself0]
          exact href0'
        · rw [setFile_file_self]
          refine ⟨?_, rfl, rfl⟩
          show (((st₂.setPipe n _).setFile f0 _).file f1).ref = 1
          rw [setFile_file_of_ne _ _ hne.symm]
          show (st₂.file f1).ref = 1
          rw [hself1]
        · show Function.update st₂.pipe n _ = _
          rw [hpipe₂]

/-- Both ends of a new pipe are closed again. -/
theorem Piped.close {rf wf : FileId} {page : Nat} (h : Piped st st' rf wf page) :
    returns (do
      fileclose rf
      fileclose wf
      pure (-1 : Int)) st' fun ws _ st'' => Untouched st ws st'' := by
  have hpipe : st'.pipe page = some { readopen := true, writeopen := true } := by
    rw [h.pipe, Function.update_self]
  apply returns_bind (fileclose_pipe h.read.1 h.read.2.1 hpipe)
  rintro _ _ _ ⟨rfl, rfl⟩
  rw [h.read.2.2]
  have hfile : ∀ file pipe, ((st'.setFile rf file).setPipe page pipe).file wf = st'.file wf :=
    fun file pipe => Function.update_of_ne h.ne.symm _ _
  have hpipe' : ∀ file pipe, ((st'.setFile rf file).setPipe page pipe).pipe page = pipe :=
    fun file pipe => Function.update_self _ _ _
  have hwrite := h.write
  apply returns_bind (fileclose_pipe (q := { readopen := false, writeopen := true })
    (by rw [hfile]; exact hwrite.1) (by rw [hfile]; exact hwrite.2.1) (hpipe' _ _))
  rintro _ _ _ ⟨rfl, rfl⟩
  rw [hfile, hwrite.2.2]
  refine returns_pure (Aside.untouched ?_ ?_)
  · exact (((h.aside.setFile h.free.1 _).setPipe page _).setFile h.free.2.1 _).setPipe page _
  · show Function.update (Function.update st'.pipe page _) page none = _
    rw [h.pipe, Function.update_idem, Function.update_idem, ← h.free.2.2]
    exact Function.update_eq_self _ _

theorem sysPipe_calm {page : Option Nat} (h : ∀ f, (st.file f).ref = 0 → (st.file f).kind = .none)
    (hpage : ∀ n, page = some n → st.pipe n = none) :
    returns (sysPipe p page) st fun ws r st' => r = -1 → Untouched st ws st' := by
  unfold sysPipe
  apply returns_bind (pipealloc_calm h hpage)
  rintro _ r st₁ ⟨rfl, hr⟩
  split
  next => exact returns_pure fun _ => hr
  next rf wf =>
    obtain ⟨n, hpiped⟩ := hr
    apply returns_bind (fdalloc_calm st₁ p rf)
    rintro _ r st₂ ⟨rfl, hr₂⟩
    split
    next =>
      rw [show st₂ = st₁ from hr₂]
      exact returns_mono hpiped.close fun _ _ _ h _ => h
    next fd0 =>
      obtain ⟨hnone, rfl⟩ := hr₂
      apply returns_bind (fdalloc_calm _ p wf)
      rintro _ r st₃ ⟨rfl, hr₃⟩
      split
      next =>
        rw [show st₃ = _ from hr₃]
        apply returns_modify_bind
        -- the descriptor taken first is given up
        have hback : Piped st ((st₁.setOfile p fd0 (some rf)).setOfile p fd0 none) rf wf n := by
          refine ⟨⟨hpiped.aside.fs, ⟨?_, hpiped.aside.procs.cwd⟩, hpiped.aside.file⟩, hpiped.free,
            hpiped.ne, hpiped.read, hpiped.write, hpiped.pipe⟩
          rw [setOfile_undo hnone rf, hpiped.aside.procs.ofile]
        exact returns_mono hback.close fun _ _ _ h _ => h
      next fd1 => exact returns_pure fun heq => absurd heq (by decide)

/-- A function of `fs.c` changes the file system only. -/
theorem onFs_returns {α : Type} {m : FsM α} {Q : List Mark → α → Fs → Prop}
    (hm : returns m st.fs Q) :
    returns (onFs m) st fun ws a st' => ∃ fs', st' = { st with fs := fs' } ∧ Q ws a fs' :=
  returns_zoom (returns_mono hm fun _ _ fs' h => ⟨fs', rfl, h⟩)

theorem sysChdir_calm (h : Boundary Guarded st) (hcwd : st.cwd p = some cwd) (path : List Char) :
    returns (sysChdir p cwd path) st fun ws r st' => r = -1 → Untouched st ws st' := by
  unfold sysChdir
  apply returns_bind (onFs_returns (namei_calm path h.inv (cwd_mem_holders hcwd)))
  rintro ws r _ ⟨fs₁, rfl, hr⟩
  split
  next =>
    exact returns_pure fun _ =>
      ⟨hr.quiet.append quiet_nil, hr.same, ⟨rfl, rfl⟩, fun _ _ => rfl, rfl⟩
  next ip =>
    apply returns_bind (onFs_returns (ilock_found_calm ip hr.inv))
    rintro _ _ _ ⟨fs₂, rfl, rfl, hinv₂, hsame₂, -⟩
    have hspare₂ := (hr.spare ip rfl).of_same hsame₂ (Multiset.mem_cons_self ip _)
    apply returns_get_bind
    apply returns_ite
    · intro _
      apply returns_bind (onFs_returns (iput_calm_held hinv₂ hspare₂))
      rintro _ _ _ ⟨fs₃, rfl, rfl, -, hsame₃⟩
      exact returns_pure fun _ => ⟨hr.quiet.append quiet_nil,
        (hr.same.trans hsame₂.of_cons).trans hsame₃, ⟨rfl, rfl⟩, fun _ _ => rfl, rfl⟩
    · intro _
      apply returns_bind (returns_true _ _)
      rintro _ _ _ -
      apply returns_modify_bind
      exact returns_pure fun heq => absurd heq (by decide)

theorem sysOpen_calm (h : Boundary Guarded st) (hcwd : st.cwd p = some cwd) (path : List Char)
    (omode : BitVec 32) :
    returns (sysOpen p cwd path omode) st fun ws r st' => r = -1 →
      (¬ Creates cwd path omode st.fs → Untouched st ws st') ∧
      (Creates cwd path omode st.fs → st'.fs.inode ≠ st.fs.inode) := by
  have hmem := cwd_mem_holders hcwd
  have hspec := returns_of_wp (openInode_spec laws_guarded h.inv hmem path omode) fun _ => trivial
  unfold sysOpen
  apply returns_bind (onFs_returns (returns_and (openInode_calm h.inv hmem path omode) hspec))
  rintro ws r _ ⟨fs₁, rfl, ⟨hcalm, hmade⟩, hinv₁⟩
  split
  next =>
    refine returns_pure fun _ => ⟨fun hnot => ?_, fun hcreates => ?_⟩
    · obtain ⟨hquiet, hsame, -⟩ := hcalm hnot
      exact ⟨hquiet.append quiet_nil, hsame, ⟨rfl, rfl⟩, fun _ _ => rfl, rfl⟩
    · obtain ⟨ip, heq, -⟩ := hmade hcreates
      exact nomatch heq
  next ip =>
    have hinv₁ : Inv Guarded fs₁ (ip ::ₘ st.holders) (ip ::ₘ st.holders) 0 := hinv₁
    have hspare₁ : Spare fs₁ st.holders ip := by
      by_cases hcreates : Creates cwd path omode st.fs
      · obtain ⟨jp, heq, hjp⟩ := hmade hcreates
        obtain rfl := Option.some.inj heq
        exact Or.inr (Or.inl hjp.linked)
      · exact (hcalm hcreates).2.2 ip rfl
    -- the inode is given back, in a state that is otherwise as before
    have hback : ∀ st', st'.fs = fs₁ → SameProcs st st' →
        (∀ f, (st.file f).ref ≠ 0 → st'.file f = st.file f) → st'.pipe = st.pipe →
        returns (do
          onFs (iunlockput ip)
          pure (-1 : Int)) st' fun ws' r st'' => r = -1 →
            (¬ Creates cwd path omode st.fs → Untouched st (ws ++ ws') st'') ∧
            (Creates cwd path omode st.fs → st''.fs.inode ≠ st.fs.inode) := by
      intro st' hfs hprocs hfile hpipe
      rw [← hfs] at hinv₁ hspare₁
      apply returns_bind (onFs_returns (iput_calm_held hinv₁ hspare₁))
      rintro _ _ _ ⟨fs₂, rfl, rfl, -, hsame₂⟩
      rw [hfs] at hsame₂
      refine returns_pure fun _ => ⟨fun hnot => ?_, fun hcreates heq => ?_⟩
      · obtain ⟨hquiet, hsame, -⟩ := hcalm hnot
        exact ⟨hquiet.append quiet_nil, hsame.trans hsame₂, ⟨hprocs.ofile, hprocs.cwd⟩, hfile, hpipe⟩
      · obtain ⟨jp, hjp, hnew⟩ := hmade hcreates
        obtain rfl := Option.some.inj hjp
        have hinode : fs₁.inode = st.fs.inode := hsame₂.inode.symm.trans heq
        refine hnew.new ?_
        rw [Fs.node, hinode]
        exact hnew.old
    apply returns_bind (filealloc_calm _)
    rintro _ r st₂ ⟨rfl, hr₂⟩
    split
    next =>
      rw [show st₂ = _ from hr₂]
      exact hback _ rfl ⟨rfl, rfl⟩ (fun _ _ => rfl) rfl
    next f =>
      obtain ⟨href, rfl⟩ := hr₂
      have href' : (st.file f).ref = 0 := href
      have hkind : (st.file f).kind = .none := h.ok.files.none f href'
      apply returns_bind (fdalloc_calm _ p f)
      rintro _ r st₃ ⟨rfl, hr₃⟩
      split
      next =>
        rw [show st₃ = _ from hr₃]
        have hself : ∀ (st' : St) file, (st'.setFile f file).file f = file :=
          fun st' file => setFile_file_self st' f file
        apply returns_bind (fileclose_none (by rw [hself]) (by rw [hself]; exact hkind))
        rintro _ _ _ ⟨rfl, rfl⟩
        refine hback _ rfl ⟨rfl, rfl⟩ (fun g hg => ?_) rfl
        have hne : g ≠ f := by
          rintro rfl
          exact hg href'
        rw [setFile_file_of_ne _ _ hne, setFile_file_of_ne _ _ hne]
      next fd =>
        apply returns_modify_bind
        exact returns_pure fun heq => by omega

end Files

/-! ## Every call -/

/-- What a call leaves as it was: the allocated inodes with their link counts and the contents of
    directories, the contents of files (no inode has been truncated), the descriptors and current
    directories, the reference counts of inodes and what they refer to, the file structures in use,
    and the pipes. -/
structure Unchanged (st : St) (ws : List Mark) (st' : St) : Prop where
  inode : st'.fs.inode = st.fs.inode
  contents : Quiet ws
  ofile : st'.ofile = st.ofile
  cwd : st'.cwd = st.cwd
  ref : ∀ ip, (st'.fs.icache ip).ref = (st.fs.icache ip).ref
  inum : ∀ ip, 0 < (st.fs.icache ip).ref → (st'.fs.icache ip).inum = (st.fs.icache ip).inum
  fileRef : ∀ f, (st'.file f).ref = (st.file f).ref
  file : ∀ f, 0 < (st.file f).ref → st'.file f = st.file f
  pipe : st'.pipe = st.pipe

/-- The calls that take or make names, and those that take descriptors only. -/
def Call.Takes : Call → Prop
  | .link _ _ | .unlink _ | .mkdir _ | .mknod _ _ _ | .open _ _ | .chdir _ | .dup _ | .pipe _ => True
  | _ => False

/-- An `open` with `O_CREATE` of a name that its parent directory does not have. -/
def Call.Creates (cwd : Ip) (fs : Fs) : Call → Prop
  | .open path omode => FileSys.Creates cwd path omode fs
  | _ => False

section Runs

variable {st₀ st st' : St} {ws : List Mark} {p : Pid} {cwd : Ip} {call : Call}

theorem Untouched.unchanged (h : Untouched st ws st') (hst : Boundary Guarded st)
    (hst' : Boundary Guarded st') : Unchanged st ws st' := by
  have href : ∀ f, (st'.file f).ref = (st.file f).ref := by
    intro f
    rw [hst'.ok.files.ref, hst.ok.files.ref, h.procs.fds]
  have hkind : ∀ f, (st'.file f).kind = (st.file f).kind := by
    intro f
    by_cases hzero : (st.file f).ref = 0
    · rw [hst.ok.files.none f hzero, hst'.ok.files.none f (by rw [href, hzero])]
    · rw [h.file f hzero]
  have hholders : st'.holders = st.holders := by
    unfold St.holders
    simp only [h.procs.cwd, hkind]
  refine ⟨h.same.inode, h.quiet, h.procs.ofile, h.procs.cwd, fun ip => ?_, fun ip hpos => ?_, href,
    fun f hpos => h.file f (by omega), h.pipe⟩
  · rw [hst'.inv.refs.ref, hst.inv.refs.ref, hholders]
  · exact h.same.slot ip (hst.inv.refs.mem_of_pos hpos)

/-- A call that fails, and whether it has changed anything. -/
theorem Call.run_failed (hst : Boundary Guarded st) (hcwd : st.cwd p = some cwd)
    (hpossible : call.possible st) (htakes : call.Takes) :
    returns (call.run p cwd) st fun ws r st' => r = -1 →
      (¬ call.Creates cwd st.fs → Untouched st ws st') ∧
      (call.Creates cwd st.fs → st'.fs.inode ≠ st.fs.inode) := by
  have hmem := cwd_mem_holders hcwd
  have hplain : ∀ {m : SysM Int}, (returns m st fun ws r st' => r = -1 → Untouched st ws st') →
      returns m st fun ws r st' => r = -1 →
        (¬ False → Untouched st ws st') ∧ (False → st'.fs.inode ≠ st.fs.inode) := fun hm =>
    returns_mono hm fun _ _ _ h hr => ⟨fun _ => h hr, False.elim⟩
  cases call with
  | link old new => exact hplain (onFs_calm (sysLink_calm hst.inv hmem old new))
  | unlink path => exact hplain (onFs_calm (sysUnlink_calm hst.inv hmem path))
  | mkdir path => exact hplain (onFs_calm (create_put_calm hst.inv hmem path .dir nofun 0 0))
  | mknod path major minor =>
      exact hplain (onFs_calm (create_put_calm hst.inv hmem path .dev nofun _ _))
  | «open» path omode => exact sysOpen_calm hst hcwd path omode
  | chdir path => exact hplain (sysChdir_calm hst hcwd path)
  | dup fd => exact hplain (sysDup_calm st p fd)
  | pipe page =>
      refine hplain (sysPipe_calm hst.ok.files.none fun n hn => ?_)
      subst hn
      exact Option.isNone_iff_eq_none.1 hpossible
  | _ => exact htakes.elim

/-- **Failed calls.** In every state that a run of calls comes to, a call that returns -1 has changed
    nothing, except exactly for an `open` with `O_CREATE` of a name that its parent directory does
    not have: the file has been created. -/
theorem failed_call_iff {tr : List (Machine × (Pid × Call))} (hst : Boundary Guarded st₀)
    (hrun : Run Step (.running st₀) tr (.running st)) (hcwd : st.cwd p = some cwd)
    (hpossible : call.possible st) (htakes : call.Takes)
    (hfails : call.run p cwd st = (ws, .ok (-1, st'))) :
    Unchanged st ws st' ↔ ¬ call.Creates cwd st.fs := by
  have hmeets : ∀ x ∈ tr, Call.Meets (fun _ => True) x.1 x.2 :=
    fun x _ => Call.Meets.of_marks fun _ _ => trivial
  have hboundary : Boundary Guarded st := (run_keeps laws_guarded hst hrun hmeets).2
  have hboundary' : Boundary Guarded st' :=
    returns_elim (returns_of_wp (Call.run_spec laws_guarded hboundary hcwd call hpossible)
      fun _ => trivial) hfails
  obtain ⟨hcalm, hcreated⟩ :=
    returns_elim (Call.run_failed hboundary hcwd hpossible htakes) hfails rfl
  constructor
  · exact fun hsame hcreates => hcreated hcreates hsame.inode
  · exact fun hnot => (hcalm hnot).unchanged hboundary hboundary'

end Runs

/-- The outcome of a call, as far as it can be compared. -/
def Call.outcome (p : Pid) (cwd : Ip) (call : Call) (st : St) : Option (Int × IType) :=
  match (call.run p cwd st).2 with
  | .ok (r, st') => some (r, (st'.fs.inode 2).type)
  | .error _ => none

theorem Call.run_of_outcome {p : Pid} {cwd : Ip} {call : Call} {st : St} {r : Int} {type : IType}
    (h : call.outcome p cwd st = some (r, type)) :
    ∃ ws st', call.run p cwd st = (ws, .ok (r, st')) ∧ (st'.fs.inode 2).type = type := by
  unfold outcome at h
  rcases hrun : call.run p cwd st with ⟨ws, ⟨e⟩ | ⟨r', st'⟩⟩
  · rw [hrun] at h
    exact nomatch h
  · rw [hrun] at h
    obtain ⟨rfl, rfl⟩ := Prod.mk.inj (Option.some.inj h)
    exact ⟨ws, st', rfl, rfl⟩

/-- The state that a machine is in between calls. -/
def Machine.st? : Machine → Option St
  | .running st => some st
  | .panicked _ => none

theorem Machine.eq_of_st? {s : Machine} {st : St} (h : s.st? = some st) : s = .running st := by
  cases s with
  | running st' => rw [Option.some.inj h]
  | panicked e => exact nomatch h

/-- After a file is created, linking it into a directory that does not exist leaves no trace of the
    link count that was raised. -/
theorem failed_call_link :
    ∃ tr st ws st', Run Step (.running boot) tr (.running st) ∧
      tr.map Prod.snd = [(0, .open ['f'] oCreate)] ∧
      (Call.link ['f'] ['d', '/', 'g']).run 0 rootSlot st = (ws, .ok (-1, st')) ∧
      Unchanged st ws st' := by
  have hplay : ((play next (.running boot) [(0, .open ['f'] oCreate)]).bind fun r =>
      r.2.st?.bind fun st => ((Call.link ['f'] ['d', '/', 'g']).outcome 0 rootSlot st).map fun o =>
        (st.cwd 0, o)) = some (some rootSlot, (-1, .file)) := by decide +kernel
  obtain ⟨⟨tr, s⟩, hplay, hst⟩ := Option.bind_eq_some_iff.1 hplay
  obtain ⟨st, hst, hout⟩ := Option.bind_eq_some_iff.1 hst
  obtain ⟨o, hout, heq⟩ := Option.map_eq_some_iff.1 hout
  obtain ⟨hcwd, rfl⟩ := Prod.mk.inj heq
  obtain ⟨hrun, hlabels⟩ := play_run hplay
  obtain rfl : s = .running st := Machine.eq_of_st? hst
  obtain ⟨ws, st', hcall, -⟩ := Call.run_of_outcome hout
  have hpossible : (Call.link ['f'] ['d', '/', 'g']).possible st := rfl
  have htakes : (Call.link ['f'] ['d', '/', 'g']).Takes := trivial
  refine ⟨tr, st, ws, st', hrun, hlabels, hcall, ?_⟩
  exact (failed_call_iff (boot_boundary boot_guarded) hrun hcwd hpossible htakes hcall).2 id

/-- All descriptors of the first process, on the root directory. -/
def openAll : List (Pid × Call) := List.replicate 16 (0, .open ['.'] 0)

/-- With no descriptor left, `open` with `O_CREATE` fails and has created the file. -/
theorem failed_open_creates :
    ∃ tr st ws st', Run Step (.running boot) tr (.running st) ∧ tr.map Prod.snd = openAll ∧
      (Call.open ['f'] oCreate).run 0 rootSlot st = (ws, .ok (-1, st')) ∧
      (st.fs.inode 2).type = .free ∧ (st'.fs.inode 2).type = .file ∧ ¬ Unchanged st ws st' := by
  have hplay : ((play next (.running boot) openAll).bind fun r =>
      r.2.st?.bind fun st => ((Call.open ['f'] oCreate).outcome 0 rootSlot st).map fun o =>
        ((st.fs.inode 2).type, o)) = some (.free, (-1, .file)) := by decide +kernel
  obtain ⟨⟨tr, s⟩, hplay, hst⟩ := Option.bind_eq_some_iff.1 hplay
  obtain ⟨st, hst, hout⟩ := Option.bind_eq_some_iff.1 hst
  obtain ⟨o, hout, heq⟩ := Option.map_eq_some_iff.1 hout
  obtain ⟨hfree, rfl⟩ := Prod.mk.inj heq
  obtain ⟨hrun, hlabels⟩ := play_run hplay
  obtain rfl : s = .running st := Machine.eq_of_st? hst
  obtain ⟨ws, st', hcall, hfile⟩ := Call.run_of_outcome hout
  refine ⟨tr, st, ws, st', hrun, hlabels, hcall, hfree, hfile, fun hsame => ?_⟩
  rw [hsame.inode, hfree] at hfile
  exact nomatch hfile

end Cs350.FileSys
