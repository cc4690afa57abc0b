import Cs350.FileSys.Names

set_option autoImplicit false

/-! # Open files and pipes

`Files st F` says that the reference counts of `ftable` are those of the multiset `F`, one element
for each reference to a file, that a file without references has no type, and that the pages in use
as pipes are those of which an end is open. Between calls `F` are the descriptors of all processes;
in the middle of a call a file may be referenced that is not in a descriptor yet, or no longer.

The references to inodes are counted in the same way: `St.holders` are the current directories and
the inodes of open files. -/

namespace Cs350.FileSys

open Prog

@[simp] theorem setFile_file_self (st : St) (f : FileId) (file : File) :
    (st.setFile f file).file f = file := Function.update_self _ _ _

theorem setFile_file_of_ne (st : St) {f g : FileId} (file : File) (h : g ≠ f) :
    (st.setFile f file).file g = st.file g := Function.update_of_ne h _ _

/-! ## Counting references -/

/-- The reference of a pointer that may be null. -/
def pointer {α : Type} (r : Option α) : Multiset α := r.elim 0 ({·})

/-- The inode that a file refers to. -/
def FileKind.held : FileKind → Multiset Ip
  | .inode ip => {ip}
  | _ => 0

/-- The files that descriptors refer to. -/
def St.fds (st : St) : Multiset FileId := ∑ p, ∑ fd, pointer (st.ofile p fd)

/-- The inodes that current directories and open files refer to. -/
def St.holders (st : St) : Multiset Ip :=
  ∑ p, pointer (st.cwd p) + ∑ f, (st.file f).kind.held

section Counting

variable (st : St) (p : Pid)

theorem holders_setCwd (cwd : Option Ip) :
    (st.setCwd p cwd).holders + pointer (st.cwd p) = st.holders + pointer cwd := by
  have hsum := sum_add_of_eq_off (Finset.mem_univ p) (f := fun q => pointer (st.cwd q))
    (g := fun q => pointer (Function.update st.cwd p cwd q))
    (fun q hq => by rw [Function.update_of_ne hq])
  rw [Function.update_self] at hsum
  rw [St.holders, St.holders, add_right_comm, add_right_comm _ _ (pointer cwd)]
  exact congrArg (· + _) hsum

theorem holders_setFile (f : FileId) (file : File) :
    (st.setFile f file).holders + (st.file f).kind.held = st.holders + file.kind.held := by
  have hsum := sum_add_of_eq_off (Finset.mem_univ f) (f := fun g => (st.file g).kind.held)
    (g := fun g => (Function.update st.file f file g).kind.held)
    (fun g hg => by rw [Function.update_of_ne hg])
  rw [Function.update_self] at hsum
  rw [St.holders, St.holders, add_assoc, add_assoc]
  exact congrArg (_ + ·) hsum

theorem fds_setOfile (fd : Fd) (r : Option FileId) :
    (st.setOfile p fd r).fds + pointer (st.ofile p fd) = st.fds + pointer r := by
  have hrow := sum_add_of_eq_off (Finset.mem_univ fd) (f := fun x => pointer (st.ofile p x))
    (g := fun x => pointer (Function.update (st.ofile p) fd r x))
    (fun x hx => by rw [Function.update_of_ne hx])
  have hsum := sum_add_of_eq_off (Finset.mem_univ p)
    (f := fun q => ∑ x, pointer (st.ofile q x))
    (g := fun q => ∑ x, pointer (Function.update st.ofile p (Function.update (st.ofile p) fd r) q x))
    (fun q hq => by rw [Function.update_of_ne hq])
  rw [Function.update_self] at hrow hsum
  -- both sides with the old row added
  apply add_right_cancel (b := ∑ x, pointer (st.ofile p x))
  calc (st.setOfile p fd r).fds + pointer (st.ofile p fd) + ∑ x, pointer (st.ofile p x)
      = ((st.setOfile p fd r).fds + ∑ x, pointer (st.ofile p x)) + pointer (st.ofile p fd) := by
        rw [add_right_comm]
    _ = (st.fds + ∑ x, pointer (Function.update (st.ofile p) fd r x)) + pointer (st.ofile p fd) :=
        congrArg (· + _) hsum
    _ = st.fds + (∑ x, pointer (st.ofile p x) + pointer r) := by rw [add_assoc, hrow]
    _ = st.fds + pointer r + ∑ x, pointer (st.ofile p x) := by rw [add_comm _ (pointer r), add_assoc]

end Counting

/-! ## Pipes -/

/-- File `f` is the read end or, with `w`, the write end of the pipe in `page`. -/
def IsEnd (st : St) (f : FileId) (page : Nat) (w : Bool) : Prop :=
  (st.file f).kind = .pipe page ∧ (st.file f).writable = w

/-- The end is recorded as open. -/
def Pipe.isOpen (p : Pipe) (w : Bool) : Bool := if w then p.writeopen else p.readopen

/-- The pipes after one end is closed. -/
def Pipe.close (p : Pipe) (w : Bool) : Option Pipe :=
  let p' : Pipe := if w then { p with writeopen := false } else { p with readopen := false }
  if p'.readopen = false ∧ p'.writeopen = false then none else some p'

structure Pipes (st : St) : Prop where
  uniq : ∀ f g page w, IsEnd st f page w → IsEnd st g page w → f = g
  ends : ∀ page w, (∃ f, IsEnd st f page w) ↔ ∃ p, st.pipe page = some p ∧ p.isOpen w
  used : ∀ page p, st.pipe page = some p → ∃ w, p.isOpen w

section Pipes

variable {st st' : St} {f g : FileId} {page : Nat} {w : Bool}

theorem Pipes.congr (h : Pipes st) (hends : ∀ f page w, IsEnd st' f page w ↔ IsEnd st f page w)
    (hpipe : st'.pipe = st.pipe) : Pipes st' := by
  refine ⟨fun f g page w hf hg => ?_, fun page w => ?_, fun page p hp => ?_⟩
  · exact h.uniq f g page w ((hends f page w).1 hf) ((hends g page w).1 hg)
  · rw [hpipe, ← h.ends page w]
    exact exists_congr fun f => hends f page w
  · rw [hpipe] at hp
    exact h.used page p hp

/-- A file is an end of no more than one pipe, and only one of the two. -/
theorem IsEnd.inj {page' : Nat} {w' : Bool} (h : IsEnd st f page w) (h' : IsEnd st f page' w') :
    page' = page ∧ w' = w := by
  have hpage := h'.1.symm.trans h.1
  rw [FileKind.pipe.injEq] at hpage
  exact ⟨hpage, h'.2.symm.trans h.2⟩

theorem Pipe.close_isOpen (p : Pipe) (w v : Bool) :
    (∃ p', p.close w = some p' ∧ p'.isOpen v) ↔ v ≠ w ∧ p.isOpen v := by
  obtain ⟨r, wr⟩ := p
  revert r wr w v
  decide

theorem Pipe.close_used (p : Pipe) (w : Bool) {p' : Pipe} (h : p.close w = some p') :
    ∃ v, p'.isOpen v := by
  obtain ⟨r, wr⟩ := p
  obtain ⟨r', wr'⟩ := p'
  cases r <;> cases wr <;> cases w <;> simp [Pipe.close] at h <;> simp [Pipe.isOpen, ← h]

/-- The last reference to an end of a pipe goes away. -/
theorem Pipes.close {p : Pipe} {file : File} (h : Pipes st) (hf : IsEnd st f page w)
    (hp : st.pipe page = some p) (hkind : file.kind = .none) :
    Pipes ((st.setFile f file).setPipe page (p.close w)) := by
  have hends : ∀ g page' w', IsEnd ((st.setFile f file).setPipe page (p.close w)) g page' w' ↔
      g ≠ f ∧ IsEnd st g page' w' := by
    intro g page' w'
    by_cases hg : g = f
    · subst hg
      have hself : (((st.setFile g file).setPipe page (p.close w)).file g) = file :=
        Function.update_self _ _ _
      rw [IsEnd, hself, hkind]
      simp
    · have hother : (((st.setFile f file).setPipe page (p.close w)).file g) = st.file g :=
        Function.update_of_ne hg _ _
      rw [IsEnd, hother]
      simp [hg, IsEnd]
  have hself : ((st.setFile f file).setPipe page (p.close w)).pipe page = p.close w :=
    Function.update_self _ _ _
  have hother : ∀ page', page' ≠ page →
      ((st.setFile f file).setPipe page (p.close w)).pipe page' = st.pipe page' :=
    fun page' hne => Function.update_of_ne hne _ _
  refine ⟨?_, ?_, ?_⟩
  · intro g k page' w' hg hk
    exact h.uniq g k page' w' ((hends g page' w').1 hg).2 ((hends k page' w').1 hk).2
  · intro page' w'
    simp only [hends]
    by_cases hpage : page' = page
    · subst hpage
      rw [hself, Pipe.close_isOpen]
      constructor
      · rintro ⟨g, hne, hg⟩
        obtain ⟨p', hp', hopen⟩ := (h.ends page' w').1 ⟨g, hg⟩
        rw [hp, Option.some.injEq] at hp'
        subst hp'
        refine ⟨?_, hopen⟩
        rintro rfl
        exact hne (h.uniq g f page' w' hg hf)
      · rintro ⟨hne, hopen⟩
        obtain ⟨g, hg⟩ := (h.ends page' w').2 ⟨p, hp, hopen⟩
        refine ⟨g, ?_, hg⟩
        rintro rfl
        exact hne (hf.inj hg).2
    · rw [hother page' hpage, ← h.ends page' w']
      refine exists_congr fun g => ⟨fun hg => hg.2, fun hg => ⟨?_, hg⟩⟩
      rintro rfl
      exact hpage (hf.inj hg).1
  · intro page' p' hp'
    by_cases hpage : page' = page
    · subst hpage
      rw [hself] at hp'
      exact p.close_used w hp'
    · rw [hother page' hpage] at hp'
      exact h.used page' p' hp'

/-- A new pipe in a page that was not in use, between two files that had no type. -/
theorem Pipes.alloc {file0 file1 : File} {f0 f1 : FileId} (h : Pipes st)
    (hpage : st.pipe page = none) (hne : f0 ≠ f1) (h0 : (st.file f0).kind = .none)
    (h1 : (st.file f1).kind = .none) (hfile0 : file0.kind = .pipe page)
    (hw0 : file0.writable = false) (hfile1 : file1.kind = .pipe page)
    (hw1 : file1.writable = true) :
    Pipes (((st.setPipe page (some { readopen := true, writeopen := true })).setFile f0
      file0).setFile f1 file1) := by
  generalize hst : ((st.setPipe page (some { readopen := true, writeopen := true })).setFile f0
    file0).setFile f1 file1 = st'
  have hself1 : st'.file f1 = file1 := by
    rw [← hst]
    exact Function.update_self _ _ _
  have hself0 : st'.file f0 = file0 := by
    rw [← hst]
    exact (Function.update_of_ne hne _ _).trans (Function.update_self _ _ _)
  have hother : ∀ g, g ≠ f0 → g ≠ f1 → st'.file g = st.file g := by
    intro g hg0 hg1
    rw [← hst]
    exact (Function.update_of_ne hg1 _ _).trans (Function.update_of_ne hg0 _ _)
  have hpipe : st'.pipe page = some { readopen := true, writeopen := true } := by
    rw [← hst]
    exact Function.update_self _ _ _
  have hpipe' : ∀ page', page' ≠ page → st'.pipe page' = st.pipe page' := by
    intro page' hpage'
    rw [← hst]
    exact Function.update_of_ne hpage' _ _
  have hnone : ∀ g w, ¬ IsEnd st g page w := by
    intro g w hg
    obtain ⟨p, hp, -⟩ := (h.ends page w).1 ⟨g, hg⟩
    rw [hpage] at hp
    cases hp
  -- the ends of the new pipe are the two files, and those of other pipes are as before
  have hnew : ∀ g w, IsEnd st' g page w ↔ g = if w then f1 else f0 := by
    intro g w
    by_cases hg1 : g = f1
    · subst hg1
      rw [IsEnd, hself1, hfile1, hw1]
      cases w <;> simp [Ne.symm hne]
    · by_cases hg0 : g = f0
      · subst hg0
        rw [IsEnd, hself0, hfile0, hw0]
        cases w <;> simp [hne]
      · have hnot : ¬ IsEnd st' g page w := by
          rw [IsEnd, hother g hg0 hg1]
          exact hnone g w
        cases w <;> simp [hg0, hg1, hnot]
  have hold : ∀ g page' w, page' ≠ page → (IsEnd st' g page' w ↔ IsEnd st g page' w) := by
    intro g page' w hpage'
    by_cases hg1 : g = f1
    · subst hg1
      rw [IsEnd, IsEnd, hself1, hfile1, h1]
      simp [Ne.symm hpage']
    · by_cases hg0 : g = f0
      · subst hg0
        rw [IsEnd, IsEnd, hself0, hfile0, h0]
        simp [Ne.symm hpage']
      · rw [IsEnd, IsEnd, hother g hg0 hg1]
  refine ⟨?_, ?_, ?_⟩
  · intro g k page' w hg hk
    by_cases hp : page' = page
    · subst hp
      rw [hnew] at hg hk
      rw [hg, hk]
    · rw [hold _ _ _ hp] at hg hk
      exact h.uniq g k page' w hg hk
  · intro page' w
    by_cases hp : page' = page
    · subst hp
      simp only [hnew, hpipe]
      cases w <;> simp [Pipe.isOpen]
    · simp only [hold _ _ _ hp, hpipe' page' hp]
      exact h.ends page' w
  · intro page' p hp'
    by_cases hp : page' = page
    · subst hp
      rw [hpipe, Option.some.injEq] at hp'
      subst hp'
      exact ⟨true, rfl⟩
    · rw [hpipe' page' hp] at hp'
      exact h.used page' p hp'

end Pipes

/-! ## The file table -/

structure Table (st : St) (F : Multiset FileId) : Prop where
  ref : ∀ f, (st.file f).ref = F.count f
  none : ∀ f, (st.file f).ref = 0 → (st.file f).kind = .none

structure Files (st : St) (F : Multiset FileId) : Prop extends Table st F where
  pipes : Pipes st

/-- The invariant inside a call: `X` are references to inodes that neither a current directory nor
    an open file accounts for, and `F` are all the references to files. -/
structure Ok (T : Fs → Multiset Nat → Prop) (st : St) (X : Multiset Ip) (F : Multiset FileId) :
    Prop where
  inv : Inv T st.fs (X + st.holders) (X + st.holders) 0
  files : Files st F

/-- The processes have the same descriptors and current directories. -/
structure SameProcs (st st' : St) : Prop where
  ofile : st'.ofile = st.ofile
  cwd : st'.cwd = st.cwd

section Table

variable {C : Mark → Prop} {E : Panic → Prop} {T : Fs → Multiset Nat → Prop}
  {st st' st'' : St} {X : Multiset Ip} {F F' : Multiset FileId} {f : FileId}

theorem SameProcs.trans (h : SameProcs st st') (h' : SameProcs st' st'') : SameProcs st st'' :=
  ⟨h'.ofile.trans h.ofile, h'.cwd.trans h.cwd⟩

theorem SameProcs.fds (h : SameProcs st st') : st'.fds = st.fds := by
  rw [St.fds, h.ofile, St.fds]

/-- The files do not depend on the file system. -/
theorem Files.setFs (h : Files st F) (fs : Fs) : Files { st with fs := fs } F :=
  ⟨⟨h.ref, h.none⟩, h.pipes.congr (fun _ _ _ => Iff.rfl) rfl⟩

theorem Files.ref_pos (h : Files st F) (hf : f ∈ F) : 0 < (st.file f).ref := by
  rw [h.ref]
  exact Multiset.count_pos.2 hf

theorem Table.setFile {file : File} (h : Table st F) (hself : file.ref = F'.count f)
    (hother : ∀ g, g ≠ f → F'.count g = F.count g) (hnone : file.ref = 0 → file.kind = .none) :
    Table (st.setFile f file) F' := by
  constructor
  · intro g
    by_cases hg : g = f
    · rw [hg, setFile_file_self, hself]
    · rw [setFile_file_of_ne _ _ hg, h.ref, hother g hg]
  · intro g
    by_cases hg : g = f
    · rw [hg, setFile_file_self]
      exact hnone
    · rw [setFile_file_of_ne _ _ hg]
      exact h.none g

/-- A change of one file that makes or leaves no end of a pipe. -/
theorem Files.setFile {file : File} (h : Files st F) (hself : file.ref = F'.count f)
    (hother : ∀ g, g ≠ f → F'.count g = F.count g) (hnone : file.ref = 0 → file.kind = .none)
    (hends : ∀ page w, file.kind = .pipe page ∧ file.writable = w ↔ IsEnd st f page w) :
    Files (st.setFile f file) F' := by
  refine ⟨h.toTable.setFile hself hother hnone, h.pipes.congr (fun g page w => ?_) rfl⟩
  by_cases hg : g = f
  · rw [hg, ← hends page w, IsEnd, setFile_file_self]
  · rw [IsEnd, setFile_file_of_ne _ _ hg, IsEnd]

/-- A change of one file's reference count. -/
theorem Ok.setRef {n : Nat} (h : Ok T st X F) (hself : n = F'.count f)
    (hother : ∀ g, g ≠ f → F'.count g = F.count g) (hnone : n = 0 → (st.file f).kind = .none) :
    Ok T (st.setFile f { st.file f with ref := n }) X F' := by
  have hholders : (st.setFile f { st.file f with ref := n }).holders = st.holders :=
    add_right_cancel (holders_setFile st f { st.file f with ref := n })
  refine ⟨?_, h.files.setFile hself hother hnone fun page w => Iff.rfl⟩
  rw [hholders]
  exact h.inv

theorem filealloc_spec (h : Ok T st X F) :
    wp C E filealloc st fun r st' =>
      match r with
      | none => st' = st
      | some f => (st.file f).kind = .none ∧ f ∉ F ∧
          st' = st.setFile f { st.file f with ref := 1 } ∧ Ok T st' X (f ::ₘ F) := by
  unfold filealloc
  apply wp_get_bind
  split
  next f hfind =>
    have hzero := List.find?_some hfind
    rw [decide_eq_true_eq] at hzero
    have hmem : f ∉ F := by
      rw [h.files.ref] at hzero
      exact Multiset.count_eq_zero.1 hzero
    apply wp_modify_bind
    refine wp_pure ⟨h.files.none f hzero, hmem, rfl, h.setRef ?_ ?_ (fun h => absurd h nofun)⟩
    · rw [Multiset.count_cons_self, Multiset.count_eq_zero.2 hmem]
    · intro g hg
      rw [Multiset.count_cons_of_ne hg]
  next => exact wp_pure rfl

theorem filedup_spec (hE : E .filedup) (h : Ok T st X F) :
    wp C E (filedup f) st fun g st' => g = f ∧ Ok T st' X (f ::ₘ F) ∧ SameProcs st st' := by
  unfold filedup
  apply wp_get_bind
  apply wp_ite
  · intro _
    exact wp_stop hE
  · intro _
    apply wp_modify_bind
    refine wp_pure ⟨rfl, h.setRef ?_ ?_ (fun h => absurd h (Nat.succ_ne_zero _)), rfl, rfl⟩
    · rw [Multiset.count_cons_self, h.files.ref]
    · intro g hg
      rw [Multiset.count_cons_of_ne hg]

theorem pipeclose_spec {page : Nat} {p : Pipe} (w : Bool) (hp : st.pipe page = some p) :
    wp C E (pipeclose page w) st fun _ st' => st' = st.setPipe page (p.close w) := by
  unfold pipeclose
  apply wp_get_bind
  rw [hp]
  dsimp only
  apply wp_ite
  · intro hclosed
    apply wp_modify
    rw [Pipe.close, if_pos hclosed]
  · intro hopen
    apply wp_modify
    rw [Pipe.close, if_neg hopen]

theorem fileclose_spec (laws : Laws C E T) (h : Ok T st X (f ::ₘ F)) :
    wp C E (fileclose f) st fun _ st' => Ok T st' X F ∧ SameProcs st st' := by
  have href := h.files.ref f
  rw [Multiset.count_cons_self] at href
  have hother : ∀ g, g ≠ f → F.count g = (f ::ₘ F).count g := by
    intro g hg
    rw [Multiset.count_cons_of_ne hg]
  unfold fileclose
  apply wp_get_bind
  dsimp only
  rw [if_neg (by omega)]
  apply wp_ite
  · intro hpos
    apply wp_modify
    refine ⟨h.setRef (by omega) hother (fun hzero => ?_), rfl, rfl⟩
    omega
  · intro hlast
    apply wp_modify_bind
    generalize hfile : ({ st.file f with ref := 0, kind := .none } : File) = file
    have hzero : file.ref = F.count f := by
      rw [← hfile]
      show 0 = F.count f
      omega
    have hkind : file.kind = .none := by rw [← hfile]
    have hholders := holders_setFile st f file
    rw [hkind] at hholders
    have hfiles : (∀ page w, ¬ IsEnd st f page w) → Files (st.setFile f file) F := by
      intro hnot
      apply h.files.setFile hzero hother (fun _ => hkind)
      intro page w
      rw [hkind]
      simp [hnot page w]
    cases hold : (st.file f).kind with
    | none =>
        rw [hold] at hholders
        refine wp_pure ⟨⟨?_, hfiles fun page w => ?_⟩, rfl, rfl⟩
        · rw [add_right_cancel hholders]
          exact h.inv
        · rw [IsEnd, hold]
          simp
    | inode ip =>
        rw [hold] at hholders
        have hinv : Inv T (st.setFile f file).fs (ip ::ₘ (X + (st.setFile f file).holders))
            (ip ::ₘ (X + (st.setFile f file).holders)) 0 := by
          have hcount : st.holders = (st.setFile f file).holders + {ip} :=
            (add_zero _).symm.trans hholders.symm
          rw [← Multiset.singleton_add, add_comm, add_assoc, ← hcount]
          exact h.inv
        have hfiles' := hfiles fun page w => by
          rw [IsEnd, hold]
          simp
        apply wp_zoom
        apply wp_mono (iput_held laws hinv)
        rintro _ fs' ⟨hinv', -⟩
        exact ⟨⟨hinv', hfiles'.setFs fs'⟩, rfl, rfl⟩
    | pipe page =>
        rw [hold] at hholders
        have hend : IsEnd st f page (st.file f).writable := ⟨hold, rfl⟩
        obtain ⟨p, hp, -⟩ := (h.files.pipes.ends page _).1 ⟨f, hend⟩
        have hp' : (st.setFile f file).pipe page = some p := hp
        obtain ⟨hrefs, hkinds⟩ := h.files.toTable.setFile hzero hother fun _ => hkind
        apply wp_mono (pipeclose_spec (st.file f).writable hp')
        rintro _ _ rfl
        refine ⟨⟨?_, ⟨hrefs, hkinds⟩, h.files.pipes.close hend hp hkind⟩, rfl, rfl⟩
        show Inv T st.fs (X + (st.setFile f file).holders) (X + (st.setFile f file).holders) 0
        rw [add_right_cancel hholders]
        exact h.inv

/-- A file that is no end of a pipe and has no inode. -/
theorem not_isEnd (hkind : (st.file f).kind = .none) (page : Nat) (w : Bool) :
    ¬ IsEnd st f page w := by
  rw [IsEnd, hkind]
  simp

/-- The two files of a new pipe. -/
theorem Ok.pipe {f0 f1 : FileId} {page : Nat} (h : Ok T st X F) (hpage : st.pipe page = none)
    (hne : f0 ≠ f1) (h0 : f0 ∈ F) (h1 : f1 ∈ F) (hk0 : (st.file f0).kind = .none)
    (hk1 : (st.file f1).kind = .none) :
    Ok T (((st.setPipe page (some { readopen := true, writeopen := true })).setFile f0
      { st.file f0 with kind := .pipe page, readable := true, writable := false }).setFile f1
        { st.file f1 with kind := .pipe page, readable := false, writable := true }) X F := by
  have hpos0 := h.files.ref_pos h0
  have hpos1 := h.files.ref_pos h1
  have hpipe : Table (st.setPipe page (some { readopen := true, writeopen := true })) F :=
    ⟨h.files.ref, h.files.none⟩
  generalize hfile0 : ({ st.file f0 with
    kind := .pipe page, readable := true, writable := false } : File) = file0
  generalize hfile1 : ({ st.file f1 with
    kind := .pipe page, readable := false, writable := true } : File) = file1
  have hr0 : file0.ref = (st.file f0).ref := by rw [← hfile0]
  have hr1 : file1.ref = (st.file f1).ref := by rw [← hfile1]
  have hkind0 : file0.kind = .pipe page := by rw [← hfile0]
  have hkind1 : file1.kind = .pipe page := by rw [← hfile1]
  have hstep0 := hpipe.setFile (hr0.trans (h.files.ref f0)) (fun _ _ => rfl) (fun hz => by omega)
  have hstep1 := hstep0.setFile (hr1.trans (h.files.ref f1)) (fun _ _ => rfl) (fun hz => by omega)
  have hpipes := h.files.pipes.alloc hpage hne hk0 hk1 hkind0 (by rw [← hfile0]) hkind1
    (by rw [← hfile1])
  -- neither file refers to an inode, before or after
  have hold1 : (((st.setPipe page (some { readopen := true, writeopen := true })).setFile f0
      file0).file f1).kind = .none := by
    rw [setFile_file_of_ne _ _ (Ne.symm hne)]
    exact hk1
  have hholders0 := holders_setFile
    (st.setPipe page (some { readopen := true, writeopen := true })) f0 file0
  have hholders1 := holders_setFile
    ((st.setPipe page (some { readopen := true, writeopen := true })).setFile f0 file0) f1 file1
  rw [hold1, hkind1] at hholders1
  have hkept0 : ((st.setPipe page (some { readopen := true, writeopen := true })).file f0).kind
      = .none := hk0
  rw [hkept0, hkind0] at hholders0
  refine ⟨?_, hstep1, hpipes⟩
  rw [add_right_cancel hholders1, add_right_cancel hholders0]
  exact h.inv

theorem pipealloc_spec {page : Option Nat} (laws : Laws C E T) (h : Ok T st X F)
    (hpage : ∀ n, page = some n → st.pipe n = none) :
    wp C E (pipealloc page) st fun r st' => SameProcs st st' ∧
      match r with
      | none => Ok T st' X F
      | some (f0, f1) => Ok T st' X (f1 ::ₘ f0 ::ₘ F) := by
  unfold pipealloc
  apply wp_bind (filealloc_spec h)
  intro r st₁ hr
  split
  next =>
    rw [show st₁ = st from hr]
    exact wp_pure ⟨⟨rfl, rfl⟩, h⟩
  next f0 =>
    obtain ⟨hkind0, hf0, rfl, hok₁⟩ := hr
    apply wp_bind (filealloc_spec hok₁)
    intro r st₂ hr₂
    split
    next =>
      rw [show st₂ = _ from hr₂]
      apply wp_bind (fileclose_spec laws hok₁)
      rintro _ st₃ ⟨hok₃, hsame₃⟩
      exact wp_pure ⟨⟨hsame₃.ofile, hsame₃.cwd⟩, hok₃⟩
    next f1 =>
      obtain ⟨hkind1, hf1, rfl, hok₂⟩ := hr₂
      have hne : f0 ≠ f1 := by
        rintro rfl
        exact hf1 (Multiset.mem_cons_self f0 F)
      split
      next =>
        rw [Multiset.cons_swap] at hok₂
        apply wp_bind (fileclose_spec laws hok₂)
        rintro _ st₃ ⟨hok₃, hsame₃⟩
        apply wp_bind (fileclose_spec laws hok₃)
        rintro _ st₄ ⟨hok₄, hsame₄⟩
        exact wp_pure ⟨⟨hsame₄.ofile.trans hsame₃.ofile, hsame₄.cwd.trans hsame₃.cwd⟩, hok₄⟩
      next n =>
        generalize hst₂ : (st.setFile f0 { st.file f0 with ref := 1 }).setFile f1
          { (st.setFile f0 { st.file f0 with ref := 1 }).file f1 with ref := 1 } = st₂ at hok₂ ⊢
        have hmem0 : f0 ∈ f1 ::ₘ f0 ::ₘ F :=
          Multiset.mem_cons_of_mem (Multiset.mem_cons_self f0 F)
        have hk0 : (st₂.file f0).kind = .none := by
          rw [← hst₂, setFile_file_of_ne _ _ hne, setFile_file_self]
          exact hkind0
        have hk1 : (st₂.file f1).kind = .none := by
          rw [← hst₂, setFile_file_self]
          exact hkind1
        have hn : st₂.pipe n = none := by
          rw [← hst₂]
          exact hpage n rfl
        have hok₃ := hok₂.pipe hn hne hmem0 (Multiset.mem_cons_self f1 _) hk0 hk1
        have hfile1 : ∀ file0, ((st₂.setPipe n (some { readopen := true, writeopen := true })).setFile
            f0 file0).file f1 = st₂.file f1 := fun _ => setFile_file_of_ne _ _ (Ne.symm hne)
        apply wp_modify_bind
        apply wp_modify_bind
        apply wp_modify_bind
        simp only [hfile1]
        refine wp_pure ⟨⟨?_, ?_⟩, hok₃⟩
        · rw [← hst₂]
          rfl
        · rw [← hst₂]
          rfl

end Table

end Cs350.FileSys
