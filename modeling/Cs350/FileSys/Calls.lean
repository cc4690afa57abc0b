import Cs350.FileSys.Files
import Cs350.Lib.Transition

set_option autoImplicit false

/-! # Runs of calls

Every call keeps what any predicate with the laws says about the file system, together with exact
reference counts of inodes and files: `Call.run_spec`. By induction the same holds for every run of
calls by any processes, `run_keeps`. -/

namespace Cs350.FileSys

open Prog Transition

/-- The invariant between calls. -/
structure Boundary (T : Fs → Multiset Nat → Prop) (st : St) : Prop where
  ok : Ok T st 0 st.fds
  idle : ∀ p, st.cwd p = none → ∀ fd, st.ofile p fd = none

section Ofile

variable {T : Fs → Multiset Nat → Prop} {st st' : St} {X : Multiset Ip} {F : Multiset FileId}
  {p : Pid} {fd : Fd} {f : FileId} {cwd : Ip}

theorem Ok.setOfile (h : Ok T st X F) (p : Pid) (fd : Fd) (r : Option FileId) :
    Ok T (st.setOfile p fd r) X F :=
  ⟨h.inv, ⟨h.files.ref, h.files.none⟩, h.files.pipes.congr (fun _ _ _ => Iff.rfl) rfl⟩

/-- A descriptor is taken. -/
theorem fds_setOfile_some (h : st.ofile p fd = none) (f : FileId) :
    (st.setOfile p fd (some f)).fds = f ::ₘ st.fds := by
  have hsum := fds_setOfile st p fd (some f)
  rw [h] at hsum
  rw [← Multiset.singleton_add, add_comm]
  exact (add_zero _).symm.trans hsum

/-- A descriptor is given up. -/
theorem fds_setOfile_none (h : st.ofile p fd = some f) :
    f ::ₘ (st.setOfile p fd none).fds = st.fds := by
  have hsum := fds_setOfile st p fd none
  rw [h] at hsum
  rw [← Multiset.singleton_add, add_comm]
  exact hsum.trans (add_zero _)

theorem setOfile_self (st : St) (p : Pid) (fd : Fd) (r : Option FileId) :
    (st.setOfile p fd r).ofile p fd = r := by
  show Function.update st.ofile p (Function.update (st.ofile p) fd r) p fd = r
  rw [Function.update_self, Function.update_self]

theorem setOfile_of_ne (st : St) {p q : Pid} {fd fd' : Fd} (r : Option FileId)
    (h : q ≠ p ∨ fd' ≠ fd) : (st.setOfile p fd r).ofile q fd' = st.ofile q fd' := by
  show Function.update st.ofile p (Function.update (st.ofile p) fd r) q fd' = _
  by_cases hq : q = p
  · subst hq
    rw [Function.update_self, Function.update_of_ne (h.resolve_left (not_not.2 rfl))]
  · rw [Function.update_of_ne hq]

/-- A descriptor is taken and given up again. -/
theorem setOfile_undo (h : st.ofile p fd = none) (f : FileId) :
    ((st.setOfile p fd (some f)).setOfile p fd none).ofile = st.ofile := by
  funext q fd'
  by_cases hq : q = p ∧ fd' = fd
  · rw [hq.1, hq.2, setOfile_self, h]
  · have hne : q ≠ p ∨ fd' ≠ fd := by
      by_contra hcon
      exact hq (by tauto)
    rw [setOfile_of_ne _ _ hne, setOfile_of_ne _ _ hne]

theorem SameProcs.setOfile (h : SameProcs st st') (p : Pid) (fd : Fd) (r : Option FileId) :
    (st'.setOfile p fd r).ofile = (st.setOfile p fd r).ofile := by
  show Function.update st'.ofile p (Function.update (st'.ofile p) fd r) = _
  rw [h.ofile]
  rfl

/-- A file without a type comes to refer to an inode that nothing accounted for. -/
theorem Ok.openFile {ip : Ip} {file : File} (h : Ok T st {ip} F) (hkind : (st.file f).kind = .none)
    (hfile : file.kind = .inode ip) (href : file.ref = (st.file f).ref)
    (hpos : 0 < (st.file f).ref) : Ok T (st.setFile f file) 0 F := by
  have hholders := holders_setFile st f file
  rw [hkind, hfile] at hholders
  have hholders' : (st.setFile f file).holders = {ip} + st.holders :=
    (add_zero _).symm.trans (hholders.trans (add_comm _ _))
  refine ⟨?_, h.files.setFile ?_ ?_ ?_ ?_⟩
  · rw [zero_add, hholders']
    exact h.inv
  · rw [href, h.files.ref]
  · exact fun _ _ => rfl
  · intro hzero
    omega
  · intro page w
    rw [hfile]
    simp [not_isEnd hkind page w]

theorem cwd_mem_holders (h : st.cwd p = some cwd) : cwd ∈ st.holders := by
  apply Multiset.mem_add.2 (Or.inl _)
  rw [Multiset.mem_sum]
  refine ⟨p, Finset.mem_univ p, ?_⟩
  rw [h]
  exact Multiset.mem_singleton_self cwd

end Ofile

section Calls

variable {C : Mark → Prop} {E : Panic → Prop} {T : Fs → Multiset Nat → Prop}
  {st : St} {X : Multiset Ip} {F : Multiset FileId} {p : Pid} {cwd : Ip}

theorem Boundary.inv (h : Boundary T st) : Inv T st.fs st.holders st.holders 0 := by
  have := h.ok.inv
  rwa [zero_add] at this

/-- The descriptors and current directories are as before. -/
theorem Boundary.of_same {st' : St} (h : Boundary T st) (hok : Ok T st' 0 st.fds)
    (hsame : SameProcs st st') : Boundary T st' := by
  rw [← hsame.fds] at hok
  refine ⟨hok, ?_⟩
  rw [hsame.cwd, hsame.ofile]
  exact h.idle

/-- Only the file system has changed, and no reference is left over. -/
theorem Boundary.setFs {fs' : Fs} (h : Boundary T st)
    (hinv : Inv T fs' st.holders st.holders 0) : Boundary T { st with fs := fs' } := by
  refine ⟨⟨?_, h.ok.files.setFs fs'⟩, h.idle⟩
  rw [zero_add]
  exact hinv

/-- A call that is a function of `fs.c`. -/
theorem onFs_spec {m : FsM Int} (h : Boundary T st)
    (hm : wp C E m st.fs fun _ fs' => Inv T fs' st.holders st.holders 0) :
    wp C E (onFs m) st fun _ st' => Boundary T st' := by
  apply wp_zoom
  apply wp_mono hm
  intro _ fs' hinv
  exact h.setFs hinv

/-- `iput` of a reference that nothing accounts for. -/
theorem onFs_iput_spec {ip : Ip} (laws : Laws C E T) (h : Ok T st (ip ::ₘ X) F) :
    wp C E (onFs (iput ip)) st fun _ st' => Ok T st' X F ∧ SameProcs st st' := by
  have hinv := h.inv
  rw [Multiset.cons_add] at hinv
  apply wp_zoom
  apply wp_mono (iput_held laws hinv)
  rintro _ fs' ⟨hinv', -⟩
  exact ⟨⟨hinv', h.files.setFs fs'⟩, rfl, rfl⟩

theorem fdalloc_spec (st : St) (p : Pid) (f : FileId) :
    wp C E (fdalloc p f) st fun r st' =>
      match r with
      | none => st' = st
      | some fd => st.ofile p fd = none ∧ st' = st.setOfile p fd (some f) := by
  unfold fdalloc
  apply wp_get_bind
  split
  next fd hfind =>
    have hnone := List.find?_some hfind
    rw [decide_eq_true_eq] at hnone
    apply wp_modify_bind
    exact wp_pure ⟨hnone, rfl⟩
  next => exact wp_pure rfl

theorem argfd_some {fd : Int} {fd' : Fd} {f : FileId} (h : argfd st p fd = some (fd', f)) :
    st.ofile p fd' = some f := by
  unfold argfd at h
  split_ifs at h with hfd
  obtain ⟨g, hg, heq⟩ := Option.map_eq_some_iff.1 h
  obtain ⟨rfl, rfl⟩ := Prod.mk.inj heq
  exact hg

/-- The idle slots after a change of one descriptor of a process that is not idle. -/
theorem Boundary.idle_setOfile {st' : St} (h : Boundary T st) (hcwd : st.cwd p ≠ none)
    {fd : Fd} {r : Option FileId} (hofile : st'.ofile = (st.setOfile p fd r).ofile)
    (hcwd' : st'.cwd = st.cwd) : ∀ q, st'.cwd q = none → ∀ fd, st'.ofile q fd = none := by
  intro q hq fd'
  rw [hcwd'] at hq
  have hne : q ≠ p := by
    rintro rfl
    exact hcwd hq
  rw [hofile, setOfile_of_ne st r (Or.inl hne)]
  exact h.idle q hq fd'

theorem sysClose_spec (laws : Laws C E T) (h : Boundary T st) (hcwd : st.cwd p ≠ none) (fd : Int) :
    wp C E (sysClose p fd) st fun _ st' => Boundary T st' := by
  unfold sysClose
  apply wp_get_bind
  split
  next => exact wp_pure h
  next fd f harg =>
    have hok := h.ok.setOfile p fd none
    rw [← fds_setOfile_none (argfd_some harg)] at hok
    apply wp_modify_bind
    apply wp_bind (fileclose_spec laws hok)
    rintro _ st₁ ⟨hok₁, hsame⟩
    rw [← hsame.fds] at hok₁
    exact wp_pure ⟨hok₁, h.idle_setOfile hcwd hsame.ofile hsame.cwd⟩

theorem sysDup_spec (laws : Laws C E T) (h : Boundary T st) (hcwd : st.cwd p ≠ none) (fd : Int) :
    wp C E (sysDup p fd) st fun _ st' => Boundary T st' := by
  unfold sysDup
  apply wp_get_bind
  split
  next => exact wp_pure h
  next f harg =>
    apply wp_bind (fdalloc_spec st p f)
    intro r st₁ hr
    split
    next =>
      rw [show st₁ = st from hr]
      exact wp_pure h
    next fd =>
      obtain ⟨hnone, rfl⟩ := hr
      apply wp_bind (filedup_spec (laws.halts _ nofun nofun) (h.ok.setOfile p fd (some f)))
      rintro _ st₂ ⟨rfl, hok₂, hsame⟩
      rw [← fds_setOfile_some hnone, ← hsame.fds] at hok₂
      exact wp_pure ⟨hok₂, h.idle_setOfile hcwd hsame.ofile hsame.cwd⟩

theorem sysPipe_spec {page : Option Nat} (laws : Laws C E T) (h : Boundary T st)
    (hcwd : st.cwd p ≠ none) (hpage : ∀ n, page = some n → st.pipe n = none) :
    wp C E (sysPipe p page) st fun _ st' => Boundary T st' := by
  unfold sysPipe
  apply wp_bind (pipealloc_spec laws h.ok hpage)
  rintro r st₁ ⟨hsame₁, hr⟩
  -- a state with the descriptors of before, whose two files are closed again
  have hback : ∀ st' rf wf, Ok T st' 0 (wf ::ₘ rf ::ₘ st.fds) → SameProcs st st' →
      wp C E (do
        fileclose rf
        fileclose wf
        pure (-1 : Int)) st' fun _ st' => Boundary T st' := by
    intro st' rf wf hok' hsame'
    rw [Multiset.cons_swap] at hok'
    apply wp_bind (fileclose_spec laws hok')
    rintro _ st₂ ⟨hok₂, hsame₂⟩
    apply wp_bind (fileclose_spec laws hok₂)
    rintro _ st₃ ⟨hok₃, hsame₃⟩
    have hsame := (hsame'.trans hsame₂).trans hsame₃
    exact wp_pure (h.of_same hok₃ hsame)
  split
  next => exact wp_pure (h.of_same hr hsame₁)
  next rf wf =>
    have hok₁ : Ok T st₁ 0 (wf ::ₘ rf ::ₘ st.fds) := hr
    apply wp_bind (fdalloc_spec st₁ p rf)
    intro r st₂ hr₂
    split
    next =>
      rw [show st₂ = st₁ from hr₂]
      exact hback st₁ rf wf hok₁ hsame₁
    next fd0 =>
      obtain ⟨hnone, rfl⟩ := hr₂
      apply wp_bind (fdalloc_spec _ p wf)
      intro r st₃ hr₃
      split
      next =>
        rw [show st₃ = _ from hr₃]
        apply wp_modify_bind
        refine hback _ rf wf ((hok₁.setOfile p fd0 (some rf)).setOfile p fd0 none) ⟨?_, ?_⟩
        · rw [setOfile_undo hnone rf, hsame₁.ofile]
        · exact hsame₁.cwd
      next fd1 =>
        obtain ⟨hnone₃, rfl⟩ := hr₃
        have hok₃ := (hok₁.setOfile p fd0 (some rf)).setOfile p fd1 (some wf)
        rw [← hsame₁.fds, ← fds_setOfile_some hnone, ← fds_setOfile_some hnone₃] at hok₃
        refine wp_pure ⟨hok₃, ?_⟩
        intro q hq fd'
        have hq' : st₁.cwd q = none := hq
        rw [hsame₁.cwd] at hq'
        have hne : q ≠ p := by
          rintro rfl
          exact hcwd hq'
        rw [setOfile_of_ne _ _ (Or.inl hne), setOfile_of_ne _ _ (Or.inl hne), hsame₁.ofile]
        exact h.idle q hq' fd'

theorem sysOpen_spec (laws : Laws C E T) (h : Boundary T st) (hcwd : st.cwd p = some cwd)
    (path : List Char) (omode : BitVec 32) :
    wp C E (sysOpen p cwd path omode) st fun _ st' => Boundary T st' := by
  have hp : st.cwd p ≠ none := by
    rw [hcwd]
    nofun
  unfold sysOpen
  refine wp_bind (P := fun r st' => SameProcs st st' ∧ st'.holders = st.holders ∧
    Inv T st'.fs (pointer r + st.holders) (pointer r + st.holders) 0 ∧ Files st' st.fds) ?_ ?_
  · apply wp_zoom
    apply wp_mono (openInode_spec laws h.inv (cwd_mem_holders hcwd) path omode)
    intro r fs' hinv
    refine ⟨⟨rfl, rfl⟩, rfl, ?_, h.ok.files.setFs fs'⟩
    cases r with
    | none =>
        show Inv T fs' (0 + st.holders) (0 + st.holders) 0
        rw [zero_add]
        exact hinv
    | some ip =>
        show Inv T fs' ({ip} + st.holders) ({ip} + st.holders) 0
        rw [Multiset.singleton_add]
        exact hinv
  rintro r st₁ ⟨hsame₁, hholders₁, hinv₁, hfiles₁⟩
  rw [← hholders₁] at hinv₁
  have hok₁ : Ok T st₁ (pointer r) st.fds := ⟨hinv₁, hfiles₁⟩
  -- a state in which the inode has been given back
  have hback : ∀ ip st', Ok T st' {ip} st.fds → SameProcs st st' →
      wp C E (do
        onFs (iunlockput ip)
        pure (-1 : Int)) st' fun _ st' => Boundary T st' := by
    intro ip st' hok' hsame'
    apply wp_bind (onFs_iput_spec laws hok')
    rintro _ st₂ ⟨hok₂, hsame₂⟩
    exact wp_pure (h.of_same hok₂ (hsame'.trans hsame₂))
  split
  next => exact wp_pure (h.of_same hok₁ hsame₁)
  next ip =>
    have hok₁ : Ok T st₁ {ip} st.fds := hok₁
    apply wp_bind (filealloc_spec hok₁)
    intro r st₂ hr₂
    split
    next =>
      rw [show st₂ = st₁ from hr₂]
      exact hback ip st₁ hok₁ hsame₁
    next f =>
      obtain ⟨hkind, -, rfl, hok₂⟩ := hr₂
      generalize hst₂ : st₁.setFile f { st₁.file f with ref := 1 } = st₂ at hok₂ ⊢
      have hsame₂ : SameProcs st st₂ := by
        rw [← hst₂]
        exact ⟨hsame₁.ofile, hsame₁.cwd⟩
      have hkind₂ : (st₂.file f).kind = .none := by
        rw [← hst₂, setFile_file_self]
        exact hkind
      apply wp_bind (fdalloc_spec st₂ p f)
      intro r st₃ hr₃
      split
      next =>
        rw [show st₃ = st₂ from hr₃]
        apply wp_bind (fileclose_spec laws hok₂)
        rintro _ st₄ ⟨hok₄, hsame₄⟩
        exact hback ip st₄ hok₄ (hsame₂.trans hsame₄)
      next fd =>
        obtain ⟨hnone, rfl⟩ := hr₃
        apply wp_modify_bind
        apply wp_pure
        have hofile := hsame₂.setOfile p fd (some f)
        refine ⟨?_, h.idle_setOfile hp hofile hsame₂.cwd⟩
        have hfds : (st₂.setOfile p fd (some f)).fds = f ::ₘ st.fds := by
          rw [fds_setOfile_some hnone, hsame₂.fds]
        have hok₃ := hok₂.setOfile p fd (some f)
        rw [← hfds] at hok₃
        have hpos := hok₃.files.ref_pos (by rw [hfds]; exact Multiset.mem_cons_self f _)
        exact hok₃.openFile hkind₂ rfl rfl hpos

/-- `iput` of the current directory of `p`, which is about to be replaced by `new`. -/
theorem iput_cwd_spec {new : Option Ip} (laws : Laws C E T) (h : Ok T st (pointer new) F)
    (hcwd : st.cwd p = some cwd) :
    wp C E (onFs (iput cwd)) st fun _ st' => Ok T (st'.setCwd p new) 0 F ∧ SameProcs st st' := by
  have hholders := holders_setCwd st p new
  rw [hcwd] at hholders
  have hinv : Inv T st.fs (cwd ::ₘ (st.setCwd p new).holders) (cwd ::ₘ (st.setCwd p new).holders)
      0 := by
    rw [← Multiset.singleton_add, add_comm]
    have hsum : (st.setCwd p new).holders + {cwd} = pointer new + st.holders :=
      hholders.trans (add_comm _ _)
    rw [hsum]
    exact h.inv
  apply wp_zoom
  apply wp_mono (iput_held laws hinv)
  rintro _ fs' ⟨hinv', -⟩
  refine ⟨⟨?_, ⟨h.files.ref, h.files.none⟩, ?_⟩, rfl, rfl⟩
  · rw [zero_add]
    exact hinv'
  · exact h.files.pipes.congr (fun _ _ _ => Iff.rfl) rfl

theorem sysChdir_spec (laws : Laws C E T) (h : Boundary T st) (hcwd : st.cwd p = some cwd)
    (path : List Char) : wp C E (sysChdir p cwd path) st fun _ st' => Boundary T st' := by
  unfold sysChdir
  refine wp_bind (P := fun r st' => st' = { st with fs := st'.fs } ∧
    Inv T st'.fs (pointer r + st.holders) st.holders 0) ?_ ?_
  · apply wp_zoom
    apply wp_mono (namei_spec laws path h.inv (cwd_mem_holders hcwd))
    intro r fs' hr
    refine ⟨rfl, ?_⟩
    cases r with
    | none =>
        show Inv T fs' (0 + st.holders) st.holders 0
        rw [zero_add]
        exact hr.inv
    | some ip =>
        show Inv T fs' ({ip} + st.holders) st.holders 0
        rw [Multiset.singleton_add]
        exact hr.inv
  rintro r st₁ ⟨hst₁, hinv₁⟩
  split
  next =>
    have hinv₁ : Inv T st₁.fs (0 + st.holders) st.holders 0 := hinv₁
    rw [zero_add] at hinv₁
    rw [hst₁]
    exact wp_pure (h.setFs hinv₁)
  next ip =>
    have hinv₁ : Inv T st₁.fs ({ip} + st.holders) st.holders 0 := hinv₁
    rw [Multiset.singleton_add] at hinv₁
    refine wp_bind (P := fun _ st' => SameProcs st st' ∧ Ok T st' {ip} st.fds) ?_ ?_
    · apply wp_zoom
      apply wp_mono (ilock_found laws hinv₁)
      rintro _ fs' ⟨hinv', -, -⟩
      rw [hst₁]
      refine ⟨⟨rfl, rfl⟩, ?_, h.ok.files.setFs _⟩
      rw [Multiset.singleton_add]
      exact hinv'
    rintro _ st₂ ⟨hsame₂, hok₂⟩
    apply wp_get_bind
    apply wp_ite
    · intro _
      apply wp_bind (onFs_iput_spec laws hok₂)
      rintro _ st₃ ⟨hok₃, hsame₃⟩
      exact wp_pure (h.of_same hok₃ (hsame₂.trans hsame₃))
    · intro _
      have hcwd₂ : st₂.cwd p = some cwd := by
        rw [hsame₂.cwd]
        exact hcwd
      have hok₂ : Ok T st₂ (pointer (some ip)) st.fds := hok₂
      apply wp_bind (iput_cwd_spec laws hok₂ hcwd₂)
      rintro _ st₃ ⟨hok₃, hsame₃⟩
      apply wp_modify_bind
      have hsame := hsame₂.trans hsame₃
      rw [← hsame.fds] at hok₃
      refine wp_pure ⟨hok₃, ?_⟩
      intro q hq
      by_cases hqp : q = p
      · subst hqp
        have hself : (st₃.setCwd q (some ip)).cwd q = some ip := Function.update_self _ _ _
        rw [hself] at hq
        cases hq
      · have hother : (st₃.setCwd p (some ip)).cwd q = st₃.cwd q := Function.update_of_ne hqp _ _
        rw [hother, hsame.cwd] at hq
        have hofile : (st₃.setCwd p (some ip)).ofile = st.ofile := hsame.ofile
        rw [hofile]
        exact h.idle q hq

/-- The loop of `exit` gives up the descriptors it comes to. -/
theorem closeAll_spec (laws : Laws C E T) (p : Pid) (fds : List Fd) (h : Ok T st 0 st.fds) :
    wp C E (closeAll p fds) st fun _ st' => Ok T st' 0 st'.fds ∧ st'.cwd = st.cwd ∧
      (∀ q, q ≠ p → st'.ofile q = st.ofile q) ∧
      (∀ fd, fd ∈ fds ∨ st.ofile p fd = none → st'.ofile p fd = none) := by
  induction fds generalizing st with
  | nil =>
      unfold closeAll
      refine wp_pure ⟨h, rfl, fun _ _ => rfl, fun fd hfd => hfd.resolve_left (by simp)⟩
  | cons fd fds ih =>
      unfold closeAll
      apply wp_get_bind
      split
      next f hf =>
        rw [← fds_setOfile_none hf] at h
        apply wp_bind (fileclose_spec laws h)
        rintro _ st₁ ⟨hok₁, hsame₁⟩
        apply wp_modify_bind
        have hofile : (st₁.setOfile p fd none).ofile = (st.setOfile p fd none).ofile :=
          hsame₁.setOfile p fd none
        have hok₂ := hok₁.setOfile p fd none
        have hfds : (st₁.setOfile p fd none).fds = (st.setOfile p fd none).fds := by
          rw [St.fds, hofile, St.fds]
        rw [← hfds] at hok₂
        apply wp_mono (ih hok₂)
        rintro _ st₂ ⟨hok, hcwd, hother, hnone⟩
        refine ⟨hok, hcwd.trans hsame₁.cwd, ?_, ?_⟩
        · intro q hq
          rw [hother q hq, hofile]
          funext fd'
          exact setOfile_of_ne st none (Or.inl hq)
        · intro fd' hfd'
          apply hnone
          rw [hofile]
          by_cases heq : fd' = fd
          · rw [heq, setOfile_self]
            exact Or.inr rfl
          · rw [setOfile_of_ne st none (Or.inr heq)]
            exact hfd'.imp_left fun hmem => (List.mem_cons.1 hmem).resolve_left heq
      next hf =>
        apply wp_mono (ih h)
        rintro _ st₂ ⟨hok, hcwd, hother, hnone⟩
        refine ⟨hok, hcwd, hother, ?_⟩
        intro fd' hfd'
        apply hnone
        rcases hfd' with hmem | hfd'
        · rcases List.mem_cons.1 hmem with rfl | hmem
          · exact Or.inr hf
          · exact Or.inl hmem
        · exact Or.inr hfd'

theorem exit_spec (laws : Laws C E T) (h : Boundary T st) (hcwd : st.cwd p = some cwd) :
    wp C E (exit p cwd) st fun _ st' => Boundary T st' := by
  unfold exit
  apply wp_get_bind
  apply wp_ite
  · intro _
    exact wp_stop (laws.halts _ nofun nofun)
  · intro _
    apply wp_bind (closeAll_spec laws p (List.finRange 16) h.ok)
    rintro _ st₁ ⟨hok₁, hcwd₁, hother, hnone⟩
    have hcwd' : st₁.cwd p = some cwd := by rw [hcwd₁, hcwd]
    have hok₁ : Ok T st₁ (pointer none) st₁.fds := hok₁
    apply wp_bind (iput_cwd_spec laws hok₁ hcwd')
    rintro _ st₂ ⟨hok₂, hsame₂⟩
    rw [← hsame₂.fds] at hok₂
    refine wp_modify ⟨hok₂, ?_⟩
    intro q hq fd
    have hofile : (st₂.setCwd p none).ofile = st₁.ofile := hsame₂.ofile
    rw [hofile]
    by_cases hqp : q = p
    · rw [hqp]
      exact hnone fd (Or.inl (List.mem_finRange fd))
    · have hsame : (st₂.setCwd p none).cwd q = st₂.cwd q := Function.update_of_ne hqp _ _
      rw [hsame, hsame₂.cwd, hcwd₁] at hq
      rw [hother q hqp]
      exact h.idle q hq fd

/-- The loop of `fork` takes a descriptor of the child for each of the parent. -/
theorem dupAll_spec {np : Pid} (laws : Laws C E T) (fds : List Fd)
    (hnodup : fds.Nodup) (h : Ok T st 0 st.fds) (hnone : ∀ fd ∈ fds, st.ofile np fd = none) :
    wp C E (dupAll p np fds) st fun _ st' => Ok T st' 0 st'.fds ∧ st'.cwd = st.cwd ∧
      ∀ q, q ≠ np → st'.ofile q = st.ofile q := by
  induction fds generalizing st with
  | nil =>
      unfold dupAll
      exact wp_pure ⟨h, rfl, fun _ _ => rfl⟩
  | cons fd fds ih =>
      rw [List.nodup_cons] at hnodup
      unfold dupAll
      apply wp_get_bind
      split
      next f hf =>
        apply wp_bind (filedup_spec (laws.halts _ nofun nofun) h)
        rintro g st₁ ⟨hg, hok₁, hsame₁⟩
        rw [hg]
        apply wp_modify_bind
        have hfree : st₁.ofile np fd = none := by
          rw [hsame₁.ofile]
          exact hnone fd List.mem_cons_self
        have hok₂ := hok₁.setOfile np fd (some f)
        rw [← hsame₁.fds, ← fds_setOfile_some hfree] at hok₂
        have hrest : ∀ fd' ∈ fds, (st₁.setOfile np fd (some f)).ofile np fd' = none := by
          intro fd' hfd'
          have hfd : fd' ≠ fd := by
            rintro rfl
            exact hnodup.1 hfd'
          rw [setOfile_of_ne st₁ (some f) (Or.inr hfd), hsame₁.ofile]
          exact hnone fd' (List.mem_cons_of_mem fd hfd')
        apply wp_mono (ih hnodup.2 hok₂ hrest)
        rintro _ st₂ ⟨hok, hcwd, hother⟩
        refine ⟨hok, hcwd.trans hsame₁.cwd, ?_⟩
        intro q hq
        rw [hother q hq, ← hsame₁.ofile]
        funext fd'
        exact setOfile_of_ne st₁ (some f) (Or.inl hq)
      next =>
        exact ih hnodup.2 h fun fd' hfd' => hnone fd' (List.mem_cons_of_mem fd hfd')

theorem fork_spec {child : Option Pid} (laws : Laws C E T) (h : Boundary T st)
    (hcwd : st.cwd p = some cwd) (hchild : ∀ np, child = some np → st.cwd np = none) :
    wp C E (fork p cwd child) st fun _ st' => Boundary T st' := by
  unfold fork
  split
  next => exact wp_pure h
  next np =>
    have hnp := hchild np rfl
    apply wp_bind (dupAll_spec laws _ (List.nodup_finRange 16) h.ok
      fun fd _ => h.idle np hnp fd)
    rintro _ st₁ ⟨hok₁, hcwd₁, hother⟩
    have hinv₁ := hok₁.inv
    rw [zero_add] at hinv₁
    have hcwd' : st₁.cwd p = some cwd := by rw [hcwd₁, hcwd]
    have hnp' : st₁.cwd np = none := by rw [hcwd₁, hnp]
    have hmem := cwd_mem_holders hcwd'
    refine wp_bind (P := fun ip st' => ip = cwd ∧ SameProcs st₁ st' ∧
      Ok T (st'.setCwd np (some cwd)) 0 st₁.fds) ?_ ?_
    · apply wp_zoom
      apply wp_mono (idup_spec laws hinv₁ hmem)
      rintro ip fs' ⟨rfl, hinv', -⟩
      refine ⟨rfl, ⟨rfl, rfl⟩, ?_, ⟨hok₁.files.ref, hok₁.files.none⟩, ?_⟩
      · have hholders := holders_setCwd st₁ np (some ip)
        rw [hnp'] at hholders
        have hsum : (st₁.setCwd np (some ip)).holders = {ip} + st₁.holders :=
          (add_zero _).symm.trans (hholders.trans (add_comm _ _))
        have hsub : ip ::ₘ st₁.holders ⊆ st₁.holders := by
          intro jp hjp
          rcases Multiset.mem_cons.1 hjp with rfl | hjp
          · exact hmem
          · exact hjp
        show Inv T fs' (0 + (st₁.setCwd np (some ip)).holders) (0 + (st₁.setCwd np (some ip)).holders) 0
        rw [zero_add, hsum, Multiset.singleton_add]
        exact ⟨hinv'.refs.mono hsub, hinv'.kept⟩
      · exact hok₁.files.pipes.congr (fun _ _ _ => Iff.rfl) rfl
    rintro ip st₂ ⟨hip, hsame₂, hok₂⟩
    rw [hip]
    apply wp_modify_bind
    rw [← hsame₂.fds] at hok₂
    refine wp_pure ⟨hok₂, ?_⟩
    intro q hq fd
    have hqnp : q ≠ np := by
      rintro rfl
      have hself : (st₂.setCwd q (some cwd)).cwd q = some cwd := Function.update_self _ _ _
      rw [hself] at hq
      cases hq
    have hsame : (st₂.setCwd np (some cwd)).cwd q = st₂.cwd q := Function.update_of_ne hqnp _ _
    have hofile : (st₂.setCwd np (some cwd)).ofile = st₁.ofile := hsame₂.ofile
    rw [hsame, hsame₂.cwd, hcwd₁] at hq
    rw [hofile, hother q hqnp]
    exact h.idle q hq fd

theorem boot_holders : boot.holders = {rootSlot} := by
  have hcwd : ∑ p, pointer (boot.cwd p) = {rootSlot} := by
    rw [Finset.sum_eq_single_of_mem (0 : Pid) (Finset.mem_univ _)]
    · rfl
    · intro p _ hp
      show pointer (if p = 0 then some rootSlot else none) = 0
      rw [if_neg hp]
      rfl
  have hfile : ∑ f, (boot.file f).kind.held = 0 := Finset.sum_const_zero
  rw [St.holders, hcwd, hfile, add_zero]

theorem boot_refs : Refs boot.fs {rootSlot} {rootSlot} := by
  have hslot : ∀ ip, ip ≠ rootSlot → boot.fs.icache ip = { inum := 0, ref := 0, valid := false } :=
    fun ip hip => if_neg hip
  have hzero : ∀ ip, 0 < (boot.fs.icache ip).ref → ip = rootSlot := by
    intro ip hpos
    by_contra hip
    rw [hslot ip hip] at hpos
    cases hpos
  have hroot : (boot.fs.node rootSlot).type ≠ .free := by decide
  refine ⟨?_, ?_, Multiset.Subset.refl _, ?_, ?_⟩
  · intro ip
    rw [Multiset.count_singleton]
    by_cases hip : ip = rootSlot
    · rw [if_pos hip, hip]
      rfl
    · rw [if_neg hip, hslot ip hip]
  · intro ip jp hip hjp _
    rw [hzero ip hip, hzero jp hjp]
  · intro ip hip
    rw [Multiset.mem_singleton.1 hip]
    exact hroot
  · intro ip hpos _
    rw [hzero ip hpos]
    exact hroot

theorem boot_pipes : Pipes boot := by
  refine ⟨fun f g page w hf => ?_, fun page w => ?_, fun page p hp => ?_⟩
  · cases hf.1
  · constructor
    · rintro ⟨f, hf, -⟩
      cases hf
    · rintro ⟨p, hp, -⟩
      cases hp
  · cases hp

/-- The first process can start, provided the file system is as it should be. -/
theorem boot_boundary (hT : T boot.fs 0) : Boundary T boot := by
  have hfds : boot.fds = 0 :=
    Finset.sum_eq_zero fun _ _ => Finset.sum_eq_zero fun _ _ => rfl
  refine ⟨⟨⟨?_, hT⟩, ⟨fun f => ?_, fun _ _ => rfl⟩, boot_pipes⟩, fun _ _ _ => rfl⟩
  · rw [zero_add, boot_holders]
    exact boot_refs
  · rw [hfds]
    rfl

/-- **Every call** keeps the invariant. -/
theorem Call.run_spec (laws : Laws C E T) (h : Boundary T st) (hcwd : st.cwd p = some cwd)
    (call : Call) (hpossible : call.possible st) :
    wp C E (call.run p cwd) st fun _ st' => Boundary T st' := by
  have hmem := cwd_mem_holders hcwd
  have hp : st.cwd p ≠ none := by
    rw [hcwd]
    nofun
  cases call with
  | link old new => exact onFs_spec h (sysLink_spec laws h.inv hmem old new)
  | unlink path => exact onFs_spec h (sysUnlink_spec laws h.inv hmem path)
  | mkdir path => exact onFs_spec h (sysMkdir_spec laws h.inv hmem path)
  | mknod path major minor => exact onFs_spec h (sysMknod_spec laws h.inv hmem path major minor)
  | «open» path omode => exact sysOpen_spec laws h hcwd path omode
  | chdir path => exact sysChdir_spec laws h hcwd path
  | close fd => exact sysClose_spec laws h hp fd
  | dup fd => exact sysDup_spec laws h hp fd
  | pipe page =>
      refine sysPipe_spec laws h hp fun n hn => ?_
      subst hn
      exact Option.isNone_iff_eq_none.1 hpossible
  | exec path ok => exact onFs_spec h (exec_spec laws h.inv hmem path ok)
  | fork child =>
      refine fork_spec laws h hcwd fun np hnp => ?_
      subst hnp
      exact Option.isNone_iff_eq_none.1 hpossible
  | exit =>
      apply wp_bind (exit_spec laws h hcwd)
      intro _ st₁ hst₁
      exact wp_pure hst₁

/-- The condition on the marks that a call leaves. -/
def Call.Meets (C : Mark → Prop) : Machine → Pid × Call → Prop
  | .running st, (p, call) => ∀ cwd, st.cwd p = some cwd → ∀ w ∈ (call.run p cwd st).1, C w
  | .panicked _, _ => True

/-- The marks of a call. -/
def Machine.marks : Machine → Pid × Call → List Mark
  | .running st, (p, call) => (st.cwd p).elim [] fun cwd => (call.run p cwd st).1
  | .panicked _, _ => []

theorem Call.Meets.of_marks {s : Machine} {a : Pid × Call} (h : ∀ w ∈ s.marks a, C w) :
    Call.Meets C s a := by
  obtain ⟨p, call⟩ := a
  cases s with
  | panicked e => trivial
  | running st =>
      intro cwd hcwd w hw
      apply h
      show w ∈ (st.cwd p).elim [] fun cwd => (call.run p cwd st).1
      rw [hcwd]
      exact hw

/-- The machine runs in a state with the invariant, or has stopped in one of the ways of `E`. -/
def Kept (E : Panic → Prop) (T : Fs → Multiset Nat → Prop) : Machine → Prop
  | .running st => Boundary T st
  | .panicked e => E e

theorem step_keeps {s s' : Machine} {a : Pid × Call} (laws : Laws C E T) (hs : Kept E T s)
    (hmeets : Call.Meets C s a) (hstep : Step s a s') : Kept E T s' := by
  obtain ⟨p, call⟩ := a
  cases s with
  | panicked e => cases hstep
  | running st =>
      unfold Step next at hstep
      simp only at hstep
      split at hstep
      next => cases hstep
      next cwd hcwd =>
        split_ifs at hstep with hpossible
        have hspec := wp_elim (Call.run_spec laws hs hcwd call hpossible) (hmeets cwd hcwd)
        split at hstep
        next r st' hrun =>
          obtain rfl := Option.some.inj hstep
          rw [hrun] at hspec
          exact hspec
        next e hrun =>
          obtain rfl := Option.some.inj hstep
          rw [hrun] at hspec
          exact hspec

/-- **Runs.** From a state with the invariant, every run whose calls all meet the condition on marks
    keeps it in every state. -/
theorem run_keeps {st : St} {tr : List (Machine × (Pid × Call))} {s : Machine}
    (laws : Laws C E T) (h : Boundary T st) (hrun : Run Step (.running st) tr s)
    (hmeets : ∀ x ∈ tr, Call.Meets C x.1 x.2) : Along (Kept E T) tr s :=
  hrun.invariant_of_steps h (fun _ _ _ hs hm hstep => step_keeps laws hs hm hstep) hmeets

end Calls

end Cs350.FileSys
