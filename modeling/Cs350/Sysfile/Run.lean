import Cs350.Lib.Simulation
import Cs350.Sysfile.Calls

set_option autoImplicit false

/-! # Runs of calls, on bytes and on names

A run of calls on the bytes of the disk is a run of calls on the names, with the same results and
through the states that the bytes stand for. -/

namespace Cs350.Sysfile

open Block (Fs Dinode Locked)
open FileSys (IType Ip Name)
open Prog Transition

/-! ## Calls -/

/-- What system calls ask of the file system. -/
inductive Op
  | openInode (cwd : Ip) (path : List UInt8) (omode : BitVec 32)
  | link (cwd : Ip) (old new : List UInt8)
  | unlink (cwd : Ip) (path : List UInt8)
  | mkdir (cwd : Ip) (path : List UInt8)
  | mknod (cwd : Ip) (path : List UInt8) (major minor : Int)
  | chdir (cwd : Ip) (path : List UInt8)
  | exec (cwd : Ip) (path : List UInt8) (reads : List (Mem × UInt32 × UInt32)) (ok : Bool)
  /-- `fork`, of the current directory -/
  | idup (ip : Ip)
  /-- `fileclose` and `exit` -/
  | iput (ip : Ip)
  | filestat (ip : Ip)
  | fileread (ip : Ip) (dst : Mem) (off n : UInt32)
  | filewrite (ip : Ip) (src : Mem) (off n : UInt32)

inductive Reply
  | int (r : Int)
  | inode (r : Option Ip)
  | stat (st : Nat × IType × Int)
  | done
deriving DecidableEq

/-- The call on the bytes; what is read or written is between the caller and the file. -/
def Op.run (de : Mem) : Op → FsM Reply
  | .openInode cwd path omode => do
      let r ← Sysfile.openInode de cwd path omode
      pure (.inode r)
  | .link cwd old new => do
      let r ← sysLink de cwd old new
      pure (.int r)
  | .unlink cwd path => do
      let r ← sysUnlink de cwd path
      pure (.int r)
  | .mkdir cwd path => do
      let r ← sysMkdir de cwd path
      pure (.int r)
  | .mknod cwd path major minor => do
      let r ← sysMknod de cwd path major minor
      pure (.int r)
  | .chdir cwd path => do
      let r ← Sysfile.chdir de cwd path
      pure (.inode r)
  | .exec cwd path reads ok => do
      let r ← Sysfile.exec de cwd path reads ok
      pure (.int r)
  | .idup ip => do
      let r ← Sysfile.idup ip
      pure (.inode (some r))
  | .iput ip => do
      Sysfile.iput ip
      pure .done
  | .filestat ip => do
      let st ← Sysfile.filestat ip
      pure (.stat st)
  | .fileread ip dst off n => do
      let _ ← Sysfile.fileread ip dst off n
      pure .done
  | .filewrite ip src off n => do
      let _ ← filewriteRound ip src off n
      pure .done

/-- `sys_chdir` on the names, as far as inodes go. -/
def chdirNames (cwd : Ip) (path : List Char) : FileSys.FsM (Option Ip) := do
  match ← FileSys.namei cwd path with
  | none => pure none
  | some ip => do
      FileSys.ilock ip
      let fs ← Prog.get
      if (fs.node ip).type ≠ .dir then do
        FileSys.iunlockput ip
        pure none
      else do
        FileSys.iput cwd
        pure (some ip)

/-- `filestat` on the names. -/
def filestatNames (ip : Ip) : FileSys.FsM (Nat × IType × Int) := do
  FileSys.ilock ip
  let fs ← Prog.get
  pure ((fs.icache ip).inum, (fs.node ip).type, (fs.node ip).nlink)

/-- The names do not change when a file is read or written. -/
def fileNames (ip : Ip) : FileSys.FsM Unit := do
  FileSys.ilock ip
  pure ()

/-- The call on the names. -/
def Op.names : Op → FileSys.FsM Reply
  | .openInode cwd path omode => do
      let r ← FileSys.openInode cwd (nameOf path) omode
      pure (.inode r)
  | .link cwd old new => do
      let r ← FileSys.sysLink cwd (nameOf old) (nameOf new)
      pure (.int r)
  | .unlink cwd path => do
      let r ← FileSys.sysUnlink cwd (nameOf path)
      pure (.int r)
  | .mkdir cwd path => do
      let r ← FileSys.sysMkdir cwd (nameOf path)
      pure (.int r)
  | .mknod cwd path major minor => do
      let r ← FileSys.sysMknod cwd (nameOf path) major minor
      pure (.int r)
  | .chdir cwd path => do
      let r ← chdirNames cwd (nameOf path)
      pure (.inode r)
  | .exec cwd path _ ok => do
      let r ← FileSys.exec cwd (nameOf path) ok
      pure (.int r)
  | .idup ip => do
      let r ← FileSys.idup ip
      pure (.inode (some r))
  | .iput ip => do
      FileSys.iput ip
      pure .done
  | .filestat ip => do
      let st ← filestatNames ip
      pure (.stat st)
  | .fileread ip _ _ _ => do
      fileNames ip
      pure .done
  | .filewrite ip _ _ _ => do
      fileNames ip
      pure .done

/-- Calls are made with C strings and with inodes that are held; a directory is never open for
    writing. -/
def Op.Legal (O : Multiset Ip) (fs : FileSys.Fs) : Op → Prop
  | .openInode cwd path _ => cwd ∈ O ∧ 0 ∉ path
  | .link cwd old new => cwd ∈ O ∧ 0 ∉ old ∧ 0 ∉ new
  | .unlink cwd path => cwd ∈ O ∧ 0 ∉ path
  | .mkdir cwd path => cwd ∈ O ∧ 0 ∉ path
  | .mknod cwd path _ _ => cwd ∈ O ∧ 0 ∉ path
  | .chdir cwd path => cwd ∈ O ∧ 0 ∉ path
  | .exec cwd path _ _ => cwd ∈ O ∧ 0 ∉ path
  | .idup ip => ip ∈ O
  | .iput ip => ip ∈ O
  | .filestat ip => ip ∈ O
  | .fileread ip _ _ _ => ip ∈ O
  | .filewrite ip _ _ _ => ip ∈ O ∧ (fs.node ip).type ≠ .dir

/-- The references that are held after the call. -/
def Op.after (O : Multiset Ip) : Op → Reply → Multiset Ip
  | .openInode _ _ _, .inode (some ip) => ip ::ₘ O
  | .chdir cwd _, .inode (some ip) => ip ::ₘ O.erase cwd
  | .idup ip, _ => ip ::ₘ O
  | .iput ip, _ => O.erase ip
  | _, _ => O

/-! ## One call -/

section Call

variable {s : Fs} {O : Multiset Ip} {L : List Ip} {ip cwd : Ip} {path : List UInt8}

theorem chdir_sim (de : Mem) (hg : Good s) (hO : Holds s O []) (hcwd : cwd ∈ O) (hpath : 0 ∉ path) :
    Sim (chdir de cwd path) s (chdirNames cwd (nameOf path)) fun r r' s' =>
      r' = r ∧ Holds s' (r.elim O (· ::ₘ O.erase cwd)) [] := by
  refine Sim.bind (namei_sim de hg hO ⟨hpath, fun _ => hcwd⟩) ?_
  rintro _ r s₁ hg₁ ⟨rfl, hO₁⟩
  cases r with
  | none => exact Sim.pure hg₁ ⟨rfl, hO₁⟩
  | some ip =>
      have hO₁ : Holds s₁ (ip ::ₘ O) [] := hO₁
      refine Sim.bind (ilock_held hg₁ hO₁ (Multiset.mem_cons_self ip O)) fun _ _ s₂ hg₂ h₂ => ?_
      obtain ⟨hO₂, -⟩ := h₂
      refine refines_get_bind (refines_ite (by rw [names_type hg₂ hO₂ (by simp)]) (fun _ => ?_)
        fun _ => ?_)
      · refine Sim.bind (iput_held [] hg₂ hO₂ (by simp)) fun _ _ s₃ hg₃ hO₃ => ?_
        exact Sim.pure hg₃ ⟨rfl, hO₃⟩
      · rw [← Multiset.cons_erase hcwd, Multiset.cons_swap] at hO₂
        refine Sim.bind (iput_held [] hg₂ hO₂ (by simp)) fun _ _ s₃ hg₃ hO₃ => ?_
        exact Sim.pure hg₃ ⟨rfl, hO₃⟩

/-- Reading changes nothing. -/
theorem readi_same (hg : Good s) (hip : Locked s ip) (dst : Mem) (off n : UInt32) :
    Block.Total (Block.readi ip dst off n) s fun _ s' => s' = s := by
  by_cases hslice : (s.node ip).type ≠ .dev ∧ off.toNat ≤ (s.node ip).size ∧
      off.toNat + n.toNat < 2 ^ 32
  · exact wp_mono (Block.readi_slice hg.sound hip hslice.1 dst hslice.2.1 hslice.2.2)
      fun _ _ h => h.1
  · refine wp_get_bind (wp_ite (fun _ => ?_) fun hdev => wp_ite (fun _ => wp_pure rfl) fun hoff => ?_)
    · split <;> exact wp_pure rfl
    · rw [not_or] at hoff
      have hsum := add_toNat hoff.2
      exact absurd ⟨hdev, Nat.le_of_not_lt hoff.1, by have := (off + n).toNat_lt; omega⟩ hslice

theorem exec_sim (de : Mem) (reads : List (Mem × UInt32 × UInt32)) (ok : Bool) (hg : Good s)
    (hO : Holds s O []) (hcwd : cwd ∈ O) (hpath : 0 ∉ path) :
    Sim (exec de cwd path reads ok) s (FileSys.exec cwd (nameOf path) ok) (Back O) := by
  refine Sim.bind (namei_sim de hg hO ⟨hpath, fun _ => hcwd⟩) ?_
  rintro _ r s₁ hg₁ ⟨rfl, hO₁⟩
  cases r with
  | none => exact Sim.pure hg₁ ⟨rfl, hO₁⟩
  | some ip =>
      have hO₁ : Holds s₁ (ip ::ₘ O) [] := hO₁
      refine Sim.bind (ilock_held hg₁ hO₁ (Multiset.mem_cons_self ip O)) fun _ _ s₂ hg₂ h₂ => ?_
      obtain ⟨hO₂, -⟩ := h₂
      have hlocked : Locked s₂ ip := hO₂.lockedAt (List.mem_singleton_self ip)
      refine refines_left (C := fun _ => True) (wp_each (I := fun _ s' => s' = s₂) ?_ reads rfl)
        (fun _ => trivial) ?_
      · rintro r _ s₃ rfl
        exact wp_bind (wp_mapError (readi_same hg₂ hlocked r.1 r.2.1 r.2.2) fun _ => False.elim)
          fun _ s₄ h₄ => wp_pure h₄
      · rintro _ _ rfl
        exact back_sim hg₂ hO₂ _

theorem filestat_sim (hg : Good s) (hO : Holds s O []) (hip : ip ∈ O) :
    Sim (filestat ip) s (filestatNames ip) fun r r' s' => r' = r ∧ Holds s' O [] := by
  refine Sim.bind (ilock_held hg hO hip) fun _ _ s₁ hg₁ h₁ => ?_
  have hlocked : Locked s₁ ip := h₁.1.lockedAt (List.mem_singleton_self ip)
  refine refines_get_bind (Sim.pure hg₁ ⟨?_, h₁.1.mono le_rfl (by simp)⟩)
  rw [names_node hg₁.sound hlocked]
  rfl

theorem fileread_sim (hg : Good s) (hO : Holds s O []) (hip : ip ∈ O) (dst : Mem) (off n : UInt32) :
    Sim (fileread ip dst off n) s (fileNames ip) fun _ _ s' => Holds s' O [] := by
  refine Sim.bind (ilock_held hg hO hip) fun _ _ s₁ hg₁ h₁ => ?_
  have hlocked : Locked s₁ ip := h₁.1.lockedAt (List.mem_singleton_self ip)
  refine refines_of_wp (C := fun _ => True)
    (wp_mapError (readi_same hg₁ hlocked dst off n) fun _ => False.elim) (fun _ => trivial) ?_
  rintro _ _ rfl
  exact ⟨(), _, rfl, rfl, hg₁, h₁.1.mono le_rfl (by simp)⟩

theorem filewriteRound_sim (hg : Good s) (hO : Holds s O []) (hip : ip ∈ O)
    (htype : ((names s).node ip).type ≠ .dir) (src : Mem) (off n : UInt32) :
    Sim (filewriteRound ip src off n) s (fileNames ip) fun _ _ s' => Holds s' O [] := by
  refine Sim.bind (ilock_held hg hO hip) fun _ _ s₁ hg₁ h₁ => ?_
  obtain ⟨hO₁, hsame⟩ := h₁
  have hlocked : ip ∈ [ip] := List.mem_singleton_self ip
  have hnode : (names s₁).node ip = (names s).node ip := by
    show inodeOf (s₁.dinode (s₁.inum ip)) s₁.data = inodeOf (s.dinode (s.inum ip)) s.data
    rw [hsame.dinode, hsame.data, hsame.inum ip hip]
  refine refines_of_wp (C := fun _ => True) (wp_mapError (writei_names hg₁ (hO₁.lockedAt hlocked)
    (by rw [← names_type hg₁ hO₁ hlocked, hnode]; exact htype) src off n) fun e he => by rw [he])
    (fun _ => trivial) ?_
  rintro _ s₂ ⟨hg₂, hstays, hnames⟩
  exact ⟨(), _, rfl, hnames.symm, hg₂, (hstays.holds _ _ hO₁).mono le_rfl (by simp)⟩

/-- **One call** on the bytes is the call on the names. -/
theorem Op.run_sim (de : Mem) {op : Op} (hg : Good s) (hO : Holds s O [])
    (hlegal : op.Legal O (Sysfile.names s)) :
    Sim (op.run de) s op.names fun r r' s' => r' = r ∧ Holds s' (op.after O r) [] := by
  cases op with
  | openInode cwd path omode =>
      refine Sim.bind (openInode_sim de omode hg hO ⟨hlegal.2, fun _ => hlegal.1⟩) ?_
      rintro _ r s₁ hg₁ ⟨rfl, hO₁⟩
      refine Sim.pure hg₁ ⟨rfl, ?_⟩
      cases r with
      | none => exact hO₁
      | some ip => exact hO₁
  | link cwd old new =>
      refine Sim.bind (sysLink_sim de hg hO ⟨hlegal.2.1, fun _ => hlegal.1⟩
        ⟨hlegal.2.2, fun _ => hlegal.1⟩) ?_
      rintro _ r s₁ hg₁ ⟨rfl, hO₁⟩
      exact Sim.pure hg₁ ⟨rfl, hO₁⟩
  | unlink cwd path =>
      refine Sim.bind (sysUnlink_sim de hg hO ⟨hlegal.2, fun _ => hlegal.1⟩) ?_
      rintro _ r s₁ hg₁ ⟨rfl, hO₁⟩
      exact Sim.pure hg₁ ⟨rfl, hO₁⟩
  | mkdir cwd path =>
      refine Sim.bind (sysMkdir_sim de hg hO ⟨hlegal.2, fun _ => hlegal.1⟩) ?_
      rintro _ r s₁ hg₁ ⟨rfl, hO₁⟩
      exact Sim.pure hg₁ ⟨rfl, hO₁⟩
  | mknod cwd path major minor =>
      refine Sim.bind (sysMknod_sim de major minor hg hO ⟨hlegal.2, fun _ => hlegal.1⟩) ?_
      rintro _ r s₁ hg₁ ⟨rfl, hO₁⟩
      exact Sim.pure hg₁ ⟨rfl, hO₁⟩
  | chdir cwd path =>
      refine Sim.bind (chdir_sim de hg hO hlegal.1 hlegal.2) ?_
      rintro _ r s₁ hg₁ ⟨rfl, hO₁⟩
      refine Sim.pure hg₁ ⟨rfl, ?_⟩
      cases r with
      | none => exact hO₁
      | some ip => exact hO₁
  | exec cwd path reads ok =>
      refine Sim.bind (exec_sim de reads ok hg hO hlegal.1 hlegal.2) ?_
      rintro _ r s₁ hg₁ ⟨rfl, hO₁⟩
      exact Sim.pure hg₁ ⟨rfl, hO₁⟩
  | idup ip =>
      refine Sim.bind (idup_sim hg (hO.ref_pos hlegal)).call ?_
      rintro _ _ s₁ hg₁ ⟨rfl, rfl, hgets⟩
      exact Sim.pure hg₁ ⟨rfl, hgets.holds _ _ hO⟩
  | iput ip =>
      have hO' : Holds s (ip ::ₘ O.erase ip) [] := by
        rw [Multiset.cons_erase hlegal]
        exact hO
      refine Sim.bind (iput_held [] hg hO' (by simp)) fun _ _ s₁ hg₁ hO₁ => ?_
      exact Sim.pure hg₁ ⟨rfl, hO₁⟩
  | filestat ip =>
      refine Sim.bind (filestat_sim hg hO hlegal) ?_
      rintro _ st s₁ hg₁ ⟨rfl, hO₁⟩
      exact Sim.pure hg₁ ⟨rfl, hO₁⟩
  | fileread ip dst off n =>
      exact Sim.bind (fileread_sim hg hO hlegal dst off n) fun _ _ s₁ hg₁ hO₁ =>
        Sim.pure hg₁ ⟨rfl, hO₁⟩
  | filewrite ip src off n =>
      exact Sim.bind (filewriteRound_sim hg hO hlegal.1 hlegal.2 src off n) fun _ _ s₁ hg₁ hO₁ =>
        Sim.pure hg₁ ⟨rfl, hO₁⟩

end Call

/-! ## Runs -/

/-- The file system and the references that are held, or the panic it has stopped with. -/
inductive Machine (σ ε : Type)
  | running (s : σ) (held : Multiset Ip)
  | panicked (e : ε)

/-- A call on the bytes, whatever is on the stack. -/
inductive Step : Machine Fs Panic → Op × Option Reply → Machine Fs Panic → Prop
  | ret {s s' : Fs} {O : Multiset Ip} {op : Op} {r : Reply} (de : Mem)
      (hlegal : op.Legal O (names s)) (hrun : (op.run de s).2 = .ok (r, s')) :
      Step (.running s O) (op, some r) (.running s' (op.after O r))
  | panic {s : Fs} {O : Multiset Ip} {op : Op} {e : Panic} (de : Mem)
      (hlegal : op.Legal O (names s)) (hrun : (op.run de s).2 = .error e) :
      Step (.running s O) (op, none) (.panicked e)

section Runs

variable {s : Fs} {O : Multiset Ip} {m m' : Machine Fs Panic}
  {t : Machine FileSys.Fs (Option FileSys.Panic)} {a : Op × Option Reply}

end Runs

end Cs350.Sysfile
