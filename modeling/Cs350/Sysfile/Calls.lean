import Cs350.Sysfile.Walk

set_option autoImplicit false

/-! # The calls, on bytes and on names

Each call returns on the bytes of the disk what it returns on the names, and leaves the names that it
leaves there. -/

namespace Cs350.Sysfile

open Block (Fs Locked Directory direntSize)
open FileSys (IType Ip Name Dirent short oCreate)
open Prog

variable {s : Fs} {O : Multiset Ip} {L : List Ip} {ip dp cwd : Ip} {path name : List UInt8}

/-- Both return the same, and the references held are those of before. -/
def Back (O : Multiset Ip) (r r' : Int) (s' : Fs) : Prop := r' = r ∧ Holds s' O []

/-- Both return the same inode, to which there is then a reference. -/
def Given (O : Multiset Ip) (r r' : Option Ip) (s' : Fs) : Prop :=
  r' = r ∧ Holds s' (r.elim O (· ::ₘ O)) []

/-- A reference is given back at the end of a call. -/
theorem back_sim (hg : Good s) (hO : Holds s (ip ::ₘ O) L) (r : Int) :
    Sim (do iunlockput ip; pure r) s (do FileSys.iunlockput ip; pure r) (Back O) :=
  Sim.bind (iput_held [] hg hO (by simp)) fun _ _ _ hg₁ hO₁ => Sim.pure hg₁ ⟨rfl, hO₁⟩

/-- A walk leads nowhere. -/
theorem none_sim (hg : Good s) (hO : Holds s (ip ::ₘ O) L) :
    Sim (do iunlockput ip; pure (none : Option Ip)) s (do FileSys.iunlockput ip; pure none)
      (Given O) :=
  Sim.bind (iput_held [] hg hO (by simp)) fun _ _ _ hg₁ hO₁ => Sim.pure hg₁ ⟨rfl, hO₁⟩

/-! ## `sys_link` -/

theorem linkBad_sim (hg : Good s) (hO : Holds s (ip ::ₘ O) []) :
    Sim (linkBad ip) s (FileSys.linkBad ip) (Back O) := by
  refine Sim.bind (ilock_held hg hO (Multiset.mem_cons_self ip O)) fun _ _ s₁ hg₁ h₁ => ?_
  have hlocked : ip ∈ [ip] := List.mem_singleton_self ip
  refine Sim.bind (dropLink_sim hg₁ (h₁.1.lockedAt hlocked)) fun _ _ s₂ hg₂ hstays => ?_
  exact back_sim hg₂ (hstays.holds _ _ h₁.1) _

theorem sysLink_sim {old new : List UInt8} (de : Mem) (hg : Good s) (hO : Holds s O [])
    (hold : Starts O cwd old) (hnew : Starts O cwd new) :
    Sim (sysLink de cwd old new) s (FileSys.sysLink cwd (nameOf old) (nameOf new)) (Back O) := by
  refine Sim.bind (namei_sim de hg hO hold) ?_
  rintro _ r s₁ hg₁ ⟨rfl, hO₁⟩
  cases r with
  | none => exact Sim.pure hg₁ ⟨rfl, hO₁⟩
  | some ip =>
      have hO₁ : Holds s₁ (ip ::ₘ O) [] := hO₁
      refine Sim.bind (ilock_held hg₁ hO₁ (Multiset.mem_cons_self ip O)) fun _ _ s₂ hg₂ h₂ => ?_
      obtain ⟨hO₂, -⟩ := h₂
      have hlocked : ip ∈ [ip] := List.mem_singleton_self ip
      refine refines_get_bind (refines_ite (by rw [names_type hg₂ hO₂ hlocked])
        (fun _ => back_sim hg₂ hO₂ _) fun _ => ?_)
      refine Sim.bind (addLink_sim hg₂ (hO₂.lockedAt hlocked)) fun _ _ s₃ hg₃ hstays => ?_
      have hO₃ : Holds s₃ (ip ::ₘ O) [] := (hstays.holds _ _ hO₂).mono le_rfl (by simp)
      have hstart : Starts (ip ::ₘ O) cwd new :=
        ⟨hnew.1, fun hhead => Multiset.mem_cons_of_mem (hnew.2 hhead)⟩
      refine Sim.bind (nameiparent_sim de hg₃ hO₃ hstart) fun r r' s₄ hg₄ h₄ => ?_
      obtain ⟨rfl, hO₄, hchars⟩ := h₄
      cases r with
      | none => exact linkBad_sim hg₄ hO₄
      | some p =>
          obtain ⟨dp, name⟩ := p
          have hO₄ : Holds s₄ (dp ::ₘ ip ::ₘ O) [] := hO₄
          refine Sim.bind (ilock_held hg₄ hO₄ (Multiset.mem_cons_self dp _)) fun _ _ s₅ hg₅ h₅ => ?_
          refine refines_get_bind ?_
          refine Sim.bind (dirlink_held hg₅ h₅.1 (List.mem_singleton_self dp) (hchars _ rfl) _ de) ?_
          rintro _ r s₆ hg₆ ⟨rfl, hO₆⟩
          refine refines_ite Iff.rfl (fun _ => ?_) fun _ => ?_
          · refine Sim.bind (iput_held [] hg₆ hO₆ (by simp)) fun _ _ s₇ hg₇ hO₇ => ?_
            exact linkBad_sim hg₇ hO₇
          · refine Sim.bind (iput_held [] hg₆ hO₆ (by simp)) fun _ _ s₇ hg₇ hO₇ => ?_
            exact back_sim hg₇ hO₇ _

/-! ## `sys_unlink` -/

/-- The erasure of an entry. -/
theorem erase_names {i : Nat} (hg : Good s) (h : Directory s dp) (hi : i < s.entries dp) :
    wp (fun _ => True) (fun e => e = .fs .outOfBlocks)
      (call (Block.writei dp (fun _ => 0) (UInt32.ofNat (i * direntSize)) (UInt32.ofNat direntSize))) s
      fun r s' => r = direntSize ∧ Good s' ∧ Stays s s' ∧
        names s' = (names s).setEntries dp (((names s).node dp).entries.set i ⟨0, []⟩) := by
  have hsize := h.size
  have hmax := h.sound.size_le h.locked
  have hmul : (i + 1) * direntSize ≤ s.entries dp * direntSize :=
    Nat.mul_le_mul_right direntSize hi
  have hlen : i < ((names s).node dp).entries.length := by
    rw [names_entries h, entriesOf_length]
    exact hi
  refine wp_mapError (wp_mono (writeEntry_names hg h hi.le (by omega) _) ?_) fun e he => by rw [he]
  rintro r s' ⟨hr, hg', hstays, hnames⟩
  refine ⟨hr, hg', hstays, ?_⟩
  rw [hnames, direntOf_zero, FileSys.writeEntry, if_pos hlen]

theorem unlinkEntry_sim {i : Nat} (hg : Good s) (hO : Holds s (ip ::ₘ dp ::ₘ O) [ip, dp])
    (hdir : (s.node dp).type = .dir) (hi : i < s.entries dp) :
    Sim (unlinkEntry dp ip (i * direntSize)) s (FileSys.unlinkEntry dp ip i) (Back O) := by
  have hdp : dp ∈ [ip, dp] := by simp
  have hip : ip ∈ [ip, dp] := by simp
  -- what is left to do once the parent's link count is right
  have hrest : ∀ s₁, Good s₁ → Holds s₁ (ip ::ₘ dp ::ₘ O) [ip, dp] →
      Sim (do
        iunlockput dp
        dropLink ip
        iunlockput ip
        pure (0 : Int)) s₁ (do
        FileSys.iunlockput dp
        FileSys.dropLink ip
        FileSys.iunlockput ip
        pure (0 : Int)) (Back O) := by
    intro s₁ hg₁ hO₁
    rw [Multiset.cons_swap] at hO₁
    refine Sim.bind (iput_held [ip] hg₁ hO₁ (by simp)) fun _ _ s₂ hg₂ hO₂ => ?_
    have hlocked := hO₂.lockedAt (List.mem_singleton_self ip)
    refine Sim.bind (dropLink_sim hg₂ hlocked) fun _ _ s₃ hg₃ hstays => ?_
    exact back_sim hg₃ (hstays.holds _ _ hO₂) _
  refine refines_left (erase_names hg (hg.directory (hO.lockedAt hdp) hdir) hi) (fun _ => trivial) ?_
  rintro r s₁ ⟨rfl, hg₁, hstays, hnames⟩
  have hO₁ := hstays.holds _ _ hO
  rw [if_neg (not_not.2 rfl)]
  have hset : ((Prog.modify fun fs => fs.setEntries dp ((fs.node dp).entries.set i ⟨0, []⟩) :
      FileSys.FsM Unit) (names s)).2 = .ok ((), names s₁) := by
    rw [hnames]
    rfl
  refine refines_right hset ?_
  refine refines_get_bind (refines_ite (by rw [names_type hg₁ hO₁ hip]) (fun _ => ?_) fun _ => ?_)
  · refine Sim.bind (dropLink_sim hg₁ (hO₁.lockedAt hdp)) fun _ _ s₂ hg₂ hstays₂ => ?_
    exact hrest s₂ hg₂ (hstays₂.holds _ _ hO₁)
  · exact hrest s₁ hg₁ hO₁

theorem sysUnlink_sim (de : Mem) (hg : Good s) (hO : Holds s O []) (hpath : Starts O cwd path) :
    Sim (sysUnlink de cwd path) s (FileSys.sysUnlink cwd (nameOf path)) (Back O) := by
  refine Sim.bind (nameiparent_sim de hg hO hpath) fun r r' s₁ hg₁ h₁ => ?_
  obtain ⟨rfl, hO₁, hchars⟩ := h₁
  cases r with
  | none => exact Sim.pure hg₁ ⟨rfl, hO₁⟩
  | some p =>
      obtain ⟨dp, name⟩ := p
      have hname : 0 ∉ name := hchars _ rfl
      have hO₁ : Holds s₁ (dp ::ₘ O) [] := hO₁
      have hdp := Multiset.mem_cons_self dp O
      refine Sim.bind (ilock_held hg₁ hO₁ hdp) fun _ _ s₂ hg₂ h₂ => ?_
      obtain ⟨hO₂, -⟩ := h₂
      have hdot := namecmp_nameOf hname (show 0 ∉ dot by decide)
      have hdotdot := namecmp_nameOf hname (show 0 ∉ dotdot by decide)
      refine refines_ite (by rw [hdot, hdotdot]; rfl) (fun _ => back_sim hg₂ hO₂ _) fun _ => ?_
      have hlocked : dp ∈ [dp] := List.mem_singleton_self dp
      refine Sim.bind (dirlookup_held hg₂ hO₂ hlocked hname de) fun r r' s₃ hg₃ hsame => ?_
      cases r with
      | none =>
          obtain ⟨rfl, rfl, -⟩ := hsame
          exact back_sim hg₃ hO₂ _
      | some p =>
          obtain ⟨ip, off⟩ := p
          obtain ⟨i, rfl, rfl, hi, hdir, hgets⟩ := hsame
          have hO₃ := hgets.holds _ _ hO₂
          refine Sim.bind (ilock_held hg₃ hO₃ (Multiset.mem_cons_self ip _)) fun _ _ s₄ hg₄ h₄ => ?_
          obtain ⟨hO₄, hsame₄⟩ := h₄
          have hip : ip ∈ [ip, dp] := by simp
          -- the directory has not changed since the entry was found
          have hsame := (hgets.same hO₂).trans hsame₄ (Multiset.subset_cons _ ip)
          have hnode : s₄.node dp = s₂.node dp := by
            rw [hg₄.sound.node (hO₄.lockedAt (by simp)), hg₂.sound.node (hO₂.lockedAt hlocked),
              hsame.dinode, hsame.inum dp hdp]
          refine refines_get_bind (refines_ite ?_ (fun _ => refines_stop rfl) fun _ => ?_)
          · rw [names_node hg₄.sound (hO₄.lockedAt hip)]
            rfl
          have hfull : ∀ s₅, Good s₅ → Holds s₅ (ip ::ₘ dp ::ₘ O) [ip, dp] →
              Sim (do
                iunlockput ip
                iunlockput dp
                pure (-1 : Int)) s₅ (do
                FileSys.iunlockput ip
                FileSys.iunlockput dp
                pure (-1 : Int)) (Back O) := fun s₅ hg₅ hO₅ =>
            Sim.bind (iput_held [] hg₅ hO₅ (by simp)) fun _ _ s₆ hg₆ hO₆ =>
              back_sim hg₆ hO₆ _
          have herase : Sim (unlinkEntry dp ip (i * direntSize)) s₄ (FileSys.unlinkEntry dp ip i)
              (Back O) :=
            unlinkEntry_sim hg₄ hO₄ (by rw [hnode]; exact hdir) (by
              unfold Block.Fs.entries at hi ⊢
              rw [hnode]
              exact hi)
          have htype := names_type hg₄ hO₄ hip
          by_cases hdir' : (s₄.node ip).type = .dir
          · rw [if_pos hdir']
            refine refines_left (wp_errors (isdirempty_names hg₄ (hO₄.lockedAt hip) hdir' de)
              fun _ => False.elim) (fun _ => trivial) ?_
            rintro r _ ⟨rfl, rfl⟩
            refine refines_ite ?_ (fun _ => hfull _ hg₄ hO₄) fun _ => herase
            rw [htype, Bool.not_eq_true]
            exact ⟨fun h => ⟨hdir', h⟩, fun h => h.2⟩
          · rw [if_neg hdir', if_neg fun h' => hdir' (by rw [← htype]; exact h'.1)]
            exact herase

/-! ## `create` -/

theorem createDots_sim (de : Mem) (hg : Good s) (hO : Holds s O L) (hdp : dp ∈ L) (hip : ip ∈ L) :
    Sim (createDots de dp ip) s (FileSys.createDots dp ip) fun _ _ s' => Holds s' O L := by
  refine Sim.bind (addLink_sim hg (hO.lockedAt hdp)) fun _ _ s₁ hg₁ hstays => ?_
  have hO₁ := hstays.holds _ _ hO
  refine refines_get_bind ?_
  refine Sim.bind (dirlink_held hg₁ hO₁ hip (show 0 ∉ dot by decide) _ de) ?_
  rintro _ r s₂ hg₂ ⟨rfl, hO₂⟩
  refine refines_ite Iff.rfl (fun _ => refines_stop rfl) fun _ => ?_
  refine Sim.bind (dirlink_held hg₂ hO₂ hip (show 0 ∉ dotdot by decide) _ de) ?_
  rintro _ r s₃ hg₃ ⟨rfl, hO₃⟩
  exact refines_ite Iff.rfl (fun _ => refines_stop rfl) fun _ => Sim.pure hg₃ hO₃

theorem createNew_sim (de : Mem) (type : IType) (major minor : Int) (hg : Good s)
    (hO : Holds s (dp ::ₘ O) [dp]) (hname : 0 ∉ name) :
    Sim (createNew de dp name type major minor) s
      (FileSys.createNew dp (nameOf name) type major minor) fun ip ip' s' =>
        ip' = ip ∧ Holds s' (ip ::ₘ O) [ip] := by
  refine Sim.bind (ialloc_sim hg type).call ?_
  rintro _ ip s₁ hg₁ ⟨rfl, hkept⟩
  have hO₁ := hkept _ _ hO
  refine Sim.bind (ilock_held hg₁ hO₁ (Multiset.mem_cons_self _ _)) fun _ _ s₂ hg₂ h₂ => ?_
  obtain ⟨hO₂, -⟩ := h₂
  refine Sim.bind (setLinks_sim hg₂ (hO₂.lockedAt (by simp)) major minor 1).call
    fun _ _ s₃ hg₃ hstays => ?_
  have hO₃ := hstays.holds _ _ hO₂
  -- the entry in the parent
  have hrest : ∀ s₄, Good s₄ → Holds s₄ (ip ::ₘ dp ::ₘ O) [ip, dp] →
      Sim (do
        let s ← Prog.get
        let r ← call (Block.dirlink dp name (s.inum ip) de)
        if r < 0 then
          Prog.stop .createDirlink
        else do
          iunlockput dp
          pure ip) s₄ (do
        let fs ← Prog.get
        let r ← FileSys.dirlink dp (nameOf name) (fs.icache ip).inum
        if r < 0 then
          Prog.stop .createDirlink
        else do
          FileSys.iunlockput dp
          pure ip) fun ip ip' s' => ip' = ip ∧ Holds s' (ip ::ₘ O) [ip] := by
    intro s₄ hg₄ hO₄
    refine refines_get_bind ?_
    refine Sim.bind (dirlink_held hg₄ hO₄ (by simp) hname _ de) ?_
    rintro _ r s₅ hg₅ ⟨rfl, hO₅⟩
    refine refines_ite Iff.rfl (fun _ => refines_stop rfl) fun _ => ?_
    rw [Multiset.cons_swap] at hO₅
    refine Sim.bind (iput_held [ip] hg₅ hO₅ (by simp)) fun _ _ s₆ hg₆ hO₆ => ?_
    exact Sim.pure hg₆ ⟨rfl, hO₆⟩
  refine refines_ite Iff.rfl (fun _ => ?_) fun _ => ?_
  · refine Sim.bind (createDots_sim de hg₃ hO₃ (by simp) (by simp)) fun _ _ s₄ hg₄ hO₄ => ?_
    exact hrest s₄ hg₄ hO₄
  · exact hrest s₃ hg₃ hO₃

theorem create_sim (de : Mem) (type : IType) (major minor : Int) (hg : Good s) (hO : Holds s O [])
    (hpath : Starts O cwd path) :
    Sim (create de cwd path type major minor) s
      (FileSys.create cwd (nameOf path) type major minor) (Given O) := by
  refine Sim.bind (nameiparent_sim de hg hO hpath) fun r r' s₁ hg₁ h₁ => ?_
  obtain ⟨rfl, hO₁, hchars⟩ := h₁
  cases r with
  | none => exact Sim.pure hg₁ ⟨rfl, hO₁⟩
  | some p =>
      obtain ⟨dp, name⟩ := p
      have hname : 0 ∉ name := hchars _ rfl
      have hO₁ : Holds s₁ (dp ::ₘ O) [] := hO₁
      refine Sim.bind (ilock_held hg₁ hO₁ (Multiset.mem_cons_self dp O)) fun _ _ s₂ hg₂ h₂ => ?_
      obtain ⟨hO₂, -⟩ := h₂
      refine Sim.bind (dirlookup_held hg₂ hO₂ (List.mem_singleton_self dp) hname de)
        fun r r' s₃ hg₃ hsame => ?_
      cases r with
      | none =>
          obtain ⟨rfl, rfl, -⟩ := hsame
          refine Sim.bind (createNew_sim de type major minor hg₃ hO₂ hname) ?_
          rintro _ ip s₄ hg₄ ⟨rfl, hO₄⟩
          exact Sim.pure hg₄ ⟨rfl, hO₄.mono le_rfl (by simp)⟩
      | some p =>
          obtain ⟨ip, off⟩ := p
          obtain ⟨i, rfl, -, -, -, hgets⟩ := hsame
          have hO₃ := hgets.holds _ _ hO₂
          rw [Multiset.cons_swap] at hO₃
          refine Sim.bind (iput_held [] hg₃ hO₃ (by simp)) fun _ _ s₄ hg₄ hO₄ => ?_
          refine Sim.bind (ilock_held hg₄ hO₄ (Multiset.mem_cons_self ip O)) fun _ _ s₅ hg₅ h₅ => ?_
          obtain ⟨hO₅, -⟩ := h₅
          refine refines_get_bind (refines_ite (by rw [names_type hg₅ hO₅ (by simp)]) (fun _ => ?_)
            fun _ => none_sim hg₅ hO₅)
          exact Sim.pure hg₅ ⟨rfl, hO₅.mono le_rfl (by simp)⟩

/-- A `create` that is given back at once. -/
theorem create_put_sim (de : Mem) (type : IType) (major minor : Int) (hg : Good s)
    (hO : Holds s O []) (hpath : Starts O cwd path) :
    Sim (do
      match ← create de cwd path type major minor with
      | none => pure (-1 : Int)
      | some ip => do
          iunlockput ip
          pure 0) s (do
      match ← FileSys.create cwd (nameOf path) type major minor with
      | none => pure (-1 : Int)
      | some ip => do
          FileSys.iunlockput ip
          pure 0) (Back O) := by
  refine Sim.bind (create_sim de type major minor hg hO hpath) ?_
  rintro _ r s₁ hg₁ ⟨rfl, hO₁⟩
  cases r with
  | none => exact Sim.pure hg₁ ⟨rfl, hO₁⟩
  | some ip => exact back_sim hg₁ hO₁ _

theorem sysMkdir_sim (de : Mem) (hg : Good s) (hO : Holds s O []) (hpath : Starts O cwd path) :
    Sim (sysMkdir de cwd path) s (FileSys.sysMkdir cwd (nameOf path)) (Back O) :=
  create_put_sim de .dir 0 0 hg hO hpath

theorem sysMknod_sim (de : Mem) (major minor : Int) (hg : Good s) (hO : Holds s O [])
    (hpath : Starts O cwd path) :
    Sim (sysMknod de cwd path major minor) s (FileSys.sysMknod cwd (nameOf path) major minor)
      (Back O) :=
  create_put_sim de .dev (short major) (short minor) hg hO hpath

theorem openInode_sim (de : Mem) (omode : BitVec 32) (hg : Good s) (hO : Holds s O [])
    (hpath : Starts O cwd path) :
    Sim (openInode de cwd path omode) s (FileSys.openInode cwd (nameOf path) omode) (Given O) := by
  refine refines_ite Iff.rfl (fun _ => create_sim de .file 0 0 hg hO hpath) fun _ => ?_
  refine Sim.bind (namei_sim de hg hO hpath) ?_
  rintro _ r s₁ hg₁ ⟨rfl, hO₁⟩
  cases r with
  | none => exact Sim.pure hg₁ ⟨rfl, hO₁⟩
  | some ip =>
      have hO₁ : Holds s₁ (ip ::ₘ O) [] := hO₁
      refine Sim.bind (ilock_held hg₁ hO₁ (Multiset.mem_cons_self ip O)) fun _ _ s₂ hg₂ h₂ => ?_
      obtain ⟨hO₂, -⟩ := h₂
      refine refines_get_bind (refines_ite (by rw [names_type hg₂ hO₂ (by simp)])
        (fun _ => none_sim hg₂ hO₂) fun _ => ?_)
      exact Sim.pure hg₂ ⟨rfl, hO₂.mono le_rfl (by simp)⟩

end Cs350.Sysfile
