import Cs350.FileSys.Paths
import Cs350.Sysfile.Entries

set_option autoImplicit false

/-! # Walks along a path

`namex` on the bytes of the path and of the directories, against the `namex` of the names. It holds
one inode at a time: the references that were held before are held afterwards, and with them the
one to the inode it has come to. -/

namespace Cs350.Sysfile

open Block (Fs Locked direntSize)
open FileSys (Ip Name Dirent rootIno)
open Prog

/-! ## Steps -/

section Rules

variable {α β γ δ : Type} {s : Fs} {m : FsM α} {m' : FileSys.FsM β} {f : α → FsM γ}
  {f' : β → FileSys.FsM δ} {P : α → β → Fs → Prop} {Q : γ → δ → Fs → Prop} {a : γ} {b : δ}

theorem Sim.bind (hm : Sim m s m' P)
    (hf : ∀ a b s', Good s' → P a b s' → Sim (f a) s' (f' b) Q) : Sim (m >>= f) s (m' >>= f') Q := by
  refine refines_bind hm ?_
  rintro a s' b _ ⟨rfl, hg, hP⟩
  exact hf a b s' hg hP

theorem Sim.pure (hg : Good s) (h : Q a b s) :
    Sim (Pure.pure a : FsM γ) s (Pure.pure b : FileSys.FsM δ) Q :=
  refines_pure ⟨rfl, hg, h⟩

theorem Sim.mono {P Q : α → β → Fs → Prop} (hm : Sim m s m' P)
    (h : ∀ a b s', Good s' → P a b s' → Q a b s') : Sim m s m' Q :=
  refines_mono hm fun a s' b _ h' => ⟨h'.1, h'.2.1, h a b s' h'.2.1 h'.2.2⟩

end Rules

section Steps

variable {s s' s'' : Fs} {O : Multiset Ip} {L : List Ip} {ip dp : Ip}

/-- Nothing on the disk has changed, nor which inodes are held. -/
structure Same (s : Fs) (O : Multiset Ip) (s' : Fs) : Prop where
  dinode : s'.dinode = s.dinode
  data : s'.data = s.data
  inum : ∀ ip ∈ O, s'.inum ip = s.inum ip

theorem Same.trans {O' : Multiset Ip} (h : Same s O s') (h' : Same s' O' s'') (hO : O ⊆ O') :
    Same s O s'' :=
  ⟨h'.dinode.trans h.dinode, h'.data.trans h.data, fun ip hip =>
    (h'.inum ip (hO hip)).trans (h.inum ip hip)⟩

theorem Gets.same (h : Gets s ip s') (hO : Holds s O L) : Same s O s' :=
  ⟨h.dinode, h.data, fun jp hjp => h.inum jp (hO.ref_pos hjp)⟩

theorem ilock_held (hg : Good s) (hO : Holds s O L) (hip : ip ∈ O) :
    Sim (ilock ip) s (FileSys.ilock ip) fun _ _ s' => Holds s' O (ip :: L) ∧ Same s O s' :=
  (ilock_sim hg (hO.ref_pos hip)).call.mono fun _ _ _ _ h =>
    ⟨h.2.2.2 O L hO hip, h.1, h.2.1, fun jp _ => congrFun h.2.2.1 jp⟩

theorem iput_held (L' : List Ip) (hg : Good s) (hO : Holds s (ip ::ₘ O) L)
    (hL : ∀ jp ∈ L', jp ∈ L ∧ jp ∈ O) :
    Sim (iput ip) s (FileSys.iput ip) fun _ _ s' => Holds s' O L' :=
  (iput_sim hg (hO.ref_pos (Multiset.mem_cons_self ip O))).call.mono fun _ _ _ _ h => h O L L' hO hL

theorem dirlookup_held {name : List UInt8} (hg : Good s) (hO : Holds s O L) (hdp : dp ∈ L)
    (hname : 0 ∉ name) (de : Mem) :
    Sim (call (Block.dirlookup dp name de)) s (FileSys.dirlookup dp (nameOf name))
      fun r r' s' => SameEntry s dp s' r r' :=
  (dirlookup_sim hg (hO.lockedAt hdp) hname de).call

theorem dirlink_held {name : List UInt8} (hg : Good s) (hO : Holds s O L) (hdp : dp ∈ L)
    (hname : 0 ∉ name) (inum : Nat) (de : Mem) :
    Sim (call (Block.dirlink dp name inum de)) s (FileSys.dirlink dp (nameOf name) inum)
      fun r r' s' => r' = r ∧ Holds s' O L :=
  (dirlink_sim hg (hO.lockedAt hdp) hname inum de).call.mono fun _ _ _ _ h => ⟨h.1, h.2 O L hO⟩

/-- The names have the type of a locked inode. -/
theorem names_type (hg : Good s) (hO : Holds s O L) (hip : ip ∈ L) :
    ((names s).node ip).type = (s.node ip).type := by
  rw [names_node hg.sound (hO.lockedAt hip)]
  rfl

end Steps

/-! ## Elements of a path -/

section Elements

variable {path rest name : List UInt8}

theorem skipelem_nameOf (path : List UInt8) :
    FileSys.skipelem (nameOf path) = (skipelem path).map fun p => (nameOf p.1, nameOf p.2) := by
  unfold nameOf skipelem
  rw [FileSys.skipelem_map]
  dsimp only
  show (if path.dropWhile (· = slash) = [] then _ else _) = _
  split_ifs with hnil
  · rfl
  · rw [Option.map_some, List.map_take]
    rfl

theorem skipelem_notMem (h : skipelem path = some (name, rest)) (hpath : 0 ∉ path) :
    0 ∉ name ∧ 0 ∉ rest := by
  unfold skipelem at h
  dsimp only at h
  split_ifs at h with hnil
  obtain ⟨rfl, rfl⟩ := Prod.mk.inj (Option.some.inj h)
  have hstart : ∀ c ∈ path.dropWhile (· = slash), c ∈ path := fun c hc =>
    (List.dropWhile_sublist _).subset hc
  constructor
  · exact fun hzero => hpath (hstart 0 ((List.takeWhile_sublist _).subset (List.mem_of_mem_take hzero)))
  · exact fun hzero => hpath (hstart 0 ((List.dropWhile_sublist _).subset
      ((List.dropWhile_sublist _).subset hzero)))

theorem head?_nameOf : (nameOf path).head? = some '/' ↔ path.head? = some slash := by
  cases path with
  | nil => simp [nameOf]
  | cons c path =>
      show some (charOf c) = some '/' ↔ some c = some slash
      rw [Option.some_inj, Option.some_inj]
      exact FileSys.charOf_eq_slash

theorem nameOf_eq_nil : nameOf path = [] ↔ path = [] := List.map_eq_nil_iff

end Elements

/-! ## `namex` -/

section Namex

variable {s : Fs} {O : Multiset Ip} {ip cwd : Ip} {path name : List UInt8}

/-- The two ends of a walk. -/
structure Walked (O : Multiset Ip) (r : Option (Ip × List UInt8)) (r' : Option (Ip × Name))
    (s' : Fs) : Prop where
  same : r' = r.map fun p => (p.1, nameOf p.2)
  holds : Holds s' (r.elim O fun p => p.1 ::ₘ O) []
  chars : ∀ p ∈ r, 0 ∉ p.2

theorem namexLoop_sim (de : Mem) (parent : Bool) (n : Nat) (hg : Good s)
    (hO : Holds s (ip ::ₘ O) []) (hpath : 0 ∉ path) (hname : 0 ∉ name) :
    Sim (namexLoop de parent n path name ip) s
      (FileSys.namexLoop parent n (nameOf path) (nameOf name) ip) (Walked O) := by
  induction n generalizing s path name ip with
  | zero => exact refines_stop rfl
  | succ n ih =>
      rw [namexLoop, FileSys.namexLoop, skipelem_nameOf]
      cases hskip : skipelem path with
      | none =>
          refine refines_ite Iff.rfl (fun _ => ?_) fun _ => ?_
          · refine Sim.bind (iput_held [] hg hO (by simp)) fun _ _ s₁ hg₁ hO₁ => ?_
            exact Sim.pure hg₁ ⟨rfl, hO₁, by simp⟩
          · refine Sim.pure hg ⟨rfl, hO, ?_⟩
            rintro _ ⟨⟩
            exact hname
      | some p =>
          obtain ⟨elem, rest⟩ := p
          obtain ⟨helem, hrest⟩ := skipelem_notMem hskip hpath
          have hip := Multiset.mem_cons_self ip O
          refine Sim.bind (ilock_held hg hO hip) fun _ _ s₁ hg₁ h₁ => ?_
          obtain ⟨hO₁, -⟩ := h₁
          have hlocked : ip ∈ [ip] := List.mem_singleton_self ip
          refine refines_get_bind (refines_ite (by rw [names_type hg₁ hO₁ hlocked]) (fun _ => ?_)
            fun _ => refines_ite (by rw [nameOf_eq_nil]) (fun _ => ?_) fun _ => ?_)
          · refine Sim.bind (iput_held [] hg₁ hO₁ (by simp)) fun _ _ s₂ hg₂ hO₂ => ?_
            exact Sim.pure hg₂ ⟨rfl, hO₂, by simp⟩
          · -- one level early
            refine Sim.pure hg₁ ⟨rfl, hO₁.mono le_rfl (by simp), ?_⟩
            rintro _ ⟨⟩
            exact helem
          · refine Sim.bind (dirlookup_held hg₁ hO₁ hlocked helem de) fun r r' s₂ hg₂ hsame => ?_
            cases r with
            | none =>
                obtain ⟨rfl, rfl, -⟩ := hsame
                refine Sim.bind (iput_held [] hg₂ hO₁ (by simp)) fun _ _ s₃ hg₃ hO₃ => ?_
                exact Sim.pure hg₃ ⟨rfl, hO₃, by simp⟩
            | some next =>
                obtain ⟨next, off⟩ := next
                obtain ⟨i, rfl, -, -, -, hgets⟩ := hsame
                have hO₂ := hgets.holds _ _ hO₁
                rw [Multiset.cons_swap] at hO₂
                refine Sim.bind (iput_held [] hg₂ hO₂ (by simp)) fun _ _ s₃ hg₃ hO₃ => ?_
                exact ih hg₃ hO₃ hrest helem

/-- A path that does not begin at the root begins at a directory that is held. -/
def Starts (O : Multiset Ip) (cwd : Ip) (path : List UInt8) : Prop :=
  0 ∉ path ∧ (path.head? ≠ some slash → cwd ∈ O)

theorem namex_sim (de : Mem) (parent : Bool) (hg : Good s) (hO : Holds s O [])
    (hpath : Starts O cwd path) :
    Sim (namex de cwd path parent) s (FileSys.namex cwd (nameOf path) parent) (Walked O) := by
  have hlen : (nameOf path).length = path.length := List.length_map ..
  unfold namex FileSys.namex
  rw [hlen]
  have hloop : ∀ ip s₁, Good s₁ → Holds s₁ (ip ::ₘ O) [] →
      Sim (namexLoop de parent (path.length + 1) path [] ip) s₁
        (FileSys.namexLoop parent (path.length + 1) (nameOf path) [] ip) (Walked O) :=
    fun ip s₁ hg₁ hO₁ => namexLoop_sim de parent _ hg₁ hO₁ hpath.1 (by simp)
  refine refines_ite head?_nameOf.symm (fun _ => ?_) fun hhead => ?_
  · refine Sim.bind (iget_sim hg rootIno).call ?_
    rintro ip _ s₁ hg₁ ⟨rfl, hgets⟩
    exact hloop _ s₁ hg₁ (hgets.holds O [] hO)
  · refine Sim.bind (idup_sim hg (hO.ref_pos (hpath.2 hhead))).call ?_
    rintro ip _ s₁ hg₁ ⟨rfl, rfl, hgets⟩
    exact hloop _ s₁ hg₁ (hgets.holds O [] hO)

theorem namei_sim (de : Mem) (hg : Good s) (hO : Holds s O []) (hpath : Starts O cwd path) :
    Sim (namei de cwd path) s (FileSys.namei cwd (nameOf path)) fun r r' s' =>
      r' = r ∧ Holds s' (r.elim O (· ::ₘ O)) [] := by
  refine Sim.bind (namex_sim de false hg hO hpath) fun r r' s₁ hg₁ h₁ => ?_
  obtain ⟨rfl, hO₁, -⟩ := h₁
  cases r with
  | none => exact Sim.pure hg₁ ⟨rfl, hO₁⟩
  | some p => exact Sim.pure hg₁ ⟨rfl, hO₁⟩

theorem nameiparent_sim (de : Mem) (hg : Good s) (hO : Holds s O []) (hpath : Starts O cwd path) :
    Sim (nameiparent de cwd path) s (FileSys.nameiparent cwd (nameOf path)) (Walked O) :=
  namex_sim de true hg hO hpath

end Namex

end Cs350.Sysfile
