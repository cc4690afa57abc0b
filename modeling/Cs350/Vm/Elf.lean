import Cs350.Block.Array
import Cs350.Vm.Exec

set_option autoImplicit false

/-! # `exec` of any file

`exec` reads the ELF header, the program headers and the segments out of a file that can have any
bytes, and there are thirteen places from which it goes to the label `bad`. Here the file is its bytes,
and the state has besides the memory what `exec` must give back or may only change at the end: the
reference to the inode and its lock, the operation of the log, the name of the process and its trap
frame. -/

namespace Cs350.Vm.Elf

open Sched (Slot)
open Prog (get modify)

/-! ## The file -/

/-- `readi` from a regular file with these bytes: what it returns, and what it copies. -/
def readi (content : List UInt8) (off n : UInt32) : Int × List UInt8 :=
  if off.toNat > content.length ∨ off + n < off then (-1, [])
  else
    let n := if (off + n).toNat > content.length then content.length - off.toNat else n.toNat
    (n, (content.drop off.toNat).take n)

/-- The field of `w` bytes at `off` of a structure. -/
def field (bytes : List UInt8) (off w : Nat) : Nat := Mem.load (fun k => bytes.getD k 0) off w

/-- `ELF_MAGIC` -/
def elfMagic : Nat := 0x464C457F

/-- `ELF_PROG_LOAD` -/
def elfProgLoad : Nat := 1

/-- `sizeof(struct elfhdr)` -/
def elfhdrSize : Nat := 52

/-- `sizeof(struct proghdr)` -/
def proghdrSize : Nat := 32

/-- What `exec` reads of `struct elfhdr`. -/
structure Elfhdr where
  magic : Nat
  entry : Nat
  phoff : Nat
  phnum : Nat

def Elfhdr.ofBytes (bytes : List UInt8) : Elfhdr where
  magic := field bytes 0 4
  entry := field bytes 24 4
  phoff := field bytes 28 4
  phnum := field bytes 44 2

/-- The program header at `off`, and the bytes that `loaduvm` reads for the pages of its segment. -/
def proghdr (content : List UInt8) (off : UInt32) : Phdr :=
  let r := readi content off (UInt32.ofNat proghdrSize)
  let start := field r.2 4 4
  let filesz := field r.2 16 4
  { readOk := r.1 = proghdrSize
    load := field r.2 0 4 = elfProgLoad
    vaddr := UInt32.ofNat (field r.2 8 4)
    memsz := UInt32.ofNat (field r.2 20 4)
    filesz := UInt32.ofNat filesz
    data := fun k => (readi content (UInt32.ofNat (start + k * pgSize))
      (UInt32.ofNat (min pgSize (filesz - k * pgSize)))).2 }

/-- `for(i=0, off=elf.phoff; i<elf.phnum; i++, off+=sizeof(ph))` -/
def proghdrs (content : List UInt8) : Nat → UInt32 → List Phdr
  | 0, _ => []
  | n + 1, off => proghdr content off :: proghdrs content n (off + UInt32.ofNat proghdrSize)

/-! ## The program -/

/-- The fields of `struct trapframe` that `exec` sets. -/
structure TrapFrame where
  eip : Nat
  esp : Nat

structure ExecState where
  vm : State
  tf : Slot → TrapFrame
  name : Slot → List UInt8
  /-- the references to the inode of the file -/
  ref : Int
  /-- whether the lock of the inode is held -/
  locked : Bool
  /-- `log.outstanding` -/
  outstanding : Int

abbrev ExecM := Prog Panic Empty ExecState

def onVm {α : Type} (m : VmM α) : ExecM α := Prog.zoom (·.vm) (fun s vm => { s with vm := vm }) m

def beginOp : ExecM Unit := modify fun s => { s with outstanding := s.outstanding + 1 }

def endOp : ExecM Unit := modify fun s => { s with outstanding := s.outstanding - 1 }

/-- `namei`, when there is a file of this name: it takes a reference. -/
def namei : ExecM Unit := modify fun s => { s with ref := s.ref + 1 }

def ilock : ExecM Unit := modify fun s => { s with locked := true }

/-- `iunlockput` -/
def iunlockput : ExecM Unit := modify fun s => { s with locked := false, ref := s.ref - 1 }

/-- `for(last=s=path; *s; s++) if(*s == '/') last = s+1;` -/
def lastName (last : List UInt8) : List UInt8 → List UInt8
  | [] => last
  | c :: s => lastName (if c = 47 then s else last) s

/-- The string that `safestrcpy` leaves in `n` bytes. -/
def safestrcpy (t : List UInt8) (n : Nat) : List UInt8 := (t.takeWhile (· ≠ 0)).take (n - 1)

/-- The label `bad`. -/
def bad (L : Layout) (pgdir : Option Nat) (ip : Bool) : ExecM Int :=
  (match pgdir with
    | none => pure ()
    | some d => onVm (freevm L d)) >>= fun _ =>
    if ip then
      iunlockput >>= fun _ => endOp >>= fun _ => pure (-1)
    else
      pure (-1)

/-- `exec` from "Commit to the user image" on. -/
def commit (L : Layout) (cur : Slot) (pgdir sz entry sp : Nat) (path : List UInt8) : ExecM Int :=
  modify (fun s =>
    { s with name := Function.update s.name cur (safestrcpy (lastName path path) 16) }) >>= fun _ =>
  get >>= fun s =>
    let oldpgdir := (s.vm.proc cur).pgdir
    modify (fun s =>
      { s with
        vm := s.vm.setProc cur fun p => { p with pgdir := pgdir, sz := sz }
        tf := Function.update s.tf cur ⟨entry, sp⟩ }) >>= fun _ =>
    onVm (freevm L oldpgdir) >>= fun _ => pure 0

/-- `exec`; `file` is what `namei` finds. -/
def exec (L : Layout) (cur : Slot) (file : Option (List UInt8)) (path : List UInt8)
    (argv : List (List UInt8)) : ExecM Int :=
  beginOp >>= fun _ =>
    match file with
    | none => endOp >>= fun _ => pure (-1)
    | some content =>
        namei >>= fun _ => ilock >>= fun _ =>
          let r := readi content 0 (UInt32.ofNat elfhdrSize)
          let elf := Elfhdr.ofBytes r.2
          if r.1 ≠ elfhdrSize then bad L none true
          else if elf.magic ≠ elfMagic then bad L none true
          else
            onVm (setupkvm L) >>= fun
              | none => bad L none true
              | some pgdir =>
                  onVm (execLoad L pgdir
                    (proghdrs content elf.phnum (UInt32.ofNat elf.phoff)) 0) >>= fun
                    | none => bad L (some pgdir) true
                    | some sz =>
                        iunlockput >>= fun _ => endOp >>= fun _ =>
                          onVm (execStackPtr L pgdir sz argv) >>= fun
                            | none => bad L (some pgdir) false
                            | some (sz, sp) => commit L cur pgdir sz elf.entry sp path

/-! ## What it leaves -/

/-- The inode is released, and the operation of the log is ended. -/
structure Released (s s' : ExecState) : Prop where
  ref : s'.ref = s.ref
  unlocked : s'.locked = false
  outstanding : s'.outstanding = s.outstanding

/-- Nothing has happened to any process, and the free pages are those from before. -/
structure Restored (s s' : ExecState) : Prop where
  proc : s'.vm.proc = s.vm.proc
  tf : s'.tf = s.tf
  name : s'.name = s.name
  mem : ∀ p ∈ inUse s.vm, s'.vm.mem p = s.vm.mem p
  free : s'.vm.freelist.Perm s.vm.freelist

/-- Every page of the process is mapped. -/
def Complete (cur : Slot) (s : ExecState) : Prop :=
  ∀ v, v * pgSize < (s.vm.proc cur).sz → Present ((space s.vm.mem (s.vm.proc cur).pgdir).pte v)

/-- While the inode is held. -/
def ExecState.entered (s : ExecState) (vm : State) : ExecState :=
  { s with vm := vm, ref := s.ref + 1, locked := true, outstanding := s.outstanding + 1 }

/-- After it is released. -/
def ExecState.left (s : ExecState) (vm : State) : ExecState :=
  { s with vm := vm, ref := s.ref + 1 - 1, locked := false, outstanding := s.outstanding + 1 - 1 }

/-- What `exec` does: it fails and restores, or completes. -/
def Outcome (L : Layout) (cur : Slot) (s : ExecState) (r : Int) (s' : ExecState) : Prop :=
  Sound L s'.vm ∧ Released s s' ∧ (r = -1 ∧ Restored s s' ∨ r = 0 ∧ Complete cur s')

/-- Correctness of a part of `exec`. -/
abbrev Runs {α : Type} (E : Panic → Prop) (m : ExecM α) (s : ExecState)
    (Q : α → ExecState → Prop) : Prop :=
  Prog.wp (fun _ => True) E m s Q

section Exec

variable {L : Layout} {E : Panic → Prop} {s : ExecState} {cur : Slot}
  {lost : Multiset Nat} {v : State} {d : Nat} {S : Space} {argv : List (List UInt8)}

theorem released (s : ExecState) (v : State) : Released s (s.left v) :=
  ⟨Int.add_sub_cancel .., rfl, Int.add_sub_cancel ..⟩

/-- All that was taken is back. -/
theorem outcome_restored (h : Sound L s.vm) (hown₀ : Owned L s.vm (inUse s.vm + lost))
    (hframe : Frame (inUse s.vm + lost) s.vm v) (hown : Owned L v (inUse s.vm + lost)) :
    Outcome L cur s (-1) (s.left v) := by
  have huse : ∀ x ∈ inUse s.vm, x ∈ inUse s.vm + lost := fun x hx => Multiset.mem_add.2 (Or.inl hx)
  refine ⟨h.same (hframe.mono huse) ⟨lost, hown⟩, released s v, Or.inl ⟨rfl, ?_⟩⟩
  refine ⟨hframe.proc, rfl, rfl, fun p hp => hframe.mem p (huse p hp), ?_⟩
  unfold Owned at hown hown₀
  exact Multiset.coe_eq_coe.1 (add_right_cancel (hown.trans hown₀.symm))

theorem onVm_spec {α : Type} {m : VmM α} {t : ExecState} {Q : α → State → Prop}
    (h : Sat E m t.vm Q) : Runs E (onVm m) t fun a t' => ∃ v, Q a v ∧ t' = { t with vm := v } :=
  Prog.wp_zoom (Prog.wp_mono h fun _ v hQ => ⟨v, hQ, rfl⟩)

theorem bad_none (h : Sound L s.vm) (hown₀ : Owned L s.vm (inUse s.vm + lost))
    (hframe : Frame (inUse s.vm + lost) s.vm v) (hown : Owned L v (inUse s.vm + lost)) :
    Runs E (bad L none true) (s.entered v) (Outcome L cur s) := by
  refine Prog.wp_bind (P := fun _ s' => s' = s.entered v) (Prog.wp_pure rfl) ?_
  rintro - _ rfl
  exact Prog.wp_modify_bind (Prog.wp_modify_bind (Prog.wp_pure
    (outcome_restored h hown₀ hframe hown)))

/-- The label `bad`, when there is a new address space: it is freed. -/
theorem bad_some (h : Sound L s.vm) (hown₀ : Owned L s.vm (inUse s.vm + lost))
    (hframe : Frame (inUse s.vm + lost) s.vm v) (hS : Has L d S (inUse s.vm + lost) v) :
    Runs E (bad L (some d) true) (s.entered v) (Outcome L cur s) ∧
      Runs E (bad L (some d) false) (s.left v) (Outcome L cur s) := by
  constructor
  · refine Prog.wp_bind (onVm_spec (freevm_spec hS)) ?_
    rintro - _ ⟨v', ⟨hown, hframe'⟩, rfl⟩
    exact Prog.wp_modify_bind (Prog.wp_modify_bind (Prog.wp_pure
      (outcome_restored h hown₀ (hframe.trans hframe') hown)))
  · refine Prog.wp_bind (onVm_spec (freevm_spec hS)) ?_
    rintro - _ ⟨v', ⟨hown, hframe'⟩, rfl⟩
    exact Prog.wp_pure (outcome_restored h hown₀ (hframe.trans hframe') hown)

theorem commit_completes (h : Sound L s.vm) (hcur : (s.vm.proc cur).Live)
    (hframe : Frame (inUse s.vm + lost) s.vm v) (hS : Has L d S (inUse s.vm + lost) v) {sz : Nat}
    (hbuilt : Built S sz) (entry sp : Nat) (path : List UInt8) :
    Runs E (commit L cur d sz entry sp path) (s.left v) (Outcome L cur s) := by
  refine Prog.wp_modify_bind (Prog.wp_get_bind (Prog.wp_modify_bind ?_))
  have hold : (v.proc cur).pgdir = (s.vm.proc cur).pgdir := by rw [hframe.proc]
  show Runs E (onVm (freevm L (v.proc cur).pgdir) >>= fun _ => pure 0) _ _
  rw [hold]
  refine Prog.wp_bind (onVm_spec (commit_spec h hcur hframe hS hbuilt.closed hbuilt.le)) ?_
  rintro - _ ⟨v', ⟨hsound, hspace, hself⟩, rfl⟩
  refine Prog.wp_pure ⟨hsound, ⟨Int.add_sub_cancel .., rfl, Int.add_sub_cancel ..⟩,
    Or.inr ⟨rfl, fun u hu => ?_⟩⟩
  show Present ((space v'.mem (v'.proc cur).pgdir).pte u)
  change u * pgSize < (v'.proc cur).sz at hu
  rw [hself] at hu ⊢
  dsimp only at hu ⊢
  rw [hspace]
  refine hbuilt.full u ?_
  unfold pageUp pgSize at *
  omega

/-- No argument is so long that the stack pointer could wrap below `DEVSPACE`. -/
theorem argOk_short (hargv : (argv.map List.length).sum < pgSize) :
    ∀ arg ∈ argv, ArgOk E arg := by
  intro arg harg
  induction argv with
  | nil => exact absurd harg List.not_mem_nil
  | cons x argv ih =>
      rw [List.map_cons, List.sum_cons] at hargv
      rcases List.mem_cons.1 harg with rfl | harg
      · unfold pgSize at hargv
        exact Or.inl (by omega)
      · exact ih (by omega) harg

theorem exec_outcome (h : Sound L s.vm) (hcur : (s.vm.proc cur).Live) (content path : List UInt8)
    (hargv : (argv.map List.length).sum < pgSize) :
    Runs E (exec L cur (some content) path argv) s (Outcome L cur s) := by
  obtain ⟨lost, hown⟩ := h.owned
  have hrefl := Frame.refl (inUse s.vm + lost) s.vm
  refine Prog.wp_modify_bind (Prog.wp_modify_bind (Prog.wp_modify_bind ?_))
  change Runs E _ (s.entered s.vm) _
  refine Prog.wp_ite (fun _ => bad_none h hown hrefl hown) fun _ =>
    Prog.wp_ite (fun _ => bad_none h hown hrefl hown) fun _ =>
    Prog.wp_bind (onVm_spec (setupkvm_spec hown)) ?_
  rintro (_ | d) _ ⟨v₁, ⟨hframe₁, hcases⟩, rfl⟩
  · exact bad_none h hown hframe₁ hcases.1
  obtain ⟨-, S, hS, hfresh⟩ := hcases
  refine Prog.wp_bind (onVm_spec (execLoad_spec _ 0 hS hfresh.built)) ?_
  rintro (_ | sz) _ ⟨v₂, ⟨hframe₂, S₂, h₂, -, hload⟩, rfl⟩
  · exact (bad_some h hown (hframe₁.trans hframe₂) h₂).1
  have hframe₁₂ := hframe₁.trans hframe₂
  -- the inode is released
  refine Prog.wp_modify_bind (Prog.wp_modify_bind ?_)
  change Runs E _ (s.left v₂) _
  refine Prog.wp_bind (onVm_spec (execStackPtr_spec (hload sz rfl) argv h₂
    (argOk_short hargv))) ?_
  rintro (_ | ⟨sz', sp⟩) _ ⟨v₃, ⟨hframe₃, S₃, h₃, -, hbuilt⟩, rfl⟩
  · exact (bad_some h hown (hframe₁₂.trans hframe₃) h₃).2
  · exact commit_completes h hcur (hframe₁₂.trans hframe₃) h₃ (hbuilt sz' sp rfl) _ _ _

/-- **`exec` is atomic and safe on any file**: it returns, whatever the file contains and wherever
    `kalloc` fails; it has released the inode then, and has either restored everything or made the
    process an image whose pages are all there. -/
theorem exec_atomic (h : Sound L s.vm) (hcur : (s.vm.proc cur).Live) (content path : List UInt8)
    (hargv : (argv.map List.length).sum < pgSize) :
    ∃ r s', (exec L cur (some content) path argv s).2 = .ok (r, s') ∧ Sound L s'.vm ∧
      Released s s' ∧ (r = -1 ∧ Restored s s' ∨ r = 0 ∧ Complete cur s') := by
  exact Prog.wp_runs (exec_outcome (E := fun _ => False) h hcur content path hargv)
    (fun _ _ => trivial) fun _ => id

/-- A process with one page. -/
def oneProcess : ExecState := ⟨parent [], fun _ => ⟨0, 0⟩, fun _ => [], 0, false, 0⟩

/-- A file with one segment, of four bytes in the file and 8192 in memory, at address 0. -/
def oneSegment : List UInt8 :=
  -- `elf.phoff` is 52 and `elf.phnum` 1
  [0x7F, 0x45, 0x4C, 0x46] ++ List.replicate 24 0 ++ [52, 0, 0, 0] ++ List.replicate 12 0 ++ [1, 0] ++
    List.replicate 6 0 ++
  -- `ph.type` is 1, `ph.off` 84, `ph.filesz` 4 and `ph.memsz` 8192
  [1, 0, 0, 0, 84, 0, 0, 0] ++ List.replicate 8 0 ++ [4, 0, 0, 0, 0, 32, 0, 0] ++
    List.replicate 8 0 ++ [0xEB, 0xFE, 0x90, 0x90]

example : (Elfhdr.ofBytes (readi oneSegment 0 52).2).magic = elfMagic ∧
    (proghdrs oneSegment 1 52).map (fun ph => (ph.readOk, ph.load, ph.vaddr, ph.memsz, ph.filesz)) =
      [(true, true, 0, 8192, 4)] := by
  decide +kernel

/-- It executes that file, with one argument; a file that is too short is refused, and everything is
    restored. -/
theorem exec_atomic_oneProcess :
    (∃ r s', (exec layout 0 (some oneSegment) [47, 97] [[97]] oneProcess).2 = .ok (r, s') ∧
      Sound layout s'.vm ∧ Released oneProcess s' ∧
      (r = -1 ∧ Restored oneProcess s' ∨ r = 0 ∧ Complete 0 s')) ∧
    ∃ s', (exec layout 0 (some (oneSegment.take 51)) [47, 97] [[97]] oneProcess).2 = .ok (-1, s') ∧
      Sound layout s'.vm ∧ Released oneProcess s' ∧ Restored oneProcess s' := by
  have hargv : (([[97]] : List (List UInt8)).map List.length).sum < pgSize := by decide
  have hsound₀ : Sound layout oneProcess.vm := sound_parent []
  obtain ⟨r, s', hrun, hsound, hreleased, hcases⟩ := exec_atomic hsound₀ (live_parent [])
    (oneSegment.take 51) [47, 97] hargv
  have hr : (exec layout 0 (some (oneSegment.take 51)) [47, 97] [[97]] oneProcess).2.toOption.map
      Prod.fst = some (-1) := by decide +kernel
  change (exec layout 0 (some (oneSegment.take 51)) [47, 97] [[97]] oneProcess).2 = _ at hrun
  rw [hrun] at hr
  obtain rfl : r = -1 := Option.some.inj hr
  have hrestored := hcases.resolve_right fun hzero => absurd hzero.1 (by decide)
  exact ⟨exec_atomic hsound₀ (live_parent []) _ _ hargv, s', hrun, hsound, hreleased,
    hrestored.2⟩

end Exec

/-! ## The bytes of the file -/

/-- `readi` is what the file system does for a regular file. -/
theorem readi_file {fs : Block.Fs} {ip : FileSys.Ip} {E : Block.Panic → Prop}
    (h : Block.Sound fs) (hip : Block.Locked fs ip) (htype : (fs.node ip).type = .file) (dst : Mem)
    (off n : UInt32) :
    Prog.wp (fun _ => True) E (Block.readi ip dst off n) fs fun r fs' => fs' = fs ∧
      r.1 = (readi (fs.contents (fs.inum ip)) off n).1 ∧
      Block.firstBytes r.2 r.1.toNat = (readi (fs.contents (fs.inum ip)) off n).2 := by
  have hdev : (fs.node ip).type ≠ .dev := by
    rw [htype]
    decide
  have hlen : (fs.contents (fs.inum ip)).length = (fs.node ip).size := by
    rw [h.contents hip, Block.length_contents]
  rw [readi, hlen]
  split_ifs with hno hcut
  · refine Prog.wp_get_bind (Prog.wp_ite (fun hyes => absurd hyes hdev) fun _ =>
      Prog.wp_ite (fun _ => Prog.wp_pure ⟨rfl, rfl, rfl⟩) fun hoff => absurd hno hoff)
  all_goals
    rw [not_or] at hno
    have hsum := add_toNat hno.2
    have hlt := (off + n).toNat_lt
    refine Prog.wp_mono (Block.readi_slice h hip hdev dst (by omega) (by omega)) ?_
    rintro ⟨r, dst'⟩ fs' ⟨rfl, hr, hbytes, -⟩
  · have hmin : min n.toNat ((fs'.node ip).size - off.toNat) = (fs'.node ip).size - off.toNat := by
      omega
    rw [hmin] at hr hbytes
    dsimp only at hr ⊢
    rw [hr]
    refine ⟨rfl, rfl, ?_⟩
    rw [Int.toNat_natCast, hbytes, List.take_of_length_le (by rw [List.length_drop, hlen]; omega),
      List.take_of_length_le (by rw [List.length_drop, hlen])]
  · have hmin : min n.toNat ((fs'.node ip).size - off.toNat) = n.toNat := by omega
    rw [hmin] at hr hbytes
    dsimp only at hr ⊢
    rw [hr]
    exact ⟨rfl, rfl, by rw [Int.toNat_natCast, hbytes]⟩

end Cs350.Vm.Elf
