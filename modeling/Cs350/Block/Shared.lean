import Cs350.Block.Bytes
import Cs350.Block.Run

set_option autoImplicit false

/-! # Writing through a shared descriptor (`filewrite`)

Any number of processes call `filewrite` on one `struct file` of a regular file. A call goes through
its buffer in rounds, and a round is one step: it holds the lock of the inode while it writes at
`f->off` and moves `f->off`. Between two rounds of a call any other call may run. -/

namespace Cs350.Block

open FileSys (IType Ip nInode)
open Prog Transition

/-- `max` in `filewrite`, where `MAXOPBLOCKS` is 10. -/
def maxChunk : Nat := (10 - 1 - 1 - 2) / 2 * 512

/-- `struct file`, of type `FD_INODE` and open for writing. -/
structure File where
  ip : Ip
  off : UInt32

/-- A call of `filewrite` that has not returned. -/
structure Filewrite (π : Type) where
  proc : π
  /-- the bytes from `addr` on; their number is `n`, which `sys_write` has found not to be negative -/
  bytes : List UInt8
  i : Nat
  /-- the loop has been left because `writei` failed -/
  failed : Bool
deriving DecidableEq

/-- The file system, the open file, and the calls. -/
structure Writers (π : Type) where
  fs : Fs
  file : File
  calls : List (Filewrite π)

inductive WriterEvent (π : Type)
  /-- `filewrite` is called -/
  | call (p : π) (bytes : List UInt8)
  /-- a round of its loop -/
  | round (c : Filewrite π)
  /-- `filewrite` returns `r` -/
  | ret (c : Filewrite π) (r : Int)

namespace Filewrite

variable {π : Type}

/-- `n1` -/
def n1 (c : Filewrite π) : Nat := min (c.bytes.length - c.i) maxChunk

/-- The memory from `addr + i` on. -/
def src (c : Filewrite π) : Mem := fun x => c.bytes.getD (c.i + x) 0

end Filewrite

namespace Writers

variable {π : Type} [DecidableEq π]

/-- `ilock(f->ip); writei(f->ip, addr + i, f->off, n1)` -/
def transfer (f : File) (c : Filewrite π) : FsM Int := do
  ilock f.ip
  writei f.ip c.src f.off (UInt32.ofNat c.n1)

/-- A round of the loop; `none` is a panic. -/
def round (s : Writers π) (c : Filewrite π) : Option (Writers π) :=
  match (transfer s.file c s.fs).2 with
  | .error _ => none
  | .ok (r, fs) =>
      let file := if r > 0 then { s.file with off := s.file.off + UInt32.ofNat r.toNat } else s.file
      if r < 0 then
        some ⟨fs, file, { c with failed := true } :: s.calls.erase c⟩
      else if r ≠ c.n1 then
        none
      else
        some ⟨fs, file, { c with i := c.i + r.toNat } :: s.calls.erase c⟩

def next (s : Writers π) : WriterEvent π → Option (Writers π)
  | .call p bytes => some { s with calls := ⟨p, bytes, 0, false⟩ :: s.calls }
  | .round c => if c ∈ s.calls ∧ c.failed = false ∧ c.i < c.bytes.length then s.round c else none
  | .ret c r =>
      if c ∈ s.calls ∧ (c.failed = true ∨ ¬ c.i < c.bytes.length) ∧
          r = (if c.i = c.bytes.length then (c.bytes.length : Int) else -1) then
        some { s with calls := s.calls.erase c }
      else
        none

def Step (s : Writers π) (e : WriterEvent π) (s' : Writers π) : Prop := s.next e = some s'

/-- The inode of the open file. -/
def dinode (s : Writers π) : Dinode := s.fs.dinode (s.fs.inum s.file.ip)

def byteAt (s : Writers π) (x : Nat) : UInt8 := s.dinode.byteAt s.fs.data x

/-- Between operations of the file system the open file is a regular file, its offset is not past
    its end, and nobody is writing. -/
structure Opened (s : Writers π) : Prop where
  sound : Sound s.fs
  ref : 0 < (s.fs.icache s.file.ip).ref
  type : s.dinode.type = .file
  off : s.file.off.toNat ≤ s.dinode.size
  idle : s.calls = []

end Writers

/-! ## One round -/

section Round

variable {s : Fs} {ip : Ip}

/-- `ilock` of an inode in use. -/
theorem ilock_locked (h : Sound s) (href : 0 < (s.icache ip).ref) :
    Sat (ilock ip) s fun _ s' => Sound s' ∧ Locked s' ip ∧ s'.inum ip = s.inum ip ∧
      s'.dinode = s.dinode ∧ s'.data = s.data := by
  refine wp_and (ilock_spec h href) ?_
  refine wp_get_bind (wp_ite (fun _ => wp_stop (by decide)) fun _ =>
    wp_ite (fun hvalid => wp_pure ⟨⟨href, hvalid⟩, rfl, rfl, rfl⟩) fun _ => wp_modify_bind ?_)
  refine wp_ite (fun _ => wp_stop (by decide)) fun _ => wp_pure ⟨⟨?_, ?_⟩, ?_, rfl, rfl⟩
  · show 0 < (Function.update s.icache ip _ ip).ref
    rw [Function.update_self]
    exact href
  · show (Function.update s.icache ip _ ip).valid = true
    rw [Function.update_self]
  · show (Function.update s.icache ip _ ip).inum = s.inum ip
    rw [Function.update_self]
    rfl

/-- What a round leaves of the file with inode number `inum`. -/
structure Rounded (ip : Ip) (src : Mem) (off n : Nat) (s s' : Fs) : Prop where
  sound : Sound s'
  ref : 0 < (s'.icache ip).ref
  type : (s'.dinode (s'.inum ip)).type = (s.dinode (s.inum ip)).type
  size : (s'.dinode (s'.inum ip)).size = max (s.dinode (s.inum ip)).size (off + n)
  bytes : ∀ x, x < max (s.dinode (s.inum ip)).size (off + n) →
    (s'.dinode (s'.inum ip)).byteAt s'.data x =
      if off ≤ x ∧ x < off + n then src (x - off) else (s.dinode (s.inum ip)).byteAt s.data x

theorem transfer_spec {π : Type} {f : File} {c : Filewrite π} (h : Sound s)
    (href : 0 < (s.icache f.ip).ref) (htype : (s.dinode (s.inum f.ip)).type = .file)
    (hoff : f.off.toNat ≤ (s.dinode (s.inum f.ip)).size)
    (hmax : f.off.toNat + c.n1 ≤ maxFile * bsize) :
    Sat (Writers.transfer f c) s fun r s' =>
      r = c.n1 ∧ Rounded f.ip c.src f.off.toNat c.n1 s s' := by
  have hn1 : (UInt32.ofNat c.n1).toNat = c.n1 :=
    UInt32.toNat_ofNat_of_lt' (lt_of_le_of_lt ((Nat.le_add_left ..).trans hmax) (by decide))
  refine wp_bind (ilock_locked h href) ?_
  rintro - s₁ ⟨h₁, hip, hinum, hdinode, hdata⟩
  have hnode : s₁.node f.ip = s.dinode (s.inum f.ip) := by rw [h₁.node hip, hinum, hdinode]
  have hoff₁ : f.off.toNat ≤ (s₁.node f.ip).size := by rw [hnode]; exact hoff
  refine wp_mono (writei_bytes (n := UInt32.ofNat c.n1) h₁ hip (by rw [hnode, htype]; decide) c.src
    hoff₁ (by rw [hn1]; exact hmax)) ?_
  rintro r s' ⟨h', rfl, hwrote⟩
  rw [hn1] at hwrote ⊢
  have hnode' := h'.node hwrote.locked
  refine ⟨rfl, h', hwrote.locked.ref, ?_, ?_, fun x hx => ?_⟩
  · rw [← hnode', hwrote.type, hnode]
  · rw [← hnode', hwrote.size, hnode]
  · rw [← hnode']
    have hbyte := hwrote.bytes x (by rw [hnode]; exact hx)
    rw [Fs.byteAt, Fs.byteAt, hnode, hdata] at hbyte
    exact hbyte

end Round

/-! ## The chunks of a run -/

/-- The bytes from `i` on of the buffer of a call, which are written from `start` on. -/
structure Chunk (π : Type) where
  start : Nat
  proc : π
  bytes : List UInt8
  i : Nat
  len : Nat

/-- The chunks follow each other from one offset to another. -/
def Consecutive {π : Type} : Nat → List (Chunk π) → Nat → Prop
  | off, [], off' => off = off'
  | off, k :: ks, off' => k.start = off ∧ Consecutive (off + k.len) ks off'

section Chunks

variable {π : Type} {off off' : Nat} {ks : List (Chunk π)}

theorem Consecutive.snoc (h : Consecutive off ks off') (k : Chunk π) (hk : k.start = off') :
    Consecutive off (ks ++ [k]) (off' + k.len) := by
  induction ks generalizing off with
  | nil =>
      have heq : off = off' := h
      exact ⟨hk.trans heq.symm, by rw [heq]; rfl⟩
  | cons k' ks ih => exact ⟨h.1, ih h.2⟩

theorem Consecutive.le (h : Consecutive off ks off') : off ≤ off' := by
  induction ks generalizing off with
  | nil => exact Nat.le_of_eq h
  | cons k ks ih => exact (Nat.le_add_right ..).trans (ih h.2)

theorem Consecutive.bounds (h : Consecutive off ks off') :
    ∀ k ∈ ks, off ≤ k.start ∧ k.start + k.len ≤ off' := by
  induction ks generalizing off with
  | nil => exact fun _ hk => absurd hk List.not_mem_nil
  | cons k' ks ih =>
      intro k hk
      rcases List.mem_cons.1 hk with rfl | hk
      · rw [h.1]
        exact ⟨Nat.le_refl _, h.2.le⟩
      · have hrest := ih h.2 k hk
        exact ⟨(Nat.le_add_right ..).trans hrest.1, hrest.2⟩

/-- No two of them overlap. -/
theorem Consecutive.disjoint (h : Consecutive off ks off') :
    ks.Pairwise fun k k' => k.start + k.len ≤ k'.start := by
  induction ks generalizing off with
  | nil => exact List.Pairwise.nil
  | cons k ks ih =>
      refine List.pairwise_cons.2 ⟨fun k' hk' => ?_, ih h.2⟩
      rw [h.1]
      exact (h.2.bounds k' hk').1

end Chunks

namespace Writers

variable {π : Type}

/-- What a step writes. -/
def chunk (s : Writers π) : WriterEvent π → Option (Chunk π)
  | .round c => some ⟨s.file.off.toNat, c.proc, c.bytes, c.i, c.n1⟩
  | _ => none

def chunks (tr : List (Writers π × WriterEvent π)) : List (Chunk π) :=
  tr.filterMap fun x => x.1.chunk x.2

/-- `n` of a call that begins. -/
def asked : WriterEvent π → Nat
  | .call _ bytes => bytes.length
  | _ => 0

/-- The total of all `n`. -/
def requested (tr : List (Writers π × WriterEvent π)) : Nat := (tr.map fun x => asked x.2).sum

theorem chunks_snoc (tr : List (Writers π × WriterEvent π)) (x : Writers π × WriterEvent π) :
    chunks (tr ++ [x]) = chunks tr ++ (x.1.chunk x.2).toList := by
  unfold chunks
  rw [List.filterMap_append, List.filterMap_cons, List.filterMap_nil]
  cases x.1.chunk x.2 <;> rfl

theorem requested_snoc (tr : List (Writers π × WriterEvent π)) (x : Writers π × WriterEvent π) :
    requested (tr ++ [x]) = requested tr + asked x.2 := by
  unfold requested
  rw [List.map_append, List.sum_append]
  rfl

/-- The bytes of the call below `i` have been written by these chunks. -/
def Delivered (ks : List (Chunk π)) (c : Filewrite π) : Prop :=
  ∀ j, j < c.i → ∃ k ∈ ks, (k.proc = c.proc ∧ k.bytes = c.bytes) ∧ k.i ≤ j ∧ j < k.i + k.len

/-- What the writers have done since `s₀`: the chunks `ks`, for calls with `total` bytes. -/
structure Inv (s₀ : Writers π) (ks : List (Chunk π)) (total : Nat) (s : Writers π) : Prop where
  sound : Sound s.fs
  ref : 0 < (s.fs.icache s.file.ip).ref
  type : s.dinode.type = .file
  size : s.dinode.size = max s₀.dinode.size s.file.off.toNat
  consecutive : Consecutive s₀.file.off.toNat ks s.file.off.toNat
  len : ∀ k ∈ ks, 0 < k.len ∧ k.len ≤ maxChunk
  bytes : ∀ k ∈ ks, ∀ x, x < k.len → k.bytes[k.i + x]? = some (s.byteAt (k.start + x))
  others : ∀ x, x < s₀.dinode.size → x < s₀.file.off.toNat ∨ s.file.off.toNat ≤ x →
    s.byteAt x = s₀.byteAt x
  calls : ∀ c ∈ s.calls, (c.failed = false ∧ c.i ≤ c.bytes.length) ∧ Delivered ks c
  /-- what is asked for and not yet written is left to the calls -/
  total : s₀.file.off.toNat + total =
    s.file.off.toNat + (s.calls.map fun c => c.bytes.length - c.i).sum

section Steps

variable {s₀ s s' : Writers π} {ks : List (Chunk π)} {total : Nat}
  {c : Filewrite π}

theorem Opened.inv (h : Opened s₀) : Inv s₀ [] 0 s₀ where
  sound := h.sound
  ref := h.ref
  type := h.type
  size := (max_eq_left h.off).symm
  consecutive := rfl
  len _ hk := absurd hk List.not_mem_nil
  bytes _ hk := absurd hk List.not_mem_nil
  others _ _ _ := rfl
  calls c hc := by
    rw [h.idle] at hc
    exact absurd hc List.not_mem_nil
  total := by
    rw [h.idle]
    rfl

theorem Delivered.snoc (h : Delivered ks c) (k : Chunk π) : Delivered (ks ++ [k]) c := fun j hj => by
  obtain ⟨k', hk', hbytes⟩ := h j hj
  exact ⟨k', List.mem_append_left _ hk', hbytes⟩

theorem Inv.call (h : Inv s₀ ks total s) (p : π) (bytes : List UInt8) :
    Inv s₀ ks (total + bytes.length) { s with calls := ⟨p, bytes, 0, false⟩ :: s.calls } where
  sound := h.sound
  ref := h.ref
  type := h.type
  size := h.size
  consecutive := h.consecutive
  len := h.len
  bytes := h.bytes
  others := h.others
  calls c hc := by
    rcases List.mem_cons.1 hc with rfl | hc
    · exact ⟨⟨rfl, Nat.zero_le _⟩, fun j hj => absurd hj (Nat.not_lt_zero j)⟩
    · exact h.calls c hc
  total := by
    have htotal := h.total
    rw [List.map_cons, List.sum_cons]
    show _ = s.file.off.toNat + (bytes.length - 0 + _)
    omega

variable [DecidableEq π]

/-- What is left to a call is left altogether. -/
theorem sum_erase (hc : c ∈ s.calls) : (s.calls.map fun c => c.bytes.length - c.i).sum =
    (c.bytes.length - c.i) + ((s.calls.erase c).map fun c => c.bytes.length - c.i).sum := by
  rw [((List.perm_cons_erase hc).map _).sum_nat, List.map_cons, List.sum_cons]

/-- What `round` does if `writei` has written all of it. -/
theorem Inv.round (h : Inv s₀ ks total s) (hc : c ∈ s.calls) (hi : c.i < c.bytes.length) {fs : Fs}
    (hfs : Rounded s.file.ip c.src s.file.off.toNat c.n1 s.fs fs)
    (hmax : s.file.off.toNat + c.n1 ≤ maxFile * bsize) :
    Inv s₀ (ks ++ [⟨s.file.off.toNat, c.proc, c.bytes, c.i, c.n1⟩]) total
      ⟨fs, { s.file with off := s.file.off + UInt32.ofNat c.n1 },
        { c with i := c.i + c.n1 } :: s.calls.erase c⟩ := by
  have hn1 : 0 < c.n1 ∧ c.n1 ≤ maxChunk ∧ c.n1 ≤ c.bytes.length - c.i := by
    unfold Filewrite.n1 maxChunk
    omega
  have hoff : (s.file.off + UInt32.ofNat c.n1).toNat = s.file.off.toNat + c.n1 := by
    have hlt : s.file.off.toNat + c.n1 < 2 ^ 32 := lt_of_le_of_lt hmax (by decide)
    have hlen : (UInt32.ofNat c.n1).toNat = c.n1 :=
      UInt32.toNat_ofNat_of_lt' (by rw [UInt32.size]; omega)
    rw [toNat_add_of_lt (by rwa [hlen]), hlen]
  have hsize : max s.dinode.size (s.file.off.toNat + c.n1) =
      max s₀.dinode.size (s.file.off.toNat + c.n1) := by
    rw [h.size]
    omega
  -- the bytes of this round, and those from before it
  have hnew : ∀ x, x < c.n1 →
      (fs.dinode (fs.inum s.file.ip)).byteAt fs.data (s.file.off.toNat + x) = c.src x := by
    intro x hx
    rw [hfs.bytes _ (lt_of_lt_of_le (Nat.add_lt_add_left hx _) (le_max_right ..)), if_pos (by omega),
      Nat.add_sub_cancel_left]
  have hold : ∀ x, x < s.dinode.size → x < s.file.off.toNat ∨ s.file.off.toNat + c.n1 ≤ x →
      (fs.dinode (fs.inum s.file.ip)).byteAt fs.data x = s.byteAt x := by
    intro x hx hout
    rw [hfs.bytes _ (lt_of_lt_of_le hx (le_max_left ..)), if_neg (by omega)]
    rfl
  refine ⟨hfs.sound, hfs.ref, hfs.type.trans h.type, ?_, ?_, fun k hk => ?_, fun k hk x hx => ?_,
    fun x hx hout => ?_, fun c' hc' => ?_, ?_⟩
  · show _ = max _ (s.file.off + UInt32.ofNat c.n1).toNat
    rw [hoff, ← hsize]
    exact hfs.size
  · show Consecutive _ _ (s.file.off + UInt32.ofNat c.n1).toNat
    rw [hoff]
    exact h.consecutive.snoc _ rfl
  · rcases List.mem_append.1 hk with hk | hk
    · exact h.len k hk
    · rw [List.mem_singleton.1 hk]
      exact ⟨hn1.1, hn1.2.1⟩
  · rcases List.mem_append.1 hk with hk | hk
    · have hbounds := (h.consecutive.bounds k hk).2
      have hin : k.start + x < s.dinode.size := by
        rw [h.size]
        omega
      rw [h.bytes k hk x hx]
      exact congrArg some (hold _ hin (Or.inl (by omega))).symm
    · obtain rfl := List.mem_singleton.1 hk
      have hlt : c.i + x < c.bytes.length := by
        have hx' : x < c.n1 := hx
        omega
      show c.bytes[c.i + x]? = some ((fs.dinode (fs.inum s.file.ip)).byteAt fs.data _)
      rw [hnew x hx, Filewrite.src, List.getD_eq_getElem?_getD, List.getElem?_eq_getElem hlt]
      rfl
  · have hout' : x < s₀.file.off.toNat ∨ s.file.off.toNat + c.n1 ≤ x := by
      rw [← hoff]
      exact hout
    have hle := h.consecutive.le
    rw [← h.others x hx (by omega)]
    exact hold x (by rw [h.size]; omega) (by omega)
  · rcases List.mem_cons.1 hc' with rfl | hc'
    · obtain ⟨⟨hfailed, -⟩, hdelivered⟩ := h.calls c hc
      refine ⟨⟨hfailed, ?_⟩, fun j hj => ?_⟩
      · show c.i + c.n1 ≤ c.bytes.length
        omega
      · by_cases hji : j < c.i
        · exact hdelivered.snoc _ j hji
        · exact ⟨_, List.mem_append_right _ List.mem_cons_self, ⟨rfl, rfl⟩, Nat.le_of_not_lt hji, hj⟩
    · obtain ⟨hcall, hdelivered⟩ := h.calls c' (List.mem_of_mem_erase hc')
      exact ⟨hcall, hdelivered.snoc _⟩
  · have htotal := h.total
    rw [sum_erase hc] at htotal
    rw [List.map_cons, List.sum_cons]
    show _ = (s.file.off + UInt32.ofNat c.n1).toNat + (c.bytes.length - (c.i + c.n1) + _)
    rw [hoff]
    omega

theorem Inv.ret (h : Inv s₀ ks total s) (hc : c ∈ s.calls) (hi : c.i = c.bytes.length) :
    Inv s₀ ks total { s with calls := s.calls.erase c } where
  sound := h.sound
  ref := h.ref
  type := h.type
  size := h.size
  consecutive := h.consecutive
  len := h.len
  bytes := h.bytes
  others := h.others
  calls c' hc' := h.calls c' (List.mem_of_mem_erase hc')
  total := by
    have htotal := h.total
    rw [sum_erase hc, hi, Nat.sub_self, Nat.zero_add] at htotal
    exact htotal

/-- A call returns when it has written everything. -/
theorem Inv.returned (h : Inv s₀ ks total s) {r : Int} (hstep : Step s (.ret c r) s') :
    (c ∈ s.calls ∧ c.i = c.bytes.length ∧ s' = { s with calls := s.calls.erase c }) ∧
      r = c.bytes.length := by
  obtain ⟨⟨hc, hdone, hr⟩, hs'⟩ := Option.ite_none_right_eq_some.1 hstep
  obtain ⟨⟨hfailed, hle⟩, -⟩ := h.calls c hc
  have hi : c.i = c.bytes.length := by
    rw [hfailed] at hdone
    rcases hdone with hno | hge
    · exact nomatch hno
    · omega
  rw [if_pos hi] at hr
  exact ⟨⟨hc, hi, (Option.some.inj hs').symm⟩, hr⟩

theorem Inv.step {e : WriterEvent π} (h : Inv s₀ ks total s)
    (hmax : s₀.file.off.toNat + (total + asked e) ≤ maxFile * bsize) (hstep : Step s e s') :
    Inv s₀ (ks ++ (s.chunk e).toList) (total + asked e) s' := by
  cases e with
  | call p bytes =>
      obtain rfl := Option.some.inj hstep
      show Inv s₀ (ks ++ []) _ _
      rw [List.append_nil]
      exact h.call p bytes
  | ret c r =>
      obtain ⟨⟨hc, hi, rfl⟩, -⟩ := h.returned hstep
      show Inv s₀ (ks ++ []) _ _
      rw [List.append_nil]
      exact h.ret hc hi
  | round c =>
      obtain ⟨⟨hc, -, hi⟩, hround⟩ := Option.ite_none_right_eq_some.1 hstep
      have hbound : s.file.off.toNat + c.n1 ≤ maxFile * bsize := by
        have htotal := h.total
        rw [sum_erase hc] at htotal
        have hn1 : c.n1 ≤ c.bytes.length - c.i := Nat.min_le_left ..
        change s₀.file.off.toNat + (total + 0) ≤ _ at hmax
        omega
      have hrun := wp_elim (transfer_spec h.sound h.ref h.type
        (by rw [show (s.fs.dinode _).size = _ from h.size]; exact le_max_right ..) hbound)
        fun _ _ => trivial
      unfold Writers.round at hround
      cases hres : (transfer s.file c s.fs).2 with
      | error e =>
          rw [hres] at hround
          exact nomatch hround
      | ok rs =>
          obtain ⟨r, fs⟩ := rs
          rw [hres] at hrun hround
          obtain ⟨rfl, hfs⟩ := hrun
          have hpos : 0 < c.n1 := by
            unfold Filewrite.n1 maxChunk
            omega
          dsimp only at hround
          have hnonneg : ¬ (c.n1 : Int) < 0 := by omega
          rw [if_neg hnonneg, if_neg (not_not.2 rfl), if_pos (Int.natCast_pos.2 hpos)] at hround
          obtain rfl := Option.some.inj hround
          exact h.round hc hi hfs hbound

end Steps

variable [DecidableEq π] {s₀ s : Writers π} {tr : List (Writers π × WriterEvent π)}

theorem run_writers (h₀ : Opened s₀) (hrun : Run Step s₀ tr s)
    (hmax : s₀.file.off.toNat + requested tr ≤ maxFile * bsize) :
    Inv s₀ (chunks tr) (requested tr) s := by
  induction hrun with
  | nil => exact h₀.inv
  | snoc _ hstep ih =>
      rw [requested_snoc] at hmax ⊢
      rw [chunks_snoc]
      exact (ih (by omega)).step hmax hstep

theorem run_returned (h₀ : Opened s₀) (hrun : Run Step s₀ tr s)
    (hmax : s₀.file.off.toNat + requested tr ≤ maxFile * bsize) :
    ∀ x ∈ tr, ∀ c r, x.2 = .ret c r → r = c.bytes.length ∧ c.i = c.bytes.length ∧
      Delivered (chunks tr) c := by
  induction hrun with
  | nil => exact fun _ hx => absurd hx List.not_mem_nil
  | snoc hrun hstep ih =>
      rw [requested_snoc] at hmax
      rw [chunks_snoc]
      intro x hx c r hret
      rcases List.mem_append.1 hx with hx | hx
      · obtain ⟨hr, hi, hdelivered⟩ := ih (by omega) x hx c r hret
        refine ⟨hr, hi, fun j hj => ?_⟩
        obtain ⟨k, hk, hbytes⟩ := hdelivered j hj
        exact ⟨k, List.mem_append_left _ hk, hbytes⟩
      · obtain rfl := List.mem_singleton.1 hx
        obtain rfl := hret
        have h := run_writers h₀ hrun (by omega)
        obtain ⟨⟨hc, hi, -⟩, hr⟩ := h.returned hstep
        refine ⟨hr, hi, ?_⟩
        show Delivered (chunks _ ++ []) c
        rw [List.append_nil]
        exact (h.calls c hc).2

/-- The file after the calls of `tr`. -/
structure Appended (s₀ : Writers π) (tr : List (Writers π × WriterEvent π)) (s : Writers π) :
    Prop where
  /-- the chunks follow each other from the initial offset to the present one -/
  consecutive : Consecutive s₀.file.off.toNat (chunks tr) s.file.off.toNat
  disjoint : (chunks tr).Pairwise fun k k' => k.start + k.len ≤ k'.start
  len : ∀ k ∈ chunks tr, 0 < k.len ∧ k.len ≤ 1536
  /-- each range holds the bytes of its chunk -/
  bytes : ∀ k ∈ chunks tr, ∀ x, x < k.len → k.bytes[k.i + x]? = some (s.byteAt (k.start + x))
  /-- nothing else has changed -/
  others : ∀ x, x < s₀.dinode.size → x < s₀.file.off.toNat ∨ s.file.off.toNat ≤ x →
    s.byteAt x = s₀.byteAt x
  size : s.dinode.size = max s₀.dinode.size s.file.off.toNat
  /-- a call that has returned has written all of its bytes -/
  returned : ∀ x ∈ tr, ∀ c r, x.2 = .ret c r → r = c.bytes.length ∧
    ∀ j, j < c.bytes.length →
      ∃ k ∈ chunks tr, (k.proc = c.proc ∧ k.bytes = c.bytes) ∧ k.i ≤ j ∧ j < k.i + k.len
  off : s.calls = [] → s.file.off.toNat = s₀.file.off.toNat + requested tr

theorem shared_writes (h₀ : Opened s₀) (hrun : Run Step s₀ tr s)
    (hmax : s₀.file.off.toNat + requested tr ≤ maxFile * bsize) : Appended s₀ tr s := by
  have h := run_writers h₀ hrun hmax
  refine ⟨h.consecutive, h.consecutive.disjoint, h.len, h.bytes, h.others, h.size,
    fun x hx c r hret => ?_, fun hidle => ?_⟩
  · obtain ⟨hr, hi, hdelivered⟩ := run_returned h₀ hrun hmax x hx c r hret
    exact ⟨hr, fun j hj => hdelivered j (by omega)⟩
  · have htotal := h.total
    rw [hidle] at htotal
    exact htotal.symm

/-! A file that is empty, and two processes that write to it. -/

/-- An inode of the given type without contents, in use. -/
def emptyInode (type : IType) : Fs :=
  { emptyFs with
    dinode := Function.update emptyFs.dinode 1 (Dinode.fresh type)
    icache := Function.update emptyFs.icache firstSlot ⟨1, 1, false, Dinode.fresh .free⟩ }

def twoWriters : Writers Nat := ⟨emptyInode .file, ⟨firstSlot, 0⟩, []⟩

theorem emptyInode_sound (type : IType) : Sound (emptyInode type) := by
  have hfresh : ∀ i, ∃ type', (emptyInode type).dinode i = Dinode.fresh type' := by
    intro i
    by_cases hi : i = 1
    · exact ⟨type, by rw [hi]; rfl⟩
    · exact ⟨.free, Function.update_of_ne hi ..⟩
  have hheld : ∀ i q, held ((emptyInode type).dinode i) (emptyInode type).data q = 0 := by
    intro i q
    obtain ⟨type', htype⟩ := hfresh i
    rw [htype]
    exact held_fresh type' _ q
  have hempty : refs (emptyInode type).dinode (emptyInode type).data = refs emptyFs.dinode emptyFs.data := by
    funext x
    rw [refs, hheld, addr?_eq_none.2 rfl, ite_self]
    rfl
  have hfilled : ∀ i, Filled ((emptyInode type).dinode i) (emptyInode type).data
      (nblocks ((emptyInode type).dinode i).size) := by
    intro i
    obtain ⟨type', htype⟩ := hfresh i
    have hblock : ∀ k, lblock ((emptyInode type).dinode i) (emptyInode type).data k = 0 := fun k => hheld i (.block k)
    have hind : ((emptyInode type).dinode i).addrs indirectAddr = 0 := hheld i .indirect
    have hsize : nblocks ((emptyInode type).dinode i).size = 0 := by
      rw [htype]
      show nblocks 0 = 0
      decide
    rw [hsize]
    exact ⟨fun k => ⟨fun hne => absurd (hblock k) hne, fun hlt => absurd hlt (Nat.not_lt_zero k)⟩,
      fun hne => absurd hind hne, fun hlt => absurd hlt (Nat.not_lt_zero _)⟩
  have hslot : ∀ ip, 0 < ((emptyInode type).icache ip).ref → ip = firstSlot := by
    intro ip href
    by_contra hne
    rw [show (emptyInode type).icache ip = emptyFs.icache ip from Function.update_of_ne hne ..] at href
    exact Int.lt_irrefl 0 href
  have hinvalid : ∀ ip, 0 < ((emptyInode type).icache ip).ref → ((emptyInode type).icache ip).valid = false :=
    fun ip href => by
      rw [hslot ip href]
      rfl
  have hsound := sound_iff.2 emptyFs_sound
  refine ⟨hsound.layout, ?_, fun i _ => hfilled i, ?_, ?_, ?_⟩
  · rw [hempty]
    exact hsound.books
  · exact fun ip jp hi hj _ => (hslot ip hi).trans (hslot jp hj).symm
  · exact fun ip href hvalid => absurd hvalid (ne_true_of_eq_false (hinvalid ip href))
  · exact fun ip href hvalid => absurd hvalid (ne_true_of_eq_false (hinvalid ip href))

theorem twoWriters_opened : Opened twoWriters :=
  ⟨emptyInode_sound .file, by decide, by decide, by decide, rfl⟩

/-- The first call takes two rounds, between which the second one runs. -/
def twoCalls : List (WriterEvent Nat) :=
  let long : List UInt8 := List.replicate 2000 1
  [.call 1 long, .call 2 [2, 3], .round ⟨1, long, 0, false⟩, .round ⟨2, [2, 3], 0, false⟩,
    .round ⟨1, long, 1536, false⟩, .ret ⟨2, [2, 3], 2, false⟩ 2, .ret ⟨1, long, 2000, false⟩ 2000]

theorem shared_writes_twoCalls : ∃ tr s, Run Step twoWriters tr s ∧ tr.map Prod.snd = twoCalls ∧
    Appended twoWriters tr s := by
  have hplays : (play next twoWriters twoCalls).isSome = true := by decide +kernel
  obtain ⟨⟨tr, s⟩, hplay⟩ := Option.isSome_iff_exists.1 hplays
  obtain ⟨hrun, hlabels⟩ := play_run hplay
  have hrequested : requested tr = ((tr.map Prod.snd).map asked).sum := by
    rw [List.map_map]
    rfl
  refine ⟨tr, s, hrun, hlabels, shared_writes twoWriters_opened hrun ?_⟩
  rw [hrequested, hlabels]
  decide +kernel

end Writers

end Cs350.Block
