import Cs350.Block.Array

set_option autoImplicit false

/-! # When a write is all or nothing (`filewrite`)

`filewrite` cuts a write into chunks of `maxChunk` bytes, each of them an operation of the log of its
own. `writei` refuses a chunk that ends above the largest size of a file before it changes anything,
but the chunks before it have been written then, and the offset has moved. -/

namespace Cs350.Block

open FileSys (IType Ip nInode)
open Prog

/-! ## The program -/

inductive FilewritePanic
  /-- a panic of the file system -/
  | fs (e : Panic)
  /-- `panic("short filewrite")` -/
  | short

/-- `struct file`, of type `FD_INODE`. -/
structure OpenFile extends File where
  writable : Bool

/-- A call of `filewrite` that has come to `i`. -/
def callAt (bytes : List UInt8) (i : Nat) : Filewrite Unit := ⟨(), bytes, i, false⟩

/-- The loop of `filewrite`, from `i` on; every round writes a byte or more. Returns the final `i`,
    the file and the file system. -/
def filewriteLoop (bytes : List UInt8) :
    Nat → Nat → File → Fs → Except FilewritePanic (Nat × File × Fs)
  | 0, i, f, s => .ok (i, f, s)
  | fuel + 1, i, f, s =>
      if i < bytes.length then
        match (Writers.transfer f (callAt bytes i) s).2 with
        | .error e => .error (.fs e)
        | .ok (r, s') =>
            let f' := if r > 0 then { f with off := f.off + UInt32.ofNat r.toNat } else f
            if r < 0 then
              .ok (i, f', s')
            else if r ≠ (callAt bytes i).n1 then
              .error .short
            else
              filewriteLoop bytes fuel (i + r.toNat) f' s'
      else
        .ok (i, f, s)

/-- Write to file `f` the `n` bytes from `addr` on. -/
def filewrite (f : OpenFile) (bytes : List UInt8) (s : Fs) :
    Except FilewritePanic (Int × OpenFile × Fs) :=
  if f.writable = false then
    .ok (-1, f, s)
  else
    match filewriteLoop bytes bytes.length 0 f.toFile s with
    | .error e => .error e
    | .ok (i, file, s') =>
        .ok (if i = bytes.length then bytes.length else -1, { f with toFile := file }, s')

/-! ## The specification -/

/-- The size of the file that a descriptor refers to. -/
def Fs.sizeOf (s : Fs) (ip : Ip) : Nat := (s.dinode (s.inum ip)).size

/-- There is room for `m` bytes at `off` in a file of the given size. -/
def Fits (size free off m : Nat) : Prop :=
  off ≤ size ∧ off + m ≤ maxFile * bsize ∧
    blocksFor (nblocks (max size (off + m))) ≤ free + blocksFor (nblocks size)

instance (size free off m : Nat) : Decidable (Fits size free off m) :=
  inferInstanceAs (Decidable (_ ∧ _ ∧ _))

/-- The call returns `n` and all bytes are written, or it returns -1 and nothing has happened. -/
def AllOrNothing (f : OpenFile) (bytes : List UInt8) (s : Fs) : Prop :=
  ∃ r f' s', filewrite f bytes s = .ok (r, f', s') ∧
    (r = bytes.length ∧
        s'.contents (s.inum f.ip) = splice (s.contents (s.inum f.ip)) f.off.toNat bytes ∧
        f' = { f with off := f.off + UInt32.ofNat bytes.length } ∨
      r = -1 ∧ s'.contents (s.inum f.ip) = s.contents (s.inum f.ip) ∧ f' = f)

/-- An open regular file. -/
structure Ready (s : Fs) (ip : Ip) : Prop where
  sound : Sound s
  ref : 0 < (s.icache ip).ref
  type : (s.dinode (s.inum ip)).type = .file

section Arithmetic

variable {size free free' off n m : Nat}

/-- A write fits if its first part does and the rest fits then. -/
theorem Fits.next (hfree : free' + (blocksFor (nblocks (max size (off + n))) -
      blocksFor (nblocks size)) = free) (hoff : off ≤ size) :
    Fits size free off (n + m) ↔ Fits (max size (off + n)) free' (off + n) m := by
  have hmono : blocksFor (nblocks size) ≤ blocksFor (nblocks (max size (off + n))) := by
    refine blocksFor_mono ?_
    unfold nblocks bsize
    omega
  have hmax : max (max size (off + n)) (off + n + m) = max size (off + (n + m)) := by omega
  unfold Fits
  rw [hmax]
  omega

end Arithmetic

/-! ## One chunk -/

section Round

variable {s : Fs} {ip : Ip} {f : File} {bytes : List UInt8} {i : Nat}

theorem sizeOf_contents (s : Fs) (ip : Ip) : (s.contents (s.inum ip)).length = s.sizeOf ip :=
  length_contents _ _

/-- `ilock` of an inode in use takes no block. -/
theorem ilock_takes (h : Ready s ip) : Takes 0 (ilock ip) s fun _ _ => True := by
  have htype : (s.dinode (s.inum ip)).type ≠ .free := by
    rw [h.type]
    decide
  refine Takes.get_bind ?_
  rw [if_neg (not_lt.2 h.ref)]
  split_ifs
  · exact Takes.pure trivial
  · refine Takes.bind_right (Takes.modify (Q := fun _ _ => True) rfl trivial) fun _ _ _ => ?_
    rw [if_neg htype]
    exact Takes.pure trivial

/-- The inode is locked, and nothing else has changed. -/
structure Opens (ip : Ip) (s s' : Fs) : Prop where
  sound : Sound s'
  locked : Locked s' ip
  inum : s'.inum ip = s.inum ip
  node : s'.node ip = s.dinode (s.inum ip)
  contents : s'.contents (s.inum ip) = s.contents (s.inum ip)

theorem ilock_opens (h : Ready s ip) : Takes 0 (ilock ip) s fun _ s' => Opens ip s s' := by
  refine ((ilock_takes h).and (ilock_locked h.sound h.ref)).mono ?_
  rintro - s' ⟨-, h', hip, hinum, hdinode, hdata⟩
  refine ⟨h', hip, hinum, by rw [h'.node hip, hinum, hdinode], ?_⟩
  rw [Fs.contents, Fs.contents, hdinode, hdata]

theorem n1_toNat (bytes : List UInt8) (i : Nat) :
    (UInt32.ofNat (callAt bytes i).n1).toNat = (callAt bytes i).n1 :=
  UInt32.toNat_ofNat_of_lt' (lt_of_le_of_lt (Nat.min_le_right ..) (by decide))

/-- The bytes of a chunk. -/
theorem firstBytes_src (bytes : List UInt8) (i : Nat) :
    firstBytes (callAt bytes i).src (callAt bytes i).n1 =
      (bytes.drop i).take (callAt bytes i).n1 := by
  have hn1 : (callAt bytes i).n1 ≤ bytes.length - i := Nat.min_le_left ..
  refine List.ext_getElem? fun x => ?_
  by_cases hx : x < (callAt bytes i).n1
  · rw [getElem?_firstBytes _ hx, List.getElem?_take_of_lt hx, List.getElem?_drop,
      List.getElem?_eq_getElem (by omega)]
    simp [callAt, Filewrite.src, show i + x < bytes.length by omega]
  · rw [List.getElem?_eq_none (by rw [length_firstBytes]; omega),
      List.getElem?_eq_none (by rw [List.length_take]; omega)]

/-- What a chunk of `bytes` at `off` leaves. -/
structure Stored (ip : Ip) (off : Nat) (bytes : List UInt8) (s s' : Fs) : Prop where
  ready : Ready s' ip
  inum : s'.inum ip = s.inum ip
  contents : s'.contents (s.inum ip) = splice (s.contents (s.inum ip)) off bytes

theorem Stored.size {off : Nat} {s' : Fs} (h : Stored ip off bytes s s') (hoff : off ≤ s.sizeOf ip) :
    s'.sizeOf ip = max (s.sizeOf ip) (off + bytes.length) := by
  rw [← sizeOf_contents, h.inum, h.contents, length_splice (by rw [sizeOf_contents]; exact hoff),
    sizeOf_contents]

/-- A chunk that `writei` accepts. -/
theorem transfer_stores (h : Ready s f.ip) (hoff : f.off.toNat ≤ s.sizeOf f.ip)
    (hmax : f.off.toNat + (callAt bytes i).n1 ≤ maxFile * bsize) :
    Takes (blocksFor (nblocks (max (s.sizeOf f.ip) (f.off.toNat + (callAt bytes i).n1))) -
        blocksFor (nblocks (s.sizeOf f.ip))) (Writers.transfer f (callAt bytes i)) s fun r s' =>
      r = (callAt bytes i).n1 ∧
        Stored f.ip f.off.toNat ((bytes.drop i).take (callAt bytes i).n1) s s' := by
  refine (ilock_opens h).bind_right fun _ s₁ hopen => ?_
  have hdev : (s₁.node f.ip).type ≠ .dev := by
    rw [hopen.node, h.type]
    decide
  have hacc : ¬ s₁.Refuses f.ip f.off.toNat (UInt32.ofNat (callAt bytes i).n1).toNat := by
    rw [Fs.Refuses, n1_toNat, hopen.node]
    unfold Fs.sizeOf maxFile nDirect nIndirect bsize at *
    omega
  have hwrite := writei_splices hopen.sound hopen.locked hdev (callAt bytes i).src hacc
  rw [Fs.needed, n1_toNat, hopen.node, firstBytes_src] at hwrite
  refine hwrite.mono ?_
  rintro r s' ⟨rfl, hspliced⟩
  have hinum : s'.inum f.ip = s.inum f.ip := hspliced.inum.trans hopen.inum
  refine ⟨rfl, ⟨hspliced.sound, hspliced.locked.ref, ?_⟩, hinum, ?_⟩
  · rw [hinum, ← hopen.inum, hspliced.disk, hspliced.type, hopen.node]
    exact h.type
  · rw [← hopen.contents, ← hopen.inum]
    exact hspliced.contents

/-- A chunk that `writei` refuses. -/
theorem transfer_refused (h : Ready s f.ip) (href : s.sizeOf f.ip < f.off.toNat ∨
      maxFile * bsize < f.off.toNat + (callAt bytes i).n1) :
    Takes 0 (Writers.transfer f (callAt bytes i)) s fun r s' =>
      r = -1 ∧ s'.contents (s.inum f.ip) = s.contents (s.inum f.ip) := by
  refine (ilock_opens h).bind_right fun _ s₁ hopen => ?_
  have hdev : (s₁.node f.ip).type ≠ .dev := by
    rw [hopen.node, h.type]
    decide
  have href₁ : s₁.Refuses f.ip f.off.toNat (UInt32.ofNat (callAt bytes i).n1).toNat := by
    rw [Fs.Refuses, n1_toNat, hopen.node]
    exact href.imp_right Or.inr
  refine wp_mono (writei_refused hdev (callAt bytes i).src href₁) ?_
  rintro r s' ⟨rfl, rfl⟩
  exact ⟨rfl, rfl, hopen.contents⟩

end Round

/-! ## The loop -/

section Loop

variable {s s₁ s' : Fs} {f f' : File} {bytes : List UInt8} {i j fuel : Nat}

/-- A round that writes its chunk. -/
theorem filewriteLoop_round (hi : i < bytes.length)
    (hrun : (Writers.transfer f (callAt bytes i) s).2 = .ok (((callAt bytes i).n1 : Int), s₁)) :
    filewriteLoop bytes (fuel + 1) i f s = filewriteLoop bytes fuel (i + (callAt bytes i).n1)
      { f with off := f.off + UInt32.ofNat (callAt bytes i).n1 } s₁ := by
  have hn1 : 0 < (callAt bytes i).n1 := by
    simp only [Filewrite.n1, callAt, maxChunk]
    omega
  simp [filewriteLoop, hi, hrun, hn1]

/-- A round whose chunk is refused. -/
theorem filewriteLoop_refused (hi : i < bytes.length)
    (hrun : (Writers.transfer f (callAt bytes i) s).2 = .ok (-1, s₁)) :
    filewriteLoop bytes (fuel + 1) i f s = .ok (i, f, s₁) := by
  simp [filewriteLoop, hi, hrun]

theorem filewriteLoop_panic {e : Panic} (hi : i < bytes.length)
    (hrun : (Writers.transfer f (callAt bytes i) s).2 = .error e) :
    filewriteLoop bytes (fuel + 1) i f s = .error (.fs e) := by
  simp [filewriteLoop, hi, hrun]

theorem filewriteLoop_done (hi : ¬ i < bytes.length) :
    filewriteLoop bytes fuel i f s = .ok (i, f, s) := by
  cases fuel with
  | zero => rfl
  | succ fuel => rw [filewriteLoop, if_neg hi]

/-- What one accepted round does to the loop. -/
structure Advances (bytes : List UInt8) (i : Nat) (f f₁ : File) (s s₁ : Fs) : Prop where
  stored : Stored f.ip f.off.toNat ((bytes.drop i).take (callAt bytes i).n1) s s₁
  ip : f₁.ip = f.ip
  off : f₁.off.toNat = f.off.toNat + (callAt bytes i).n1
  off_eq : f₁.off = f.off + UInt32.ofNat (callAt bytes i).n1
  size : s₁.sizeOf f.ip = max (s.sizeOf f.ip) (f.off.toNat + (callAt bytes i).n1)
  fits : ∀ m, Fits (s.sizeOf f.ip) s.free f.off.toNat ((callAt bytes i).n1 + m) ↔
    Fits (s₁.sizeOf f.ip) s₁.free f₁.off.toNat m

/-- A round whose chunk is not refused advances the loop, or the blocks run out. -/
theorem filewriteLoop_accepted (h : Ready s f.ip) (hi : i < bytes.length)
    (hoff : f.off.toNat ≤ s.sizeOf f.ip)
    (hmax : f.off.toNat + (callAt bytes i).n1 ≤ maxFile * bsize) :
    (∃ f₁ s₁, Advances bytes i f f₁ s s₁ ∧ ∀ fuel, filewriteLoop bytes (fuel + 1) i f s =
        filewriteLoop bytes fuel (i + (callAt bytes i).n1) f₁ s₁) ∨
      (∀ m, ¬ Fits (s.sizeOf f.ip) s.free f.off.toNat ((callAt bytes i).n1 + m)) ∧
        ∃ e, ∀ fuel, filewriteLoop bytes (fuel + 1) i f s = .error e := by
  have hpost := wp_elim (transfer_stores h hoff hmax) fun _ _ => trivial
  rcases hrun : (Writers.transfer f (callAt bytes i) s).2 with e | ⟨r, s₁⟩
  · rw [hrun] at hpost
    -- the free map is full: a longer write would not fit either
    refine Or.inr ⟨fun m hfits => ?_, .fs e, fun fuel => filewriteLoop_panic hi hrun⟩
    have hmono : blocksFor (nblocks (max (s.sizeOf f.ip) (f.off.toNat + (callAt bytes i).n1))) ≤
        blocksFor (nblocks (max (s.sizeOf f.ip) (f.off.toNat + ((callAt bytes i).n1 + m)))) := by
      refine blocksFor_mono ?_
      unfold nblocks bsize
      omega
    have hlt : s.free < _ := hpost
    have hroom := hfits.2.2
    omega
  · rw [hrun] at hpost
    obtain ⟨hfree, rfl, hstored⟩ := hpost
    have hlen : ((bytes.drop i).take (callAt bytes i).n1).length = (callAt bytes i).n1 := by
      have hn1 : (callAt bytes i).n1 ≤ bytes.length - i := Nat.min_le_left ..
      rw [List.length_take, List.length_drop]
      omega
    have hsize := hstored.size hoff
    rw [hlen] at hsize
    have hoff₁ : (f.off + UInt32.ofNat (callAt bytes i).n1).toNat =
        f.off.toNat + (callAt bytes i).n1 := by
      have hlt := lt_of_le_of_lt hmax (by decide : maxFile * bsize < 2 ^ 32)
      rw [toNat_add_of_lt (by rwa [n1_toNat]), n1_toNat]
    refine Or.inl ⟨{ f with off := f.off + UInt32.ofNat (callAt bytes i).n1 }, s₁,
      ⟨hstored, rfl, hoff₁, rfl, hsize, fun m => ?_⟩, fun fuel => filewriteLoop_round hi hrun⟩
    rw [hsize, hoff₁]
    exact Fits.next hfree hoff

/-- The number of bytes in a chunk. -/
theorem n1_bounds (h : i < bytes.length) :
    0 < (callAt bytes i).n1 ∧ i + (callAt bytes i).n1 ≤ bytes.length := by
  simp only [Filewrite.n1, callAt, maxChunk]
  omega

/-- The loop stores all bytes if there is room for them. -/
theorem filewriteLoop_fits (h : Ready s f.ip)
    (hfits : Fits (s.sizeOf f.ip) s.free f.off.toNat (bytes.length - i))
    (hfuel : bytes.length - i ≤ fuel) (hi : i ≤ bytes.length) :
    ∃ s', filewriteLoop bytes fuel i f s =
        .ok (bytes.length, { f with off := f.off + UInt32.ofNat (bytes.length - i) }, s') ∧
      s'.contents (s.inum f.ip) =
        splice (s.contents (s.inum f.ip)) f.off.toNat (bytes.drop i) := by
  induction fuel generalizing s f i with
  | zero =>
      obtain rfl : i = bytes.length := by omega
      exact ⟨s, by simp [filewriteLoop], by simp⟩
  | succ fuel ih =>
      rcases hi.eq_or_lt with rfl | hlt
      · exact ⟨s, by simp [filewriteLoop], by simp⟩
      · have hn1 := n1_bounds hlt
        obtain ⟨hoff, hmax, -⟩ := id hfits
        have hsplit : bytes.length - i =
            (callAt bytes i).n1 + (bytes.length - (i + (callAt bytes i).n1)) := by omega
        rw [hsplit] at hfits
        rcases filewriteLoop_accepted h hlt hoff (by omega) with ⟨f₁, s₁, hadv, hrun⟩ | ⟨hno, -⟩
        · -- the rest fits into what the chunk has left
          have hready := hadv.stored.ready
          have hfits₁ := (hadv.fits _).1 hfits
          rw [← hadv.ip] at hready hfits₁
          obtain ⟨s', hrest, hcont⟩ := ih hready hfits₁ (by omega) (by omega)
          refine ⟨s', ?_, ?_⟩
          · rw [hrun, hrest, hadv.ip, hadv.off_eq, hsplit, UInt32.ofNat_add, UInt32.add_assoc]
          · have hlen : ((bytes.drop i).take (callAt bytes i).n1).length =
                (callAt bytes i).n1 := by
              rw [List.length_take, List.length_drop]
              omega
            rw [hadv.ip, hadv.stored.inum, hadv.stored.contents, hadv.off] at hcont
            conv at hcont => rhs; arg 2; rw [← hlen]
            rw [hcont, splice_append (by rw [sizeOf_contents]; exact hoff), ← List.drop_drop,
              List.take_append_drop]
        · exact absurd hfits (hno _)

theorem Ready.fits_zero {ip : Ip} {off : Nat} (h : Ready s ip) (hoff : off ≤ s.sizeOf ip) :
    Fits (s.sizeOf ip) s.free off 0 := by
  have hsize := (h.sound.filled _ (by rw [h.type]; decide)).cnt_le
  refine ⟨hoff, ?_, ?_⟩
  · unfold Fs.sizeOf nblocks bsize at *
    omega
  · rw [Nat.add_zero, Nat.max_eq_left hoff]
    exact Nat.le_add_left ..

/-- The loop stops at a chunk that is refused. -/
theorem filewriteLoop_stops (h : Ready s f.ip) (hi : i < bytes.length)
    (href : s.sizeOf f.ip < f.off.toNat ∨ maxFile * bsize < f.off.toNat + (callAt bytes i).n1) :
    ∃ s₁, filewriteLoop bytes (fuel + 1) i f s = .ok (i, f, s₁) ∧
      s₁.contents (s.inum f.ip) = s.contents (s.inum f.ip) := by
  obtain ⟨r, s₁, hrun, -, rfl, hcont⟩ := wp_runs (transfer_refused h href) (fun _ _ => trivial)
    fun _ => Nat.not_lt_zero _
  exact ⟨s₁, filewriteLoop_refused hi hrun, hcont⟩

/-- A run of the loop never moves the offset back, and gets to the end only if there is room for all
    bytes. -/
theorem filewriteLoop_result (h : Ready s f.ip) (hoff : f.off.toNat ≤ s.sizeOf f.ip)
    (hfuel : bytes.length - i ≤ fuel) (hi : i ≤ bytes.length)
    (hrun : filewriteLoop bytes fuel i f s = .ok (j, f', s')) :
    f.off.toNat ≤ f'.off.toNat ∧
      (j = bytes.length → Fits (s.sizeOf f.ip) s.free f.off.toNat (bytes.length - i)) := by
  induction fuel generalizing s f i with
  | zero =>
      obtain rfl : i = bytes.length := by omega
      cases hrun
      rw [Nat.sub_self]
      exact ⟨le_rfl, fun _ => h.fits_zero hoff⟩
  | succ fuel ih =>
      rcases hi.eq_or_lt with rfl | hlt
      · rw [filewriteLoop_done (lt_irrefl _)] at hrun
        cases hrun
        rw [Nat.sub_self]
        exact ⟨le_rfl, fun _ => h.fits_zero hoff⟩
      · have hn1 := n1_bounds hlt
        by_cases hmax : f.off.toNat + (callAt bytes i).n1 ≤ maxFile * bsize
        · have hsplit : bytes.length - i =
              (callAt bytes i).n1 + (bytes.length - (i + (callAt bytes i).n1)) := by omega
          rcases filewriteLoop_accepted h hlt hoff hmax with ⟨f₁, s₁, hadv, hround⟩ | ⟨-, e, hpanic⟩
          · rw [hround] at hrun
            have hready := hadv.stored.ready
            have hsize := hadv.size
            rw [← hadv.ip] at hready hsize
            obtain ⟨hle, hend⟩ := ih hready (by rw [hsize, hadv.off, hadv.ip]; omega) (by omega)
              hn1.2 hrun
            refine ⟨by rw [hadv.off] at hle; omega, fun hj => ?_⟩
            rw [hsplit]
            have hrest := hend hj
            rw [hadv.ip] at hrest
            exact (hadv.fits _).2 hrest
          · rw [hpanic] at hrun
            cases hrun
        · -- the chunk ends above the largest size
          obtain ⟨s₁, hstop, -⟩ := filewriteLoop_stops h hlt (Or.inr (Nat.not_le.1 hmax))
          rw [hstop] at hrun
          cases hrun
          exact ⟨le_rfl, fun hend => absurd hend hlt.ne⟩

/-- With blocks for the largest file, the loop returns before it has written more bytes than that
    holds. -/
theorem filewriteLoop_too_long (h : Ready s f.ip) (hoff : f.off.toNat ≤ s.sizeOf f.ip)
    (hfuel : bytes.length - i ≤ fuel) (hi : i < bytes.length)
    (hlong : maxFile * bsize < f.off.toNat + (bytes.length - i))
    (hroom : ∀ m, f.off.toNat + m ≤ maxFile * bsize → Fits (s.sizeOf f.ip) s.free f.off.toNat m) :
    ∃ j f' s', filewriteLoop bytes fuel i f s = .ok (j, f', s') ∧ j < bytes.length := by
  induction fuel generalizing s f i with
  | zero => omega
  | succ fuel ih =>
      have hn1 := n1_bounds hi
      by_cases hmax : f.off.toNat + (callAt bytes i).n1 ≤ maxFile * bsize
      · rcases filewriteLoop_accepted h hi hoff hmax with ⟨f₁, s₁, hadv, hround⟩ | ⟨hno, -⟩
        · have hready := hadv.stored.ready
          have hsize := hadv.size
          have hfits := hadv.fits
          rw [← hadv.ip] at hready hsize hfits
          have hoff₁ := hadv.off
          rw [hround]
          refine ih hready (by rw [hsize, hoff₁, hadv.ip]; omega) (by omega) (by omega) (by omega)
            fun m hm => ?_
          rw [← hfits, hadv.ip]
          exact hroom _ (by omega)
        · exact absurd (hroom (callAt bytes i).n1 hmax) (hno 0)
      · obtain ⟨s₁, hstop, -⟩ := filewriteLoop_stops h hi (Or.inr (Nat.not_le.1 hmax))
        exact ⟨i, f, s₁, hstop, hi⟩

end Loop

/-! ## The call -/

section Call

variable {f f' : OpenFile} {bytes : List UInt8} {s s' : Fs} {r : Int}

theorem filewrite_of_loop {i : Nat} {file : File} (hwritable : f.writable)
    (hrun : filewriteLoop bytes bytes.length 0 f.toFile s = .ok (i, file, s')) :
    filewrite f bytes s = .ok (if i = bytes.length then (bytes.length : Int) else -1,
      { f with toFile := file }, s') := by
  simp [filewrite, hwritable, hrun]

theorem loop_of_filewrite (hwritable : f.writable) (hrun : filewrite f bytes s = .ok (r, f', s')) :
    ∃ i, filewriteLoop bytes bytes.length 0 f.toFile s = .ok (i, f'.toFile, s') ∧
      r = if i = bytes.length then (bytes.length : Int) else -1 := by
  rw [filewrite, if_neg (by simp [hwritable])] at hrun
  rcases hloop : filewriteLoop bytes bytes.length 0 f.toFile s with e | ⟨i, file, s₁⟩
  · rw [hloop] at hrun
    cases hrun
  · rw [hloop] at hrun
    cases hrun
    exact ⟨i, rfl, rfl⟩

/-- A call whose first chunk is accepted moves the offset, if it returns. -/
theorem filewrite_moves (h : Ready s f.ip) (hwritable : f.writable) (hne : 0 < bytes.length)
    (hoff : f.off.toNat ≤ s.sizeOf f.ip)
    (hmax : f.off.toNat + min bytes.length maxChunk ≤ maxFile * bsize)
    (hrun : filewrite f bytes s = .ok (r, f', s')) :
    f'.off ≠ f.off ∧
      (r ≠ -1 → Fits (s.sizeOf f.ip) s.free f.off.toNat bytes.length) := by
  obtain ⟨i, hloop, rfl⟩ := loop_of_filewrite hwritable hrun
  refine ⟨?_, fun hr => ?_⟩
  · have hn1 := n1_bounds hne
    obtain ⟨fuel, hfuel⟩ := Nat.exists_eq_succ_of_ne_zero hne.ne'
    rw [hfuel] at hloop
    rcases filewriteLoop_accepted h hne hoff hmax with ⟨f₁, s₁, hadv, hround⟩ | ⟨-, e, hpanic⟩
    · rw [hround] at hloop
      have hready := hadv.stored.ready
      have hsize := hadv.size
      rw [← hadv.ip] at hready hsize
      have hle := (filewriteLoop_result hready (by rw [hsize, hadv.off, hadv.ip]; omega) (by omega)
        hn1.2 hloop).1
      rw [hadv.off] at hle
      intro heq
      rw [heq] at hle
      omega
    · rw [hpanic] at hloop
      cases hloop
  · have hend : i = bytes.length := by
      by_contra hno
      exact hr (if_neg hno)
    exact (filewriteLoop_result h hoff (Nat.sub_le ..) (Nat.zero_le _) hloop).2 hend

/-- Once the first chunk is written, nothing is no longer possible. -/
theorem AllOrNothing.fits (hall : AllOrNothing f bytes s) (h : Ready s f.ip)
    (hwritable : f.writable) (hne : 0 < bytes.length) (hoff : f.off.toNat ≤ s.sizeOf f.ip)
    (hmax : f.off.toNat + min bytes.length maxChunk ≤ maxFile * bsize) :
    Fits (s.sizeOf f.ip) s.free f.off.toNat bytes.length := by
  obtain ⟨r, f', s', hrun, hcases⟩ := hall
  obtain ⟨hmoved, hfits⟩ := filewrite_moves h hwritable hne hoff hmax hrun
  rcases hcases with ⟨rfl, -, -⟩ | ⟨-, -, rfl⟩
  · exact hfits (by omega)
  · exact absurd rfl hmoved

/-- **`filewrite` is all or nothing** if there is nothing to write, if its first chunk is refused, or
    if there is room for all bytes; where a chunk fails after another, it is not. -/
theorem filewrite_all_or_nothing_iff (h : Ready s f.ip) (bytes : List UInt8) :
    AllOrNothing f bytes s ↔ f.writable = false ∨ bytes = [] ∨
      (s.sizeOf f.ip < f.off.toNat ∨
        maxFile * bsize < f.off.toNat + min bytes.length maxChunk) ∨
      Fits (s.sizeOf f.ip) s.free f.off.toNat bytes.length := by
  by_cases hwritable : f.writable = false
  · refine iff_of_true ⟨-1, f, s, ?_, Or.inr ⟨rfl, rfl, rfl⟩⟩ (Or.inl hwritable)
    rw [filewrite, if_pos hwritable]
  rw [Bool.not_eq_false] at hwritable
  rcases Nat.eq_zero_or_pos bytes.length with hempty | hne
  · obtain rfl := List.eq_nil_of_length_eq_zero hempty
    refine iff_of_true ⟨0, f, s, ?_, Or.inl ⟨rfl, ?_, ?_⟩⟩ (Or.inr (Or.inl rfl))
    · have hrun : filewriteLoop [] 0 0 f.toFile s = .ok (0, f.toFile, s) := rfl
      exact filewrite_of_loop hwritable hrun
    · rw [splice_nil]
    · simp
  by_cases href : s.sizeOf f.ip < f.off.toNat ∨
      maxFile * bsize < f.off.toNat + min bytes.length maxChunk
  · -- the first chunk is refused, and nothing has happened
    obtain ⟨fuel, hfuel⟩ := Nat.exists_eq_succ_of_ne_zero hne.ne'
    obtain ⟨s₁, hstop, hcont⟩ : ∃ s₁, filewriteLoop bytes bytes.length 0 f.toFile s =
        .ok (0, f.toFile, s₁) ∧ s₁.contents (s.inum f.ip) = s.contents (s.inum f.ip) := by
      rw [hfuel]
      exact filewriteLoop_stops h hne href
    refine iff_of_true ⟨-1, f, s₁, ?_, Or.inr ⟨rfl, hcont, rfl⟩⟩ (Or.inr (Or.inr (Or.inl href)))
    rw [filewrite_of_loop hwritable hstop, if_neg hne.ne]
  · obtain ⟨hoff, hmax⟩ := not_or.1 href
    rw [Nat.not_lt] at hoff hmax
    refine ⟨fun hall => ?_, fun hcases => ?_⟩
    · exact Or.inr (Or.inr (Or.inr (hall.fits h hwritable hne hoff hmax)))
    · have hfits : Fits (s.sizeOf f.ip) s.free f.off.toNat bytes.length := by
        rcases hcases with hno | rfl | hno | hfits
        · simp [hwritable] at hno
        · simp at hne
        · exact absurd hno href
        · exact hfits
      obtain ⟨s', hloop, hcont⟩ :=
        filewriteLoop_fits h hfits (Nat.sub_le ..) (Nat.zero_le bytes.length)
      refine ⟨bytes.length, { f with off := f.off + UInt32.ofNat bytes.length }, s', ?_,
        Or.inl ⟨rfl, hcont, rfl⟩⟩
      rw [filewrite_of_loop hwritable hloop, if_pos rfl, Nat.sub_zero]

/-- An empty file, open for writing. -/
def emptyOpen : OpenFile := ⟨⟨firstSlot, 0⟩, true⟩

theorem emptyOpen_ready : Ready lockedFile emptyOpen.ip :=
  ⟨lockedFile_sound, by decide, rfl⟩

/-- Two chunks are written to the empty file. -/
theorem filewrite_two_chunks :
    AllOrNothing emptyOpen (List.replicate 3000 1) lockedFile :=
  (filewrite_all_or_nothing_iff emptyOpen_ready _).2
    (Or.inr (Or.inr (Or.inr (by rw [List.length_replicate]; decide +kernel))))

/-- One byte more than a file can have: the call returns -1 and has moved the offset. The last chunk
    is refused, after 46 chunks. -/
theorem filewrite_partial :
    (∃ f' s', filewrite emptyOpen (List.replicate 71681 1) lockedFile = .ok (-1, f', s') ∧
      f'.off ≠ emptyOpen.off) ∧
    ¬ AllOrNothing emptyOpen (List.replicate 71681 1) lockedFile := by
  have hlen : (List.replicate 71681 (1 : UInt8)).length = 71681 := List.length_replicate
  have hne : 0 < (List.replicate 71681 (1 : UInt8)).length := by rw [hlen]; decide
  have hmax : emptyOpen.off.toNat + min (List.replicate 71681 (1 : UInt8)).length maxChunk ≤
      maxFile * bsize := by
    rw [hlen]
    decide
  constructor
  · have hfree : lockedFile.free = 248 := by decide +kernel
    have hroom : ∀ m, emptyOpen.off.toNat + m ≤ maxFile * bsize →
        Fits (lockedFile.sizeOf emptyOpen.ip) lockedFile.free emptyOpen.off.toNat m := by
      intro m hm
      have hzero : emptyOpen.off.toNat = 0 := rfl
      have hsize : lockedFile.sizeOf emptyOpen.ip = 0 := rfl
      rw [hzero] at hm ⊢
      have hblocks : blocksFor (nblocks (max 0 (0 + m))) ≤ blocksFor (nblocks (maxFile * bsize)) := by
        refine blocksFor_mono ?_
        unfold nblocks bsize at *
        omega
      have hall : blocksFor (nblocks (maxFile * bsize)) = 141 := by decide
      rw [hsize, hfree]
      exact ⟨le_rfl, hm, by omega⟩
    obtain ⟨j, f', s', hloop, hj⟩ := filewriteLoop_too_long emptyOpen_ready (Nat.zero_le _)
      (Nat.sub_le _ 0) hne (by rw [hlen]; decide) hroom
    have hcall := filewrite_of_loop (f := emptyOpen) rfl hloop
    rw [if_neg hj.ne] at hcall
    exact ⟨_, s', hcall, (filewrite_moves emptyOpen_ready rfl hne (Nat.zero_le _) hmax hcall).1⟩
  · intro hall
    have hfits := hall.fits emptyOpen_ready rfl hne (Nat.zero_le _) hmax
    rw [hlen] at hfits
    exact absurd hfits.2.1 (by decide)

end Call

end Cs350.Block
