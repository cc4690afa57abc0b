import Cs350.Block.Logging
import Cs350.Log.Group
import Cs350.Log.Sequence

set_option autoImplicit false

/-! # A write and a crash

`filewrite` is one operation of the log for each chunk. The machine may stop at any block write of
any of their commits, and again in the recoveries after it. What is on the disk then is a sound file
system in which a whole number of chunks has been written, and all those whose operation had ended
are among them. No other operation is in the log at the same time. -/

namespace Cs350.Block

open FileSys (IType Ip nInode)
open Prog
open Log (LogHeader Txn)
open Mkfs (inodeAt)

/-! ## The operations of a call -/

/-- What an operation of the log in `filewrite` leaves: the blocks that are logged, the number of bytes
    that the call has written then, and the state. -/
structure WriteOp where
  blocks : List Nat
  i : Nat
  fs : Fs

namespace Logged

/-- `ilock(f->ip); writei(f->ip, addr + i, f->off, n1)` -/
def transfer (r : Regions) (f : File) (c : Filewrite Unit) : LogM Int := do
  unmarked (ilock f.ip)
  writei r f.ip c.src f.off (UInt32.ofNat c.n1)

theorem transfer_agrees (r : Regions) (f : File) (c : Filewrite Unit) :
    Agrees (transfer r f c) (Writers.transfer f c) :=
  Agrees.bind (Agrees.unmarked _) fun _ => writei_agrees r _ _ _ _

end Logged

/-- The operations that a call of `filewrite` ends, from `i` on. -/
def filewriteOps (r : Regions) (bytes : List UInt8) : Nat → Nat → File → Fs → List WriteOp
  | 0, _, _, _ => []
  | fuel + 1, i, f, s =>
      if i < bytes.length then
        match Logged.transfer r f (callAt bytes i) s with
        | (_, .error _) => []
        | (ws, .ok (n, s')) =>
            ⟨ws, i + n.toNat, s'⟩ ::
              if n = (callAt bytes i).n1 then
                filewriteOps r bytes fuel (i + n.toNat)
                  { f with off := f.off + UInt32.ofNat n.toNat } s'
              else
                []
      else
        []

section Ops

variable {r : Regions} {bytes : List UInt8} {s s' : Fs} {f f' : File} {i j fuel : Nat}

/-- The last operation leaves what the call leaves. -/
theorem filewriteOps_last (hrun : filewriteLoop bytes fuel i f s = .ok (j, f', s')) :
    (((filewriteOps r bytes fuel i f s).map fun x => (x.i, x.fs)).getLast?.getD (i, s)) = (j, s') := by
  induction fuel generalizing i f s with
  | zero =>
      cases hrun
      rfl
  | succ fuel ih =>
      rw [filewriteLoop] at hrun
      rw [filewriteOps]
      by_cases hi : i < bytes.length
      · have hpos := (n1_bounds hi).1
        have hagrees := Logged.transfer_agrees r f (callAt bytes i) s
        rw [if_pos hi] at hrun ⊢
        rcases hops : Logged.transfer r f (callAt bytes i) s with ⟨ws, e | ⟨n, s₁⟩⟩
        · rw [← hagrees, hops] at hrun
          cases hrun
        · rw [← hagrees, hops] at hrun
          dsimp only at hrun ⊢
          by_cases hneg : n < 0
          · rw [if_pos hneg] at hrun
            cases hrun
            rw [if_neg (by omega)]
            have hzero : n.toNat = 0 := Int.toNat_of_nonpos (by omega)
            simp [hzero]
          · rw [if_neg hneg] at hrun
            by_cases hn : n = (callAt bytes i).n1
            · have hgt : n > 0 := by omega
              rw [if_neg (not_not.2 hn), if_pos hgt] at hrun
              rw [if_pos hn]
              rw [List.map_cons, List.getLast?_cons, Option.getD_some]
              exact ih hrun
            · rw [if_pos hn] at hrun
              cases hrun
      · rw [if_neg hi] at hrun ⊢
        cases hrun
        rfl

/-! ## One operation -/

/-- `ilock` touches the cache of inodes only. -/
theorem ilock_cache (s : Fs) (ip : Ip) :
    Sat (ilock ip) s fun _ s' => s'.sb = s.sb ∧ s'.bitmap = s.bitmap ∧ s'.dinode = s.dinode ∧
      s'.data = s.data := by
  refine wp_get_bind (wp_ite (fun _ => wp_stop (by decide)) fun _ =>
    wp_ite (fun _ => wp_pure ⟨rfl, rfl, rfl, rfl⟩) fun _ => wp_modify_bind ?_)
  exact wp_ite (fun _ => wp_stop (by decide)) fun _ => wp_pure ⟨rfl, rfl, rfl, rfl⟩

theorem transfer_records {lo : Nat} (ho : r.Ordered s.sb lo) (h : Ready s f.ip)
    (hi : s.inum f.ip < s.sb.ninodes.toNat) (c : Filewrite Unit) :
    Records r lo (Logged.transfer r f c) s := by
  refine returns_bind (returns_unmarked (wp_and (ilock_cache s f.ip) (ilock_locked h.sound h.ref)))
    fun ws _ s₁ hlock => ?_
  obtain ⟨rfl, ⟨hsb, hbitmap, hdinode, hdata⟩, h₁, hip, hinum, -, -⟩ := hlock
  rw [← hsb] at ho hi
  rw [← hinum] at hi
  exact returns_mono (writei_records ho h₁ hip hi c.src f.off _) fun _ _ _ hrec =>
    (Covered.cache hsb hbitmap hdinode hdata).trans hrec

/-- A chunk that is refused leaves the disk as it is. -/
theorem transfer_kept (h : Ready s f.ip) (href : s.sizeOf f.ip < f.off.toNat ∨
      maxFile * bsize < f.off.toNat + (callAt bytes i).n1) :
    Sat (Writers.transfer f (callAt bytes i)) s fun n s' =>
      n = -1 ∧ Sound s' ∧ s'.dinode = s.dinode ∧ s'.data = s.data := by
  refine wp_bind (ilock_locked h.sound h.ref) ?_
  rintro - s₁ ⟨h₁, hip, hinum, hdinode, hdata⟩
  have hnode : s₁.node f.ip = s.dinode (s.inum f.ip) := by rw [h₁.node hip, hinum, hdinode]
  have hdev : (s₁.node f.ip).type ≠ .dev := by
    rw [hnode, h.type]
    decide
  have href₁ : s₁.Refuses f.ip f.off.toNat (UInt32.ofNat (callAt bytes i).n1).toNat := by
    rw [Fs.Refuses, n1_toNat, hnode]
    exact href.imp_right Or.inr
  refine wp_mono (writei_refused hdev (callAt bytes i).src href₁) ?_
  rintro n s' ⟨rfl, rfl⟩
  exact ⟨rfl, h₁, hdinode, hdata⟩

end Ops

/-! ## The state after some of the chunks -/

/-- Some of `bytes` have been written to the file, a whole number of chunks or all. -/
structure Holds (s₀ : Fs) (f₀ : File) (bytes : List UInt8) (x : WriteOp) : Prop where
  sound : Sound x.fs
  sb : x.fs.sb = s₀.sb
  type : (x.fs.dinode (s₀.inum f₀.ip)).type = .file
  contents : x.fs.contents (s₀.inum f₀.ip) =
    splice (s₀.contents (s₀.inum f₀.ip)) f₀.off.toNat (bytes.take x.i)
  whole : maxChunk ∣ x.i ∨ x.i = bytes.length
  le : x.i ≤ bytes.length

/-- At the head of the loop of `filewrite`. -/
structure Head (s₀ : Fs) (f₀ : File) (bytes : List UInt8) (i : Nat) (f : File) (s : Fs) : Prop where
  ready : Ready s f.ip
  ip : f.ip = f₀.ip
  inum : s.inum f₀.ip = s₀.inum f₀.ip
  off : f.off.toNat = f₀.off.toNat + i
  start : i = 0 ∨ f₀.off.toNat ≤ s₀.sizeOf f₀.ip
  holds : ∀ ws, Holds s₀ f₀ bytes ⟨ws, i, s⟩

section Head

variable {r : Regions} {bytes : List UInt8} {s₀ s s' : Fs} {f₀ f : File} {i : Nat} {ws : List Nat}
  {n : Int}

theorem Ready.head (h : Ready s₀ f₀.ip) (bytes : List UInt8) : Head s₀ f₀ bytes 0 f₀ s₀ :=
  ⟨h, rfl, rfl, rfl, Or.inl rfl, fun _ =>
    ⟨h.sound, rfl, h.type, by simp, Or.inl (Nat.dvd_zero _), Nat.zero_le _⟩⟩

/-- An operation writes its chunk and the loop goes on, or it writes nothing and the loop ends. -/
theorem Head.next (h : Head s₀ f₀ bytes i f s) (hi : i < bytes.length)
    (hsb : s'.sb = s.sb) (hrun : Logged.transfer r f (callAt bytes i) s = (ws, .ok (n, s'))) :
    Holds s₀ f₀ bytes ⟨ws, i + n.toNat, s'⟩ ∧ (n = (callAt bytes i).n1 →
      Head s₀ f₀ bytes (i + n.toNat) { f with off := f.off + UInt32.ofNat n.toNat } s') := by
  have hholds := h.holds []
  have hn1 := n1_bounds hi
  have hsize := sizeOf_contents s f.ip
  rw [h.ip, h.inum, hholds.contents] at hsize
  by_cases hacc : f.off.toNat ≤ s.sizeOf f.ip ∧ f.off.toNat + (callAt bytes i).n1 ≤ maxFile * bsize
  · obtain ⟨-, rfl, hstored⟩ := returns_elim (returns_of_agrees (Logged.transfer_agrees r f _)
      (transfer_stores h.ready hacc.1 hacc.2) fun _ => trivial) hrun
    obtain ⟨hready, hinum, hcont⟩ := hstored
    rw [h.ip] at hready hinum hcont
    have hstart : f₀.off.toNat ≤ s₀.sizeOf f₀.ip := by
      rcases h.start with rfl | hle
      · have hoff := hacc.1
        rw [h.off, Nat.add_zero, h.ip, ← hsize] at hoff
        simpa [sizeOf_contents] using hoff
      · exact hle
    have hnext : ∀ ws, Holds s₀ f₀ bytes ⟨ws, i + (callAt bytes i).n1, s'⟩ := by
      refine fun ws => ⟨hready.sound, hsb.trans hholds.sb, ?_, ?_, ?_, hn1.2⟩
      · rw [← h.inum, ← hinum]
        exact hready.type
      · have htake : (bytes.take i).length = i := List.length_take_of_le hi.le
        rw [h.inum, hholds.contents, h.off] at hcont
        conv at hcont => rhs; arg 2; rw [← htake]
        rw [hcont, splice_append (by rw [sizeOf_contents]; exact hstart), ← List.take_add]
      · rcases hholds.whole with hdvd | hend
        · by_cases hlast : i + (callAt bytes i).n1 = bytes.length
          · exact Or.inr hlast
          · have hfull : (callAt bytes i).n1 = maxChunk := by
              simp only [Filewrite.n1, callAt] at hlast ⊢
              omega
            rw [hfull]
            exact Or.inl (Nat.dvd_add hdvd (Nat.dvd_refl _))
        · exact absurd hend hi.ne
    rw [Int.toNat_natCast]
    refine ⟨hnext ws, fun _ => ⟨?_, h.ip, hinum.trans h.inum, ?_, Or.inr hstart, hnext⟩⟩
    · rw [h.ip]
      exact hready
    · have hlt := Nat.lt_of_le_of_lt hacc.2 (by decide : maxFile * bsize < 2 ^ 32)
      show (f.off + _).toNat = _
      rw [toNat_add_of_lt (by rwa [n1_toNat]), n1_toNat, h.off, Nat.add_assoc]
  · have href : s.sizeOf f.ip < f.off.toNat ∨
        maxFile * bsize < f.off.toNat + (callAt bytes i).n1 := by omega
    obtain ⟨rfl, hsound, hdinode, hdata⟩ := returns_elim (returns_of_agrees
      (Logged.transfer_agrees r f _) (transfer_kept h.ready href) fun _ => trivial) hrun
    refine ⟨⟨hsound, hsb.trans hholds.sb, ?_, ?_, hholds.whole, hholds.le⟩, fun hneg => by omega⟩
    · show (s'.dinode _).type = _
      rw [hdinode]
      exact hholds.type
    · show s'.contents _ = _
      rw [Fs.contents, hdinode, hdata]
      exact hholds.contents

end Head

/-! ## The operations as transactions -/

/-- The transaction of an operation: its header is what the calls of `log_write` make of an empty
    one, and the buffers hold the state. -/
structure Commits (r : Regions) (nlog : Nat) (t : Txn) (x : WriteOp) : Prop where
  header : x.blocks.foldlM (LogHeader.log nlog) .empty = some t.lh
  cache : OnDisk r t.cache x.fs

/-- The disk holds the state, in which some of `bytes` have been written. -/
def Means (r : Regions) (s₀ : Fs) (f₀ : File) (bytes : List UInt8) (d : Log.Disk) (x : WriteOp) :
    Prop := OnDisk r d x.fs ∧ Holds s₀ f₀ bytes x

section Commit

variable {r : Regions} {bytes : List UInt8} {s₀ s : Fs} {f₀ f : File} {i fuel start nlog : Nat}
  {t : Txn} {ts : List Txn} {x y : WriteOp}

theorem Commits.takes (hc : Commits r nlog t x) (ho : r.Ordered y.fs.sb (start + nlog))
    (hstart : 1 < start) (hnlog : 0 < nlog)
    (hcov : Covered r (start + nlog) y.fs x.blocks x.fs) (hx : Holds s₀ f₀ bytes x) :
    t.Takes (Means r s₀ f₀ bytes) start nlog y x := by
  obtain ⟨hmem, hlt⟩ := LogHeader.log_all hc.header hnlog
  have hblock : ∀ b, b ∈ t.lh.block ↔ b ∈ x.blocks := by
    intro b
    rw [hmem]
    simp [LogHeader.empty]
  refine ⟨⟨hlt, fun b hb hlog => ?_⟩, fun d d' hd hdone => ⟨?_, hx⟩⟩
  · have hpast := hcov.past b ((hblock b).1 hb)
    exact absurd hlog.2 (Nat.not_lt.2 hpast)
  · refine hcov.merge ho hd.1 hc.cache fun b hb => ?_
    have hout : ¬ Log.InLog start nlog b := by
      rintro ⟨hlo, hhi⟩
      omega
    rw [hdone b hout]
    simp only [hblock]

theorem filewriteOps_chain (ho : r.Ordered s₀.sb (start + nlog)) (hstart : 1 < start)
    (hnlog : 0 < nlog) (hi : s₀.inum f₀.ip < s₀.sb.ninodes.toNat) (hy : y.fs = s)
    (h : Head s₀ f₀ bytes i f s)
    (hts : List.Forall₂ (Commits r nlog) ts (filewriteOps r bytes fuel i f s)) :
    Log.Chain (Means r s₀ f₀ bytes) start nlog y (ts.zip (filewriteOps r bytes fuel i f s)) := by
  induction fuel generalizing i f s ts y with
  | zero =>
      rw [filewriteOps, List.zip_nil_right]
      trivial
  | succ fuel ih =>
      rw [filewriteOps] at hts ⊢
      by_cases hlt : i < bytes.length
      · rw [if_pos hlt] at hts ⊢
        rcases hrun : Logged.transfer r f (callAt bytes i) s with ⟨ws, e | ⟨n, s'⟩⟩
        · rw [List.zip_nil_right]
          trivial
        · rw [hrun] at hts
          dsimp only at hts ⊢
          obtain ⟨t, ts, hcommit, hrest, rfl⟩ := List.forall₂_cons_right_iff.1 hts
          have hsb : s.sb = s₀.sb := (h.holds []).sb
          have hinum : s.inum f.ip = s₀.inum f₀.ip := by rw [h.ip, h.inum]
          have hcov := returns_elim (transfer_records (hsb ▸ ho) h.ready (by rw [hinum, hsb]; exact hi)
            (callAt bytes i)) hrun
          obtain ⟨hholds, hnext⟩ := h.next hlt hcov.sb hrun
          subst hy
          refine ⟨hcommit.takes (hsb ▸ ho) hstart hnlog hcov hholds, ?_⟩
          by_cases hn : n = (callAt bytes i).n1
          · rw [if_pos hn] at hrest ⊢
            exact ih rfl (hnext hn) hrest
          · rw [if_neg hn]
            show Log.Chain _ start nlog _ (ts.zip [])
            rw [List.zip_nil_right]
            trivial
      · rw [if_neg hlt, List.zip_nil_right]
        trivial

/-- Later operations have written more. -/
theorem filewriteOps_sorted :
    (filewriteOps r bytes fuel i f s).Pairwise (fun x x' => x.i ≤ x'.i) ∧
      ∀ x ∈ filewriteOps r bytes fuel i f s, i ≤ x.i := by
  induction fuel generalizing i f s with
  | zero => simp [filewriteOps]
  | succ fuel ih =>
      rw [filewriteOps]
      by_cases hlt : i < bytes.length
      · rw [if_pos hlt]
        rcases Logged.transfer r f (callAt bytes i) s with ⟨ws, e | ⟨n, s'⟩⟩
        · simp
        · dsimp only
          split_ifs
          · obtain ⟨hsorted, hle⟩ := ih (i := i + n.toNat)
              (f := { f with off := f.off + UInt32.ofNat n.toNat }) (s := s')
            refine ⟨List.pairwise_cons.2 ⟨fun x hx => hle x hx, hsorted⟩, fun x hx => ?_⟩
            rcases List.mem_cons.1 hx with rfl | hx
            · exact Nat.le_add_right ..
            · exact (Nat.le_add_right ..).trans (hle x hx)
          · simp
      · simp [hlt]

theorem filewriteOps_mono {xs : List WriteOp} {j k : Nat} (hsorted : xs.Pairwise fun x x' => x.i ≤ x'.i)
    (hle : j ≤ k) (hx : xs[j]? = some x) (hy : xs[k]? = some y) : x.i ≤ y.i := by
  obtain ⟨hj, rfl⟩ := List.getElem?_eq_some_iff.1 hx
  obtain ⟨hk, rfl⟩ := List.getElem?_eq_some_iff.1 hy
  rcases hle.eq_or_lt with rfl | hlt
  · exact Nat.le_refl _
  · exact List.pairwise_iff_getElem.1 hsorted _ _ hj hk hlt

/-- The state after an operation of the chain. -/
theorem after_zip {xs : List WriteOp} {j : Nat} (hts : List.Forall₂ (Commits r nlog) ts xs)
    (hx : xs[j]? = some x) : Log.after y (ts.zip xs) (j + 1) = x := by
  induction hts generalizing j y with
  | nil => simp at hx
  | cons _ _ ih =>
      cases j with
      | zero =>
          obtain rfl := Option.some.inj hx
          exact Log.after_zero ..
      | succ j => exact ih (by simpa using hx)

/-- The home blocks of a disk decide what it means. -/
theorem Means.congr {d d' : Log.Disk} (ho : r.Ordered s₀.sb (start + nlog)) (hstart : 1 < start)
    (hsame : ∀ b, ¬ Log.InLog start nlog b → d' b = d b) (h : Means r s₀ f₀ bytes d x) :
    Means r s₀ f₀ bytes d' x := by
  refine ⟨(Covered.refl r (start + nlog) x.fs).merge (h.2.sb ▸ ho) h.1 h.1 fun b hb => ?_, h.2⟩
  have hout : ¬ Log.InLog start nlog b := by
    rintro ⟨hlo, hhi⟩
    omega
  rw [hsame b hout, ite_self]

/-- **A write and a crash.** Stop after any number `k` of the block writes that the commits of a call
    of `filewrite` make, reboot, crash in recovery as often as wanted, and recover: the log is empty,
    the disk holds a sound file system, and the file is the old one with the first `m` bytes spliced
    in, a whole number of chunks or all. The chunks whose commit was complete are among them. -/
theorem filewrite_crash_atomic {d : Log.Disk} (h : Ready s₀ f₀.ip)
    (hi : s₀.inum f₀.ip < s₀.sb.ninodes.toNat) (ho : r.Ordered s₀.sb (start + nlog))
    (hstart : 1 < start) (hnlog : 0 < nlog) (hd : OnDisk r d s₀) (hclear : d start 0 = 0)
    (hts : List.Forall₂ (Commits r nlog) ts (filewriteOps r bytes bytes.length 0 f₀ s₀)) (k : Nat)
    (ks : List Nat) :
    ∃ m d' s', m ≤ bytes.length ∧ (maxChunk ∣ m ∨ m = bytes.length) ∧
      Log.reboots start ks (Writes.applyWrites ((Log.writes start ts).take k) d) = some d' ∧
      LogHeader.get (d' start) = some .empty ∧ OnDisk r d' s' ∧ Sound s' ∧
      (inodeAt (img d') (s₀.inum f₀.ip)).contents (img d') =
        splice (s₀.contents (s₀.inum f₀.ip)) f₀.off.toNat (bytes.take m) ∧
      ∀ j x, (filewriteOps r bytes bytes.length 0 f₀ s₀)[j]? = some x →
        (Log.writes start (ts.take (j + 1))).length ≤ k → x.i ≤ m := by
  generalize hops : filewriteOps r bytes bytes.length 0 f₀ s₀ = ops at hts
  have hlen := hts.length_eq
  have hfst : (ts.zip ops).map Prod.fst = ts := List.map_fst_zip hlen.le
  have hhead := h.head bytes
  have hchain : Log.Chain (Means r s₀ f₀ bytes) start nlog ⟨[], 0, s₀⟩ (ts.zip ops) := by
    subst hops
    exact filewriteOps_chain ho hstart hnlog hi rfl hhead hts
  obtain ⟨j, d', hj, hd', hmeans, hempty, hcount⟩ := hchain.crash
    (fun _ _ _ hsame hm => hm.congr ho hstart hsame) ⟨hd, hhead.holds []⟩ hclear hnlog k ks
  rw [hfst] at hd' hcount
  have hzip : (ts.zip ops).length = ops.length := by rw [List.length_zip, hlen, Nat.min_self]
  rw [hzip] at hj hcount
  obtain ⟨hdisk, hholds⟩ := hmeans
  refine ⟨_, d', _, hholds.le, hholds.whole, hd', hempty, hdisk, hholds.sound, ?_, ?_⟩
  · rw [hdisk.contents hholds.sound (hholds.sb ▸ hi) (by rw [hholds.type]; decide)]
    exact hholds.contents
  · intro l x hx hle
    have hl : l < ops.length := (List.getElem?_eq_some_iff.1 hx).1
    have hlj := hcount (l + 1) hl hle
    obtain ⟨j, rfl⟩ := Nat.exists_eq_succ_of_ne_zero (Nat.ne_of_gt (Nat.lt_of_lt_of_le l.succ_pos hlj))
    have hjth := List.getElem?_eq_getElem (l := ops) hj
    rw [after_zip hts hjth]
    refine filewriteOps_mono ?_ (Nat.le_of_succ_le_succ hlj) hx hjth
    subst hops
    exact filewriteOps_sorted.1

/-- The disk can hold the state after each operation, if the log can. -/
theorem filewriteOps_cached {lo : Nat} {d : Log.Disk} (ho : r.Ordered s₀.sb lo)
    (hi : s₀.inum f₀.ip < s₀.sb.ninodes.toNat) (h : Head s₀ f₀ bytes i f s) (hd : OnDisk r d s)
    (hlog : ∀ x ∈ filewriteOps r bytes fuel i f s,
      ((x.blocks.foldlM (LogHeader.log nlog) .empty : Option LogHeader)).isSome) :
    ∃ ts, List.Forall₂ (Commits r nlog) ts (filewriteOps r bytes fuel i f s) := by
  induction fuel generalizing i f s d with
  | zero => exact ⟨[], List.Forall₂.nil⟩
  | succ fuel ih =>
      rw [filewriteOps] at hlog ⊢
      by_cases hlt : i < bytes.length
      · rw [if_pos hlt] at hlog ⊢
        rcases hrun : Logged.transfer r f (callAt bytes i) s with ⟨ws, e | ⟨n, s'⟩⟩
        · exact ⟨[], List.Forall₂.nil⟩
        · rw [hrun] at hlog
          dsimp only at hlog ⊢
          have hsb : s.sb = s₀.sb := (h.holds []).sb
          have hinum : s.inum f.ip = s₀.inum f₀.ip := by rw [h.ip, h.inum]
          have hcov := returns_elim (transfer_records (hsb ▸ ho) h.ready (by rw [hinum, hsb]; exact hi)
            (callAt bytes i)) hrun
          obtain ⟨d', hd', -⟩ := hcov.onDisk d hd
          obtain ⟨lh, hlh⟩ := Option.isSome_iff_exists.1 (hlog _ List.mem_cons_self)
          by_cases hn : n = (callAt bytes i).n1
          · rw [if_pos hn] at hlog ⊢
            obtain ⟨ts, hts⟩ := ih ((h.next hlt hcov.sb hrun).2 hn) hd' fun x hx =>
              hlog x (List.mem_cons_of_mem _ hx)
            exact ⟨⟨lh, d'⟩ :: ts, List.Forall₂.cons ⟨hlh, hd'⟩ hts⟩
          · rw [if_neg hn]
            exact ⟨[⟨lh, d'⟩], List.Forall₂.cons ⟨hlh, hd'⟩ List.Forall₂.nil⟩
      · rw [if_neg hlt]
        exact ⟨[], List.Forall₂.nil⟩

end Commit

/-- A buffer of 2000 bytes, which is written in two chunks. -/
def twoChunks : List UInt8 := List.replicate 1536 7 ++ List.replicate 464 8

/-- It is written to the empty file: after the crash nothing of it is there, or the first chunk, or
    all. -/
theorem filewrite_crash_atomic_roomyFile : ∃ ts, ∀ k ks, ∃ m d',
    (m = 0 ∨ m = 1536 ∨ m = 2000) ∧ ((Log.writes 2 (ts.take 1)).length ≤ k → 1536 ≤ m) ∧
    ((Log.writes 2 ts).length ≤ k → m = 2000) ∧
    Log.reboots 2 ks (Writes.applyWrites ((Log.writes 2 ts).take k) roomyDisk) = some d' ∧
    (inodeAt (img d') 1).contents (img d') = twoChunks.take m := by
  have hready : Ready roomyFile firstSlot := ⟨roomyFile_sound, by decide, rfl⟩
  have hlen : twoChunks.length = 2000 := by decide +kernel
  have hblocks : (filewriteOps roomyRegions twoChunks 2000 0 ⟨firstSlot, 0⟩ roomyFile).map
      (fun x => (x.blocks, x.i)) = [([34, 35, 35, 34, 36, 36, 34, 37, 37, 32], 1536),
        ([34, 38, 38, 32], 2000)] := by decide +kernel
  rw [← hlen] at hblocks
  obtain ⟨x, xs, hops, hx, hxs⟩ := List.map_eq_cons_iff.1 hblocks
  obtain ⟨y, rfl, hy⟩ := List.map_eq_singleton_iff.1 hxs
  obtain ⟨hxb, hxi⟩ := Prod.mk.inj hx
  obtain ⟨hyb, hyi⟩ := Prod.mk.inj hy
  obtain ⟨ts, hts⟩ : ∃ ts, List.Forall₂ (Commits roomyRegions 30) ts
      (filewriteOps roomyRegions twoChunks twoChunks.length 0 ⟨firstSlot, 0⟩ roomyFile) := by
    have hhead : Head roomyFile ⟨firstSlot, 0⟩ twoChunks 0 ⟨firstSlot, 0⟩ roomyFile := hready.head _
    refine filewriteOps_cached roomyRegions_ordered (by decide) hhead roomyDisk_onDisk fun z hz => ?_
    rw [hops] at hz
    rcases List.mem_cons.1 hz with rfl | hz
    · rw [hxb]
      decide
    · rw [List.mem_singleton.1 hz, hyb]
      decide
  refine ⟨ts, fun k ks => ?_⟩
  have hordered : roomyRegions.Ordered roomyFile.sb (2 + 30) := roomyRegions_ordered
  have hclear : roomyDisk 2 0 = 0 := by decide +kernel
  obtain ⟨m, d', -, hle, hwhole, hd', -, -, -, hcont, hcount⟩ := filewrite_crash_atomic hready
    (by decide) hordered (by decide) (by decide) roomyDisk_onDisk hclear hts k ks
  rw [hlen] at hle hwhole
  refine ⟨m, d', ?_, fun hk => ?_, fun hk => ?_, hd', hcont.trans ?_⟩
  · rcases hwhole with ⟨q, rfl⟩ | hall
    · unfold maxChunk at *
      omega
    · exact Or.inr (Or.inr hall)
  · have hx0 := hcount 0 x (by rw [hops]; rfl) hk
    rwa [hxi] at hx0
  · have htwo : ts.length = 2 := by rw [hts.length_eq, hops]; rfl
    have hy1 := hcount 1 y (by rw [hops]; rfl) (by rw [List.take_of_length_le htwo.le]; exact hk)
    rw [hyi, hlen] at hy1
    exact Nat.le_antisymm hle hy1
  · have hempty : roomyFile.contents 1 = [] := rfl
    show splice (roomyFile.contents 1) 0 _ = _
    rw [hempty]
    simp [splice]

end Cs350.Block
