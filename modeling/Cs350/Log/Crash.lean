import Cs350.Log.Defs

set_option autoImplicit false

/-! # Crash atomicity of the redo log

The meaning of a disk is what a complete recovery would make of it: `contents` applies the
transaction named by the header to the home blocks. A crash point matters only through its effect
on `contents`, and there is exactly one block write that has one, the first header write of
`commit`:

* the copies made by `write_log` go to the log area while the header names no transaction;
* the copies made by `install_trans` repeat, in part, what `contents` does anyway;
* clearing the header happens when all of them are made.

The last two are also what a recovery does, so a recovery never changes `contents`, wherever it is
cut short. -/

namespace Cs350.Log

open Cs350.Writes

/-! ## Headers -/

theorem LogHeader.get_put (lh : LogHeader) (hb : Block) : LogHeader.get (lh.put hb) = some lh := by
  have h0 : lh.put hb 0 = lh.n := if_pos rfl
  have hle : lh.put hb 0 ≤ logSize := by
    rw [h0]
    exact_mod_cast lh.length_le
  rw [LogHeader.get, dif_pos hle]
  congr 1
  ext1
  apply List.ext_getElem
  · rw [List.length_map, List.length_range, h0, Int.toNat_natCast]
    rfl
  · intro i hi hi'
    have hlt : i + 1 < 128 := by
      have := lh.length_le
      rw [logSize, maxOpBlocks] at this
      omega
    have hval : (Fin.ofNat 128 (i + 1)).val = i + 1 := Nat.mod_eq_of_lt hlt
    have hne : Fin.ofNat 128 (i + 1) ≠ 0 := by
      intro heq
      have := congrArg Fin.val heq
      rw [hval] at this
      simp at this
    rw [List.getElem_map, List.getElem_range, LogHeader.put, if_neg hne, hval, Nat.add_sub_cancel,
      List.getElem?_eq_getElem hi']
    simp

theorem LogHeader.get_of_zero {hb : Block} (h : hb 0 = 0) : LogHeader.get hb = some .empty := by
  rw [LogHeader.get, dif_pos (by rw [h]; omega)]
  simp [h, LogHeader.empty]

/-! ## What the loops write -/

/-- Make a list of writes through the cache. -/
def Io.run (io : Io) (ws : List (Nat × Block)) : Io :=
  { bread := applyWrites ws io.bread, writes := io.writes ++ ws }

theorem Io.bwrite_eq_run (io : Io) (b : Nat) (data : Block) :
    io.bwrite b data = io.run [(b, data)] := rfl

theorem Io.run_run (io : Io) (ws ws' : List (Nat × Block)) :
    (io.run ws).run ws' = io.run (ws ++ ws') := by
  simp only [Io.run, applyWrites_append, List.append_assoc]

/-- A loop that copies blocks, none of which it reads after writing it, writes what the cache held
    at its start. -/
theorem foldl_bwrite {γ : Type} (dst src : γ → Nat) (ps : List γ) (io : Io)
    (h : ∀ p ∈ ps, ∀ q ∈ ps, src p ≠ dst q) :
    ps.foldl (fun io p => io.bwrite (dst p) (io.bread (src p))) io
      = io.run (ps.map fun p => (dst p, io.bread (src p))) := by
  induction ps generalizing io with
  | nil => simp [Io.run]
  | cons p ps ih =>
      rw [List.foldl_cons, ih _ (fun q hq r hr =>
        h q (List.mem_cons_of_mem _ hq) r (List.mem_cons_of_mem _ hr))]
      have hsame : ∀ q ∈ ps, (io.bwrite (dst p) (io.bread (src p))).bread (src q)
          = io.bread (src q) := by
        intro q hq
        exact Function.update_of_ne (h q (List.mem_cons_of_mem _ hq) p List.mem_cons_self) _ _
      rw [List.map_congr_left (fun q hq => by rw [hsame q hq]), Io.bwrite_eq_run, Io.run_run]
      rfl

/-- The block lies in the log area of `nlog` blocks that begins with the header. -/
def InLog (start nlog b : Nat) : Prop := start ≤ b ∧ b < start + nlog

/-- The header names blocks outside the log area, and there is a log block for each. -/
structure LogHeader.Fits (lh : LogHeader) (start nlog : Nat) : Prop where
  lt : lh.n < nlog
  home : ∀ b ∈ lh.block, ¬ InLog start nlog b

theorem LogHeader.fits_empty {start nlog : Nat} (h : 0 < nlog) :
    LogHeader.empty.Fits start nlog :=
  ⟨h, by simp [LogHeader.empty]⟩

section Loops

variable {start nlog : Nat} {lh : LogHeader}

/-- The writes of `write_log`, of the contents `v`. -/
def logWrites (start : Nat) (lh : LogHeader) (v : Nat → Block) : List (Nat × Block) :=
  lh.block.zipIdx.map fun p => (start + p.2 + 1, v p.1)

/-- The writes of `install_trans`, from the log blocks of `d`. -/
def redoWrites (start : Nat) (lh : LogHeader) (d : Disk) : List (Nat × Block) :=
  lh.block.zipIdx.map fun p => (p.1, d (start + p.2 + 1))

theorem LogHeader.Fits.inLog_slot (hfits : lh.Fits start nlog) {p : Nat × Nat}
    (hp : p ∈ lh.block.zipIdx) : InLog start nlog (start + p.2 + 1) := by
  have hidx : p.2 < lh.n := List.snd_lt_of_mem_zipIdx hp
  have := hfits.lt
  constructor <;> omega

theorem LogHeader.Fits.not_inLog_home (hfits : lh.Fits start nlog) {p : Nat × Nat}
    (hp : p ∈ lh.block.zipIdx) : ¬ InLog start nlog p.1 :=
  hfits.home p.1 (List.fst_mem_of_mem_zipIdx hp)

theorem writeLog_eq (hfits : lh.Fits start nlog) (io : Io) :
    writeLog start lh io = io.run (logWrites start lh io.bread) := by
  apply foldl_bwrite (fun p : Nat × Nat => start + p.2 + 1) (fun p : Nat × Nat => p.1)
  intro p hp q hq heq
  apply hfits.not_inLog_home hp
  rw [heq]
  exact hfits.inLog_slot hq

theorem installTrans_eq (hfits : lh.Fits start nlog) (io : Io) :
    installTrans start lh io = io.run (redoWrites start lh io.bread) := by
  apply foldl_bwrite (fun p : Nat × Nat => p.1) (fun p : Nat × Nat => start + p.2 + 1)
  intro p hp q hq heq
  apply hfits.not_inLog_home hq
  rw [← heq]
  exact hfits.inLog_slot hp

/-- The copies of `write_log` go to log blocks after the header. -/
theorem logWrites_slot (hfits : lh.Fits start nlog) {v : Nat → Block} {w : Nat × Block}
    (hw : w ∈ logWrites start lh v) : InLog start nlog w.1 ∧ w.1 ≠ start := by
  obtain ⟨p, hp, rfl⟩ := List.mem_map.1 hw
  refine ⟨hfits.inLog_slot hp, ?_⟩
  show start + p.2 + 1 ≠ start
  omega

theorem redoWrites_home (hfits : lh.Fits start nlog) {d : Disk} {w : Nat × Block}
    (hw : w ∈ redoWrites start lh d) : ¬ InLog start nlog w.1 := by
  obtain ⟨p, hp, rfl⟩ := List.mem_map.1 hw
  exact hfits.not_inLog_home hp

theorem redoWrites_congr {d d' : Disk}
    (h : ∀ p ∈ lh.block.zipIdx, d (start + p.2 + 1) = d' (start + p.2 + 1)) :
    redoWrites start lh d = redoWrites start lh d' := by
  apply List.map_congr_left
  intro p hp
  rw [h p hp]

end Loops

/-! ## The meaning of a disk -/

section Recovery

variable {start nlog : Nat} {d : Disk} {lh : LogHeader}

/-- The disk with the transaction named by its header applied. -/
def contents (start : Nat) (d : Disk) : Disk :=
  match LogHeader.get (d start) with
  | some lh => applyWrites (redoWrites start lh d) d
  | none => d

/-- The header of the disk names a transaction that `recover_from_log` can install. -/
def Sound (start nlog : Nat) (d : Disk) : Prop :=
  ∃ lh, LogHeader.get (d start) = some lh ∧ lh.Fits start nlog

theorem contents_eq (hget : LogHeader.get (d start) = some lh) :
    contents start d = applyWrites (redoWrites start lh d) d := by
  rw [contents, hget]

theorem contents_eq_self (hget : LogHeader.get (d start) = some .empty) : contents start d = d := by
  rw [contents_eq hget]
  rfl

theorem LogHeader.Fits.inLog_start (hfits : lh.Fits start nlog) : InLog start nlog start := by
  have := hfits.lt
  constructor <;> omega

/-- The writes of a recovery: the redo writes, then the cleared header. -/
def recoveryWrites (start : Nat) (lh : LogHeader) (d : Disk) : List (Nat × Block) :=
  redoWrites start lh d ++ [(start, LogHeader.empty.put (d start))]

/-- Installing a transaction and clearing the header, as `commit` and `recover_from_log` do. -/
theorem install_clear_eq (hfits : lh.Fits start nlog) (io : Io) :
    writeHead start .empty (installTrans start lh io)
      = io.run (recoveryWrites start lh io.bread) := by
  have hstart : applyWrites (redoWrites start lh io.bread) io.bread start = io.bread start := by
    apply applyWrites_apply_of_notMem
    intro w hw heq
    apply redoWrites_home hfits hw
    rw [heq]
    exact hfits.inLog_start
  rw [installTrans_eq hfits, writeHead, Io.bwrite_eq_run, Io.run_run]
  simp only [Io.run, hstart, recoveryWrites]

theorem recoverFromLog_eq (hget : LogHeader.get (d start) = some lh)
    (hfits : lh.Fits start nlog) :
    recoverFromLog start (Io.boot d) = some ((Io.boot d).run (recoveryWrites start lh d)) := by
  have hread : readHead start (Io.boot d) = some lh := hget
  rw [recoverFromLog, hread, Option.map_some, install_clear_eq hfits]
  rfl

/-- Some of the redo writes leave the header and the log blocks as they are, and redoing them all
    afterwards gives the same. -/
theorem contents_of_redo_prefix (hget : LogHeader.get (d start) = some lh)
    (hfits : lh.Fits start nlog) (k : Nat) :
    LogHeader.get (applyWrites ((redoWrites start lh d).take k) d start) = some lh ∧
      contents start (applyWrites ((redoWrites start lh d).take k) d) = contents start d := by
  have hlog : ∀ b, InLog start nlog b →
      applyWrites ((redoWrites start lh d).take k) d b = d b := by
    intro b hb
    apply applyWrites_apply_of_notMem
    intro w hw heq
    apply redoWrites_home hfits (List.mem_of_mem_take hw)
    rw [heq]
    exact hb
  have hget' : LogHeader.get (applyWrites ((redoWrites start lh d).take k) d start) = some lh := by
    rw [hlog start hfits.inLog_start]
    exact hget
  refine ⟨hget', ?_⟩
  rw [contents_eq hget', contents_eq hget, redoWrites_congr (fun p hp => hlog _ (hfits.inLog_slot hp))]
  exact applyWrites_take _ k d

/-- All writes of a recovery make the disk what it meant, and clear the header. -/
theorem recoveryWrites_all (hget : LogHeader.get (d start) = some lh)
    (hfits : lh.Fits start nlog) :
    LogHeader.get (applyWrites (recoveryWrites start lh d) d start) = some .empty ∧
      ∀ b, ¬ InLog start nlog b →
        applyWrites (recoveryWrites start lh d) d b = contents start d b := by
  rw [recoveryWrites, applyWrites_append]
  constructor
  · rw [applyWrites_cons, applyWrites_nil, Function.update_self]
    exact LogHeader.get_put _ _
  · intro b hb
    have hne : b ≠ start := by
      rintro rfl
      exact hb hfits.inLog_start
    rw [applyWrites_cons, applyWrites_nil, Function.update_of_ne hne, contents_eq hget]

/-- No part of a recovery changes what the disk means. -/
theorem contents_of_recovery_prefix (hget : LogHeader.get (d start) = some lh)
    (hfits : lh.Fits start nlog) (k : Nat) :
    Sound start nlog (applyWrites ((recoveryWrites start lh d).take k) d) ∧
      ∀ b, ¬ InLog start nlog b →
        contents start (applyWrites ((recoveryWrites start lh d).take k) d) b
          = contents start d b := by
  by_cases hk : k ≤ (redoWrites start lh d).length
  · obtain ⟨hget', hsame⟩ := contents_of_redo_prefix hget hfits k
    rw [recoveryWrites, List.take_append_of_le_length hk]
    exact ⟨⟨lh, hget', hfits⟩, fun b _ => by rw [hsame]⟩
  · have hlen : (recoveryWrites start lh d).length ≤ k := by
      rw [recoveryWrites, List.length_append, List.length_singleton]
      omega
    obtain ⟨hget', hsame⟩ := recoveryWrites_all hget hfits
    rw [List.take_of_length_le hlen]
    have hpos : 0 < nlog := Nat.zero_lt_of_lt hfits.lt
    refine ⟨⟨.empty, hget', LogHeader.fits_empty hpos⟩, fun b hb => ?_⟩
    rw [contents_eq_self hget', hsame b hb]

theorem crashedRecovery_spec (hsound : Sound start nlog d) (k : Nat) :
    ∃ d', crashedRecovery start d k = some d' ∧ Sound start nlog d' ∧
      ∀ b, ¬ InLog start nlog b → contents start d' b = contents start d b := by
  obtain ⟨lh, hget, hfits⟩ := hsound
  refine ⟨applyWrites ((recoveryWrites start lh d).take k) d, ?_,
    contents_of_recovery_prefix hget hfits k⟩
  rw [crashedRecovery, recoverFromLog_eq hget hfits]
  simp [Io.crashAt, Io.run, Io.boot]

theorem completeRecovery_spec (hsound : Sound start nlog d) :
    ∃ d', completeRecovery start d = some d' ∧ LogHeader.get (d' start) = some .empty ∧
      ∀ b, ¬ InLog start nlog b → d' b = contents start d b := by
  obtain ⟨lh, hget, hfits⟩ := hsound
  refine ⟨applyWrites (recoveryWrites start lh d) d, ?_, recoveryWrites_all hget hfits⟩
  rw [completeRecovery, recoverFromLog_eq hget hfits]
  simp [Io.run, Io.boot]

/-- However often recovery is interrupted, in the end the disk holds what it meant. -/
theorem reboots_spec (ks : List Nat) (hsound : Sound start nlog d) :
    ∃ d', reboots start ks d = some d' ∧ LogHeader.get (d' start) = some .empty ∧
      ∀ b, ¬ InLog start nlog b → d' b = contents start d b := by
  induction ks generalizing d with
  | nil => exact completeRecovery_spec hsound
  | cons k ks ih =>
      obtain ⟨d₁, hd₁, hsound₁, hsame⟩ := crashedRecovery_spec hsound k
      obtain ⟨d', hd', hclear, hfinal⟩ := ih hsound₁
      refine ⟨d', ?_, hclear, fun b hb => by rw [hfinal b hb, hsame b hb]⟩
      rw [reboots, List.foldlM_cons, hd₁]
      exact hd'

end Recovery

/-! ## Commit -/

section Commit

variable {start nlog : Nat} {d : Disk} {lh : LogHeader}

/-- The writes of `commit` up to the first header write. -/
def commitWrites (start : Nat) (lh : LogHeader) (v : Nat → Block) : List (Nat × Block) :=
  logWrites start lh v ++ [(start, lh.put (v start))]

/-- Afterwards each log block holds the cached contents of the block it stands for, and the header
    names them, whatever was on the disk. -/
theorem commitWrites_slot (v : Nat → Block) (d : Disk) {p : Nat × Nat}
    (hp : p ∈ lh.block.zipIdx) :
    applyWrites (commitWrites start lh v) d (start + p.2 + 1) = v p.1 := by
  have hne : start + p.2 + 1 ≠ start := by omega
  rw [commitWrites, applyWrites_append, applyWrites_cons, applyWrites_nil,
    Function.update_of_ne hne]
  apply applyWrites_apply_of_mem
  · exact ⟨_, List.mem_map_of_mem hp, rfl⟩
  · intro w hw heq
    obtain ⟨q, hq, rfl⟩ := List.mem_map.1 hw
    have hidx : q.2 = p.2 := by
      have : start + q.2 + 1 = start + p.2 + 1 := heq
      omega
    -- an index of the header has one entry
    rw [List.mem_zipIdx_iff_getElem?] at hp hq
    rw [hidx, hp] at hq
    rw [Option.some.inj hq]

theorem commitWrites_start (start : Nat) (lh : LogHeader) (v : Nat → Block) (d : Disk) :
    applyWrites (commitWrites start lh v) d start = lh.put (v start) := by
  rw [commitWrites, applyWrites_append, applyWrites_cons, applyWrites_nil, Function.update_self]

theorem commitWrites_other (hfits : lh.Fits start nlog) (v : Nat → Block) (d : Disk) {b : Nat}
    (hb : ¬ InLog start nlog b) : applyWrites (commitWrites start lh v) d b = d b := by
  apply applyWrites_apply_of_notMem
  intro w hw heq
  apply hb
  rw [← heq]
  rcases List.mem_append.1 hw with hw | hw
  · exact (logWrites_slot hfits hw).1
  · rw [List.mem_singleton.1 hw]
    exact hfits.inLog_start

/-- `commit` writes the log and the header, and then does what a recovery from there would do. -/
theorem commit_writes (hfits : lh.Fits start nlog) (hpos : 0 < lh.n) (v : Nat → Block)
    (d : Disk) :
    (commit start lh ⟨v, []⟩).writes = commitWrites start lh v ++
      recoveryWrites start lh (applyWrites (commitWrites start lh v) d) := by
  have hhead : writeHead start lh (writeLog start lh ⟨v, []⟩)
      = Io.run ⟨v, []⟩ (commitWrites start lh v) := by
    have hstart : applyWrites (logWrites start lh v) v start = v start :=
      applyWrites_apply_of_notMem _ (fun w hw => (logWrites_slot hfits hw).2)
    rw [writeLog_eq hfits, writeHead, Io.bwrite_eq_run, Io.run_run]
    simp only [Io.run, hstart, commitWrites]
  have hcongr : recoveryWrites start lh (applyWrites (commitWrites start lh v) v)
      = recoveryWrites start lh (applyWrites (commitWrites start lh v) d) := by
    have hslots : ∀ p ∈ lh.block.zipIdx,
        applyWrites (commitWrites start lh v) v (start + p.2 + 1)
          = applyWrites (commitWrites start lh v) d (start + p.2 + 1) := by
      intro p hp
      rw [commitWrites_slot v v hp, commitWrites_slot v d hp]
    rw [recoveryWrites, recoveryWrites, redoWrites_congr hslots, commitWrites_start,
      commitWrites_start]
  rw [commit, if_pos hpos, hhead, install_clear_eq hfits, Io.run_run]
  simp only [Io.run, List.nil_append, hcongr]

/-- Once the first header write is made, the disk means the new contents. -/
theorem contents_of_commitWrites (hfits : lh.Fits start nlog) (v : Nat → Block) {b : Nat}
    (hb : ¬ InLog start nlog b) :
    contents start (applyWrites (commitWrites start lh v) d) b
      = if b ∈ lh.block then v b else d b := by
  have hget : LogHeader.get (applyWrites (commitWrites start lh v) d start) = some lh := by
    rw [commitWrites_start, LogHeader.get_put]
  rw [contents_eq hget]
  split_ifs with hmem
  · apply applyWrites_apply_of_mem
    · obtain ⟨i, hi⟩ := List.mem_iff_getElem?.1 hmem
      have hp : (b, i) ∈ lh.block.zipIdx := List.mem_zipIdx_iff_getElem?.2 hi
      exact ⟨_, List.mem_map_of_mem hp, rfl⟩
    · intro w hw heq
      obtain ⟨p, hp, rfl⟩ := List.mem_map.1 hw
      have heq : p.1 = b := heq
      rw [← heq]
      exact commitWrites_slot v d hp
  · rw [applyWrites_apply_of_notMem, commitWrites_other hfits v d hb]
    intro w hw heq
    obtain ⟨p, hp, rfl⟩ := List.mem_map.1 hw
    apply hmem
    rw [← heq]
    exact List.fst_mem_of_mem_zipIdx hp

/-- What the disk means after a crash in `commit`, by whether a header write was made. -/
theorem commit_crashAt (hclear : d start 0 = 0) (hfits : lh.Fits start nlog) (v : Nat → Block)
    (k : Nat) :
    Sound start nlog ((commit start lh ⟨v, []⟩).crashAt k d) ∧
      ∀ b, ¬ InLog start nlog b →
        contents start ((commit start lh ⟨v, []⟩).crashAt k d) b
          = if start ∈ ((commit start lh ⟨v, []⟩).writes.take k).map Prod.fst ∧ b ∈ lh.block
            then v b else d b := by
  have hget : LogHeader.get (d start) = some .empty := LogHeader.get_of_zero hclear
  have hempty : LogHeader.empty.Fits start nlog :=
    LogHeader.fits_empty (Nat.zero_lt_of_lt hfits.lt)
  by_cases hpos : 0 < lh.n
  · have hwrites := commit_writes hfits hpos v d
    rw [Io.crashAt]
    by_cases hk : k ≤ (logWrites start lh v).length
    · -- the crash comes before the header write: only log blocks have changed
      have htake : (commit start lh ⟨v, []⟩).writes.take k = (logWrites start lh v).take k := by
        rw [hwrites, commitWrites, List.append_assoc, List.take_append_of_le_length hk]
      have hnot : start ∉ ((logWrites start lh v).take k).map Prod.fst := by
        intro hmem
        obtain ⟨w, hw, heq⟩ := List.mem_map.1 hmem
        exact (logWrites_slot hfits (List.mem_of_mem_take hw)).2 heq
      rw [htake]
      have hstart : applyWrites ((logWrites start lh v).take k) d start = d start :=
        applyWrites_apply_of_notMem _
          (fun w hw => (logWrites_slot hfits (List.mem_of_mem_take hw)).2)
      have hget' : LogHeader.get (applyWrites ((logWrites start lh v).take k) d start)
          = some .empty := by
        rw [hstart, hget]
      refine ⟨⟨.empty, hget', hempty⟩, fun b hb => ?_⟩
      rw [contents_eq_self hget', if_neg (fun h => hnot h.1)]
      apply applyWrites_apply_of_notMem
      intro w hw heq
      apply hb
      rw [← heq]
      exact (logWrites_slot hfits (List.mem_of_mem_take hw)).1
    · -- it comes after: the rest of `commit` is part of a recovery
      have hlen : (commitWrites start lh v).length ≤ k := by
        rw [commitWrites, List.length_append, List.length_singleton]
        omega
      have hmem : start ∈ ((commit start lh ⟨v, []⟩).writes.take k).map Prod.fst := by
        rw [hwrites, List.take_append, List.take_of_length_le hlen, List.map_append]
        apply List.mem_append_left
        rw [commitWrites, List.map_append]
        exact List.mem_append_right _ (List.mem_singleton.2 rfl)
      have hget' : LogHeader.get (applyWrites (commitWrites start lh v) d start) = some lh := by
        rw [commitWrites_start, LogHeader.get_put]
      simp only [hmem, true_and]
      rw [hwrites, List.take_append, List.take_of_length_le hlen, applyWrites_append]
      obtain ⟨hsound, hsame⟩ := contents_of_recovery_prefix hget' hfits
        (k - (commitWrites start lh v).length)
      exact ⟨hsound, fun b hb => by rw [hsame b hb, contents_of_commitWrites hfits v hb]⟩
  · have hnil : (commit start lh ⟨v, []⟩).writes = [] := by
      rw [commit, if_neg hpos]
    rw [Io.crashAt, hnil, List.take_nil, applyWrites_nil]
    exact ⟨⟨.empty, hget, hempty⟩, fun b _ => by rw [contents_eq_self hget]; simp⟩

/-- **Crash atomicity.** The log header on the disk has `n = 0`, and `commit` starts with the home
    blocks named by `lh` cached with contents `v`. Cut its block writes short after any number `k`,
    reboot, crash during recovery as often as wanted (after `ks` block writes), and recover. If the
    first header write was among the `k`, every home block now has its new contents; otherwise
    every home block has its old contents. Nothing else outside the log changes, and the log is
    clear again. That the home blocks are distinct is not needed. -/
theorem commit_crash_atomic (hclear : d start 0 = 0) (hfits : lh.Fits start nlog)
    (v : Nat → Block) (k : Nat) (ks : List Nat) :
    ∃ d', reboots start ks ((commit start lh ⟨v, []⟩).crashAt k d) = some d' ∧
      (if start ∈ ((commit start lh ⟨v, []⟩).writes.take k).map Prod.fst then
        ∀ b ∈ lh.block, d' b = v b
      else
        ∀ b ∈ lh.block, d' b = d b) ∧
      (∀ b, b ∉ lh.block → ¬ InLog start nlog b → d' b = d b) ∧
      LogHeader.get (d' start) = some .empty := by
  obtain ⟨hsound, hcontents⟩ := commit_crashAt hclear hfits v k
  obtain ⟨d', hd', hempty, hfinal⟩ := reboots_spec ks hsound
  refine ⟨d', hd', ?_, ?_, hempty⟩
  · split_ifs with hreached
    · intro b hb
      rw [hfinal b (hfits.home b hb), hcontents b (hfits.home b hb), if_pos ⟨hreached, hb⟩]
    · intro b hb
      rw [hfinal b (hfits.home b hb), hcontents b (hfits.home b hb),
        if_neg (fun h => hreached h.1)]
  · intro b hb hout
    rw [hfinal b hout, hcontents b hout, if_neg (fun h => hb h.2)]

/-- Two blocks, a crash after one of the two installs, and two more crashes during recovery. -/
theorem commit_crash_atomic_two_blocks :
    ∃ d', reboots 2 [1, 0] ((commit 2 ⟨[40, 50], by decide⟩ ⟨fun b _ => b, []⟩).crashAt 4
      (fun _ _ => 0)) = some d' ∧ d' 40 = (fun _ => 40) ∧ d' 50 = (fun _ => 50) := by
  have hreached : 2 ∈ ((commit 2 ⟨[40, 50], by decide⟩ ⟨fun b _ => b, []⟩).writes.take 4).map
      Prod.fst := by decide
  have hfits : LogHeader.Fits ⟨[40, 50], by decide⟩ 2 30 := by
    constructor
    · decide
    · intro b hb
      unfold InLog
      simp only [List.mem_cons, List.not_mem_nil, or_false] at hb
      omega
  obtain ⟨d', hd', hnew, -, -⟩ := commit_crash_atomic (d := fun _ _ => 0) rfl hfits
    (fun b _ => b) 4 [1, 0]
  rw [if_pos hreached] at hnew
  exact ⟨d', hd', hnew 40 (by simp), hnew 50 (by simp)⟩

end Commit

end Cs350.Log
