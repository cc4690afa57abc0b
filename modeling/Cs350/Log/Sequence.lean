import Cs350.Log.Crash
import Cs350.Log.Protocol

set_option autoImplicit false

/-! # Crashes in a sequence of transactions

A machine commits one transaction after another and stops at some block write. What a recovery makes
of the disk is the state after a whole number of the transactions, and every transaction whose
`commit` has returned is among them. `P` says what a disk means to the layer above, which sees the
blocks outside the log only. -/

namespace Cs350.Log

open Cs350.Writes

/-- A transaction: the blocks that are logged, and the cache when `commit` runs. -/
structure Txn where
  lh : LogHeader
  cache : Nat → Block

/-- The block writes of its `commit`. -/
def Txn.writes (start : Nat) (t : Txn) : List (Nat × Block) :=
  (commit start t.lh ⟨t.cache, []⟩).writes

def writes (start : Nat) (ts : List Txn) : List (Nat × Block) :=
  ts.flatMap (Txn.writes start)

/-- The home blocks after the transaction. -/
def Txn.Done (t : Txn) (start nlog : Nat) (d d' : Disk) : Prop :=
  ∀ b, ¬ InLog start nlog b → d' b = if b ∈ t.lh.block then t.cache b else d b

section Commit

variable {start nlog : Nat} {d : Disk} {t : Txn}

/-- A `commit` that is not cut short. -/
theorem Txn.complete (hclear : d start 0 = 0) (hfits : t.lh.Fits start nlog) :
    applyWrites (t.writes start) d start 0 = 0 ∧
      t.Done start nlog d (applyWrites (t.writes start) d) := by
  by_cases hpos : 0 < t.lh.n
  · have hget : LogHeader.get (applyWrites (commitWrites start t.lh t.cache) d start) = some t.lh := by
      rw [commitWrites_start, LogHeader.get_put]
    rw [Txn.writes, commit_writes hfits hpos t.cache d, applyWrites_append]
    refine ⟨?_, fun b hb => ?_⟩
    · rw [recoveryWrites, applyWrites_append, applyWrites_cons, applyWrites_nil,
        Function.update_self]
      rfl
    · rw [(recoveryWrites_all hget hfits).2 b hb, contents_of_commitWrites hfits t.cache hb]
  · have hnil : t.lh.block = [] := List.length_eq_zero_iff.1 (Nat.eq_zero_of_not_pos hpos)
    have hwrites : t.writes start = [] := by
      rw [Txn.writes, commit, if_neg hpos]
    rw [hwrites, applyWrites_nil]
    exact ⟨hclear, fun b _ => by simp [hnil]⟩

/-- A `commit` that is cut short, and what recovery makes of it. -/
theorem Txn.crash (hclear : d start 0 = 0) (hfits : t.lh.Fits start nlog) (k : Nat)
    (ks : List Nat) :
    ∃ d', reboots start ks (applyWrites ((t.writes start).take k) d) = some d' ∧
      LogHeader.get (d' start) = some .empty ∧
      ((∀ b, ¬ InLog start nlog b → d' b = d b) ∨ t.Done start nlog d d') := by
  obtain ⟨hsound, hcontents⟩ := commit_crashAt hclear hfits t.cache k
  obtain ⟨d', hd', hempty, hfinal⟩ := reboots_spec ks hsound
  refine ⟨d', hd', hempty, ?_⟩
  by_cases hreached : start ∈ ((commit start t.lh ⟨t.cache, []⟩).writes.take k).map Prod.fst
  · exact .inr fun b hb => by rw [hfinal b hb, hcontents b hb]; simp only [hreached, true_and]
  · exact .inl fun b hb => by rw [hfinal b hb, hcontents b hb, if_neg fun h => hreached h.1]

end Commit

/-! ## The header of a transaction -/

/-- A call of `log_write`, for a log of `size` blocks. -/
def LogHeader.log (size : Nat) (lh : LogHeader) (b : Nat) : Option LogHeader :=
  if lh.n ≥ logSize ∨ (lh.n : Int) ≥ (size : Int) - 1 then
    -- `panic("too big a transaction")`
    none
  else
    lh.absorb b

section Header

variable {size : Nat} {lh lh' : LogHeader} {b : Nat}

theorem LogHeader.log_spec (hlog : lh.log size b = some lh') :
    (∀ c, c ∈ lh'.block ↔ c ∈ lh.block ∨ c = b) ∧ lh'.n < size := by
  unfold LogHeader.log LogHeader.absorb at hlog
  split_ifs at hlog with hfull hmem hlt
  · obtain rfl := Option.some.inj hlog
    refine ⟨fun c => ⟨Or.inl, ?_⟩, by omega⟩
    rintro (hc | rfl)
    · exact hc
    · exact hmem
  · obtain rfl := Option.some.inj hlog
    refine ⟨by simp, ?_⟩
    rw [LogHeader.n, List.length_append, List.length_singleton]
    unfold LogHeader.n at hfull
    omega

/-- The header after the calls of `log_write` of an operation. -/
theorem LogHeader.log_all {bs : List Nat} (hlog : bs.foldlM (LogHeader.log size) lh = some lh')
    (hlt : lh.n < size) : (∀ c, c ∈ lh'.block ↔ c ∈ lh.block ∨ c ∈ bs) ∧ lh'.n < size := by
  induction bs generalizing lh with
  | nil =>
      obtain rfl := Option.some.inj hlog
      exact ⟨by simp, hlt⟩
  | cons b bs ih =>
      rw [List.foldlM_cons] at hlog
      obtain ⟨lh₁, hfirst, hrest⟩ := Option.bind_eq_some_iff.1 hlog
      obtain ⟨hmem₁, hlt₁⟩ := LogHeader.log_spec hfirst
      obtain ⟨hmem, hlt'⟩ := ih hrest hlt₁
      refine ⟨fun c => ?_, hlt'⟩
      rw [hmem, hmem₁, List.mem_cons, or_assoc]

end Header

/-! ## Sequences -/

section Sequence

variable {S : Type*} {P : Disk → S → Prop} {start nlog : Nat}

/-- The transaction takes a disk that means `s` to one that means `s'`. -/
structure Txn.Takes (P : Disk → S → Prop) (start nlog : Nat) (t : Txn) (s s' : S) : Prop where
  fits : t.lh.Fits start nlog
  done : ∀ d d', P d s → t.Done start nlog d d' → P d' s'

/-- Transactions one after another, each with the state it leads to. -/
def Chain (P : Disk → S → Prop) (start nlog : Nat) : S → List (Txn × S) → Prop
  | _, [] => True
  | s, (t, s') :: ts => t.Takes P start nlog s s' ∧ Chain P start nlog s' ts

/-- The state after the first `j` transactions. -/
def after (s : S) : List (Txn × S) → Nat → S
  | _, 0 => s
  | [], _ + 1 => s
  | (_, s') :: ts, j + 1 => after s' ts j

@[simp] theorem after_zero (s : S) (ts : List (Txn × S)) : after s ts 0 = s := by
  cases ts <;> rfl

/-- **Crashes in a sequence of transactions.** Cut the block writes short after any number `k`, reboot,
    crash during recovery as often as wanted, and recover: the disk means the state after some number
    `j` of transactions, and `j` counts at least those that were complete. -/
theorem Chain.crash {s : S} {ts : List (Txn × S)} {d : Disk}
    (hP : ∀ d d' s, (∀ b, ¬ InLog start nlog b → d' b = d b) → P d s → P d' s)
    (hchain : Chain P start nlog s ts) (hs : P d s) (hclear : d start 0 = 0) (hnlog : 0 < nlog)
    (k : Nat) (ks : List Nat) :
    ∃ j d', j ≤ ts.length ∧
      reboots start ks (applyWrites ((writes start (ts.map Prod.fst)).take k) d) = some d' ∧
      P d' (after s ts j) ∧ LogHeader.get (d' start) = some .empty ∧
      ∀ m ≤ ts.length, (writes start ((ts.map Prod.fst).take m)).length ≤ k → m ≤ j := by
  induction ts generalizing s d k with
  | nil =>
      have hget := LogHeader.get_of_zero hclear
      have hsound : Sound start nlog d := ⟨_, hget, LogHeader.fits_empty hnlog⟩
      obtain ⟨d', hd', hempty, hsame⟩ := reboots_spec ks hsound
      rw [contents_eq_self hget] at hsame
      exact ⟨0, d', le_refl _, by simpa [writes] using hd', hP d d' s hsame hs, hempty,
        fun m hm _ => hm⟩
  | cons x ts ih =>
      obtain ⟨t, s'⟩ := x
      obtain ⟨⟨hfits, hdone⟩, hrest⟩ := hchain
      have hsplit : writes start (((t, s') :: ts).map Prod.fst) =
          t.writes start ++ writes start (ts.map Prod.fst) := by
        simp [writes]
      rw [hsplit]
      by_cases hk : k < (t.writes start).length
      · -- the crash is in this `commit`
        rw [List.take_append_of_le_length (Nat.le_of_lt hk)]
        obtain ⟨d', hd', hempty, hcases⟩ := Txn.crash hclear hfits k ks
        have hnone : ∀ m, m ≤ ts.length + 1 →
            (writes start ((((t, s') :: ts).map Prod.fst).take m)).length ≤ k → m = 0 := by
          intro m _ hm
          cases m with
          | zero => rfl
          | succ m =>
              simp only [writes, List.map_cons, List.take_succ_cons, List.flatMap_cons,
                List.length_append] at hm
              omega
        rcases hcases with hold | hnew
        · exact ⟨0, d', Nat.zero_le _, hd', hP d d' s hold hs, hempty,
            fun m hm hle => Nat.le_of_eq (hnone m hm hle)⟩
        · refine ⟨1, d', by simp, hd', ?_, hempty, fun m hm hle => ?_⟩
          · rw [after, after_zero]
            exact hdone d d' hs hnew
          · rw [hnone m hm hle]
            exact Nat.zero_le _
      · -- this `commit` is complete
        obtain ⟨hclear', hd⟩ := Txn.complete hclear hfits
        obtain ⟨j, d', hj, hd', hmeans, hempty, hcount⟩ :=
          ih hrest (hdone _ _ hs hd) hclear' (k - (t.writes start).length)
        refine ⟨j + 1, d', by simpa using hj, ?_, hmeans, hempty, fun m hm hle => ?_⟩
        · rw [List.take_append, List.take_of_length_le (by omega), applyWrites_append]
          exact hd'
        · cases m with
          | zero => exact Nat.zero_le _
          | succ m =>
              refine Nat.succ_le_succ (hcount m (by simpa using hm) ?_)
              simp only [writes, List.map_cons, List.take_succ_cons, List.flatMap_cons,
                List.length_append] at hle
              simp only [writes]
              omega

end Sequence

end Cs350.Log
