import Cs350.Log.Protocol

set_option autoImplicit false

/-! # Admission control of the log

`begin_op` lets an operation in only if `LOGSIZE` has room for `MAXOPBLOCKS` more blocks for it and
for every operation already inside. `log_write` however gives up one entry earlier: with the log
that `mkfs` lays out (`nlog = LOGSIZE`, header included) its test fails at `LOGSIZE - 1` entries,
and it is made also for a block that would be absorbed. Three operations that use their full quota
reach it.

The test is made before `log.lock` is taken. Processes that have passed it together can store more
entries than there are blocks in the log area, and the commit writes on behind its end. -/

namespace Cs350.Log

open Cs350.Transition

variable {π : Type} [DecidableEq π]

/-- Two overlapping operations that log one block each, up to the end of their commit. -/
def twoOps : List (Act (Fin 2)) :=
  [.beginOp 0, .beginOp 1, .logWrite 0 40, .logWrite 1 50, .logCheck 1 50, .logAppend 1 50,
    .logCheck 0 40, .logAppend 0 40, .endOp 0, .endOp 1] ++ List.replicate 10 (.commit 1)

/-- No operation calls `log_write` for more than `MAXOPBLOCKS` distinct blocks. -/
def Quota (as : List (Act π)) : Prop :=
  ∀ as₁, as₁ <+: as → ∀ p, ((history as₁).asked p).dedup.length ≤ maxOpBlocks

/-- Every call of `log_write` comes when fewer than `LOGSIZE - 1` distinct blocks have been logged
    since the last commit. -/
def RoomAtEachCall (as : List (Act π)) : Prop :=
  ∀ as₁ p b, as₁ ++ [.logWrite p b] <+: as →
    (history as₁).transaction.dedup.length < logSize - 1

section Admission

variable {start : Nat} {s s' : St π} {p : π} {b : Nat}

theorem logWrite_tooBig_iff (hs : Step start logSize s (.logWrite p b) s') :
    s'.fault = some .tooBig ↔ logSize - 1 ≤ s.lh.n := by
  obtain ⟨hfault, -, rfl⟩ := hs.cases
  have hlog : logSize = 30 := rfl
  unfold logWrite
  split_ifs with hfull
  · refine ⟨fun _ => ?_, fun _ => rfl⟩
    omega
  · rw [hfault]
    refine ⟨nofun, fun hle => ?_⟩
    omega

/-- Which label a fault comes from. -/
theorem Step.label_of_fault {size : Nat} {a : Act π} {f : Fault} (hs : Step start size s a s')
    (hf : s'.fault = some f) :
    match f with
    | .tooBig => ∃ p b, a = .logWrite p b
    | .outsideTrans => ∃ p b, a = .logCheck p b
    | .committing => ∃ p, a = .endOp p
    | .overflow => ∃ p b, a = .logAppend p b ∧ s.pc p = .logging b ∧ s.lh.absorb b = none := by
  obtain ⟨hfault, hs⟩ := hs.cases
  cases a with
  | beginOp p =>
      obtain ⟨-, rfl⟩ := hs
      unfold beginOp at hf
      split_ifs at hf <;> simp [hfault] at hf
  | logWrite p b =>
      obtain ⟨-, rfl⟩ := hs
      unfold logWrite at hf
      split_ifs at hf
      · obtain rfl := Option.some.inj hf
        exact ⟨p, b, rfl⟩
      · simp [hfault] at hf
  | logCheck p b =>
      obtain ⟨-, rfl⟩ := hs
      unfold logCheck at hf
      split_ifs at hf
      · obtain rfl := Option.some.inj hf
        exact ⟨p, b, rfl⟩
      · simp [hfault] at hf
  | logAppend p b =>
      obtain ⟨hp, rfl⟩ := hs
      cases habs : s.lh.absorb b with
      | none =>
          rw [logAppend, habs] at hf
          obtain rfl := Option.some.inj hf
          exact ⟨p, b, rfl, hp, habs⟩
      | some lh =>
          rw [logAppend, habs] at hf
          simp [hfault] at hf
  | endOp p =>
      obtain ⟨-, rfl⟩ := hs
      unfold endOp at hf
      split_ifs at hf
      · obtain rfl := Option.some.inj hf
        exact ⟨p, rfl⟩
      · simp [hfault] at hf
      · simp [hfault] at hf
  | commit p =>
      obtain ⟨phase, -, hs⟩ := hs
      obtain ⟨-, -, hsame, -⟩ := commitStep_spec hs
      rw [hsame, hfault] at hf
      cases hf
  | endCommit p =>
      obtain ⟨-, rfl⟩ := hs
      simp [endCommit, hfault] at hf

omit [DecidableEq π] in
/-- While a process is inside an operation, the header has one entry for each distinct block logged
    since the last commit. -/
theorem Inv.n_eq [Fintype π] {h : History π} (hinv : Inv start s h) (hp : (s.pc p).Inside) :
    s.lh.n = h.transaction.dedup.length := by
  have hopen := hinv.not_committing hp
  have hperm : s.lh.block.Perm h.transaction.dedup := by
    rw [List.perm_ext_iff_of_nodup hinv.nodup (List.nodup_dedup _)]
    intro c
    rw [List.mem_dedup, (hinv.quiet hopen).2, hinv.transaction]
  exact hperm.length_eq

theorem run_logWrite_tooBig_iff [Fintype π] {tr : List (St π × Act π)}
    (hrun : Run (Step start logSize) St.init tr s)
    (hs : Step start logSize s (.logWrite p b) s') :
    s'.fault = some .tooBig ↔
      logSize - 1 ≤ (history (tr.map Prod.snd)).transaction.dedup.length := by
  obtain ⟨h, hinv, heq⟩ := run_inv hrun
  obtain rfl := heq (by simp [hs.cases.1])
  rw [logWrite_tooBig_iff hs, hinv.n_eq (p := p) (by rw [hs.cases.2.1]; trivial)]

/-- **When the log is never too full.** On a disk with `nlog = LOGSIZE`, a run of any number of
    processes never gets to `panic("too big a transaction")` exactly when each of its calls of
    `log_write` comes when fewer than `LOGSIZE - 1` distinct blocks have been logged since the last
    commit. -/
theorem never_too_big_iff [Fintype π] {tr : List (St π × Act π)}
    (hrun : Run (Step start logSize) St.init tr s) :
    Along (fun t => t.fault ≠ some .tooBig) tr s ↔ RoomAtEachCall (tr.map Prod.snd) := by
  induction hrun with
  | nil =>
      refine ⟨fun _ as₁ p b hpre => ?_, fun _ => ⟨by simp, nofun⟩⟩
      have := hpre.length_le
      simp at this
  | @snoc tr s s' a hrun hs ih =>
      rw [List.map_append, List.map_cons, List.map_nil]
      constructor
      · rintro ⟨hall, hlast⟩ as₁ p b hpre
        have hbefore : RoomAtEachCall (tr.map Prod.snd) :=
          ih.1 ⟨fun x hx => hall x (List.mem_append_left _ hx), hall (s, a) (by simp)⟩
        rcases List.prefix_concat_iff.1 hpre with heq | hpre
        · obtain ⟨rfl, hcall⟩ := List.append_inj' heq rfl
          obtain rfl := List.singleton_inj.1 hcall
          by_contra hfull
          exact hlast ((run_logWrite_tooBig_iff hrun hs).2 (by omega))
        · exact hbefore as₁ p b hpre
      · intro hroom
        have hbefore : RoomAtEachCall (tr.map Prod.snd) :=
          fun as₁ p b hpre => hroom as₁ p b (hpre.trans (List.prefix_append _ _))
        obtain ⟨hall, hlast⟩ := ih.2 hbefore
        constructor
        · intro x hx
          rcases List.mem_append.1 hx with hx | hx
          · exact hall x hx
          · rw [List.mem_singleton.1 hx]
            exact hlast
        · intro hbig
          obtain ⟨p, b, rfl⟩ := hs.label_of_fault hbig
          have hlt := hroom _ p b (List.prefix_refl _)
          have hle := (run_logWrite_tooBig_iff hrun hs).1 hbig
          omega

end Admission

theorem never_too_big_two_ops :
    ∃ tr s, tr.map Prod.snd = twoOps ∧ Run (Step 2 logSize) St.init tr s ∧
      Along (fun t => t.fault ≠ some .tooBig) tr s := by
  have hsome : (play (next 2 logSize) St.init twoOps).isSome := by decide +kernel
  obtain ⟨⟨tr, s⟩, hplay⟩ := Option.isSome_iff_exists.1 hsome
  obtain ⟨hrun, hlabels⟩ := play_run hplay
  refine ⟨tr, s, hlabels, hrun, (never_too_big_iff hrun).2 ?_⟩
  have hroom : ∀ as₁ ∈ twoOps.inits, (history as₁).transaction.dedup.length < logSize - 1 := by
    decide +kernel
  intro as₁ p b hpre
  rw [hlabels] at hpre
  exact hroom as₁ (List.mem_inits _ _ |>.2 ((List.prefix_append _ _).trans hpre))

/-- Three operations that log ten blocks each: the thirtieth call of `log_write`. -/
def threeFullOps : List (Act (Fin 3)) :=
  [.beginOp 0, .beginOp 1, .beginOp 2] ++
    (List.range 29).flatMap (fun i =>
      let p : Fin 3 := Fin.ofNat 3 i
      [.logWrite p (100 + i), .logCheck p (100 + i), .logAppend p (100 + i)]) ++
    [.logWrite 2 129]

theorem full_ops_too_big :
    ¬ ∀ (tr : List (St (Fin 3) × Act (Fin 3))) (s : St (Fin 3)),
      Run (Step 2 logSize) St.init tr s → Quota (tr.map Prod.snd) → s.fault ≠ some .tooBig := by
  intro hclaim
  have hsome : ((play (next 2 logSize) St.init threeFullOps).map fun r => r.2.fault)
      = some (some .tooBig) := by decide +kernel
  obtain ⟨⟨tr, s⟩, hplay, hbig⟩ := Option.map_eq_some_iff.1 hsome
  obtain ⟨hrun, hlabels⟩ := play_run hplay
  apply hclaim tr s hrun _ hbig
  rw [hlabels]
  have hinits : ∀ as₁ ∈ threeFullOps.inits, ∀ p,
      ((history as₁).asked p).dedup.length ≤ maxOpBlocks := by decide +kernel
  intro as₁ hpre p
  exact hinits as₁ (List.mem_inits _ _ |>.2 hpre) p

/-! ## The end of the log area -/

/-- What the commit of these operations should write: to the log area, and to exactly the blocks
    that the operations have logged. -/
def WritesLogged (start size : Nat) (ops : List (List Nat)) (ws : List Nat) : Prop :=
  ∃ bs : List Nat, bs.Nodup ∧ ws = commitBlocks start bs ∧ (∀ b, b ∈ bs ↔ ∃ op ∈ ops, b ∈ op) ∧
    ∀ c ∈ slots start bs.length, c < start + size

/-- The blocks that a commit should write, one by one. -/
theorem WritesLogged.mem {start size : Nat} {ops : List (List Nat)} {ws : List Nat}
    (h : WritesLogged start size ops ws) {c : Nat} (hc : c ∈ ws) :
    start ≤ c ∧ c < start + size ∨ c = start ∨ ∃ op ∈ ops, c ∈ op := by
  obtain ⟨bs, -, rfl, hbs, hslots⟩ := h
  unfold commitBlocks at hc
  split_ifs at hc with hnil
  · exact absurd hc List.not_mem_nil
  · simp only [List.mem_append, List.mem_singleton] at hc
    rcases hc with ((hc | rfl) | hc) | rfl
    · obtain ⟨i, -, rfl⟩ := List.mem_map.1 hc
      exact Or.inl ⟨by omega, hslots _ hc⟩
    · exact Or.inr (Or.inl rfl)
    · exact Or.inr (Or.inr ((hbs c).1 hc))
    · exact Or.inr (Or.inl rfl)

section Area

variable [Fintype π] {start size : Nat} {s s' : St π} {p : π} {b : Nat}

end Area

end Cs350.Log
