import Cs350.Log.Group
import Cs350.Log.Crash

set_option autoImplicit false

/-! # Invariants of the group commit protocol

While no commit is in progress, the log header holds exactly the blocks logged since the last
commit, each once. A commit starts when no operation is left inside, so that from then on its
process is alone with the header until it gives it back empty: `Progress` says for each phase
which blocks are written by then. -/

namespace Cs350.Log

open Cs350.Transition

variable {π : Type}

/-! ## Counting the processes inside -/

section Count

variable [Fintype π]

/-- The number of processes inside an operation. -/
def insideCount (pc : π → Pc) : Nat :=
  (Finset.univ.filter fun p => (pc p).Inside).card

theorem insideCount_congr {pc pc' : π → Pc} (h : ∀ p, (pc' p).Inside ↔ (pc p).Inside) :
    insideCount pc' = insideCount pc := by
  unfold insideCount
  simp only [h]

theorem insideCount_pos {pc : π → Pc} {p : π} (h : (pc p).Inside) : 0 < insideCount pc :=
  Finset.card_pos.2 ⟨p, by simp [h]⟩

theorem insideCount_eq_zero {pc : π → Pc} : insideCount pc = 0 ↔ ∀ p, ¬ (pc p).Inside := by
  simp [insideCount, Finset.filter_eq_empty_iff]

variable [DecidableEq π]

theorem insideCount_enter {pc : π → Pc} {p : π} {x : Pc} (hout : ¬ (pc p).Inside)
    (hin : x.Inside) : insideCount (Function.update pc p x) = insideCount pc + 1 := by
  have hset : (Finset.univ.filter fun q => (Function.update pc p x q).Inside)
      = insert p (Finset.univ.filter fun q => (pc q).Inside) := by
    ext q
    by_cases hq : q = p
    · subst hq
      simp [hin]
    · simp [hq]
  rw [insideCount, hset, Finset.card_insert_of_notMem (by simp [hout]), insideCount]

theorem insideCount_leave {pc : π → Pc} {p : π} {x : Pc} (hin : (pc p).Inside)
    (hout : ¬ x.Inside) : insideCount (Function.update pc p x) + 1 = insideCount pc := by
  have hself : ¬ (Function.update pc p x p).Inside := by rwa [Function.update_self]
  have hback := insideCount_enter hself hin
  rw [Function.update_idem, Function.update_eq_self] at hback
  exact hback.symm

theorem insideCount_stay {pc : π → Pc} {p : π} {x : Pc} (h : x.Inside ↔ (pc p).Inside) :
    insideCount (Function.update pc p x) = insideCount pc := by
  apply insideCount_congr
  intro q
  by_cases hq : q = p
  · subst hq
    rw [Function.update_self]
    exact h
  · rw [Function.update_of_ne hq]

end Count

/-! ## Waking up -/

theorem wakeup_inside (pc : π → Pc) (p : π) : (wakeup pc p).Inside ↔ (pc p).Inside := by
  unfold wakeup
  split_ifs with h
  · rw [h]
    exact Iff.rfl
  · exact Iff.rfl

theorem wakeup_commits {pc : π → Pc} {p : π} {phase : Phase} :
    wakeup pc p = .commits phase ↔ pc p = .commits phase := by
  unfold wakeup
  split_ifs with h
  · simp [h]
  · exact Iff.rfl

/-- `pc'` is `pc` with `p` moved to `x`, as far as being inside or in a commit goes. Waking up
    sleeping processes makes no difference to that. -/
structure Moved [DecidableEq π] (pc pc' : π → Pc) (p : π) (x : Pc) : Prop where
  inside : ∀ q, (pc' q).Inside ↔ (Function.update pc p x q).Inside
  commits : ∀ q phase, pc' q = .commits phase ↔ Function.update pc p x q = .commits phase

theorem moved_update [DecidableEq π] (pc : π → Pc) (p : π) (x : Pc) :
    Moved pc (Function.update pc p x) p x :=
  ⟨fun _ => Iff.rfl, fun _ _ => Iff.rfl⟩

theorem moved_wakeup [DecidableEq π] (pc : π → Pc) (p : π) (x : Pc) :
    Moved pc (wakeup (Function.update pc p x)) p x :=
  ⟨fun q => wakeup_inside _ q, fun _ _ => wakeup_commits⟩

/-! ## The progress of a commit -/

/-- The first `k` log blocks. -/
def slots (start k : Nat) : List Nat :=
  (List.range k).map fun tail => start + tail + 1

/-- The blocks written by the commit of a transaction, in order. -/
def commitBlocks (start : Nat) (bs : List Nat) : List Nat :=
  if bs = [] then [] else slots start bs.length ++ [start] ++ bs ++ [start]

/-- What a commit of the blocks `bs` has done by each phase: the entries left in the header, and
    the blocks written. -/
def Progress (start : Nat) (bs : List Nat) : Phase → List Nat → List Nat → Prop
  | .check, block, ws => block = bs ∧ ws = []
  | .writeLog tail, block, ws =>
      block = bs ∧ bs ≠ [] ∧ tail ≤ bs.length ∧ ws = slots start tail
  | .writeHead, block, ws => block = bs ∧ bs ≠ [] ∧ ws = slots start bs.length
  | .install tail, block, ws =>
      block = bs ∧ bs ≠ [] ∧ tail ≤ bs.length ∧
        ws = slots start bs.length ++ [start] ++ bs.take tail
  | .clear, block, ws => block = bs ∧ bs ≠ [] ∧ ws = slots start bs.length ++ [start] ++ bs
  | .clearHead, block, ws => block = [] ∧ bs ≠ [] ∧ ws = slots start bs.length ++ [start] ++ bs
  | .finish, block, ws => block = [] ∧ ws = commitBlocks start bs

theorem slots_succ (start k : Nat) : slots start (k + 1) = slots start k ++ [start + k + 1] := by
  simp [slots, List.range_succ]

/-- A step of `commit` moves its process and makes progress; it leaves the rest of the log alone. -/
theorem commitStep_spec [DecidableEq π] {start : Nat} {s s' : St π} {p : π} {phase : Phase}
    (h : commitStep start s p phase = some s') :
    s'.outstanding = s.outstanding ∧ s'.committing = s.committing ∧ s'.fault = s.fault ∧
      (s'.lh = s.lh ∨ s'.lh = .empty) ∧
      ∃ phase', s'.pc = Function.update s.pc p (.commits phase') ∧
        ∀ bs, Progress start bs phase s.lh.block s.writes →
          Progress start bs phase' s'.lh.block s'.writes := by
  cases phase with
  | check =>
      obtain rfl := Option.some.inj h
      refine ⟨rfl, rfl, rfl, Or.inl rfl, _, rfl, ?_⟩
      rintro bs ⟨hblock, hws⟩
      have hn : s.lh.n = bs.length := by rw [LogHeader.n, hblock]
      simp only [St.goto, hn, List.length_pos_iff]
      split_ifs with hbs
      · exact ⟨hblock, hbs, Nat.zero_le _, hws⟩
      · have hnil : bs = [] := by simpa using hbs
        exact ⟨by rw [hblock, hnil], by rw [commitBlocks, if_pos hnil, hws]⟩
  | writeLog tail =>
      simp only [commitStep] at h
      split_ifs at h with htail
      · obtain rfl := Option.some.inj h
        refine ⟨rfl, rfl, rfl, Or.inl rfl, _, rfl, ?_⟩
        rintro bs ⟨hblock, hbs, -, hws⟩
        have hn : s.lh.n = bs.length := by rw [LogHeader.n, hblock]
        refine ⟨hblock, hbs, by omega, ?_⟩
        simp only [St.write, hws, slots_succ]
      · obtain rfl := Option.some.inj h
        refine ⟨rfl, rfl, rfl, Or.inl rfl, _, rfl, ?_⟩
        rintro bs ⟨hblock, hbs, hle, hws⟩
        have hn : s.lh.n = bs.length := by rw [LogHeader.n, hblock]
        have htail : tail = bs.length := by omega
        exact ⟨hblock, hbs, by simp only [St.goto, hws, htail]⟩
  | writeHead =>
      obtain rfl := Option.some.inj h
      refine ⟨rfl, rfl, rfl, Or.inl rfl, _, rfl, ?_⟩
      rintro bs ⟨hblock, hbs, hws⟩
      exact ⟨hblock, hbs, Nat.zero_le _, by simp [St.write, hws]⟩
  | install tail =>
      simp only [commitStep] at h
      split at h
      next b hb =>
        obtain rfl := Option.some.inj h
        refine ⟨rfl, rfl, rfl, Or.inl rfl, _, rfl, ?_⟩
        rintro bs ⟨hblock, hbs, -, hws⟩
        rw [hblock] at hb
        obtain ⟨hlt, -⟩ := List.getElem?_eq_some_iff.1 hb
        refine ⟨hblock, hbs, hlt, ?_⟩
        simp only [St.write, hws, List.append_assoc, List.take_add_one, hb, Option.toList_some]
      next hb =>
        obtain rfl := Option.some.inj h
        refine ⟨rfl, rfl, rfl, Or.inl rfl, _, rfl, ?_⟩
        rintro bs ⟨hblock, hbs, -, hws⟩
        rw [hblock, List.getElem?_eq_none_iff] at hb
        exact ⟨hblock, hbs, by simp only [St.goto, hws, List.take_of_length_le hb]⟩
  | clear =>
      obtain rfl := Option.some.inj h
      refine ⟨rfl, rfl, rfl, Or.inr rfl, _, rfl, ?_⟩
      rintro bs ⟨-, hbs, hws⟩
      exact ⟨rfl, hbs, hws⟩
  | clearHead =>
      obtain rfl := Option.some.inj h
      refine ⟨rfl, rfl, rfl, Or.inl rfl, _, rfl, ?_⟩
      rintro bs ⟨hblock, hbs, hws⟩
      exact ⟨hblock, by simp only [St.write, hws, commitBlocks, if_neg hbs]⟩
  | finish => cases h

/-- The blocks written are those of the sequential `commit`. -/
theorem commit_writes_fst {start nlog : Nat} {lh : LogHeader} (hfits : lh.Fits start nlog)
    (v : Nat → Block) :
    (commit start lh ⟨v, []⟩).writes.map Prod.fst = commitBlocks start lh.block := by
  unfold commitBlocks
  by_cases hpos : 0 < lh.n
  · have hne : lh.block ≠ [] := List.length_pos_iff.1 hpos
    have hslots : lh.block.zipIdx.map (fun p => start + p.2 + 1) = slots start lh.block.length := by
      rw [slots, List.range_eq_range', ← List.zipIdx_map_snd 0 lh.block, List.map_map]
      rfl
    rw [if_neg hne, commit_writes hfits hpos v v, commitWrites, recoveryWrites, logWrites,
      redoWrites]
    simp only [List.map_append, List.map_map, List.map_cons, List.map_nil, Function.comp_def,
      hslots, List.zipIdx_map_fst]
    simp
  · have hnil : lh.block = [] := by simpa [LogHeader.n] using hpos
    rw [if_pos hnil, commit, if_neg hpos]
    rfl

/-! ## The invariant -/

/-- The commit of `p` is in `phase`, and everybody else is out of the way. -/
structure Committing (start : Nat) (s : St π) (h : History π) (p : π) (phase : Phase) : Prop where
  pc : s.pc p = .commits phase
  alone : ∀ q phase', s.pc q = .commits phase' → q = p
  nobody : ∀ q, ¬ (s.pc q).Inside
  progress : ∃ bs : List Nat, bs.Nodup ∧ (∀ b, b ∈ bs ↔ h.Logs b) ∧
    Progress start bs phase s.lh.block s.writes

/-- The state of the log against what the operations asked for. -/
structure Inv [Fintype π] (start : Nat) (s : St π) (h : History π) : Prop where
  count : s.outstanding = insideCount s.pc
  nodup : s.lh.block.Nodup
  fault : s.fault ≠ some .committing ∧ s.fault ≠ some .outsideTrans
  logged : ∀ p, ¬ (s.pc p).Inside → h.logged p = []
  transaction : ∀ b, b ∈ h.transaction ↔ h.Logs b
  quiet : s.committing = false → (∀ p phase, s.pc p ≠ .commits phase) ∧
    ∀ b, b ∈ s.lh.block ↔ h.Logs b
  busy : s.committing = true → ∃ p phase, Committing start s h p phase

section Invariant

variable [Fintype π] {start size : Nat} {s s' : St π} {h : History π} {p : π} {b : Nat}

theorem inv_init : Inv start (St.init : St π) .init where
  count := by
    have h0 : insideCount (St.init : St π).pc = 0 := insideCount_eq_zero.2 (fun _ => id)
    rw [h0]
    rfl
  nodup := List.nodup_nil
  fault := ⟨nofun, nofun⟩
  logged := fun _ _ => rfl
  transaction := by simp [History.init, History.Logs]
  quiet := fun _ => ⟨fun _ _ => nofun, by simp [St.init, LogHeader.empty, History.init, History.Logs]⟩
  busy := nofun

/-- While some process is inside, there is no commit. -/
theorem Inv.not_committing (hinv : Inv start s h) (hp : (s.pc p).Inside) :
    s.committing = false := by
  by_contra hne
  obtain ⟨q, phase, hq⟩ := hinv.busy (by simpa using hne)
  exact hq.nobody p hp

/-- A step that moves `p` while neither the place it leaves nor the one it goes to is inside or in
    a commit, or that only stops the machine. -/
theorem Inv.of_idle {pc' : π → Pc} {f : Option Fault} (hinv : Inv start s h)
    (hinside : ∀ q, (pc' q).Inside ↔ (s.pc q).Inside)
    (hcommits : ∀ q phase, pc' q = .commits phase ↔ s.pc q = .commits phase)
    (hfault : f ≠ some .committing ∧ f ≠ some .outsideTrans) :
    Inv start { s with pc := pc', fault := f } h where
  count := by rw [hinv.count]; exact_mod_cast (insideCount_congr hinside).symm
  nodup := hinv.nodup
  fault := hfault
  logged := fun q hq => hinv.logged q (fun hin => hq ((hinside q).2 hin))
  transaction := hinv.transaction
  quiet := fun hopen => ⟨fun q phase hq => (hinv.quiet hopen).1 q phase ((hcommits q phase).1 hq),
    (hinv.quiet hopen).2⟩
  busy := by
    intro hbusy
    obtain ⟨q, phase, hq⟩ := hinv.busy hbusy
    exact ⟨q, phase, (hcommits q phase).2 hq.pc,
      fun r phase' hr => hq.alone r phase' ((hcommits r phase').1 hr),
      fun r hr => hq.nobody r ((hinside r).1 hr), hq.progress⟩

theorem Inv.stop {f : Fault} (hinv : Inv start s h) (hf : f = .tooBig ∨ f = .overflow) :
    Inv start { s with fault := some f } h := by
  apply hinv.of_idle (fun _ => Iff.rfl) (fun _ _ => Iff.rfl)
  rcases hf with rfl | rfl <;> exact ⟨by decide, by decide⟩

/-- The blocks asked for play no part in the invariant. -/
theorem Inv.of_asked (hinv : Inv start s h) (asked : π → List Nat) :
    Inv start s { h with asked := asked } where
  count := hinv.count
  nodup := hinv.nodup
  fault := hinv.fault
  logged := hinv.logged
  transaction := hinv.transaction
  quiet := hinv.quiet
  busy := by
    intro hbusy
    obtain ⟨q, phase, hq⟩ := hinv.busy hbusy
    exact ⟨q, phase, hq.pc, hq.alone, hq.nobody, hq.progress⟩

/-- The process of a commit is the only one in a commit. -/
theorem Inv.committing_of_pc {phase : Phase} (hinv : Inv start s h)
    (hp : s.pc p = .commits phase) : s.committing = true ∧ Committing start s h p phase := by
  have hbusy : s.committing = true := by
    by_contra hne
    exact (hinv.quiet (by simpa using hne)).1 p phase hp
  obtain ⟨q, phase', hq⟩ := hinv.busy hbusy
  obtain rfl := hq.alone p phase hp
  have hphase : phase' = phase := by
    have := hq.pc.symm.trans hp
    injection this
  exact ⟨hbusy, hphase ▸ hq⟩

variable [DecidableEq π]

/-- A step that lets `p` move to a place outside any commit, from a state without a commit to
    another one. -/
theorem Inv.of_moved {h' : History π} {x : Pc} (hinv : Inv start s h)
    (hopen : s.committing = false) (hopen' : s'.committing = false)
    (hmoved : Moved s.pc s'.pc p x) (hx : ∀ phase, x ≠ .commits phase)
    (hcount : s'.outstanding = insideCount (Function.update s.pc p x))
    (hnodup : s'.lh.block.Nodup) (hfault : s'.fault = s.fault)
    (hne : ∀ q, q ≠ p → h'.logged q = h.logged q) (hp : ¬ x.Inside → h'.logged p = [])
    (htransaction : ∀ b, b ∈ h'.transaction ↔ h'.Logs b)
    (hblock : ∀ b, b ∈ s'.lh.block ↔ h'.Logs b) : Inv start s' h' where
  count := by rw [hcount, insideCount_congr hmoved.inside]
  nodup := hnodup
  fault := by rw [hfault]; exact hinv.fault
  logged := by
    intro q hq
    rw [hmoved.inside] at hq
    by_cases hqp : q = p
    · subst hqp
      rw [Function.update_self] at hq
      exact hp hq
    · rw [Function.update_of_ne hqp] at hq
      rw [hne q hqp]
      exact hinv.logged q hq
  transaction := htransaction
  quiet := by
    intro _
    refine ⟨fun q phase hq => ?_, hblock⟩
    rw [hmoved.commits] at hq
    by_cases hqp : q = p
    · subst hqp
      rw [Function.update_self] at hq
      exact hx phase hq
    · rw [Function.update_of_ne hqp] at hq
      exact (hinv.quiet hopen).1 q phase hq
  busy := by
    intro hbusy
    rw [hopen'] at hbusy
    cases hbusy

/-! ## One lemma per step -/

theorem inv_beginOp (hinv : Inv start s h) (hp : s.pc p = .outside ∨ s.pc p = .woken) :
    Inv start (beginOp s p) h := by
  have hout : ¬ (s.pc p).Inside := by
    rcases hp with hp | hp <;> rw [hp] <;> exact id
  have hsleep : Inv start { s with pc := Function.update s.pc p .sleeping } h := by
    apply hinv.of_idle _ _ hinv.fault
    · intro q
      by_cases hqp : q = p
      · subst hqp
        rw [Function.update_self]
        exact ⟨False.elim, hout⟩
      · rw [Function.update_of_ne hqp]
    · intro q phase
      by_cases hqp : q = p
      · subst hqp
        rw [Function.update_self]
        rcases hp with hp | hp <;> simp [hp]
      · rw [Function.update_of_ne hqp]
  unfold beginOp
  split_ifs with hbusy hspace
  · exact hsleep
  · exact hsleep
  · have hopen : s.committing = false := by simpa using hbusy
    have hcount : s.outstanding + 1 = insideCount (Function.update s.pc p .inOp) := by
      rw [insideCount_enter hout (x := .inOp) trivial, hinv.count]
      push_cast
      rfl
    exact hinv.of_moved hopen hopen (moved_update _ _ _) (fun _ => nofun) hcount hinv.nodup rfl
      (fun _ _ => rfl) (fun hne => absurd trivial hne) hinv.transaction (hinv.quiet hopen).2

/-- A process that stays inside, with nothing logged. -/
theorem Inv.stay_inside {x : Pc} (hinv : Inv start s h) (hp : (s.pc p).Inside) (hx : x.Inside)
    (hx' : ∀ phase, x ≠ .commits phase) :
    Inv start { s with pc := Function.update s.pc p x } h := by
  have hopen := hinv.not_committing hp
  have hcount : s.outstanding = insideCount (Function.update s.pc p x) := by
    rw [insideCount_stay (by simp [hx, hp]), hinv.count]
  exact hinv.of_moved hopen hopen (moved_update _ _ _) hx' hcount hinv.nodup rfl
    (fun _ _ => rfl) (fun hne => absurd hx hne) hinv.transaction (hinv.quiet hopen).2

theorem inv_logWrite (hinv : Inv start s h) (hp : s.pc p = .inOp) :
    Inv start (logWrite size s p b) (h.next (.logWrite p b)) := by
  apply Inv.of_asked
  unfold logWrite
  split_ifs
  · exact hinv.stop (Or.inl rfl)
  · exact hinv.stay_inside (by rw [hp]; trivial) trivial (fun _ => nofun)

theorem inv_logCheck (hinv : Inv start s h) (hp : s.pc p = .tested b) :
    Inv start (logCheck s p b) h := by
  have hin : (s.pc p).Inside := by rw [hp]; trivial
  have hpos : ¬ s.outstanding < 1 := by
    have := insideCount_pos hin
    rw [hinv.count]
    omega
  rw [logCheck, if_neg hpos]
  exact hinv.stay_inside hin trivial (fun _ => nofun)

theorem LogHeader.absorb_spec {lh lh' : LogHeader} (habs : lh.absorb b = some lh')
    (hnodup : lh.block.Nodup) :
    lh'.block.Nodup ∧ ∀ c, c ∈ lh'.block ↔ c ∈ lh.block ∨ c = b := by
  unfold LogHeader.absorb at habs
  split_ifs at habs with hmem hlt
  · obtain rfl := Option.some.inj habs
    refine ⟨hnodup, fun c => ⟨Or.inl, ?_⟩⟩
    rintro (hc | rfl)
    · exact hc
    · exact hmem
  · obtain rfl := Option.some.inj habs
    refine ⟨List.nodup_append.2 ⟨hnodup, List.nodup_singleton b, ?_⟩, by simp⟩
    rintro c hc d hd rfl
    rw [List.mem_singleton] at hd
    exact hmem (hd ▸ hc)

theorem inv_logAppend (hinv : Inv start s h) (hp : s.pc p = .logging b)
    (hok : (logAppend s p b).fault = none) :
    Inv start (logAppend s p b) (h.next (.logAppend p b)) := by
  have hin : (s.pc p).Inside := by rw [hp]; trivial
  have hopen := hinv.not_committing hin
  unfold logAppend at hok ⊢
  cases habs : s.lh.absorb b with
  | none => simp [habs] at hok
  | some lh' =>
      simp only
      obtain ⟨hnodup, hmem⟩ := LogHeader.absorb_spec habs hinv.nodup
      have hcount : s.outstanding = insideCount (Function.update s.pc p .inOp) := by
        rw [insideCount_stay (x := .inOp) ⟨fun _ => hin, fun _ => trivial⟩, hinv.count]
      refine hinv.of_moved hopen hopen (moved_update _ _ _) (fun _ => nofun) hcount hnodup rfl ?_
        (fun hne => absurd trivial hne) ?_ ?_
      · intro q hqp
        exact Function.update_of_ne hqp _ _
      · intro c
        rw [History.logs_logAppend, ← hinv.transaction]
        simp [History.next]
      · intro c
        rw [History.logs_logAppend, hmem, (hinv.quiet hopen).2]

/-- If the last process leaves, nobody is inside any more. -/
theorem nobody_of_leave {pc : π → Pc} {x : Pc} (hin : (pc p).Inside) (hone : insideCount pc = 1)
    (hx : ¬ x.Inside) (q : π) : ¬ (Function.update pc p x q).Inside := by
  have hleave := insideCount_leave hin hx
  exact insideCount_eq_zero.1 (by omega) q

theorem inv_endOp (hinv : Inv start s h) (hp : s.pc p = .inOp) :
    Inv start (endOp s p) (h.next (.endOp p)) := by
  have hin : (s.pc p).Inside := by rw [hp]; trivial
  have hopen := hinv.not_committing hin
  have hne : ∀ q, q ≠ p → (h.next (.endOp p)).logged q = h.logged q :=
    fun q hqp => Function.update_of_ne hqp _ _
  have hself : (h.next (.endOp p)).logged p = [] := Function.update_self _ _ _
  have htransaction : ∀ c, c ∈ (h.next (.endOp p)).transaction ↔ (h.next (.endOp p)).Logs c :=
    fun c => by rw [History.logs_endOp, ← hinv.transaction]; rfl
  have hblock : ∀ c, c ∈ s.lh.block ↔ (h.next (.endOp p)).Logs c :=
    fun c => by rw [History.logs_endOp, (hinv.quiet hopen).2]
  unfold endOp
  rw [if_neg (by simp [hopen])]
  split_ifs with hlast
  · -- the last operation starts the commit of all that is logged
    have hnobody : ∀ q, ¬ (Function.update s.pc p (.commits .check) q).Inside := by
      apply nobody_of_leave hin _ id
      have := hinv.count
      omega
    refine ⟨?_, hinv.nodup, hinv.fault, ?_, htransaction, nofun, fun _ => ?_⟩
    · rw [hlast, insideCount_eq_zero.2 hnobody]
      rfl
    · intro q hq
      by_cases hqp : q = p
      · rw [hqp]
        exact hself
      · rw [hne q hqp]
        have hq' : ¬ (Function.update s.pc p (.commits .check) q).Inside := hq
        rw [Function.update_of_ne hqp] at hq'
        exact hinv.logged q hq'
    · refine ⟨p, .check, Function.update_self _ _ _, ?_, hnobody,
        s.lh.block, hinv.nodup, hblock, rfl, rfl⟩
      intro q phase hq
      by_contra hqp
      have hq' : Function.update s.pc p (.commits .check) q = .commits phase := hq
      rw [Function.update_of_ne hqp] at hq'
      exact (hinv.quiet hopen).1 q phase hq'
  · have hcount : s.outstanding - 1 = insideCount (Function.update s.pc p .outside) := by
      have hleave := insideCount_leave (x := .outside) hin id
      have := hinv.count
      omega
    exact hinv.of_moved hopen hopen (moved_wakeup _ _ _) (fun _ => nofun) hcount hinv.nodup rfl hne
      (fun _ => hself) htransaction hblock

theorem inv_commit {phase : Phase} (hinv : Inv start s h) (hp : s.pc p = .commits phase)
    (hs : commitStep start s p phase = some s') : Inv start s' h := by
  obtain ⟨hbusy, hcom⟩ := hinv.committing_of_pc hp
  obtain ⟨hout, hcommitting, hfault, hlh, phase', hpc, hprogress⟩ := commitStep_spec hs
  have hnobody : ∀ q, ¬ (s'.pc q).Inside := by
    intro q
    rw [hpc]
    by_cases hqp : q = p
    · subst hqp
      rw [Function.update_self]
      exact id
    · rw [Function.update_of_ne hqp]
      exact hcom.nobody q
  refine ⟨?_, ?_, ?_, fun q _ => hinv.logged q (hcom.nobody q), hinv.transaction, ?_, fun _ => ?_⟩
  · rw [hout, hinv.count, insideCount_eq_zero.2 hcom.nobody, insideCount_eq_zero.2 hnobody]
  · rcases hlh with hlh | hlh <;> rw [hlh]
    · exact hinv.nodup
    · exact List.nodup_nil
  · rw [hfault]
    exact hinv.fault
  · intro hopen
    rw [hcommitting, hbusy] at hopen
    cases hopen
  · obtain ⟨bs, hnodup, hbs, hprog⟩ := hcom.progress
    refine ⟨p, phase', ?_, ?_, hnobody, bs, hnodup, hbs, hprogress bs hprog⟩
    · rw [hpc, Function.update_self]
    · intro q phase'' hq
      by_contra hqp
      rw [hpc, Function.update_of_ne hqp] at hq
      exact hqp (hcom.alone q phase'' hq)

theorem inv_endCommit (hinv : Inv start s h) (hp : s.pc p = .commits .finish) :
    Inv start (endCommit s p) (h.next (.endCommit p)) := by
  obtain ⟨-, hcom⟩ := hinv.committing_of_pc hp
  obtain ⟨bs, -, -, hlh, -⟩ := hcom.progress
  have hmoved := moved_wakeup s.pc p .outside
  have hlogs : ∀ c, ¬ (h.next (.endCommit p)).Logs c := by
    rintro c (⟨op, hop, -⟩ | ⟨q, hq⟩)
    · cases hop
    · have hq : c ∈ h.logged q := hq
      rw [hinv.logged q (hcom.nobody q)] at hq
      cases hq
  have hnobody : ∀ q, ¬ ((endCommit s p).pc q).Inside := by
    intro q hq
    have hq : (Function.update s.pc p .outside q).Inside := (hmoved.inside q).1 hq
    by_cases hqp : q = p
    · subst hqp
      rw [Function.update_self] at hq
      exact hq
    · rw [Function.update_of_ne hqp] at hq
      exact hcom.nobody q hq
  refine ⟨?_, hinv.nodup, hinv.fault, fun q _ => hinv.logged q (hcom.nobody q), ?_, fun _ => ⟨?_, ?_⟩,
    nofun⟩
  · rw [insideCount_eq_zero.2 hnobody, ← insideCount_eq_zero.2 hcom.nobody]
    exact hinv.count
  · intro c
    refine ⟨fun hc => ?_, fun hc => absurd hc (hlogs c)⟩
    cases hc
  · intro q phase hq
    have hq : Function.update s.pc p .outside q = .commits phase := (hmoved.commits q phase).1 hq
    by_cases hqp : q = p
    · subst hqp
      rw [Function.update_self] at hq
      cases hq
    · rw [Function.update_of_ne hqp] at hq
      exact hqp (hcom.alone q phase hq)
  · intro c
    refine ⟨fun hc => ?_, fun hc => absurd hc (hlogs c)⟩
    have hc : c ∈ s.lh.block := hc
    rw [hlh] at hc
    cases hc

/-! ## Runs -/

/-- A step keeps the invariant. The one label that does not come about is a `log_write` that would
    store past the entries. -/
theorem inv_step {a : Act π} (hinv : Inv start s h) (hs : Step start size s a s') :
    ∃ h', Inv start s' h' ∧ (s'.fault ≠ some .overflow → h' = h.next a) := by
  obtain ⟨hfault, hs⟩ := hs.cases
  cases a with
  | beginOp p =>
      obtain ⟨hp, rfl⟩ := hs
      exact ⟨h, inv_beginOp hinv hp, fun _ => rfl⟩
  | logWrite p b =>
      obtain ⟨hp, rfl⟩ := hs
      exact ⟨_, inv_logWrite hinv hp, fun _ => rfl⟩
  | logCheck p b =>
      obtain ⟨hp, rfl⟩ := hs
      exact ⟨h, inv_logCheck hinv hp, fun _ => rfl⟩
  | logAppend p b =>
      obtain ⟨hp, rfl⟩ := hs
      cases habs : s.lh.absorb b with
      | none =>
          have heq : logAppend s p b = { s with fault := some .overflow } := by
            rw [logAppend, habs]
          rw [heq]
          exact ⟨h, hinv.stop (Or.inr rfl), fun hne => absurd rfl hne⟩
      | some lh' =>
          have hok : (logAppend s p b).fault = none := by
            rw [logAppend, habs]
            exact hfault
          exact ⟨_, inv_logAppend hinv hp hok, fun _ => rfl⟩
  | endOp p =>
      obtain ⟨hp, rfl⟩ := hs
      exact ⟨_, inv_endOp hinv hp, fun _ => rfl⟩
  | commit p =>
      obtain ⟨phase, hp, hs⟩ := hs
      exact ⟨h, inv_commit hinv hp hs, fun _ => rfl⟩
  | endCommit p =>
      obtain ⟨hp, rfl⟩ := hs
      exact ⟨_, inv_endCommit hinv hp, fun _ => rfl⟩

theorem run_inv {tr : List (St π × Act π)} (hrun : Run (Step start size) St.init tr s) :
    ∃ h, Inv start s h ∧ (s.fault ≠ some .overflow → h = history (tr.map Prod.snd)) := by
  induction hrun with
  | nil => exact ⟨.init, inv_init, fun _ => rfl⟩
  | @snoc tr s s' a _ hs ih =>
      obtain ⟨h, hinv, heq⟩ := ih
      obtain ⟨h', hinv', heq'⟩ := inv_step hinv hs
      refine ⟨h', hinv', fun hne => ?_⟩
      rw [heq' hne, heq (by simp [hs.cases.1]), List.map_append, List.map_cons, List.map_nil,
        history_snoc]

end Invariant

end Cs350.Log
