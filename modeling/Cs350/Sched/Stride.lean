import Cs350.Lib.LeastFirst
import Cs350.Sched.Spread

set_option autoImplicit false

/-! # The stride of a dispatch

Every iteration of the stride branch divides twice: `updateTickets` computes the equal share, and
the dispatch computes the stride from it. Both divisors are positive whatever the table holds,
since stale tickets are overwritten before they are read. With a fixed set of RUNNABLE processes all
strides are equal, and the scheduler serves the processes in turn; that is shown for pass values
that are exact integers, and the iterations of the machine do the same as long as no pass leaves
`int`. -/

namespace Cs350.Sched

open Transition LeastFirst

/-! ## Divisions -/

/-- `a / b`, which is undefined for `b = 0`. -/
def checkedDiv (a b : Int) : Option Int := if b = 0 then none else some (Int.tdiv a b)

/-- One round of the second loop of `updateTickets`. -/
def updateTicketsStep (count : Nat) (t : Table) (p : Slot) : Option Table :=
  if (t p).Active then
    (checkedDiv 100 count).map fun n => t.modify p fun q => { q with tickets := n }
  else some t

/-- `updateTickets` with its division. -/
def updateTicketsChecked (t : Table) : Option Table :=
  slots.foldlM (updateTicketsStep (activeCount t)) t

section Checked

variable {ι : Type} [DecidableEq ι]

/-- The stride branch of one iteration of `scheduler` on CPU `c`, with its divisions. -/
def Sys.scheduleChecked (s : Sys ι) (c : ι) : Option (Sys ι) :=
  (updateTicketsChecked s.proc).bind fun t =>
    match getminproc t with
    | none => some { s with proc := t }
    | some p =>
      (checkedDiv 1000 (t p).tickets).map fun stride =>
        { s with
          proc := t.modify p fun q => { q with pass := int32 (q.pass + stride), state := .running }
          cpu := Function.update s.cpu c (some p) }

end Checked

/-- The tickets of the RUNNABLE and RUNNING processes. -/
def activeTickets (t : Table) : Int :=
  (slots.map fun p => if (t p).Active then (t p).tickets else 0).sum

/-- The table after the second loop of `updateTickets` has passed the slots of `l`. -/
def shared (t : Table) (l : List Slot) : Table := fun p => if p ∈ l then updateTickets t p else t p

theorem updateTicketsStep_shared {t : Table} {l : List Slot} {p : Slot} (hp : p ∉ l) :
    updateTicketsStep (activeCount t) (shared t l) p = some (shared t (l ++ [p])) := by
  have hentry : shared t l p = t p := if_neg hp
  unfold updateTicketsStep
  rw [hentry]
  by_cases hact : (t p).Active
  · have hcount : ((activeCount t : Nat) : Int) ≠ 0 := by
      have := activeCount_pos hact
      omega
    rw [if_pos hact, checkedDiv, if_neg hcount, Option.map_some]
    congr 1
    funext q
    by_cases hq : q = p
    · subst hq
      simp [shared, hp, updateTickets, hact]
    · rw [Table.modify_of_ne hq]
      simp [shared, hq]
  · rw [if_neg hact]
    congr 1
    funext q
    by_cases hq : q = p
    · subst hq
      simp [shared, updateTickets, hact]
    · simp [shared, hq]

theorem foldlM_shared {t : Table} {l l' : List Slot} (hnodup : (l ++ l').Nodup) :
    l'.foldlM (updateTicketsStep (activeCount t)) (shared t l) = some (shared t (l ++ l')) := by
  induction l' generalizing l with
  | nil => simp
  | cons p l' ih =>
      have hp : p ∉ l := by
        intro hp
        have := List.disjoint_of_nodup_append hnodup hp
        simp at this
      rw [List.append_cons] at hnodup ⊢
      rw [List.foldlM_cons, updateTicketsStep_shared hp]
      exact ih hnodup

/-- The division of `updateTickets` is defined: an entry that gets a share is counted. -/
theorem updateTicketsChecked_eq (t : Table) : updateTicketsChecked t = some (updateTickets t) := by
  have hstart : shared t [] = t := by
    funext p
    simp [shared]
  have hend : shared t slots = updateTickets t := by
    funext p
    simp [shared, mem_slots]
  have hnodup : ([] ++ slots).Nodup := List.nodup_finRange nproc
  have hfold := foldlM_shared (t := t) hnodup
  rw [hstart, List.nil_append, hend] at hfold
  exact hfold

theorem sum_shares (a : Slot → Bool) (share : Int) (l : List Slot) :
    (l.map fun p => if a p then share else 0).sum = l.countP a * share := by
  induction l with
  | nil => simp
  | cons p l ih =>
      rw [List.map_cons, List.sum_cons, ih, List.countP_cons]
      by_cases hp : a p
      · simp [hp]
        ring
      · simp [hp]

theorem activeTickets_updateTickets (t : Table) :
    activeTickets (updateTickets t) = activeCount t * ((100 / activeCount t : Nat) : Int) := by
  have hterm : ∀ p, (if (updateTickets t p).Active then (updateTickets t p).tickets else 0) =
      if (decide (t p).Active : Bool) then ((100 / activeCount t : Nat) : Int) else 0 := by
    intro p
    by_cases hp : (t p).Active
    · have hp' : (updateTickets t p).Active := by simpa [Proc.Active] using hp
      rw [if_pos hp', updateTickets_tickets_of_active hp]
      simp [hp]
    · have hp' : ¬ (updateTickets t p).Active := by simpa [Proc.Active] using hp
      simp [hp, hp']
  rw [activeTickets, List.map_congr_left fun p _ => hterm p, sum_shares]
  rfl

/-- The shares of `NPROC` processes at most are between 1 and 100. -/
theorem share_bounds {t : Table} (h : 0 < activeCount t) :
    1 ≤ 100 / activeCount t ∧ 100 / activeCount t ≤ 100 := by
  have hle := activeCount_le t
  exact ⟨(Nat.one_le_div_iff h).2 (hle.trans (by decide)), Nat.div_le_self _ _⟩

section Defined

variable {ι : Type} [DecidableEq ι]

/-- **The stride computation is defined.** Whatever the table holds, an iteration of the stride
    branch divides by no zero and does what `Sys.schedule` says, also when nothing is RUNNABLE. The
    active processes then hold 100 tickets at most, and the process it selects holds 1 to 100 of
    them, for a stride of 10 to 1000. -/
theorem stride_defined (s : Sys ι) (c : ι) :
    s.scheduleChecked c = some (s.schedule c) ∧
    updateTicketsChecked s.proc = some (updateTickets s.proc) ∧
    activeTickets (updateTickets s.proc) ≤ 100 ∧
    ∀ p, getminproc (updateTickets s.proc) = some p →
      1 ≤ (updateTickets s.proc p).tickets ∧ (updateTickets s.proc p).tickets ≤ 100 ∧
      10 ≤ Int.tdiv 1000 (updateTickets s.proc p).tickets ∧
      Int.tdiv 1000 (updateTickets s.proc p).tickets ≤ 1000 := by
  have hselected : ∀ p, getminproc (updateTickets s.proc) = some p →
      1 ≤ (updateTickets s.proc p).tickets ∧ (updateTickets s.proc p).tickets ≤ 100 := by
    intro p hp
    have hact : (s.proc p).Active := active_of_dispatched (e := Event.schedule c) hp
    have hbounds := share_bounds (activeCount_pos hact)
    rw [updateTickets_tickets_of_active hact]
    omega
  refine ⟨?_, updateTicketsChecked_eq s.proc, ?_, fun p hp => ?_⟩
  · unfold Sys.scheduleChecked
    rw [updateTicketsChecked_eq, Option.bind_some]
    rcases schedule_cases s c with ⟨hmin, hsch⟩ | ⟨p, hp, hsch⟩
    · rw [hmin, hsch]
    · -- the division of the `swtch` branch: the process selected is active and holds its share
      have hne : (updateTickets s.proc p).tickets ≠ 0 := by
        have := (hselected p hp).1
        omega
      simp only [hp, hsch, checkedDiv, if_neg hne, Option.map_some]
      rfl
  · have hmul := Nat.mul_div_le 100 (activeCount s.proc)
    rw [activeTickets_updateTickets]
    exact_mod_cast hmul
  · have hstride := stride_bounds (s := s) (e := Event.schedule c) hp
    exact ⟨(hselected p hp).1, (hselected p hp).2, hstride⟩

end Defined

/-! ## A fixed set of processes on one CPU -/

/-- One iteration of the stride branch with a pass that is an exact integer, and the `yield` of the
    process it ran: that process, and the table. -/
def exactRound (t : Table) : Option Slot × Table :=
  match getminproc (updateTickets t) with
  | none => (none, updateTickets t)
  | some p =>
    (some p, (updateTickets t).modify p fun q =>
      { q with pass := q.pass + Int.tdiv 1000 q.tickets, state := .runnable })

/-- The table after `k` iterations. -/
def afterRounds (t : Table) : Nat → Table
  | 0 => t
  | k + 1 => (exactRound (afterRounds t k)).2

/-- The process that iteration `k` dispatches, counted from 0. -/
def dispatchedAt (t : Table) (k : Nat) : Option Slot := (exactRound (afterRounds t k)).1

/-- The active processes in the order of the table. -/
def actives (t : Table) : List Slot := slots.filter fun p => (t p).Active

/-- The largest pass of an active process less the smallest. -/
def passSpread (t : Table) : Nat :=
  Finset.univ.sup fun p => Finset.univ.sup fun q =>
    if (t p).Active ∧ (t q).Active then ((t p).pass - (t q).pass).toNat else 0

theorem mem_actives {t : Table} {p : Slot} : p ∈ actives t ↔ (t p).Active := by
  simp [actives, mem_slots]

theorem length_actives (t : Table) : (actives t).length = activeCount t := by
  rw [actives, activeCount, List.countP_eq_length_filter]

theorem actives_sorted (t : Table) : (actives t).Pairwise (· < ·) :=
  (List.pairwise_lt_finRange nproc).filter _

theorem passSpread_le_iff {t : Table} {B : Nat} : passSpread t ≤ B ↔
    ∀ p ∈ actives t, ∀ q ∈ actives t, (t p).pass ≤ (t q).pass + B := by
  simp only [passSpread, Finset.sup_le_iff, Finset.mem_univ, forall_const, mem_actives]
  constructor
  · intro h p hp q hq
    have := h p q
    rw [if_pos ⟨hp, hq⟩] at this
    omega
  · intro h p q
    split_ifs with hpq
    · have := h p hpq.1 q hpq.2
      omega
    · exact Nat.zero_le B

/-- Nothing is RUNNING and something is RUNNABLE. -/
structure Waiting (t : Table) : Prop where
  idle : ∀ p, (t p).state ≠ .running
  some : ∃ p, (t p).state = .runnable

/-- An iteration serves the first of the active processes with the least pass, and charges it the
    stride of the equal share. -/
theorem exactRound_spec {t : Table} (h : Waiting t) :
    ∃ p, (exactRound t).1 = some p ∧ IsFirstLeast (actives t) (fun q => (t q).pass) p ∧
      ∀ q, ((exactRound t).2 q).state = (t q).state ∧ ((exactRound t).2 q).pass =
        (t q).pass + if q = p then ((1000 / (100 / activeCount t) : Nat) : Int) else 0 := by
  have hrunnable : ∀ q, (t q).Active → (t q).state = .runnable :=
    fun q hq => hq.resolve_right (h.idle q)
  cases hp : getminproc (updateTickets t) with
  | none =>
      obtain ⟨q, hq⟩ := h.some
      exact absurd hq (by simpa using getminproc_eq_none hp q)
  | some p =>
      obtain ⟨hrun, hleast⟩ := getminproc_eq_some hp
      simp only [updateTickets_state, updateTickets_pass] at hrun hleast
      have hact : (t p).Active := Or.inl hrun
      have hstride : Int.tdiv 1000 (updateTickets t p).tickets =
          ((1000 / (100 / activeCount t) : Nat) : Int) := by
        rw [updateTickets_tickets_of_active hact]
        exact (Int.ofNat_tdiv 1000 _).symm
      refine ⟨p, by simp only [exactRound, hp],
        ⟨mem_actives.2 hact, fun q hq => hleast q (hrunnable q (mem_actives.1 hq))⟩, fun q => ?_⟩
      simp only [exactRound, hp]
      by_cases hq : q = p
      · subst hq
        simp [hrun, hstride]
      · simp [Table.modify_of_ne hq, hq]

theorem Waiting.afterRounds {t : Table} (h : Waiting t) (k : Nat) :
    Waiting (afterRounds t k) ∧ ∀ p, (afterRounds t k p).state = (t p).state := by
  induction k with
  | zero => exact ⟨h, fun _ => rfl⟩
  | succ k ih =>
      obtain ⟨p, -, -, heffect⟩ := exactRound_spec ih.1
      have hstate : ∀ q, (Sched.afterRounds t (k + 1) q).state = (t q).state :=
        fun q => (heffect q).1.trans (ih.2 q)
      obtain ⟨q, hq⟩ := h.some
      exact ⟨⟨fun q => by rw [hstate q]; exact h.idle q, q, by rw [hstate q]; exact hq⟩, hstate⟩

theorem actives_congr {t t' : Table} (h : ∀ p, (t' p).state = (t p).state) :
    actives t' = actives t :=
  List.filter_congr fun p _ => decide_eq_decide.2 (by rw [Proc.Active, Proc.Active, h p])

/-- The iterations are rounds of serving the least. -/
theorem afterRounds_rounds {t : Table} (h : Waiting t) :
    ∃ served : Nat → Slot, (∀ k, dispatchedAt t k = some (served k)) ∧
      Rounds (actives t) ((1000 / (100 / activeCount t) : Nat) : Int)
        (fun k p => (afterRounds t k p).pass) served := by
  have hround := fun k => exactRound_spec (h.afterRounds k).1
  choose served hserved hleast heffect using hround
  have hactives : ∀ k, actives (afterRounds t k) = actives t :=
    fun k => actives_congr (h.afterRounds k).2
  refine ⟨served, hserved, fun k => hactives k ▸ hleast k, fun k p _ => ?_⟩
  have hcount : activeCount (afterRounds t k) = activeCount t := by
    rw [← length_actives, hactives, length_actives]
  rw [← hcount]
  exact (heffect k p).2

/-- **Fairness among a fixed set of processes.** On one CPU in stride mode, let `n` processes be
    RUNNABLE and nothing else take part. After any number `k` of iterations with exact passes the
    spread of the passes is at most what it was, or `1000/(100/n)` if that is more. If all passes
    were equal, iteration `i` dispatched the process number `i % n` in the order of the table, so
    that every process was dispatched `⌊k/n⌋` or `⌈k/n⌉` times. -/
theorem stride_fair {t : Table} {n : Nat} (hn : activeCount t = n) (hpos : 1 ≤ n)
    (hidle : ∀ p, (t p).state ≠ .running) (k : Nat) :
    passSpread (afterRounds t k) ≤ max (passSpread t) (1000 / (100 / n)) ∧
    ((∀ p q, (t p).Active → (t q).Active → (t p).pass = (t q).pass) →
      (∀ i, dispatchedAt t i = (actives t)[i % n]?) ∧
      ∀ p, (t p).Active → (k.count fun i => dispatchedAt t i = some p) = k / n ∨
        (k.count fun i => dispatchedAt t i = some p) = (k + n - 1) / n) := by
  subst hn
  obtain ⟨r, hr, hact⟩ := List.countP_pos_iff.1 (show 0 < activeCount t from hpos)
  have hact : (t r).Active := by simpa using hact
  have hwait : Waiting t := ⟨hidle, r, hact.resolve_right (hidle r)⟩
  obtain ⟨served, hserved, hrounds⟩ := afterRounds_rounds hwait
  have hshare := share_bounds hpos
  have hstride : 0 < 1000 / (100 / activeCount t) :=
    Nat.div_pos (by omega) (by omega)
  constructor
  · -- all strides are equal, and each is added to a least pass: the library's bound on the spread
    rw [passSpread_le_iff, actives_congr (hwait.afterRounds k).2]
    have hstart := passSpread_le_iff.1 (le_max_left (passSpread t) (1000 / (100 / activeCount t)))
    have hmax := le_max_right (passSpread t) (1000 / (100 / activeCount t))
    exact hrounds.spread_le (by omega) (by omega) hstart k
  · intro heq
    have hsorted := actives_sorted t
    have hstart : ∀ p ∈ actives t, (afterRounds t 0 p).pass = (t r).pass :=
      fun p hp => heq p r (mem_actives.1 hp) hact
    have hturn := fun i => hrounds.in_turn hsorted (by omega) hstart i
    refine ⟨fun i => ?_, fun p hp => ?_⟩
    · rw [hserved, ← hturn i, length_actives]
    · have hcount := hrounds.count_served hsorted (by omega) hstart k (mem_actives.2 hp)
      rw [length_actives] at hcount
      simpa [hserved] using hcount

/-- Two RUNNABLE processes with equal passes: after 5 iterations the passes are 20 apart. -/
theorem stride_fair_two :
    passSpread (afterRounds idlePair.proc 5) ≤ 20 ∧
    dispatchedAt idlePair.proc 4 = some 0 := by
  have hn : activeCount idlePair.proc = 2 := by decide +kernel
  have hspread : passSpread idlePair.proc = 0 := by decide +kernel
  have hactives : actives idlePair.proc = [0, 1] := by decide +kernel
  have hidle : ∀ p, (idlePair.proc p).state ≠ .running := by decide +kernel
  have hequal : ∀ p q, (idlePair.proc p).Active → (idlePair.proc q).Active →
      (idlePair.proc p).pass = (idlePair.proc q).pass := by decide +kernel
  obtain ⟨h, hall⟩ := stride_fair hn (by decide) hidle 5
  rw [hspread] at h
  refine ⟨h, ?_⟩
  rw [(hall hequal).1 4, hactives]
  rfl

/-! ## The iterations of the machine -/

/-- As long as the pass fits in an `int`, an iteration of the machine and the `yield` that follows
    are a round with exact passes. -/
theorem schedule_yield_exact {s : Sys Unit} {p : Slot} (hidle : s.cpu () = none)
    (hp : dispatched s (.schedule ()) = some p) (hfits : PassFits s (.schedule ())) :
    ∃ s', Run Step s [(s, .schedule ()), (s.schedule (), .yield ())] s' ∧
      s'.cpu () = none ∧ s'.proc = (exactRound s.proc).2 ∧ (exactRound s.proc).1 = some p := by
  have hmin : getminproc (updateTickets s.proc) = some p := hp
  obtain ⟨hcpu, -⟩ := schedule_dispatch hp hfits
  have hyield : Step (s.schedule ()) (.yield ())
      ((s.schedule ()).leave () p fun q => { q with state := .runnable }) := by
    rw [Step, Sys.step, hcpu, Option.map_some]
  refine ⟨_, (Run.nil.snoc (step_schedule hidle)).snoc hyield, by simp [Sys.leave], ?_,
    by simp only [exactRound, hmin]⟩
  rcases schedule_cases s () with ⟨hnone, -⟩ | ⟨r, hr, hsch⟩
  · rw [hmin] at hnone
    cases hnone
  · obtain rfl : r = p := Option.some.inj (hr.symm.trans hmin)
    rw [hsch]
    simp only [Sys.leave, exactRound, hmin]
    funext q
    by_cases hq : q = r
    · subst hq
      have hpass := hfits q hp
      rw [ticketsUsed] at hpass
      simp [Proc.dispatch, hpass]
    · simp [Table.modify_of_ne hq]

end Cs350.Sched
