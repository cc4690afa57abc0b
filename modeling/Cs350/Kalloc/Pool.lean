import Cs350.Kalloc.Defs

set_option autoImplicit false

/-! # Every page is free or in use, and once only

The free list runs through pages that nobody may write in, so it stays what it is. In every state the
pages that `freerange` has gone over are the ones on the list and the ones that the kernel has. -/

namespace Cs350.Kalloc

open Transition
open Vm (uint pgSize pgRoundUp kernBase phyStop)

theorem p2v_phyStop : p2v phyStop = 0x8E000000 := rfl

/-! ## The functions -/

section Functions

variable {fin v vend : Nat} {k k' : Kmem} {ps : List Nat}

/-- Two pages are apart. -/
theorem page_apart {a b c d p q : Nat} (hp : Within a b p) (hq : Within c d q) (hne : p ≠ q) :
    p + pgSize ≤ q ∨ q + pgSize ≤ p := by
  have h₁ := hp.1
  have h₂ := hq.1
  unfold pgSize at *
  omega

theorem kfree_eq (hfin : kernBase ≤ fin) (hv : Within fin (p2v phyStop) v) :
    kfree fin v k =
      .ok { freelist := v, mem := (k.mem.memset v 1 pgSize).store v 4 k.freelist } := by
  obtain ⟨halign, hlo, hhi⟩ := hv
  rw [p2v_phyStop] at hhi
  refine if_neg ?_
  rintro (h | h | h)
  · exact h halign
  · omega
  · unfold v2p uint kernBase phyStop at h
    unfold kernBase at hfin
    unfold pgSize at hhi
    omega

/-- `kfree` puts the page at the front of the list. -/
theorem kfree_spec (hfin : kernBase ≤ fin) (hs : Threaded 4 k.mem k.freelist ps)
    (hps : ∀ p ∈ ps, Within fin (p2v phyStop) p) (hv : Within fin (p2v phyStop) v) (hnot : v ∉ ps) :
    ∃ k', kfree fin v k = .ok k' ∧ k'.freelist = v ∧ Threaded 4 k'.mem v (v :: ps) ∧
      ∀ a, a < v ∨ v + pgSize ≤ a → k'.mem a = k.mem a := by
  have hsize : pgSize = 4096 := rfl
  refine ⟨_, kfree_eq hfin hv, rfl, ?_, fun a ha => ?_⟩
  · refine .cons ?_ ?_
    · have hlo := hv.2.1
      unfold kernBase at hfin
      omega
    · have hhead : k.freelist < 256 ^ 4 := hs.head_lt (by decide) fun p hp =>
        Nat.lt_of_le_of_lt (Nat.le_of_add_right_le (hps p hp).2.2) (by decide)
      rw [Mem.load_store, Nat.mod_eq_of_lt hhead]
      refine hs.congr fun p hp => ?_
      have hne : p ≠ v := fun h => hnot (h ▸ hp)
      have hapart := page_apart (hps p hp) hv hne
      rw [Mem.load_store_of_disjoint _ _ _ _ _ _ (by omega)]
      exact Mem.load_congr fun i hi => Mem.memset_apply _ _ _ _ _ (by omega)
  · exact (Mem.store_apply _ _ _ _ _ (by omega)).trans (Mem.memset_apply _ _ _ _ _ ha)

theorem kalloc_nil (h : Threaded 4 k.mem k.freelist []) : kalloc k = (0, k) := by
  have hzero := h.head_eq_zero.2 rfl
  rw [kalloc, hzero]
  rfl

theorem kalloc_cons {p : Nat} (h : Threaded 4 k.mem k.freelist (p :: ps)) :
    kalloc k = (p, { k with freelist := k.mem.load p 4 }) ∧
      Threaded 4 k.mem (k.mem.load p 4) ps := by
  generalize hl : k.freelist = a at h
  cases h with
  | cons hp h =>
      refine ⟨?_, h⟩
      rw [kalloc, hl]
      exact congrArg _ (if_pos hp)

/-! ## `freerange` -/

theorem within_succ {p q : Nat} (hp : p % pgSize = 0) (hle : p + pgSize ≤ vend) :
    Within p vend q ↔ q = p ∨ Within (p + pgSize) vend q := by
  unfold Within pgSize at *
  omega

/-- What the loop has done when it ends. -/
structure Ranged (p vend : Nat) (k : Kmem) (ps : List Nat) (k' : Kmem) (qs : List Nat) : Prop where
  threaded : Threaded 4 k'.mem k'.freelist (qs ++ ps)
  nodup : qs.Nodup
  mem_iff : ∀ q, q ∈ qs ↔ Within p vend q
  mem : ∀ a, a < p ∨ vend ≤ a → k'.mem a = k.mem a

theorem freerangeLoop_spec (hfin : kernBase ≤ fin) {p n : Nat} (hp : p % pgSize = 0) (hlo : fin ≤ p)
    (hhi : vend ≤ p2v phyStop) (hs : Threaded 4 k.mem k.freelist ps)
    (hps : ∀ q ∈ ps, Within fin (p2v phyStop) q) (hnew : ∀ q ∈ ps, ¬Within p vend q)
    (hp32 : p ≤ p2v phyStop + pgSize) (hk : freerangeLoop fin vend n p k = .ok k') :
    ∃ qs, Ranged p vend k ps k' qs := by
  have hsize : pgSize = 4096 := rfl
  have htop := p2v_phyStop
  induction n generalizing p k ps with
  | zero => cases hk
  | succ n ih =>
      have hnext : uint (p + pgSize) = p + pgSize := Nat.mod_eq_of_lt (by omega)
      rw [freerangeLoop, hnext] at hk
      by_cases hle : p + pgSize ≤ vend
      · rw [if_pos hle] at hk
        have hpin : Within fin (p2v phyStop) p := ⟨hp, hlo, Nat.le_trans hle hhi⟩
        have hnot : p ∉ ps := fun h => hnew p h ⟨hp, Nat.le_refl p, hle⟩
        obtain ⟨k₁, hk₁, hlist, hs₁, hmem₁⟩ := kfree_spec hfin hs hps hpin hnot
        rw [hk₁] at hk
        have hp' : (p + pgSize) % pgSize = 0 := (Nat.add_mod_right p pgSize).trans hp
        have hnew' : ∀ q ∈ p :: ps, ¬Within (p + pgSize) vend q :=
          List.forall_mem_cons.2 ⟨fun h => absurd h.2.1 (by omega), fun q hq h =>
            hnew q hq ((within_succ hp hle).2 (.inr h))⟩
        have hs₂ : Threaded 4 k₁.mem k₁.freelist (p :: ps) := by
          rw [hlist]
          exact hs₁
        obtain ⟨qs, h⟩ := ih hp' (by omega) hs₂ (List.forall_mem_cons.2 ⟨hpin, hps⟩) hnew' (by omega) hk
        refine ⟨qs ++ [p], ?_, ?_, fun q => ?_, fun a ha => ?_⟩
        · rw [List.append_assoc]
          exact h.threaded
        · refine h.nodup.append (List.nodup_singleton p) fun q hq hqp => ?_
          have hwithin := (h.mem_iff q).1 hq
          rw [List.mem_singleton.1 hqp] at hwithin
          exact absurd hwithin.2.1 (by omega)
        · rw [List.mem_append, List.mem_singleton, h.mem_iff, within_succ hp hle, or_comm]
        · rw [h.mem a (by omega), hmem₁ a (by omega)]
      · rw [if_neg hle] at hk
        cases hk
        refine ⟨[], hs, List.nodup_nil, fun q => ⟨fun h => absurd h List.not_mem_nil, fun h => ?_⟩,
          fun _ _ => rfl⟩
        exact absurd (Nat.le_trans (Nat.add_le_add_right h.2.1 _) h.2.2) hle

/-- The loop ends, and `kfree` has nothing to complain of. -/
theorem freerangeLoop_ok (hfin : kernBase ≤ fin) {p n : Nat} (hp : p % pgSize = 0) (hlo : fin ≤ p)
    (hhi : vend ≤ p2v phyStop) (hp32 : p ≤ p2v phyStop + pgSize)
    (hn : vend < p + (n + 1) * pgSize) : ∃ k', freerangeLoop fin vend (n + 1) p k = .ok k' := by
  have hsize : pgSize = 4096 := rfl
  have htop := p2v_phyStop
  induction n generalizing p k with
  | zero => exact ⟨k, if_neg (by rw [uint, Nat.mod_eq_of_lt (by omega)]; omega)⟩
  | succ n ih =>
      have hnext : uint (p + pgSize) = p + pgSize := Nat.mod_eq_of_lt (by omega)
      rw [freerangeLoop, hnext]
      by_cases hle : p + pgSize ≤ vend
      · rw [if_pos hle, kfree_eq hfin ⟨hp, hlo, Nat.le_trans hle hhi⟩]
        have hp' : (p + pgSize) % pgSize = 0 := (Nat.add_mod_right p pgSize).trans hp
        rw [Nat.succ_mul] at hn
        exact ih hp' (by omega) (by omega) (by omega)
      · exact ⟨k, if_neg hle⟩

/-- `PGROUNDUP` -/
theorem pgRoundUp_spec {a : Nat} (h : a ≤ p2v phyStop) :
    pgRoundUp a % pgSize = 0 ∧ a ≤ pgRoundUp a ∧ pgRoundUp a < a + pgSize ∧
      ∀ q, Within (pgRoundUp a) vend q ↔ Within a vend q := by
  rw [p2v_phyStop] at h
  have hround : pgRoundUp a = (a + 4095) / 4096 * 4096 := by
    unfold pgRoundUp pgSize
    rw [uint, Nat.mod_eq_of_lt (by omega)]
    rfl
  rw [hround]
  unfold Within pgSize
  refine ⟨Nat.mul_mod_left .., by omega, by omega, fun q => ?_⟩
  omega

theorem freerange_ok (hfin : kernBase ≤ fin) {vstart : Nat} (hlo : fin ≤ vstart)
    (hle : vstart ≤ vend) (hhi : vend ≤ p2v phyStop) :
    ∃ n k', freerange fin vstart vend n k = .ok k' := by
  obtain ⟨halign, hge, hlt, _⟩ := @pgRoundUp_spec vend vstart (Nat.le_trans hle hhi)
  have htop := p2v_phyStop
  exact ⟨_, @freerangeLoop_ok fin vend k hfin _ (2 ^ 20) halign (Nat.le_trans hlo hge) hhi (by omega)
    (by unfold pgSize; omega)⟩

end Functions

/-! ## Runs -/

/-- The free pages, as the list that runs through them, and the pages in use. -/
structure Pool (fin : Nat) (s : St) (ps : List Nat) : Prop where
  threaded : Threaded 4 s.k.mem s.k.freelist ps
  nodup : ps.Nodup
  given : ∀ p, s.given p ↔ p ∈ ps ∨ s.owned p
  free : ∀ p ∈ ps, ¬s.owned p
  within : ∀ p, s.given p → Within fin (p2v phyStop) p

section Runs

variable {fin : Nat} {s s' : St} {ps : List Nat}

theorem boot_pool (mem : Mem) : Pool fin (boot mem) [] where
  threaded := .nil
  nodup := List.nodup_nil
  given p := by simp [boot]
  free p hp := absurd hp List.not_mem_nil
  within p h := h.elim

/-- The pages on the list. -/
theorem Pool.of_mem (h : Pool fin s ps) : ∀ p ∈ ps, Within fin (p2v phyStop) p := fun p hp =>
  h.within p ((h.given p).2 (.inl hp))

theorem Pool.kalloc_cons {p : Nat} (h : Pool fin s (p :: ps)) :
    kalloc s.k = (p, { s.k with freelist := s.k.mem.load p 4 }) ∧ Pool fin
      ⟨(kalloc s.k).2, fun q => s.owned q ∨ (q = (kalloc s.k).1 ∧ q ≠ 0), s.given⟩ ps := by
  obtain ⟨hk, hs⟩ := Kalloc.kalloc_cons h.threaded
  have hp := h.threaded.ne_zero p (List.mem_cons_self ..)
  have hnodup := List.nodup_cons.1 h.nodup
  refine ⟨hk, ?_⟩
  rw [hk]
  refine ⟨hs, hnodup.2, fun q => ?_, fun q hq hown => ?_, h.within⟩
  · dsimp only
    rw [h.given q, List.mem_cons]
    constructor
    · rintro ((rfl | hq) | hown)
      · exact .inr (.inr ⟨rfl, hp⟩)
      · exact .inl hq
      · exact .inr (.inl hown)
    · rintro (hq | hown | ⟨rfl, _⟩)
      · exact .inl (.inr hq)
      · exact .inr hown
      · exact .inl (.inl rfl)
  · rcases hown with hown | ⟨rfl, _⟩
    · exact h.free q (List.mem_cons_of_mem p hq) hown
    · exact hnodup.1 hq

theorem Pool.kalloc_nil (h : Pool fin s []) : kalloc s.k = (0, s.k) := Kalloc.kalloc_nil h.threaded

theorem Pool.kfree (hfin : kernBase ≤ fin) (h : Pool fin s ps) {v : Nat} (hown : s.owned v) :
    ∃ k', Kalloc.kfree fin v s.k = .ok k' ∧ k'.freelist = v ∧
      Pool fin ⟨k', fun p => s.owned p ∧ p ≠ v, s.given⟩ (v :: ps) ∧
      ∀ a, a < v ∨ v + pgSize ≤ a → k'.mem a = s.k.mem a := by
  have hgiven : s.given v := (h.given v).2 (.inr hown)
  have hnot : v ∉ ps := fun hv => h.free v hv hown
  obtain ⟨k', hk, hlist, hs, hmem⟩ := kfree_spec hfin h.threaded h.of_mem (h.within v hgiven) hnot
  refine ⟨k', hk, hlist, ⟨?_, List.nodup_cons.2 ⟨hnot, h.nodup⟩, fun p => ?_, ?_, h.within⟩, hmem⟩
  · rw [hlist]
    exact hs
  · dsimp only
    rw [h.given p, List.mem_cons]
    by_cases hp : p = v
    · simp [hp, hown]
    · simp [hp]
  · refine List.forall_mem_cons.2 ⟨fun hv => hv.2 rfl, fun p hp hv => h.free p hp hv.1⟩

theorem Pool.step (hfin : kernBase ≤ fin) (h : Pool fin s ps) {a : Act} (hs : Step fin s a s') :
    ∃ qs, Pool fin s' qs := by
  cases hs with
  | @kinit vstart vend n k hlo hle hhi hnew hk =>
      obtain ⟨halign, hge, hlt, hwithin⟩ := @pgRoundUp_spec vend vstart (Nat.le_trans hle hhi)
      have hnot : ∀ q, s.given q → ¬Within vstart vend q := fun q hq hin => by
        have hsize : pgSize = 4096 := rfl
        have hapart := hnew q hq
        have hlow := hin.2.1
        have hhigh := hin.2.2
        omega
      obtain ⟨qs, hr⟩ := freerangeLoop_spec hfin halign (Nat.le_trans hlo hge) hhi h.threaded h.of_mem
        (fun q hq hin => hnot q ((h.given q).2 (.inl hq)) ((hwithin q).1 hin)) (by omega) hk
      have hqs : ∀ q, q ∈ qs ↔ Within vstart vend q := fun q => (hr.mem_iff q).trans (hwithin q)
      refine ⟨qs ++ ps, hr.threaded, hr.nodup.append h.nodup fun q hq hqp => ?_, fun p => ?_,
        fun p hp hown => ?_, fun p hp => ?_⟩
      · exact hnot q ((h.given q).2 (.inl hqp)) ((hqs q).1 hq)
      · dsimp only
        rw [h.given p, List.mem_append, hqs p, or_right_comm, or_comm (b := p ∈ ps)]
      · rcases List.mem_append.1 hp with hp | hp
        · exact hnot p ((h.given p).2 (.inr hown)) ((hqs p).1 hp)
        · exact h.free p hp hown
      · rcases hp with hp | hp
        · exact h.within p hp
        · exact ⟨hp.1, Nat.le_trans hlo hp.2.1, Nat.le_trans hp.2.2 hhi⟩
  | kalloc =>
      cases ps with
      | nil =>
          rw [h.kalloc_nil]
          refine ⟨[], h.threaded, h.nodup, fun p => ?_, fun p hp => absurd hp List.not_mem_nil, h.within⟩
          dsimp only
          rw [h.given p]
          simp
      | cons p ps => exact ⟨ps, h.kalloc_cons.2⟩
  | @kfree v k hown hk =>
      obtain ⟨k', hk', _, hpool, _⟩ := h.kfree hfin hown
      rw [hk] at hk'
      rw [Except.ok.inj hk']
      exact ⟨v :: ps, hpool⟩
  | @write mem hmem =>
      refine ⟨ps, h.threaded.congr fun p hp => ?_, h.nodup, h.given, h.free, h.within⟩
      refine Mem.load_congr fun i hi => hmem p ((h.given p).2 (.inl hp)) (h.free p hp) _ (by omega) ?_
      unfold pgSize
      omega

theorem reachable_pool (hfin : kernBase ≤ fin) {mem : Mem}
    (h : Reachable (Step fin) (boot mem) s) : ∃ ps, Pool fin s ps := by
  have hstep : ∀ s a s', (∃ ps, Pool fin s ps) → Step fin s a s' → ∃ ps, Pool fin s' ps := by
    rintro s a s' ⟨ps, hpool⟩ hs
    exact hpool.step hfin hs
  exact h.invariant ⟨[], boot_pool mem⟩ hstep

/-- `kinit1` at boot: a kernel of one page, and two pages after it. -/
theorem boot_two : ∃ s : St, Reachable (Step (kernBase + 4096)) (boot fun _ => 0) s ∧
    s.given (kernBase + 4096) ∧ ∀ p, ¬s.owned p := by
  have htop : kernBase + 12288 ≤ p2v phyStop := by decide
  obtain ⟨n, k, hk⟩ := @freerange_ok (kernBase + 4096) (kernBase + 12288) (boot fun _ => 0).k
    (by decide) (kernBase + 4096) (by decide) (by decide) htop
  have hstep := Step.kinit (s := boot fun _ => 0) (Nat.le_refl _) (by decide) htop
    (fun p hp => hp.elim) hk
  exact ⟨_, ⟨_, Run.nil.snoc hstep⟩, Or.inr ⟨by decide, by decide, by decide⟩, fun _ => id⟩

/-- **The page allocator.** In every state that the kernel comes to by frees of pages that it has and
    by writes outside the free pages, `kalloc` fails exactly if no page is free, and else gives one that
    nobody has; `kfree` takes a page back, touches no other, and gives it out next; and a new range is
    gone over page by page to its end. -/
theorem page_allocator (hfin : kernBase ≤ fin) {mem : Mem}
    (h : Reachable (Step fin) (boot mem) s) :
    ((kalloc s.k).1 = 0 ↔ ∀ p, s.given p → s.owned p) ∧
    ((kalloc s.k).1 ≠ 0 → s.given (kalloc s.k).1 ∧ ¬s.owned (kalloc s.k).1 ∧
      Within fin (p2v phyStop) (kalloc s.k).1 ∧ (kalloc s.k).2.mem = s.k.mem) ∧
    (∀ v, s.owned v → ∃ k, kfree fin v s.k = .ok k ∧ (kalloc k).1 = v ∧
      ∀ a, a < v ∨ v + pgSize ≤ a → k.mem a = s.k.mem a) ∧
    ∀ vstart vend, fin ≤ vstart → vstart ≤ vend → vend ≤ p2v phyStop →
      ∃ n k, freerange fin vstart vend n s.k = .ok k := by
  obtain ⟨ps, hpool⟩ := reachable_pool hfin h
  refine ⟨?_, fun hne => ?_, fun v hown => ?_, fun vstart vend hlo hle hhi => ?_⟩
  · have hzero : (kalloc s.k).1 = 0 ↔ ps = [] := hpool.threaded.head_eq_zero
    rw [hzero]
    constructor
    · rintro rfl p hp
      exact ((hpool.given p).1 hp).resolve_left List.not_mem_nil
    · intro hall
      refine List.eq_nil_iff_forall_not_mem.2 fun p hp => hpool.free p hp ?_
      exact hall p ((hpool.given p).2 (.inl hp))
  · cases ps with
    | nil =>
        rw [hpool.kalloc_nil] at hne
        exact absurd rfl hne
    | cons p ps =>
        have hgiven : s.given p := (hpool.given p).2 (.inl (List.mem_cons_self ..))
        rw [hpool.kalloc_cons.1]
        exact ⟨hgiven, hpool.free p (List.mem_cons_self ..), hpool.within p hgiven, rfl⟩
  · obtain ⟨k, hk, hlist, hnew, hmem⟩ := hpool.kfree hfin hown
    exact ⟨k, hk, hlist, hmem⟩
  · exact freerange_ok hfin hlo hle hhi

theorem page_allocator_boot : ∃ s : St, s.given (kernBase + 4096) ∧
    ((kalloc s.k).1 = 0 ↔ ∀ p, s.given p → s.owned p) := by
  obtain ⟨s, hreach, hgiven, _⟩ := boot_two
  exact ⟨s, hgiven, (page_allocator (by decide) hreach).1⟩

end Runs

end Cs350.Kalloc
