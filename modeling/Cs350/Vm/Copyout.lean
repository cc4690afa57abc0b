import Cs350.Lib.Agrees
import Cs350.Vm.Sbrk

set_option autoImplicit false

/-! # Copying to the user (`copyout`)

`uva2ka` reads the entry that `walkpgdir` has found. Where there is no page table, `walkpgdir` finds
none, and the read is one from address 0. Here such a read leaves the address that was looked up as
a mark, before the kernel panics. Up to it, `copyout` writes to pages that are open to the user
only. -/

namespace Cs350.Vm

open Prog

/-! ## The program, with marks -/

namespace Watched

/-- `uva2ka` -/
def uva2ka (pgdir uva : Nat) : Prog Panic Nat State (Option Nat) :=
  unmarked (walkpgdir pgdir uva false) >>= fun
    | none => mark (fun _ => uva) >>= fun _ => stop .fault
    | some (pgtab, i) => get >>= fun s => pure (userPage (s.entry pgtab i))

/-- The loop of `copyout`. -/
def copyoutLoop (pgdir : Nat) : Nat → Nat → List UInt8 → Prog Panic Nat State Bool
  | 0, _, _ => pure true
  | n + 1, va, buf =>
      if buf = [] then pure true
      else
        uva2ka pgdir (pgRoundDown va) >>= fun
          | none => pure false
          | some page =>
              let k := min (pgSize - va % pgSize) buf.length
              modify (fun s => s.setPage page (write (s.mem page) (va % pgSize) (buf.take k))) >>=
                fun _ => copyoutLoop pgdir n (uint (pgRoundDown va + pgSize)) (buf.drop k)

/-- `copyout` -/
def copyout (pgdir va : Nat) (buf : List UInt8) : Prog Panic Nat State Bool :=
  copyoutLoop pgdir buf.length va buf

theorem uva2ka_agrees (pgdir uva : Nat) :
    Agrees (uva2ka pgdir uva) (Vm.uva2ka pgdir uva) := by
  refine Agrees.bind (Agrees.unmarked _) fun r => ?_
  cases r with
  | none => exact Agrees.mark_bind (Agrees.stop _)
  | some r => exact Agrees.bind Agrees.get fun _ => Agrees.pure _

theorem copyoutLoop_agrees (pgdir n va : Nat) (buf : List UInt8) :
    Agrees (copyoutLoop pgdir n va buf) (Vm.copyoutLoop pgdir n va buf) := by
  induction n generalizing va buf with
  | zero => exact Agrees.pure true
  | succ n ih =>
      refine Agrees.ite (fun _ => Agrees.pure true) fun _ => ?_
      refine Agrees.bind (uva2ka_agrees _ _) fun r => ?_
      cases r with
      | none => exact Agrees.pure false
      | some page => exact Agrees.bind (Agrees.modify _) fun _ => ih _ _

/-- The marks change nothing. -/
theorem copyout_agrees (pgdir va : Nat) (buf : List UInt8) :
    Agrees (copyout pgdir va buf) (Vm.copyout pgdir va buf) :=
  copyoutLoop_agrees _ _ _ _

end Watched

/-! ## The pages of a range -/

/-- The page is mapped, and open to the user. -/
def Space.Open (S : Space) (v : Nat) : Prop := Present (S.pte v) ∧ User (S.pte v)

theorem Space.Open.userPage {S : Space} {v : Nat} (h : S.Open v) :
    userPage (S.pte v) = some (pageOf (S.pte v)) := if_pos h

/-- The page `v` meets the range of `len` addresses from `va` on. -/
def Meets (va len v : Nat) : Prop := ∃ a, va ≤ a ∧ a < va + len ∧ a / pgSize = v

/-- The first page of the range that is not open, if there is one, has a page table. -/
def Tabled (S : Space) (va len : Nat) : Prop :=
  ∀ v, Meets va len v → ¬ S.Open v → (∀ u < v, Meets va len u → S.Open u) →
    (S.tab (v / 1024)).isSome

theorem not_meets_zero (va v : Nat) : ¬ Meets va 0 v := by
  rintro ⟨a, hlo, hhi, -⟩
  omega

/-- The length of the part of the range that lies on the first page. -/
def firstPart (va len : Nat) : Nat := min (pgSize - va % pgSize) len

section Range

variable {va len : Nat}

/-- The address of the next round, if there is one. -/
theorem next_va (hva : va + len ≤ 2 ^ 32) :
    uint (pgRoundDown va + pgSize) = va + firstPart va len ∨ len = firstPart va len := by
  unfold uint pgRoundDown firstPart pgSize
  omega

theorem next_le (hva : va + len ≤ 2 ^ 32) :
    uint (pgRoundDown va + pgSize) + (len - firstPart va len) ≤ 2 ^ 32 := by
  unfold uint pgRoundDown firstPart pgSize
  omega

/-- The first page, and those of the rounds after it. -/
theorem meets_step (hlen : 0 < len) (hva : va + len ≤ 2 ^ 32) {u : Nat} :
    Meets va len u ↔ u = va / pgSize ∨
      Meets (uint (pgRoundDown va + pgSize)) (len - firstPart va len) u := by
  unfold Meets uint pgRoundDown firstPart pgSize
  constructor
  · rintro ⟨a, hlo, hhi, rfl⟩
    by_cases hfirst : a / 4096 = va / 4096
    · exact Or.inl hfirst
    · exact Or.inr ⟨a, by omega, by omega, rfl⟩
  · rintro (rfl | ⟨a, hlo, hhi, rfl⟩)
    · exact ⟨va, le_rfl, by omega, rfl⟩
    · exact ⟨a, by omega, by omega, rfl⟩

theorem meets_next_gt (hva : va + len ≤ 2 ^ 32) {u : Nat}
    (h : Meets (uint (pgRoundDown va + pgSize)) (len - firstPart va len) u) : va / pgSize < u := by
  obtain ⟨a, hlo, hhi, rfl⟩ := h
  unfold uint pgRoundDown firstPart pgSize at *
  omega

/-- The first page is open: what holds of the range holds of the rest. -/
theorem Tabled.next {S : Space} (hlen : 0 < len) (hva : va + len ≤ 2 ^ 32)
    (hopen : S.Open (va / pgSize)) :
    Tabled S va len ↔ Tabled S (uint (pgRoundDown va + pgSize)) (len - firstPart va len) := by
  constructor
  · intro h v hv hno hfirst
    refine h v ((meets_step hlen hva).2 (Or.inr hv)) hno fun u hu hm => ?_
    rcases (meets_step hlen hva).1 hm with rfl | hm
    · exact hopen
    · exact hfirst u hu hm
  · intro h v hv hno hfirst
    rcases (meets_step hlen hva).1 hv with rfl | hv
    · exact absurd hopen hno
    · exact h v hv hno fun u hu hm => hfirst u hu ((meets_step hlen hva).2 (Or.inr hm))

end Range

/-! ## What a call should do -/

/-- Open pages have frames of their own, which are not the directory or a page table. -/
structure Apart (S : Space) (d : Nat) : Prop where
  inj : ∀ u v, S.Open u → S.Open v → pageOf (S.pte u) = pageOf (S.pte v) → u = v
  dir : ∀ v, S.Open v → pageOf (S.pte v) ≠ d
  tab : ∀ v, S.Open v → ∀ i, S.tab i ≠ some (pageOf (S.pte v))

/-- The byte at an address of an open page. -/
def byteAt (S : Space) (s : State) (a : Nat) : UInt8 :=
  s.mem (pageOf (S.pte (a / pgSize))) (a % pgSize)

/-- The bytes are in place if all pages of the range are open, and otherwise the call fails; it
    writes to open pages of the range only. -/
structure CopiedOut (S : Space) (va : Nat) (buf : List UInt8) (s s' : State) (ok : Bool) : Prop where
  ok_iff : ok = true ↔ ∀ v, Meets va buf.length v → S.Open v
  bytes : ok = true → ∀ a, S.Open (a / pgSize) → byteAt S s' a =
    if va ≤ a ∧ a < va + buf.length then buf.getD (a - va) 0 else byteAt S s a
  written : ∀ x, s'.mem x ≠ s.mem x →
    ∃ v, Meets va buf.length v ∧ S.Open v ∧ pageOf (S.pte v) = x
  rest : s' = { s with mem := s'.mem }

section Rounds

variable {S : Space} {s : State} {d n va : Nat} {buf : List UInt8}

theorem walk_run (hS : space s.mem d = S) (hva : va < 2 ^ 32) :
    walkpgdir d (pgRoundDown va) false s =
      ([], .ok ((S.tab (va / pgSize / 1024)).map fun t => (t, va / pgSize % 1024), s)) := by
  have hdir : pdx (pgRoundDown va) = va / pgSize / 1024 := by
    unfold pdx pgRoundDown pgSize
    omega
  have hidx : ptx (pgRoundDown va) = va / pgSize % 1024 := by
    unfold ptx pgRoundDown pgSize
    omega
  have hlt : va / pgSize / 1024 < 1024 := by
    unfold pgSize
    omega
  have htab : S.tab (va / pgSize / 1024) = pageAt (s.entry d (pdx (pgRoundDown va))) := by
    rw [← hS, tab_eq hlt, hdir]
    rfl
  rw [htab, ← hidx]
  unfold walkpgdir
  have hget : (get : VmM State) s = ([], .ok (s, s)) := rfl
  rw [bind_run hget]
  by_cases hP : Present (s.entry d (pdx (pgRoundDown va)))
  · rw [if_pos hP, pageAt_of_present hP]
    rfl
  · rw [if_neg hP, if_neg Bool.false_ne_true, pageAt_of_not_present hP]
    rfl

/-- Without a page table, the address leaves a mark. -/
theorem round_no_table (hS : space s.mem d = S) (hva : va < 2 ^ 32) (hbuf : buf ≠ [])
    (htab : S.tab (va / pgSize / 1024) = none) :
    pgRoundDown va ∈ (Watched.copyoutLoop d (n + 1) va buf s).1 := by
  have hwalk := walk_run hS hva
  rw [htab] at hwalk
  rw [Watched.copyoutLoop, if_neg hbuf]
  refine marks_bind _ _ s ?_
  rw [Watched.uva2ka, bind_run (unmarked_run hwalk)]
  exact marks_bind _ _ s (List.mem_singleton_self _)

theorem uva2ka_run {t : Nat} (hS : space s.mem d = S) (hva : va < 2 ^ 32)
    (htab : S.tab (va / pgSize / 1024) = some t) :
    Watched.uva2ka d (pgRoundDown va) s = ([], .ok (userPage (S.pte (va / pgSize)), s)) := by
  have hwalk := walk_run hS hva
  have hpte : s.entry t (va / pgSize % 1024) = S.pte (va / pgSize) := by
    rw [← hS] at htab ⊢
    exact (pte_of_tab htab).symm
  rw [htab] at hwalk
  rw [Watched.uva2ka, bind_run (unmarked_run hwalk), ← hpte]
  rfl

/-- The page is not open. -/
theorem round_closed {t : Nat} (hS : space s.mem d = S) (hva : va < 2 ^ 32) (hbuf : buf ≠ [])
    (htab : S.tab (va / pgSize / 1024) = some t) (hno : ¬ S.Open (va / pgSize)) :
    Watched.copyoutLoop d (n + 1) va buf s = ([], .ok (false, s)) := by
  have hrun := uva2ka_run hS hva htab
  rw [show userPage (S.pte (va / pgSize)) = none from if_neg hno] at hrun
  rw [Watched.copyoutLoop, if_neg hbuf, bind_run hrun]
  rfl

/-- The page is open. -/
theorem round_open (hS : space s.mem d = S) (hva : va < 2 ^ 32) (hbuf : buf ≠ [])
    (hopen : S.Open (va / pgSize)) :
    Watched.copyoutLoop d (n + 1) va buf s =
      Watched.copyoutLoop d n (uint (pgRoundDown va + pgSize))
        (buf.drop (firstPart va buf.length)) (s.setPage (pageOf (S.pte (va / pgSize)))
          (write (s.mem (pageOf (S.pte (va / pgSize)))) (va % pgSize)
            (buf.take (firstPart va buf.length)))) := by
  obtain ⟨t, htab⟩ : ∃ t, S.tab (va / pgSize / 1024) = some t := by
    cases ht : S.tab (va / pgSize / 1024) with
    | none =>
        have hP := hopen.1
        rw [← hS] at ht hP
        rw [pte_of_no_tab ht] at hP
        exact absurd hP not_present_zero
    | some t => exact ⟨t, rfl⟩
  have hrun := uva2ka_run hS hva htab
  rw [hopen.userPage] at hrun
  rw [Watched.copyoutLoop, if_neg hbuf, bind_run hrun]
  rfl

theorem firstPart_le (va len : Nat) : firstPart va len ≤ len := Nat.min_le_right ..

/-- What one round writes. -/
def afterRound (S : Space) (va : Nat) (buf : List UInt8) (s : State) : State :=
  s.setPage (pageOf (S.pte (va / pgSize)))
    (write (s.mem (pageOf (S.pte (va / pgSize)))) (va % pgSize)
      (buf.take (firstPart va buf.length)))

theorem space_round (hS : space s.mem d = S) (hap : Apart S d) (hopen : S.Open (va / pgSize)) :
    space (afterRound S va buf s).mem d = S := by
  subst hS
  exact space_update_of_ne _ (hap.dir _ hopen) (hap.tab _ hopen)

theorem byteAt_round (hap : Apart S d) (hopen : S.Open (va / pgSize)) {a : Nat}
    (ha : S.Open (a / pgSize)) :
    byteAt S (afterRound S va buf s) a =
      if va ≤ a ∧ a < va + firstPart va buf.length then buf.getD (a - va) 0 else byteAt S s a := by
  have hle := firstPart_le va buf.length
  have hpart : firstPart va buf.length ≤ pgSize - va % pgSize := Nat.min_le_left ..
  have hlen : (buf.take (firstPart va buf.length)).length = firstPart va buf.length :=
    List.length_take_of_le hle
  by_cases hav : a / pgSize = va / pgSize
  · have hwrite : byteAt S (afterRound S va buf s) a =
        write (s.mem (pageOf (S.pte (va / pgSize)))) (va % pgSize)
          (buf.take (firstPart va buf.length)) (a % pgSize) := by
      rw [byteAt, hav]
      exact congrFun (Function.update_self ..) _
    rw [hwrite, write, hlen, byteAt, hav]
    have hiff : (va % pgSize ≤ a % pgSize ∧ a % pgSize < va % pgSize + firstPart va buf.length) ↔
        va ≤ a ∧ a < va + firstPart va buf.length := by
      unfold pgSize at *
      omega
    simp only [hiff]
    by_cases hin : va ≤ a ∧ a < va + firstPart va buf.length
    · have hoff : a % pgSize - va % pgSize = a - va := by
        unfold pgSize at *
        omega
      rw [if_pos hin, if_pos hin, hoff, List.getD_eq_getElem?_getD, List.getD_eq_getElem?_getD,
        List.getElem?_take_of_lt (by omega)]
    · rw [if_neg hin, if_neg hin]
  · -- another page, in another frame
    have hne : pageOf (S.pte (a / pgSize)) ≠ pageOf (S.pte (va / pgSize)) := fun heq =>
      hav (hap.inj _ _ ha hopen heq)
    have hout : ¬ (va ≤ a ∧ a < va + firstPart va buf.length) := by
      unfold pgSize at *
      omega
    have hmem : (afterRound S va buf s).mem (pageOf (S.pte (a / pgSize))) =
        s.mem (pageOf (S.pte (a / pgSize))) := Function.update_of_ne hne ..
    rw [if_neg hout, byteAt, byteAt, hmem]

theorem CopiedOut.nil (S : Space) (va : Nat) (s : State) : CopiedOut S va [] s s true where
  ok_iff := ⟨fun _ v hv => absurd hv (not_meets_zero va v), fun _ => rfl⟩
  bytes _ a _ := by
    rw [if_neg]
    rintro ⟨hlo, hhi⟩
    exact absurd hhi (Nat.not_lt.2 hlo)
  written _ hne := absurd rfl hne
  rest := rfl

/-- A round more. -/
theorem CopiedOut.next {s' : State} {ok : Bool} (hbuf : buf ≠ []) (hva : va + buf.length ≤ 2 ^ 32)
    (hap : Apart S d) (hopen : S.Open (va / pgSize))
    (h : CopiedOut S (uint (pgRoundDown va + pgSize)) (buf.drop (firstPart va buf.length))
      (afterRound S va buf s) s' ok) : CopiedOut S va buf s s' ok := by
  have hlen := List.length_pos_iff.2 hbuf
  have hdrop : (buf.drop (firstPart va buf.length)).length =
      buf.length - firstPart va buf.length := List.length_drop
  obtain ⟨hok, hbytes, hwritten, hrest⟩ := h
  rw [hdrop] at hok hbytes hwritten
  refine ⟨hok.trans ⟨fun hall v hv => ?_, fun hall v hv => ?_⟩, fun htrue a ha => ?_,
    fun x hx => ?_, ?_⟩
  · rcases (meets_step hlen hva).1 hv with rfl | hv
    · exact hopen
    · exact hall v hv
  · exact hall v ((meets_step hlen hva).2 (Or.inr hv))
  · rw [hbytes htrue a ha, byteAt_round hap hopen ha]
    have hle := firstPart_le va buf.length
    rcases next_va hva with hnext | hdone
    · rw [hnext]
      by_cases hlater : va + firstPart va buf.length ≤ a ∧ a < va + buf.length
      · have hidx : firstPart va buf.length + (a - (va + firstPart va buf.length)) = a - va := by
          omega
        rw [if_pos (by omega), if_pos (by omega), List.getD_eq_getElem?_getD,
          List.getD_eq_getElem?_getD, List.getElem?_drop, hidx]
      · rw [if_neg (by omega)]
        exact if_congr (by omega) rfl rfl
    · rw [if_neg (by omega), ← hdone]
  · by_cases hround : s'.mem x = (afterRound S va buf s).mem x
    · -- written in this round
      rw [hround] at hx
      have hpage : x = pageOf (S.pte (va / pgSize)) := by
        by_contra hne
        exact hx (Function.update_of_ne hne ..)
      exact ⟨va / pgSize, (meets_step hlen hva).2 (Or.inl rfl), hopen, hpage.symm⟩
    · obtain ⟨v, hv, hrest⟩ := hwritten x hround
      exact ⟨v, (meets_step hlen hva).2 (Or.inr hv), hrest⟩
  · rw [hrest]
    rfl

/-- The page is not open: the call stops there. -/
theorem CopiedOut.closed (hbuf : buf ≠ []) (hva : va + buf.length ≤ 2 ^ 32)
    (hno : ¬ S.Open (va / pgSize)) : CopiedOut S va buf s s false where
  ok_iff := ⟨fun h => (nomatch h), fun hall => absurd
    (hall _ ((meets_step (List.length_pos_iff.2 hbuf) hva).2 (Or.inl rfl))) hno⟩
  bytes h := nomatch h
  written _ hne := absurd rfl hne
  rest := rfl

theorem copyoutLoop_good (hap : Apart S d) (n : Nat) (hn : buf.length ≤ n)
    (hS : space s.mem d = S) (hva : va + buf.length ≤ 2 ^ 32) (htab : Tabled S va buf.length) :
    ∃ ok s', Watched.copyoutLoop d n va buf s = ([], .ok (ok, s')) ∧
      CopiedOut S va buf s s' ok := by
  induction n generalizing va buf s with
  | zero =>
      obtain rfl := List.eq_nil_of_length_eq_zero (Nat.le_zero.1 hn)
      exact ⟨true, s, rfl, CopiedOut.nil S va s⟩
  | succ n ih =>
      by_cases hbuf : buf = []
      · subst hbuf
        exact ⟨true, s, rfl, CopiedOut.nil S va s⟩
      have hlen := List.length_pos_iff.2 hbuf
      by_cases hopen : S.Open (va / pgSize)
      · have hpart : 0 < firstPart va buf.length := by
          unfold firstPart pgSize
          omega
        have hdrop : (buf.drop (firstPart va buf.length)).length =
            buf.length - firstPart va buf.length := List.length_drop
        have hrest : (buf.drop (firstPart va buf.length)).length ≤ n := by omega
        obtain ⟨ok, s', hrun, hcopied⟩ := ih hrest
          (space_round hS hap hopen) (by rw [hdrop]; exact next_le hva)
          (by rw [hdrop]; exact (Tabled.next hlen hva hopen).1 htab)
        refine ⟨ok, s', ?_, hcopied.next hbuf hva hap hopen⟩
        rw [round_open hS (by omega) hbuf hopen]
        exact hrun
      · -- the first page that is not open, so it has a page table
        have hfirst : Meets va buf.length (va / pgSize) := (meets_step hlen hva).2 (Or.inl rfl)
        have hsome := htab _ hfirst hopen fun u hu hm => by
          obtain ⟨a, hlo, -, rfl⟩ := hm
          exact absurd (Nat.div_le_div_right hlo) (Nat.not_le.2 hu)
        obtain ⟨t, ht⟩ := Option.isSome_iff_exists.1 hsome
        exact ⟨false, s, round_closed hS (by omega) hbuf ht hopen,
          CopiedOut.closed hbuf hva hopen⟩

theorem copyoutLoop_bad (hap : Apart S d) (n : Nat) (hn : buf.length ≤ n)
    (hS : space s.mem d = S) (hva : va + buf.length ≤ 2 ^ 32) (htab : ¬ Tabled S va buf.length) :
    (Watched.copyoutLoop d n va buf s).1 ≠ [] := by
  induction n generalizing va buf s with
  | zero =>
      obtain rfl := List.eq_nil_of_length_eq_zero (Nat.le_zero.1 hn)
      exact absurd (fun v hv => absurd hv (not_meets_zero va v)) htab
  | succ n ih =>
      by_cases hbuf : buf = []
      · subst hbuf
        exact absurd (fun v hv => absurd hv (not_meets_zero va v)) htab
      have hlen := List.length_pos_iff.2 hbuf
      by_cases hopen : S.Open (va / pgSize)
      · have hpart : 0 < firstPart va buf.length := by
          unfold firstPart pgSize
          omega
        have hdrop : (buf.drop (firstPart va buf.length)).length =
            buf.length - firstPart va buf.length := List.length_drop
        rw [round_open hS (by omega) hbuf hopen]
        refine ih (by omega) (space_round hS hap hopen) (by rw [hdrop]; exact next_le hva) ?_
        rw [hdrop]
        exact fun h => htab ((Tabled.next hlen hva hopen).2 h)
      · cases ht : S.tab (va / pgSize / 1024) with
        | none => exact List.ne_nil_of_mem (round_no_table hS (by omega) hbuf ht)
        | some t =>
            -- the call stops here, and the pages after this one do not count
            refine absurd (fun v hv hno hfirst => ?_) htab
            rcases (meets_step hlen hva).1 hv with rfl | hv
            · rw [ht]
              rfl
            · exact absurd (hfirst _ (meets_next_gt hva hv)
                ((meets_step hlen hva).2 (Or.inl rfl))) hopen

/-- **When `copyout` is safe**: it does what it should, without a read through a missing page table,
    if and only if the first page of the range that is not open, if there is one, has a page
    table. -/
theorem copyout_safe_iff (hS : space s.mem d = S) (hap : Apart S d)
    (hva : va + buf.length ≤ 2 ^ 32) :
    (∃ ok s', Watched.copyout d va buf s = ([], .ok (ok, s')) ∧ CopiedOut S va buf s s' ok) ↔
      Tabled S va buf.length := by
  constructor
  · rintro ⟨ok, s', hrun, -⟩
    by_contra htab
    refine copyoutLoop_bad hap buf.length le_rfl hS hva htab ?_
    exact congrArg Prod.fst hrun
  · exact copyoutLoop_good hap buf.length le_rfl hS hva

end Rounds

/-! ## A process with one page -/

theorem open_parent {v : Nat} : (space parentMem 401).Open v ↔ v = 0 := by
  rw [space_parent]
  constructor
  · rintro ⟨hP, -⟩
    by_contra hne
    rw [Space.setPte_of_ne _ _ hne, Space.addTab_pte] at hP
    exact not_present_zero hP
  · rintro rfl
    unfold Space.Open
    rw [Space.setPte_self]
    decide

/-- The pages of an address space are its own. -/
theorem Has.apart {L : Layout} {R : Multiset Nat} {s : State} {S : Space} {d : Nat}
    (h : Has L d S R s) (hopen : ∀ v, S.Open v → v < userPages) : Apart S d := by
  have hnd := h.owned.nodup_left
  rw [Space.foot, Multiset.nodup_add] at hnd
  have hpage : ∀ {v}, S.Open v → pageAt (S.pte v) = some (pageOf (S.pte v)) :=
    fun hv => pageAt_of_present hv.1
  refine ⟨fun u v hu hv heq => ?_, fun v hv => h.frame_ne_dir (hopen v hv) (hpage hv),
    fun v hv i ht => h.frame_ne_tab (hopen v hv) (hpage hv) ht rfl⟩
  by_contra huv
  exact holdings.ne_of_nodup hnd.2.1 (hopen u hu) (hopen v hv) huv (hpage hu) (hpage hv) heq

theorem apart_parent : Apart (space parentMem 401) 401 := by
  obtain ⟨lost, h⟩ := (sound_parent []).has (live_parent [])
  have hS : space (parent []).mem ((parent []).proc 0).pgdir = space parentMem 401 := rfl
  rw [hS] at h
  exact h.apart fun v hv => by
    rw [open_parent.1 hv]
    decide

/-! ## A process with four pages -/

theorem open_fourSpace {v : Nat} : fourSpace.Open v ↔ v < 4 ∧ v ≠ 2 := by
  constructor
  · rintro ⟨hP, hU⟩
    have hlt := present_fourSpace.1 hP
    exact ⟨hlt, (fourSpace_flags v hlt).2.1 hU⟩
  · rintro ⟨hlt, hne⟩
    exact ⟨(fourSpace_flags v hlt).1, (fourSpace_flags v hlt).2.2 hne⟩

/-- Ten bytes, six of them at the end of the first page and four at the beginning of the second, and
    two bytes at the border to the page that is closed to the user. -/
theorem copyout_fourPages :
    (∃ s', Watched.copyout 401 4090 [97, 98, 99, 100, 101, 102, 103, 104, 105, 106] fourPages =
        ([], .ok (true, s')) ∧
      CopiedOut fourSpace 4090 [97, 98, 99, 100, 101, 102, 103, 104, 105, 106] fourPages s' true) ∧
    ∃ s', Watched.copyout 401 8191 [97, 98] fourPages = ([], .ok (false, s')) ∧
      CopiedOut fourSpace 8191 [97, 98] fourPages s' false := by
  obtain ⟨R, h⟩ := has_fourPages
  have hap : Apart fourSpace 401 := h.apart fun v hv => (open_fourSpace.1 hv).1.trans (by decide)
  have htab : ∀ {va len}, va + len ≤ 4 * pgSize → Tabled fourSpace va len := by
    intro va len hle v hv _ _
    obtain ⟨a, -, ha, rfl⟩ := hv
    have hregion : a / pgSize / 1024 = 0 := by
      unfold pgSize at *
      omega
    rw [hregion, tab_fourSpace]
    rfl
  have hva : 4090 + ([97, 98, 99, 100, 101, 102, 103, 104, 105, 106] : List UInt8).length ≤ 2 ^ 32 :=
    by decide
  obtain ⟨ok, s₁, hrun, hcopied⟩ := (copyout_safe_iff h.space hap hva).2 (htab (by decide))
  have hok : ok = true := hcopied.ok_iff.2 fun v hv => by
    obtain ⟨a, hlo, hhi, rfl⟩ := hv
    rw [open_fourSpace]
    simp only [List.length_cons, List.length_nil] at hhi
    unfold pgSize
    omega
  have hva' : 8191 + ([97, 98] : List UInt8).length ≤ 2 ^ 32 := by decide
  obtain ⟨ok', s₂, hrun', hcopied'⟩ := (copyout_safe_iff h.space hap hva').2 (htab (by decide))
  have hno : ok' = false := by
    rw [Bool.eq_false_iff]
    intro htrue
    have hopen := hcopied'.ok_iff.1 htrue 2 ⟨8192, by decide, by decide, by decide⟩
    exact (open_fourSpace.1 hopen).2 rfl
  rw [hok] at hrun hcopied
  rw [hno] at hrun' hcopied'
  exact ⟨⟨s₁, hrun, hcopied⟩, s₂, hrun', hcopied'⟩

/-- One byte to an address in the next four megabytes, for which there is no page table: `uva2ka`
    reads through the null pointer, and as the kernel is compiled, it panics there. -/
theorem copyout_reads_null : Apart (space (parent []).mem 401) 401 ∧
    ¬ ∃ ok s', Watched.copyout 401 0x400000 [65] (parent []) = ([], .ok (ok, s')) ∧
      CopiedOut (space (parent []).mem 401) 0x400000 [65] (parent []) s' ok := by
  refine ⟨apart_parent, ?_⟩
  rintro ⟨ok, s', hrun, -⟩
  have hS : space (parent []).mem 401 = space parentMem 401 := rfl
  have hva : 0x400000 + [(65 : UInt8)].length ≤ 2 ^ 32 := by decide
  refine copyoutLoop_bad apart_parent 1 (by decide) hS hva (fun htab => ?_)
    (congrArg Prod.fst hrun)
  have hclosed : ¬ (space parentMem 401).Open 1024 := fun h => absurd (open_parent.1 h) (by decide)
  have hsome := htab 1024 ⟨0x400000, le_rfl, by decide, by decide⟩ hclosed fun u hu hm => by
    obtain ⟨a, hlo, -, rfl⟩ := hm
    unfold pgSize at hu
    omega
  rw [space_parent, Space.setPte_tab, Space.addTab_of_ne _ _ (by decide)] at hsome
  exact nomatch hsome

end Cs350.Vm
