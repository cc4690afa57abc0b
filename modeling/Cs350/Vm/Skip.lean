import Cs350.Lib.Agrees
import Cs350.Vm.Grow

set_option autoImplicit false

/-! # The jumps of `deallocuvm`

Where there is no page table, `deallocuvm` goes on with the first page of the next one. The pages it
jumps over have no entries, and as nothing changes meanwhile, visiting them one by one would have
been the same; this is so whatever the page directory looks like. What the visits amount to is said
for a directory in which the pages of the range are used once. -/

namespace Cs350.Vm

open Prog

section Loops

variable (L : Layout)

/-- What is done with the entry that `walkpgdir` has found. -/
def unmapEntry (pgtab i : Nat) : VmM Unit :=
  get >>= fun s =>
    if Present (s.entry pgtab i) then
      if pageOf (s.entry pgtab i) = 0 then stop .kfree
      else kfree L (pageOf (s.entry pgtab i)) >>= fun _ => modify fun s => s.setEntry pgtab i 0
    else pure ()

/-- A round of the loop of `deallocuvm`, with the address it goes on with. -/
def deallocRound (pgdir a : Nat) : VmM Nat :=
  walkpgdir pgdir a false >>= fun
    | none => pure (uint ((pdx a + 1) * 2 ^ 22 - pgSize + pgSize))
    | some (pgtab, i) => unmapEntry L pgtab i >>= fun _ => pure (uint (a + pgSize))

/-- The loop of `deallocuvm` from `a` on; `false` if it has not come to its end in `n` rounds. -/
def deallocWhile (pgdir oldsz : Nat) : Nat → Nat → VmM Bool
  | 0, _ => pure false
  | n + 1, a =>
      if a < oldsz then deallocRound L pgdir a >>= fun a => deallocWhile pgdir oldsz n a
      else pure true

/-- One page, without a jump. -/
def visit (pgdir v : Nat) : VmM Unit :=
  walkpgdir pgdir (v * pgSize) false >>= fun
    | none => pure ()
    | some (pgtab, i) => unmapEntry L pgtab i

end Loops

/-- The pages from `newsz`, rounded up, to `oldsz`, in order. -/
def pagesIn (newsz oldsz : Nat) : List Nat :=
  List.range' (pageUp newsz) (pageUp oldsz - pageUp newsz)

theorem lt_pageUp {v sz : Nat} : v < pageUp sz ↔ v * pgSize < sz := by
  unfold pageUp pgSize
  omega

theorem mem_pagesIn {v newsz oldsz : Nat} (hold : oldsz ≤ kernBase) (hlt : newsz < oldsz) :
    v ∈ pagesIn newsz oldsz ↔ pgRoundUp newsz ≤ v * pgSize ∧ v * pgSize < oldsz := by
  have hle : pageUp newsz ≤ pageUp oldsz := by
    unfold pageUp pgSize
    omega
  rw [pgRoundUp_eq (by omega), pagesIn, List.mem_range'_1, ← lt_pageUp, Nat.add_sub_of_le hle]
  unfold pgSize
  omega

/-- A range of pages, cut at the page `v'`. -/
theorem range'_split {v v' : Nat} (hle : v ≤ v') (top : Nat) :
    List.range' v (top - v) = List.range' v (min top v' - v) ++ List.range' v' (top - v') := by
  obtain ⟨k, rfl⟩ := Nat.exists_eq_add_of_le hle
  rcases Nat.le_total (v + k) top with htop | htop
  · have hcount : top - v = k + (top - (v + k)) := by omega
    rw [min_eq_right htop, Nat.add_sub_cancel_left, List.range'_append_1, ← hcount]
  · rw [min_eq_left htop, Nat.sub_eq_zero_of_le htop, List.range'_zero, List.append_nil]

/-! ## Visiting every page -/

section Every

variable {L : Layout} {d : Nat}

theorem walkpgdir_run (va : Nat) (s : State) :
    walkpgdir d va false s = ([], .ok ((pageAt (s.entry d (pdx va))).map (·, ptx va), s)) := by
  have hget : (get : VmM State) s = ([], .ok (s, s)) := rfl
  rw [walkpgdir, bind_run hget]
  by_cases hP : Present (s.entry d (pdx va))
  · rw [if_pos hP, pageAt_of_present hP]
    rfl
  · rw [if_neg hP, if_neg Bool.false_ne_true, pageAt_of_not_present hP]
    rfl

/-- The loop of the model is this one. -/
theorem deallocLoop_eq (oldsz n a : Nat) :
    deallocLoop L d oldsz n a = deallocWhile L d oldsz n a >>= fun _ => pure () := by
  induction n generalizing a with
  | zero => rfl
  | succ n ih =>
      rw [deallocLoop, deallocWhile]
      split_ifs with hlt
      · simp only [deallocRound, Prog.bind_assoc]
        refine bind_congr fun r => ?_
        cases r with
        | none => exact ih _
        | some r =>
            simp only [unmapEntry, Prog.bind_assoc]
            refine bind_congr fun s => ?_
            split_ifs with hP hzero
            · rfl
            · simp only [Prog.bind_assoc]
              exact bind_congr fun _ => bind_congr fun _ => ih _
            · exact ih _
      · rfl

theorem visit_no_table {v : Nat} {s : State} (h : pageAt (s.entry d (pdx (v * pgSize))) = none) :
    visit L d v s = ([], .ok ((), s)) := by
  rw [visit, bind_run (walkpgdir_run _ s), h]
  rfl

/-- The loop comes to its end, and does what visiting every page does. -/
theorem deallocWhile_eq {oldsz : Nat} (hold : oldsz ≤ kernBase) (n v : Nat)
    (hn : pageUp oldsz - v < n) :
    deallocWhile L d oldsz n (v * pgSize) =
      each (visit L d) (List.range' v (pageUp oldsz - v)) >>= fun _ => pure true := by
  induction n generalizing v with
  | zero => omega
  | succ n ih =>
      rw [deallocWhile]
      by_cases hlt : v * pgSize < oldsz
      · rw [if_pos hlt]
        have hv : v < 2 ^ 19 := by
          unfold kernBase pgSize at *
          omega
        have hrange : v < pageUp oldsz := lt_pageUp.2 hlt
        funext s
        rw [deallocRound, Prog.bind_assoc, bind_run (walkpgdir_run _ s)]
        cases htab : pageAt (s.entry d (pdx (v * pgSize))) with
        | none =>
            -- the pages up to the next page table, as far as they are in the range
            have hjump : uint ((pdx (v * pgSize) + 1) * 2 ^ 22 - pgSize + pgSize) =
                (v / 1024 + 1) * 1024 * pgSize := by
              rw [pdx_page (by omega)]
              unfold uint pgSize
              omega
            have hsplit : List.range' v (pageUp oldsz - v) =
                List.range' v (min (pageUp oldsz) ((v / 1024 + 1) * 1024) - v) ++
                  List.range' ((v / 1024 + 1) * 1024) (pageUp oldsz - (v / 1024 + 1) * 1024) :=
              range'_split (by omega) _
            have hsame : ∀ u ∈ List.range' v (min (pageUp oldsz) ((v / 1024 + 1) * 1024) - v),
                visit L d u s = ([], .ok ((), s)) := by
              intro u hu
              rw [List.mem_range'_1] at hu
              have hdir : pdx (u * pgSize) = pdx (v * pgSize) := by
                rw [pdx_page (by omega), pdx_page (by omega)]
                omega
              apply visit_no_table
              rw [hdir, htab]
            rw [hsplit, bind_congr_run (each_skip hsame), ← ih _ (by omega), ← hjump]
            rfl
        | some t =>
            have hnext : uint (v * pgSize + pgSize) = (v + 1) * pgSize := by
              unfold uint pgSize
              omega
            have hcons : List.range' v (pageUp oldsz - v) =
                v :: List.range' (v + 1) (pageUp oldsz - (v + 1)) := by
              have hcount : pageUp oldsz - v = pageUp oldsz - (v + 1) + 1 := by omega
              rw [hcount, List.range'_succ]
            rw [hcons]
            show _ = ((visit L d v >>= fun _ => each (visit L d) _) >>= _) s
            rw [Prog.bind_assoc, visit, Prog.bind_assoc, bind_run (walkpgdir_run _ s), htab,
              ← ih _ (by omega), ← hnext]
            simp only [Option.map_some, Prog.bind_assoc]
            rfl
      · have hend : pageUp oldsz ≤ v := Nat.not_lt.1 fun h => hlt (lt_pageUp.1 h)
        rw [if_neg hlt, Nat.sub_eq_zero_of_le hend]
        rfl

end Every

/-! ## What the visits do -/

/-- The pages in `vs` have frames that can be given back, no two of them the same, and none of them
    the directory or a page table of the pages; and the page tables are different. -/
structure Separate (L : Layout) (d : Nat) (vs : List Nat) (s : State) : Prop where
  bounds : ∀ v ∈ vs, ∀ p, pageAt ((space s.mem d).pte v) = some p →
    L.fin ≤ p ∧ p < phyStop / pgSize
  frame_ne_dir : ∀ v ∈ vs, pageAt ((space s.mem d).pte v) ≠ some d
  frame_ne_tab : ∀ v ∈ vs, ∀ p, pageAt ((space s.mem d).pte v) = some p →
    ∀ u ∈ vs, (space s.mem d).tab (u / 1024) ≠ some p
  frame_inj : ∀ v ∈ vs, ∀ u ∈ vs, u ≠ v → ∀ p, pageAt ((space s.mem d).pte v) = some p →
    pageAt ((space s.mem d).pte u) ≠ some p
  tab_ne_dir : ∀ v ∈ vs, (space s.mem d).tab (v / 1024) ≠ some d
  tab_inj : ∀ v ∈ vs, ∀ u ∈ vs, ∀ t, (space s.mem d).tab (v / 1024) = some t →
    (space s.mem d).tab (u / 1024) = some t → u / 1024 = v / 1024

/-- From `s` to `s'` the pages in `vs` are unmapped: the frame of each present entry is given back,
    once and in order, the entry is cleared, and every other byte and the rest of the state are as
    they were. -/
structure Unmapped (d : Nat) (vs : List Nat) (s s' : State) : Prop where
  freelist : s'.freelist =
    (vs.filterMap fun v => pageAt ((space s.mem d).pte v)).reverse ++ s.freelist
  filled : ∀ v ∈ vs, ∀ p, pageAt ((space s.mem d).pte v) = some p → s'.mem p = filled 1
  cleared : ∀ v ∈ vs, ∀ t, Present ((space s.mem d).pte v) →
    (space s.mem d).tab (v / 1024) = some t → s'.entry t (v % 1024) = 0
  kept : ∀ p a, (∀ v ∈ vs, pageAt ((space s.mem d).pte v) ≠ some p) →
    (∀ v ∈ vs, Present ((space s.mem d).pte v) → (space s.mem d).tab (v / 1024) = some p →
      a < 4 * (v % 1024) ∨ 4 * (v % 1024) + 4 ≤ a) → s'.mem p a = s.mem p a
  rest : s' = { s with mem := s'.mem, freelist := s'.freelist }

section Visits

variable {L : Layout} {d : Nat} {s s' : State} {v p t : Nat} {vs : List Nat}

theorem Separate.tail (h : Separate L d (v :: vs) s) : Separate L d vs s where
  bounds u hu := h.bounds u (List.mem_cons_of_mem v hu)
  frame_ne_dir u hu := h.frame_ne_dir u (List.mem_cons_of_mem v hu)
  frame_ne_tab u hu p hp w hw :=
    h.frame_ne_tab u (List.mem_cons_of_mem v hu) p hp w (List.mem_cons_of_mem v hw)
  frame_inj u hu w hw := h.frame_inj u (List.mem_cons_of_mem v hu) w (List.mem_cons_of_mem v hw)
  tab_ne_dir u hu := h.tab_ne_dir u (List.mem_cons_of_mem v hu)
  tab_inj u hu w hw := h.tab_inj u (List.mem_cons_of_mem v hu) w (List.mem_cons_of_mem v hw)

theorem Separate.frame_ne (h : Separate L d vs s) (hv : v ∈ vs)
    (hp : pageAt ((space s.mem d).pte v) = some p) : p ≠ d := by
  rintro rfl
  exact h.frame_ne_dir v hv hp

theorem Separate.tab_ne (h : Separate L d vs s) (hv : v ∈ vs)
    (ht : (space s.mem d).tab (v / 1024) = some t) : t ≠ d := by
  rintro rfl
  exact h.tab_ne_dir v hv ht

theorem Separate.tab_ne_frame (h : Separate L d vs s) (hv : v ∈ vs)
    (hp : pageAt ((space s.mem d).pte v) = some p) {u : Nat} (hu : u ∈ vs)
    (ht : (space s.mem d).tab (u / 1024) = some t) : t ≠ p := by
  rintro rfl
  exact h.frame_ne_tab v hv t hp u hu ht

/-- The state after the frame `p` is given back and the entry of `v` in the page table `t` is
    cleared. -/
def State.unmap (s : State) (t v p : Nat) : State :=
  ({ s with mem := Function.update s.mem p (Vm.filled 1),
            freelist := p :: s.freelist } : State).setEntry t (v % 1024) 0

theorem visit_absent (hv : v < 2 ^ 20) (hP : ¬ Present ((space s.mem d).pte v)) :
    visit L d v s = ([], .ok ((), s)) := by
  have htab : (space s.mem d).tab (v / 1024) = pageAt (s.entry d (v / 1024)) := tab_eq (by omega)
  rw [visit, bind_run (walkpgdir_run _ s), pdx_page hv, ptx_page, ← htab]
  cases ht : (space s.mem d).tab (v / 1024) with
  | none => rfl
  | some t =>
      have hpte : (space s.mem d).pte v = s.entry t (v % 1024) := pte_of_tab ht
      have hget : (get : VmM State) s = ([], .ok (s, s)) := rfl
      rw [hpte] at hP
      show unmapEntry L t (v % 1024) s = _
      rw [unmapEntry, bind_run hget, if_neg hP]
      rfl

theorem visit_present (hv : v < 2 ^ 20) (ht : (space s.mem d).tab (v / 1024) = some t)
    (hp : pageAt ((space s.mem d).pte v) = some p) (hlo : L.fin ≤ p) (hhi : p < phyStop / pgSize) :
    visit L d v s = ([], .ok ((), s.unmap t v p)) := by
  have htab : (space s.mem d).tab (v / 1024) = pageAt (s.entry d (v / 1024)) := tab_eq (by omega)
  rw [visit, bind_run (walkpgdir_run _ s), pdx_page hv, ptx_page, ← htab, ht]
  have hpte : (space s.mem d).pte v = s.entry t (v % 1024) := pte_of_tab ht
  rw [hpte] at hp
  obtain ⟨hP, hpage⟩ := pageAt_eq_some.1 hp
  have hpos : p ≠ 0 := by
    have hext : extMem / pgSize = 256 := rfl
    have htext := L.text
    have hfin := L.fin_le.1
    omega
  have hget : (get : VmM State) s = ([], .ok (s, s)) := rfl
  have hfree : kfree L p s = ([], .ok ((), { s with
      mem := Function.update s.mem p (Vm.filled 1), freelist := p :: s.freelist })) := by
    rw [kfree, if_neg (by omega)]
    rfl
  show unmapEntry L t (v % 1024) s = _
  rw [unmapEntry, bind_run hget, if_pos hP, if_neg (by rw [hpage]; exact hpos), hpage,
    bind_run hfree]
  rfl

theorem unmap_frame (htp : t ≠ p) : (s.unmap t v p).mem p = Vm.filled 1 :=
  (Function.update_of_ne (Ne.symm htp) ..).trans (Function.update_self ..)

theorem unmap_table (htp : t ≠ p) :
    (s.unmap t v p).mem t = (s.mem t).store (4 * (v % 1024)) 4 0 := by
  refine (Function.update_self ..).trans ?_
  exact congrArg (fun m : Mem => m.store (4 * (v % 1024)) 4 0) (Function.update_of_ne htp ..)

theorem unmap_other {q : Nat} (hqt : q ≠ t) (hqp : q ≠ p) : (s.unmap t v p).mem q = s.mem q :=
  (Function.update_of_ne hqt ..).trans (Function.update_of_ne hqp ..)

/-- The directory is still there. -/
theorem unmap_tab (htd : t ≠ d) (hpd : p ≠ d) :
    (space (s.unmap t v p).mem d).tab = (space s.mem d).tab := by
  funext i
  show tabOf (s.unmap t v p).mem d i = tabOf s.mem d i
  rw [tabOf, tabOf, unmap_other (Ne.symm htd) (Ne.symm hpd)]

/-- So are the entries of the other pages. -/
theorem Separate.unmap_pte (h : Separate L d (v :: vs) s) (ht : (space s.mem d).tab (v / 1024) = some t)
    (hp : pageAt ((space s.mem d).pte v) = some p) {u : Nat} (hu : u ∈ vs) (huv : u ≠ v) :
    (space (s.unmap t v p).mem d).pte u = (space s.mem d).pte u := by
  have hv : v ∈ v :: vs := List.mem_cons_self
  have hu' : u ∈ v :: vs := List.mem_cons_of_mem v hu
  have htd := h.tab_ne hv ht
  have hpd := h.frame_ne hv hp
  have htp := h.tab_ne_frame hv hp hv ht
  have htab := congrFun (unmap_tab (s := s) (v := v) htd hpd) (u / 1024)
  cases htu : (space s.mem d).tab (u / 1024) with
  | none => rw [pte_of_no_tab (htab.trans htu), pte_of_no_tab htu]
  | some t' =>
      have htp' := h.tab_ne_frame hv hp hu' htu
      rw [pte_of_tab (htab.trans htu), pte_of_tab htu]
      by_cases htt : t' = t
      · -- another entry of the same page table
        have hdiv := h.tab_inj v hv u hu' t ht (htt ▸ htu)
        have hmod : u % 1024 ≠ v % 1024 := by omega
        rw [htt, unmap_table htp, entry_store_of_ne _ _ hmod]
      · rw [unmap_other htt htp']

theorem Separate.congr (h : Separate L d vs s) (htab : (space s'.mem d).tab = (space s.mem d).tab)
    (hpte : ∀ v ∈ vs, (space s'.mem d).pte v = (space s.mem d).pte v) : Separate L d vs s' := by
  have hpage : ∀ v ∈ vs, pageAt ((space s'.mem d).pte v) = pageAt ((space s.mem d).pte v) :=
    fun v hv => by rw [hpte v hv]
  refine ⟨fun v hv p hp => ?_, fun v hv hd => ?_, fun v hv p hp u hu ht => ?_,
    fun v hv u hu huv p hp hpu => ?_, fun v hv hd => ?_, fun v hv u hu t htv htu => ?_⟩
  · rw [hpage v hv] at hp
    exact h.bounds v hv p hp
  · rw [hpage v hv] at hd
    exact h.frame_ne_dir v hv hd
  · rw [hpage v hv] at hp
    rw [htab] at ht
    exact h.frame_ne_tab v hv p hp u hu ht
  · rw [hpage v hv] at hp
    rw [hpage u hu] at hpu
    exact h.frame_inj v hv u hu huv p hp hpu
  · rw [htab] at hd
    exact h.tab_ne_dir v hv hd
  · rw [htab] at htv htu
    exact h.tab_inj v hv u hu t htv htu

theorem Unmapped.nil (d : Nat) (s : State) : Unmapped d [] s s where
  freelist := rfl
  filled _ hv := nomatch hv
  cleared _ hv := nomatch hv
  kept _ _ _ _ := rfl
  rest := rfl

/-- A page without an entry. -/
theorem Unmapped.skip (h : Unmapped d vs s s') (hP : ¬ Present ((space s.mem d).pte v)) :
    Unmapped d (v :: vs) s s' where
  freelist := by
    simp only [List.filterMap_cons, pageAt_of_not_present hP]
    exact h.freelist
  filled u hu p hp := by
    rcases List.mem_cons.1 hu with rfl | hu
    · exact absurd (pageAt_eq_some.1 hp).1 hP
    · exact h.filled u hu p hp
  cleared u hu t hPu ht := by
    rcases List.mem_cons.1 hu with rfl | hu
    · exact absurd hPu hP
    · exact h.cleared u hu t hPu ht
  kept p a hframe hword :=
    h.kept p a (fun u hu => hframe u (List.mem_cons_of_mem v hu))
      fun u hu => hword u (List.mem_cons_of_mem v hu)
  rest := h.rest

/-- A page with an entry. -/
theorem Unmapped.cons (hapart : Separate L d (v :: vs) s) (hv : v ∉ vs)
    (ht : (space s.mem d).tab (v / 1024) = some t)
    (hp : pageAt ((space s.mem d).pte v) = some p) (h : Unmapped d vs (s.unmap t v p) s') :
    Unmapped d (v :: vs) s s' := by
  have hmem : v ∈ v :: vs := List.mem_cons_self
  have htd := hapart.tab_ne hmem ht
  have hpd := hapart.frame_ne hmem hp
  have htp := hapart.tab_ne_frame hmem hp hmem ht
  have htab := unmap_tab (s := s) (v := v) htd hpd
  have hpte : ∀ u ∈ vs, (space (s.unmap t v p).mem d).pte u = (space s.mem d).pte u :=
    fun u hu => hapart.unmap_pte ht hp hu fun heq => hv (heq ▸ hu)
  have hmore : ∀ u ∈ vs, u ∈ v :: vs := fun u hu => List.mem_cons_of_mem v hu
  -- the pages that come later leave the frame and the word alone
  have hframe : s'.mem p = Vm.filled 1 := by
    rw [← unmap_frame (s := s) (v := v) htp]
    funext a
    refine h.kept p a (fun u hu heq => ?_) fun u hu _ htu => ?_
    · rw [hpte u hu] at heq
      exact hapart.frame_inj v hmem u (hmore u hu) (fun huv => hv (huv ▸ hu)) p hp heq
    · rw [htab] at htu
      exact absurd htu (hapart.frame_ne_tab v hmem p hp u (hmore u hu))
  have hword : s'.entry t (v % 1024) = (s.unmap t v p).entry t (v % 1024) := by
    refine Mem.load_congr fun i hi => h.kept t _ (fun u hu heq => ?_) fun u hu _ htu => ?_
    · rw [hpte u hu] at heq
      exact hapart.frame_ne_tab u (hmore u hu) t heq v hmem ht
    · rw [htab] at htu
      have hdiv := hapart.tab_inj v hmem u (hmore u hu) t ht htu
      have huv : u ≠ v := fun heq => hv (heq ▸ hu)
      omega
  refine ⟨?_, ?_, ?_, ?_, h.rest.trans rfl⟩
  · have hsame : vs.filterMap (fun u => pageAt ((space (s.unmap t v p).mem d).pte u)) =
        vs.filterMap (fun u => pageAt ((space s.mem d).pte u)) :=
      List.filterMap_congr fun u hu => by rw [hpte u hu]
    have hhead : (s.unmap t v p).freelist = p :: s.freelist := rfl
    rw [h.freelist, hsame, hhead]
    simp only [List.filterMap_cons, hp, List.reverse_cons, List.append_assoc, List.singleton_append]
  · intro u hu q hq
    rcases List.mem_cons.1 hu with rfl | hu
    · obtain rfl := Option.some.inj (hp.symm.trans hq)
      exact hframe
    · exact h.filled u hu q (by rw [hpte u hu, hq])
  · intro u hu t' hP ht'
    rcases List.mem_cons.1 hu with rfl | hu
    · obtain rfl := Option.some.inj (ht.symm.trans ht')
      rw [hword, State.entry, unmap_table htp]
      exact entry_store_self _ _ _ (Nat.two_pow_pos 32)
    · exact h.cleared u hu t' (by rwa [hpte u hu]) (by rwa [htab])
  · intro q a hother hbyte
    have hqp : q ≠ p := by
      rintro rfl
      exact hother v hmem hp
    have hrest : s'.mem q a = (s.unmap t v p).mem q a := by
      refine h.kept q a (fun u hu => ?_) fun u hu hP htu => ?_
      · rw [hpte u hu]
        exact hother u (hmore u hu)
      · rw [hpte u hu] at hP
        rw [htab] at htu
        exact hbyte u (hmore u hu) hP htu
    rw [hrest]
    by_cases hqt : q = t
    · rw [hqt, unmap_table htp]
      exact Mem.store_apply _ _ _ _ _ (hbyte v hmem (pageAt_eq_some.1 hp).1 (hqt ▸ ht))
    · rw [unmap_other hqt hqp]

theorem each_visit_spec (hvs : ∀ v ∈ vs, v < 2 ^ 20) (hnd : vs.Nodup) (h : Separate L d vs s) :
    ∃ s', each (visit L d) vs s = ([], .ok ((), s')) ∧ Unmapped d vs s s' := by
  induction vs generalizing s with
  | nil => exact ⟨s, rfl, Unmapped.nil d s⟩
  | cons v vs ih =>
      rw [List.nodup_cons] at hnd
      have hv : v ∈ v :: vs := List.mem_cons_self
      have hlt := hvs v hv
      have hlts : ∀ u ∈ vs, u < 2 ^ 20 := fun u hu => hvs u (List.mem_cons_of_mem v hu)
      show ∃ s', (visit L d v >>= fun _ => each (visit L d) vs) s = _ ∧ _
      by_cases hP : Present ((space s.mem d).pte v)
      · have hp := pageAt_of_present hP
        generalize pageOf ((space s.mem d).pte v) = p at hp
        obtain ⟨hlo, hhi⟩ := h.bounds v hv p hp
        cases ht : (space s.mem d).tab (v / 1024) with
        | none =>
            rw [pte_of_no_tab ht] at hP
            exact absurd hP not_present_zero
        | some t =>
            have hrest : Separate L d vs (s.unmap t v p) :=
              h.tail.congr (unmap_tab (h.tab_ne hv ht) (h.frame_ne hv hp))
                fun u hu => h.unmap_pte ht hp hu fun heq => hnd.1 (heq ▸ hu)
            obtain ⟨s', hrun, hspec⟩ := ih hlts hnd.2 hrest
            rw [bind_run (visit_present hlt ht hp hlo hhi)]
            exact ⟨s', hrun, hspec.cons h hnd.1 ht hp⟩
      · obtain ⟨s', hrun, hspec⟩ := ih hlts hnd.2 h.tail
        rw [bind_run (visit_absent hlt hP)]
        exact ⟨s', hrun, hspec.skip hP⟩

/-- In an address space whose pages are its own, the pages below `KERNBASE` are used once. -/
theorem Has.separate {S : Space} {R : Multiset Nat} (h : Has L d S R s)
    (hvs : ∀ v ∈ vs, v < userPages) : Separate L d vs s := by
  have hnd := h.owned.nodup_left
  obtain rfl := h.space
  refine ⟨?_, ?_, ?_, ?_, ?_, ?_⟩
  · intro v hv p hp
    exact h.owned.bounds (Multiset.mem_add.2 (Or.inl (Space.mem_foot_of_pte (hvs v hv) hp)))
  · intro v hv hp
    exact h.frame_ne_dir (hvs v hv) hp rfl
  · intro v hv p hp u _ htu
    exact h.frame_ne_tab (hvs v hv) hp htu rfl
  · intro v hv u hu huv p hp hpu
    rw [Space.foot, Multiset.nodup_add] at hnd
    exact holdings.ne_of_nodup hnd.2.1 (hvs u hu) (hvs v hv) huv hpu hp rfl
  · intro v _ htd
    exact Space.tab_ne_dir hnd (h.tab_lt htd) htd rfl
  · intro v _ u _ t htv htu
    by_contra hne
    exact Space.tab_ne_tab hnd (h.tab_lt htu) (h.tab_lt htv) hne htu htv rfl

end Visits

/-- **`deallocuvm` skips exactly.** Below `KERNBASE` its loop comes to its end, and whatever the page
    directory looks like, it does the same as visiting the pages from `newsz`, rounded up, to `oldsz`
    one by one; where their frames can be given back and are used once, it gives back the frame of
    each present entry once, clears the entry, and changes nothing else. -/
theorem deallocuvm_exact (L : Layout) (d : Nat) {oldsz newsz : Nat} (hold : oldsz ≤ kernBase)
    (hlt : newsz < oldsz) :
    (∀ v, v ∈ pagesIn newsz oldsz ↔ pgRoundUp newsz ≤ v * pgSize ∧ v * pgSize < oldsz) ∧
    deallocWhile L d oldsz (2 ^ 20) (pgRoundUp newsz) =
      (each (visit L d) (pagesIn newsz oldsz) >>= fun _ => pure true) ∧
    deallocuvm L d oldsz newsz =
      (each (visit L d) (pagesIn newsz oldsz) >>= fun _ => pure newsz) ∧
    ∀ s, Separate L d (pagesIn newsz oldsz) s →
      ∃ s', deallocuvm L d oldsz newsz s = ([], .ok (newsz, s')) ∧
        Unmapped d (pagesIn newsz oldsz) s s' := by
  have hcount : pageUp oldsz - pageUp newsz < 2 ^ 20 := by
    unfold pageUp kernBase pgSize at *
    omega
  have hwhile : deallocWhile L d oldsz (2 ^ 20) (pgRoundUp newsz) =
      each (visit L d) (pagesIn newsz oldsz) >>= fun _ => pure true := by
    rw [pgRoundUp_eq (by omega)]
    exact deallocWhile_eq hold _ _ hcount
  have hrun : deallocuvm L d oldsz newsz =
      each (visit L d) (pagesIn newsz oldsz) >>= fun _ => pure newsz := by
    rw [deallocuvm, if_neg (Nat.not_le.2 hlt), deallocLoop_eq, hwhile, Prog.bind_assoc,
      Prog.bind_assoc]
    rfl
  refine ⟨fun v => mem_pagesIn hold hlt, hwhile, hrun, fun s hs => ?_⟩
  have hsmall : ∀ v ∈ pagesIn newsz oldsz, v < 2 ^ 20 := by
    intro v hv
    have hbelow := ((mem_pagesIn hold hlt).1 hv).2
    unfold kernBase pgSize at *
    omega
  obtain ⟨s', heach, hspec⟩ := each_visit_spec hsmall List.nodup_range' hs
  refine ⟨s', ?_, hspec⟩
  rw [hrun, bind_run heach]
  rfl

/-- The parent's page, and 511 regions without a page table. -/
theorem deallocuvm_exact_parent :
    (∀ v, v ∈ pagesIn 0 kernBase ↔ pgRoundUp 0 ≤ v * pgSize ∧ v * pgSize < kernBase) ∧
    deallocWhile layout 401 kernBase (2 ^ 20) (pgRoundUp 0) =
      (each (visit layout 401) (pagesIn 0 kernBase) >>= fun _ => pure true) ∧
    deallocuvm layout 401 kernBase 0 =
      (each (visit layout 401) (pagesIn 0 kernBase) >>= fun _ => pure 0) ∧
    ∃ s', deallocuvm layout 401 kernBase 0 (parent []) = ([], .ok (0, s')) ∧
      Unmapped 401 (pagesIn 0 kernBase) (parent []) s' := by
  have hpos : 0 < kernBase := by decide
  have hlive : ((parent []).proc 0).Live := ⟨by decide, by decide⟩
  obtain ⟨lost, hhas⟩ := (sound_parent []).has hlive
  have hseparate : Separate layout 401 (pagesIn 0 kernBase) (parent []) :=
    hhas.separate fun v hv => by
      have hbelow := ((mem_pagesIn le_rfl hpos).1 hv).2
      unfold userPages kernBase pgSize at *
      omega
  obtain ⟨hmem, hwhile, hrun, hexact⟩ := deallocuvm_exact layout 401 le_rfl hpos
  exact ⟨hmem, hwhile, hrun, hexact _ hseparate⟩

/-- A directory with the same frame at the first two pages, and no free page. -/
def doubled : State := ({ parent [] with freelist := [] } : State).setEntry 402 1 (403 * pgSize + 7)

/-- Its frame is given back twice. -/
theorem deallocuvm_frees_twice : ¬ ∀ (d oldsz newsz : Nat) (s : State), oldsz ≤ kernBase →
    newsz < oldsz → ∃ s', deallocuvm layout d oldsz newsz s = ([], .ok (newsz, s')) ∧
      ∀ v ∈ pagesIn newsz oldsz, ∀ p, pageAt ((space s.mem d).pte v) = some p →
        s'.freelist.count p = s.freelist.count p + 1 := by
  intro hclaim
  obtain ⟨s', hrun, honce⟩ := hclaim 401 (2 * pgSize) 0 doubled (by decide) (by decide)
  have hpage : pageAt ((space doubled.mem 401).pte 0) = some 403 := by decide +kernel
  have hfree : (deallocuvm layout 401 (2 * pgSize) 0 doubled).2.toOption.map (·.2.freelist) =
      some [403, 403] := by decide +kernel
  rw [hrun] at hfree
  have hfree : s'.freelist = [403, 403] := Option.some.inj hfree
  have hcount := honce 0 (by decide) 403 hpage
  rw [hfree] at hcount
  exact absurd hcount (by decide)

end Cs350.Vm
