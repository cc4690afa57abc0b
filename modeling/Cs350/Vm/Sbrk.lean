import Cs350.Vm.Args

set_option autoImplicit false

/-! # `growproc`, exactly

When a process asks for more memory, `growproc` does all of it or nothing. When it gives memory
back, 0 is the error code of `deallocuvm` and also a legal size, and `sz + n` wraps around below
zero. So a process that gives back all it has is told that this failed, and one that gives back more
than it has is told that it succeeded. -/

namespace Cs350.Vm

open Sched (Slot)
open Prog

/-! ## The memory of a process -/

/-- The address space of a process. -/
def State.user (s : State) (p : Slot) : Space := space s.mem (s.proc p).pgdir

/-- The word of an entry, if it maps a page. -/
def mapping (w : Nat) : Option Nat := if Present w then some w else none

/-- The pages of the user's part that are mapped are those below `PGROUNDUP(sz)`. -/
def State.Packed (s : State) (p : Slot) : Prop :=
  ∀ v < userPages, Present ((s.user p).pte v) ↔ v * pgSize < pgRoundUp (s.proc p).sz

theorem below_pgRoundUp {v sz : Nat} (hsz : sz ≤ kernBase) :
    v * pgSize < pgRoundUp sz ↔ v < pageUp sz := by
  rw [pgRoundUp_eq hsz]
  exact Nat.mul_lt_mul_right (by decide)

/-- The page is looked up in the address space. -/
theorem userByte_eq {s : State} {p : Slot} {a : Nat} (ha : a < 2 ^ 32) :
    userByte s p a = (pageAt ((s.user p).pte (a / pgSize))).map fun x => s.mem x (a % pgSize) := by
  have hpdx : pdx a = a / pgSize / 1024 := by
    unfold pdx pgSize
    omega
  have hptx : ptx a = a / pgSize % 1024 := by
    unfold ptx pgSize
    omega
  have htab : (space s.mem (s.proc p).pgdir).tab (pdx a) =
      pageAt (entry (s.mem (s.proc p).pgdir) (pdx a)) := tab_eq (pdx_lt a)
  rw [userByte, hptx]
  rw [hpdx] at htab ⊢
  show (pageAt (entry (s.mem (s.proc p).pgdir) (a / pgSize / 1024))).bind _ = _
  rw [← htab]
  cases ht : (space s.mem (s.proc p).pgdir).tab (a / pgSize / 1024) with
  | none => rw [State.user, pte_of_no_tab ht, pageAt_zero, Option.bind_none, Option.map_none]
  | some t => rw [State.user, pte_of_tab ht, Option.bind_some]; rfl

/-- A byte of a page that is mapped as before, with the same contents. -/
theorem userByte_congr {s s' : State} {p : Slot} {a : Nat} (ha : a < 2 ^ 32)
    (hpage : pageAt ((s'.user p).pte (a / pgSize)) = pageAt ((s.user p).pte (a / pgSize)))
    (hmem : ∀ x, pageAt ((s.user p).pte (a / pgSize)) = some x → s'.mem x = s.mem x) :
    userByte s' p a = userByte s p a := by
  rw [userByte_eq ha, userByte_eq ha, hpage]
  cases hx : pageAt ((s.user p).pte (a / pgSize)) with
  | none => rfl
  | some x => rw [Option.map_some, Option.map_some, hmem x hx]

/-! ## What a call should do -/

/-- The size of the process has changed by `n`, with its memory. -/
structure Resized (p : Slot) (n : Int) (s s' : State) : Prop where
  size : ((s'.proc p).sz : Int) = (s.proc p).sz + n
  lt : (s'.proc p).sz < kernBase
  packed : s'.Packed p
  old : ∀ a, a < (s.proc p).sz → a < (s'.proc p).sz → userByte s' p a = userByte s p a
  zero : ∀ a, pgRoundUp (s.proc p).sz ≤ a → a < pgRoundUp (s'.proc p).sz → userByte s' p a = some 0

/-- Nothing has changed for the process. -/
structure Untouched (p : Slot) (s s' : State) : Prop where
  size : (s'.proc p).sz = (s.proc p).sz
  mapped : ∀ v < userPages, mapping ((s'.user p).pte v) = mapping ((s.user p).pte v)
  bytes : ∀ a < kernBase, userByte s' p a = userByte s p a

theorem Untouched.refl (p : Slot) (s : State) : Untouched p s s :=
  ⟨rfl, fun _ _ => rfl, fun _ _ => rfl⟩

/-- The result of the call and what has happened agree. -/
def Exact (p : Slot) (n : Int) (s : State) (ok : Bool) (s' : State) : Prop :=
  ok = true ∧ Resized p n s s' ∨ ok = false ∧ Untouched p s s'

theorem pageAt_mapping (w : Nat) : pageAt w = (mapping w).map pageOf := by
  unfold pageAt mapping
  split_ifs <;> rfl

/-- The mappings and the frames are as before. -/
theorem Untouched.of_kept {p : Slot} {s s' : State} (hsize : (s'.proc p).sz = (s.proc p).sz)
    (hmapped : ∀ v < userPages, mapping ((s'.user p).pte v) = mapping ((s.user p).pte v))
    (hkept : Kept (s.user p) s s') : Untouched p s s' := by
  refine ⟨hsize, hmapped, fun a ha => ?_⟩
  have hkern : kernBase = 2 ^ 31 := rfl
  have hv : a / pgSize < userPages := by
    unfold userPages pgSize at *
    omega
  refine userByte_congr (by omega) ?_ (hkept _ hv)
  rw [pageAt_mapping, pageAt_mapping, hmapped _ hv]

/-- Only the size of the process is assigned to. -/
def setSize (p : Slot) (sz : Nat) (s : State) : State := s.setProc p fun q => { q with sz := sz }

section SetSize

variable {s : State} {p : Slot} {sz : Nat}

@[simp] theorem setSize_sz : ((setSize p sz s).proc p).sz = sz := by
  rw [setSize, State.setProc_self]

@[simp] theorem setSize_user : (setSize p sz s).user p = s.user p := by
  rw [State.user, setSize, State.setProc_self]
  rfl

@[simp] theorem setSize_mem : (setSize p sz s).mem = s.mem := rfl

end SetSize

/-! ## The cases -/

section Cases

variable {L : Layout} {E : Panic → Prop} {s : State} {p : Slot} {R : Multiset Nat} {n : Int}

theorem State.Packed.iff (h : s.Packed p) (hsz : (s.proc p).sz < kernBase) {v : Nat}
    (hv : v < userPages) : Present ((s.user p).pte v) ↔ v < pageUp (s.proc p).sz :=
  (h v hv).trans (below_pgRoundUp hsz.le)

/-- The memory that `allocuvm` gives. -/
theorem Resized.grown {k : Nat} {s₁ : State} (hpacked : s.Packed p) (hsz : (s.proc p).sz < kernBase)
    (hlt : (s.proc p).sz + k < kernBase)
    (hgrown : Grown (s.user p) (s₁.user p) (pageUp (s.proc p).sz) (pageUp ((s.proc p).sz + k)))
    (hzero : Zeroed (s₁.user p) s₁ (pageUp (s.proc p).sz) (pageUp ((s.proc p).sz + k)))
    (hkept : Kept (s.user p) s s₁) : Resized p k s (setSize p ((s.proc p).sz + k) s₁) := by
  have hkern : kernBase = 2 ^ 31 := rfl
  refine ⟨by simp, by simpa using hlt, fun v hv => ?_, fun a ha _ => ?_, fun a hlo hhi => ?_⟩
  · rw [setSize_user, setSize_sz, below_pgRoundUp hlt.le]
    rcases Nat.lt_or_ge v (pageUp (s.proc p).sz) with hvo | hvo
    · rw [hgrown.same v (Or.inl hvo), hpacked.iff hsz hv]
      have hmono : pageUp (s.proc p).sz ≤ pageUp ((s.proc p).sz + k) := by
        unfold pageUp pgSize
        omega
      exact ⟨fun _ => by omega, fun _ => hvo⟩
    · rcases Nat.lt_or_ge v (pageUp ((s.proc p).sz + k)) with hvn | hvn
      · exact ⟨fun _ => hvn, fun _ => hgrown.present v hvo hvn⟩
      · rw [hgrown.same v (Or.inr hvn), hpacked.iff hsz hv]
        omega
  · -- the old pages are mapped as before
    have hv : a / pgSize < pageUp (s.proc p).sz := by
      unfold pageUp pgSize
      omega
    have hle := pageUp_le hsz.le
    refine userByte_congr (by omega) ?_ fun x hx => hkept _ (by omega) x hx
    rw [setSize_user, hgrown.same _ (Or.inl hv)]
  · -- the new pages are filled with zeros
    rw [setSize_sz, pgRoundUp_eq hlt.le] at hhi
    rw [pgRoundUp_eq hsz.le] at hlo
    have hle := pageUp_le hlt.le
    have huser : userPages = 2 ^ 19 := rfl
    have hv : pageUp (s.proc p).sz ≤ a / pgSize ∧ a / pgSize < pageUp ((s.proc p).sz + k) := by
      rw [Nat.le_div_iff_mul_le (by decide), Nat.div_lt_iff_lt_mul (by decide)]
      exact ⟨hlo, hhi⟩
    obtain ⟨x, hx, hmem⟩ := hzero _ hv.1 hv.2
    have ha : a < 2 ^ 32 := by
      unfold pgSize at *
      omega
    rw [userByte_eq ha, setSize_user, hx, pageAt_add (by decide) rfl, Option.map_some,
      setSize_mem, hmem]
    rfl

theorem growproc_pos (h : Has L (s.proc p).pgdir (s.user p) R s) (hpacked : s.Packed p)
    (hsz : (s.proc p).sz < kernBase) (hn : 0 < n) (hhi : n < 2 ^ 31) :
    Sat E (growproc L p n) s (Exact p n s) := by
  have hkern : kernBase = 2 ^ 31 := rfl
  obtain ⟨k, rfl⟩ : ∃ k : Nat, n = k := ⟨n.toNat, by omega⟩
  have hnew : (((s.proc p).sz + (k : Int)) % 2 ^ 32).toNat = (s.proc p).sz + k := by omega
  have hmono : pageUp (s.proc p).sz ≤ pageUp ((s.proc p).sz + k) := by
    unfold pageUp pgSize
    omega
  refine wp_get_bind (wp_ite (fun _ => ?_) fun hno => absurd hn hno)
  rw [hnew]
  refine wp_bind (allocuvm_kept hsz.le h (Or.inl fun u hu hlt hP => ?_)) ?_
  · exact absurd ((hpacked.iff hsz hlt).1 hP) (Nat.not_lt.2 hu)
  rintro r s₁ ⟨S', henl, hcut, hcases⟩
  have hproc : s₁.proc = s.proc := henl.frame.proc
  have hspace : s₁.user p = S' := by rw [State.user, hproc, henl.has.space]
  have hkept : Kept (s.user p) s s₁ := hcut.mono fun v hv hP =>
    (Space.cut_pte_of_lt ((hpacked.iff hsz hv).1 hP)).symm
  rcases hcases with ⟨rfl, hlt, hgrown, -, hzero⟩ | ⟨rfl, hwhy⟩
  · rw [max_eq_right (by omega), if_neg (by omega)]
    rw [max_eq_right hmono, ← hspace] at hgrown
    rw [← hspace] at hzero
    exact wp_modify_bind (wp_pure (Or.inl ⟨rfl, .grown hpacked hsz hlt hgrown hzero hkept⟩))
  · refine wp_ite (fun _ => wp_pure (Or.inr ⟨rfl, ?_⟩)) fun hne => absurd rfl hne
    rcases hwhy with ⟨-, rfl⟩ | ⟨hlt, -, hclear⟩
    · exact Untouched.refl p s₁
    · refine Untouched.of_kept (by rw [hproc]) (fun v hv => ?_) hkept
      rw [hspace]
      by_cases hin : pageUp (s.proc p).sz ≤ v ∧ v < pageUp ((s.proc p).sz + k)
      · -- neither mapped before nor now
        have hbefore : ¬ Present ((s.user p).pte v) := fun hP =>
          absurd ((hpacked.iff hsz hv).1 hP) (Nat.not_lt.2 hin.1)
        rw [mapping, mapping, if_neg (hclear v hin.1 hin.2), if_neg hbefore]
      · rw [henl.same v (by omega)]

/-- The new size that `growproc` computes. -/
def newSize (sz : Nat) (n : Int) : Nat := ((sz + n) % 2 ^ 32).toNat

/-- The calls that give memory back, after `deallocuvm`. -/
theorem growproc_neg {Q : Bool → State → Prop} (h : Has L (s.proc p).pgdir (s.user p) R s)
    (hsz : (s.proc p).sz < kernBase) (hn : n < 0)
    (hzero : ∀ s', s'.proc = s.proc →
      s'.user p = (s.user p).cut (pageUp (newSize (s.proc p).sz n)) (s.proc p).sz →
      min (s.proc p).sz (newSize (s.proc p).sz n) = 0 → Q false s')
    (hpos : ∀ s', s'.proc = s.proc →
      s'.user p = (s.user p).cut (pageUp (newSize (s.proc p).sz n)) (s.proc p).sz →
      Kept ((s.user p).cut (pageUp (newSize (s.proc p).sz n)) (s.proc p).sz) s s' →
      min (s.proc p).sz (newSize (s.proc p).sz n) ≠ 0 →
      Q true (setSize p (min (s.proc p).sz (newSize (s.proc p).sz n)) s')) :
    Sat E (growproc L p n) s Q := by
  refine wp_get_bind (wp_ite (fun hno => absurd hno (by omega)) fun _ => wp_ite (fun _ => ?_)
    fun hno => absurd hn hno)
  refine wp_bind (deallocuvm_kept hsz.le h) ?_
  rintro r s₁ ⟨hr, h₁, hframe, hkept⟩
  have hproc : s₁.proc = s.proc := hframe.proc
  have hspace : s₁.user p = (s.user p).cut (pageUp (newSize (s.proc p).sz n)) (s.proc p).sz := by
    rw [State.user, hproc]
    exact h₁.space
  have hmin : r = min (s.proc p).sz (newSize (s.proc p).sz n) := by
    rw [hr, newSize]
    split_ifs <;> omega
  rw [hmin]
  exact wp_ite (fun hr => wp_pure (hzero s₁ hproc hspace hr)) fun hr =>
    wp_modify_bind (wp_pure (hpos s₁ hproc hspace hkept hr))

/-- The memory that `deallocuvm` leaves. -/
theorem Resized.shrunk {sz' : Nat} {s₁ : State} (hpacked : s.Packed p)
    (hsz : (s.proc p).sz < kernBase) (hn : (sz' : Int) = (s.proc p).sz + n)
    (hlt : sz' < (s.proc p).sz) (hspace : s₁.user p = (s.user p).cut (pageUp sz') (s.proc p).sz)
    (hkept : Kept ((s.user p).cut (pageUp sz') (s.proc p).sz) s s₁) :
    Resized p n s (setSize p sz' s₁) := by
  have hkern : kernBase = 2 ^ 31 := rfl
  have hmono : pageUp sz' ≤ pageUp (s.proc p).sz := by
    unfold pageUp pgSize
    omega
  refine ⟨by simpa using hn, by simp; omega, fun v hv => ?_, fun a ha ha' => ?_,
    fun a hlo' hhi => ?_⟩
  · rw [setSize_user, setSize_sz, hspace, below_pgRoundUp (by omega)]
    rcases Nat.lt_or_ge v (pageUp sz') with hv' | hv'
    · rw [Space.cut_pte_of_lt hv', hpacked.iff hsz hv]
      exact ⟨fun _ => hv', fun _ => by omega⟩
    · refine ⟨fun hP => ?_, fun hno => absurd hno (Nat.not_lt.2 hv')⟩
      have hold : v < pageUp (s.proc p).sz := by
        rwa [Space.cut_pte_of_present hP, hpacked.iff hsz hv] at hP
      exact absurd hP (Space.cut_clear hv' hold)
  · rw [setSize_sz] at ha'
    have hv : a / pgSize < pageUp sz' := by
      unfold pageUp pgSize
      omega
    have hpte : ((s.user p).cut (pageUp sz') (s.proc p).sz).pte (a / pgSize) =
        (s.user p).pte (a / pgSize) := Space.cut_pte_of_lt hv
    have hle := pageUp_le hsz.le
    refine userByte_congr (by omega) (by rw [setSize_user, hspace, hpte]) fun x hx => ?_
    exact hkept (a / pgSize) (by omega) x (by rw [hpte, hx])
  · -- no page is new
    rw [setSize_sz, pgRoundUp_eq (by omega)] at hhi
    rw [pgRoundUp_eq hsz.le] at hlo'
    have hcontra := hlo'.trans_lt hhi
    rw [Nat.mul_lt_mul_right (by decide)] at hcontra
    omega

/-- Less than everything is given back. -/
theorem growproc_shrink (h : Has L (s.proc p).pgdir (s.user p) R s) (hpacked : s.Packed p)
    (hsz : (s.proc p).sz < kernBase) (hn : n < 0) (hlo : -((s.proc p).sz : Int) < n) :
    Sat E (growproc L p n) s (Exact p n s) := by
  have hkern : kernBase = 2 ^ 31 := rfl
  have hlt : newSize (s.proc p).sz n < (s.proc p).sz ∧ newSize (s.proc p).sz n ≠ 0 ∧
      (newSize (s.proc p).sz n : Int) = (s.proc p).sz + n := by
    unfold newSize
    omega
  have hmin : min (s.proc p).sz (newSize (s.proc p).sz n) = newSize (s.proc p).sz n := by omega
  refine growproc_neg h hsz hn (fun s' _ _ hno => absurd hno (by omega))
    fun s' hproc hspace hkept _ => Or.inl ⟨rfl, ?_⟩
  rw [hmin]
  exact .shrunk hpacked hsz hlt.2.2 hlt.1 hspace hkept

/-- All is given back: the pages are gone, and the call is said to have failed. -/
theorem growproc_all (h : Has L (s.proc p).pgdir (s.user p) R s) (hpacked : s.Packed p)
    (hsz : (s.proc p).sz < kernBase) (hn : n < 0) (hall : n = -((s.proc p).sz : Int)) :
    Sat E (growproc L p n) s fun ok s' => ¬ Exact p n s ok s' := by
  have hnew : newSize (s.proc p).sz n = 0 := by
    unfold newSize
    omega
  refine growproc_neg h hsz hn (fun s' _ hspace _ hexact => ?_) fun s' _ _ _ hmin _ => ?_
  · obtain ⟨hok, -⟩ | ⟨-, hsame⟩ := hexact
    · exact nomatch hok
    have huser : 0 < userPages := by decide
    have hmapped := hsame.mapped 0 huser
    have hfirst : Present ((s.user p).pte 0) := (hpacked.iff hsz huser).2 (by
      unfold pageUp pgSize
      omega)
    have hgone : ¬ Present (((s.user p).cut (pageUp 0) (s.proc p).sz).pte 0) :=
      Space.cut_not_present (by decide) (by omega)
    rw [hspace, hnew, mapping, mapping, if_neg hgone, if_pos hfirst] at hmapped
    exact nomatch hmapped
  · omega

/-- More than all is given back: the sum wraps, the size stays, and the call is said to have
    succeeded. -/
theorem growproc_beyond (h : Has L (s.proc p).pgdir (s.user p) R s)
    (hsz : (s.proc p).sz < kernBase) (hpos : 0 < (s.proc p).sz) (hlo : -2 ^ 31 ≤ n)
    (hn : n < -((s.proc p).sz : Int)) :
    Sat E (growproc L p n) s fun ok s' => ¬ Exact p n s ok s' := by
  have hkern : kernBase = 2 ^ 31 := rfl
  have hnew : (s.proc p).sz < newSize (s.proc p).sz n := by
    unfold newSize
    omega
  refine growproc_neg h hsz (by omega) (fun s' _ _ hmin _ => ?_) fun s' _ _ _ _ hexact => ?_
  · omega
  · obtain ⟨-, hres⟩ | ⟨hok, -⟩ := hexact
    · have hsize := hres.size
      rw [setSize_sz, Nat.min_eq_left hnew.le] at hsize
      omega
    · exact nomatch hok

/-- A process without memory has none to give back. -/
theorem growproc_empty (h : Has L (s.proc p).pgdir (s.user p) R s) (hpacked : s.Packed p)
    (hn : n < 0) (hzero : (s.proc p).sz = 0) : Sat E (growproc L p n) s (Exact p n s) := by
  have hsz : (s.proc p).sz < kernBase := hzero ▸ (by decide)
  refine growproc_neg h hsz hn (fun s' hproc hspace _ => Or.inr ⟨rfl, ?_⟩) fun s' _ _ _ hno => ?_
  · have hcut : s'.user p = s.user p := by
      rw [hspace, hzero]
      exact Space.cut_eq_self fun _ _ hlt => absurd hlt (Nat.not_lt_zero _)
    refine Untouched.of_kept (by rw [hproc]) (fun v _ => by rw [hcut]) fun v hv x hx => ?_
    have hP := (hpacked.iff hsz hv).1 (pageAt_eq_some.1 hx).1
    rw [hzero] at hP
    exact absurd hP (Nat.not_lt_zero v)
  · omega

theorem growproc_zero (hpacked : s.Packed p) (hsz : (s.proc p).sz < kernBase) :
    Sat E (growproc L p 0) s (Exact p 0 s) := by
  have hres : Resized p 0 s s := by
    refine ⟨by simp, hsz, hpacked, fun _ _ _ => rfl, fun a hlo hhi => ?_⟩
    omega
  exact wp_get_bind (wp_ite (fun hno => absurd hno (by decide)) fun _ =>
    wp_ite (fun hno => absurd hno (by decide)) fun _ => wp_pure (Or.inl ⟨rfl, hres⟩))

/-- What holds of the call holds of its result. -/
theorem growproc_runs {Q : Bool → State → Prop}
    (hspec : Sat (fun _ => False) (growproc L p n) s Q) :
    ∃ ok s', (growproc L p n s).2 = .ok (ok, s') ∧ Q ok s' :=
  wp_runs hspec (fun _ _ => trivial) fun _ => id

/-- **When `sbrk` is exact**: `growproc` does what it says if and only if it is asked for less than
    the whole memory back, or the process has none. -/
theorem growproc_exact_iff (h : Has L (s.proc p).pgdir (s.user p) R s) (hpacked : s.Packed p)
    (hsz : (s.proc p).sz < kernBase) (hlo : -2 ^ 31 ≤ n) (hhi : n < 2 ^ 31) :
    (∃ ok s', (growproc L p n s).2 = .ok (ok, s') ∧ Exact p n s ok s') ↔
      -((s.proc p).sz : Int) < n ∨ (s.proc p).sz = 0 := by
  constructor
  · rintro ⟨ok, s', hrun, hexact⟩
    by_contra hno
    rw [not_or] at hno
    have hbad : Sat (fun _ => False) (growproc L p n) s fun ok s' => ¬ Exact p n s ok s' := by
      rcases (not_lt.1 hno.1).eq_or_lt with hall | hbeyond
      · exact growproc_all h hpacked hsz (by omega) hall
      · exact growproc_beyond h hsz (by omega) hlo hbeyond
    obtain ⟨ok', s'', hrun', hnot⟩ := growproc_runs hbad
    rw [hrun] at hrun'
    obtain ⟨rfl, rfl⟩ := Prod.mk.inj (Except.ok.inj hrun')
    exact hnot hexact
  · intro hcond
    refine growproc_runs ?_
    rcases Int.lt_trichotomy n 0 with hneg | rfl | hpos
    · rcases hcond with hcond | hzero
      · exact growproc_shrink h hpacked hsz hneg hcond
      · exact growproc_empty h hpacked hneg hzero
    · exact growproc_zero hpacked hsz
    · exact growproc_pos h hpacked hsz hpos hhi

end Cases

theorem packed_parent (fails : List Bool) : (parent fails).Packed 0 := by
  intro v hv
  have hone : ((parent fails).proc 0).sz = pgSize := rfl
  rw [hone, below_pgRoundUp (by decide)]
  show Present ((space parentMem 401).pte v) ↔ v < pageUp pgSize
  rw [space_parent]
  rcases Nat.eq_zero_or_pos v with rfl | hpos
  · rw [Space.setPte_self]
    decide
  · have hone : pageUp pgSize = 1 := by decide
    rw [Space.setPte_of_ne _ _ hpos.ne', Space.addTab_pte, hone]
    exact ⟨fun h => absurd h not_present_zero, fun h => absurd h (by omega)⟩

/-- A process with one page asks for another, and gets it. -/
theorem growproc_parent : ∃ s', (growproc layout 0 pgSize (parent [])).2 = .ok (true, s') ∧
    Exact 0 pgSize (parent []) true s' := by
  obtain ⟨lost, h⟩ := (sound_parent []).has (live_parent [])
  have hsz : ((parent []).proc 0).sz = pgSize := by rw [proc_parent]
  obtain ⟨ok, s', hrun, hexact⟩ := (growproc_exact_iff (n := pgSize) h (packed_parent [])
    (by rw [hsz]; decide) (by decide) (by decide)).2 (Or.inl (by rw [hsz]; decide))
  have hok : (growproc layout 0 pgSize (parent [])).2.toOption.map Prod.fst = some true := by
    decide +kernel
  rw [hrun] at hok
  obtain rfl : ok = true := Option.some.inj hok
  exact ⟨s', hrun, hexact⟩

/-- A process with one page gives it back, and is told that it has not, or gives two pages back, and
    is told that it has. -/
theorem growproc_gives_back : (parent []).Packed 0 ∧
    (∃ ok s', (growproc layout 0 (-pgSize) (parent [])).2 = .ok (ok, s') ∧
      ¬ Exact 0 (-pgSize) (parent []) ok s') ∧
    ∃ ok s', (growproc layout 0 (-(2 * pgSize)) (parent [])).2 = .ok (ok, s') ∧
      ¬ Exact 0 (-(2 * pgSize)) (parent []) ok s' := by
  obtain ⟨lost, h⟩ := (sound_parent []).has (live_parent [])
  have hsz : ((parent []).proc 0).sz < kernBase := by
    rw [proc_parent]
    decide
  refine ⟨packed_parent [], growproc_runs (growproc_all h (packed_parent []) hsz (by decide) ?_),
    growproc_runs (growproc_beyond h hsz ?_ (by decide) ?_)⟩ <;> rw [proc_parent] <;> decide

/-! ## A process with four pages -/

/-- The next free page at the entry `v % 1024` of the page table `t`, with the flags `f`. -/
def State.mapNext (s : State) (t v f : Nat) : State :=
  { s.setEntry t (v % 1024) (s.freelist.headD 0 * pgSize + f) with freelist := s.freelist.tail }

theorem Has.mapNext {L : Layout} {d t v p f : Nat} {S : Space} {R : Multiset Nat} {s : State}
    {rest : List Nat} (h : Has L d S R s) (ht : S.tab (v / 1024) = some t) (hv : v < userPages)
    (hzero : S.pte v = 0) (hfree : s.freelist = p :: rest) (hf : f < pgSize) (hodd : f % 2 = 1)
    (hp : p < 2 ^ 19) : Has L d (S.setPte v (p * pgSize + f)) R (s.mapNext t v f) := by
  have hw : p * pgSize + f < 2 ^ 32 := by
    unfold pgSize at *
    omega
  have hhead : s.freelist.headD 0 = p := by rw [hfree, List.headD_cons]
  refine ⟨?_, ?_⟩
  · have hset := (setEntry_spec h ht hw).1
    rw [← hhead] at hset ⊢
    exact hset
  · have hfoot := S.foot_setPte (d := d) hv (p * pgSize + f)
    rw [hzero, pageAt_zero, held_none, add_zero, pageAt_add hf hodd, held_some] at hfoot
    have hown := h.owned
    rw [Owned, hfree, ← Multiset.cons_coe, ← Multiset.singleton_add] at hown
    rw [Owned, hfoot, ← hown]
    show (s.freelist.tail : Multiset Nat) + _ = _
    rw [hfree, List.tail_cons]
    abel

/-- The process has grown by three pages, the second of which is closed to the user. -/
def fourPages : State := (((parent []).mapNext 402 1 7).mapNext 402 2 3).mapNext 402 3 7

/-- Its address space. -/
def fourSpace : Space :=
  (((space parentMem 401).setPte 1 (404 * pgSize + 7)).setPte 2 (405 * pgSize + 3)).setPte 3
    (406 * pgSize + 7)

theorem fourSpace_pte (v : Nat) : fourSpace.pte v =
    if v = 3 then 406 * pgSize + 7 else if v = 2 then 405 * pgSize + 3
    else if v = 1 then 404 * pgSize + 7 else if v = 0 then 403 * pgSize + 7 else 0 := by
  rw [fourSpace, space_parent]
  simp only [Space.setPte, Space.addTab, Function.update_apply]

theorem tab_fourSpace : fourSpace.tab 0 = some 402 := by
  rw [fourSpace, space_parent]
  simp only [Space.setPte_tab, Space.addTab_self]

/-- All pages but the third are open to the user. -/
theorem fourSpace_flags : ∀ v < 4, Present (fourSpace.pte v) ∧ (User (fourSpace.pte v) ↔ v ≠ 2) := by
  simp only [fourSpace_pte]
  decide

theorem present_fourSpace {v : Nat} : Present (fourSpace.pte v) ↔ v < 4 := by
  rcases Nat.lt_or_ge v 4 with hlt | hge
  · exact ⟨fun _ => hlt, fun _ => (fourSpace_flags v hlt).1⟩
  · rw [fourSpace_pte, if_neg (by omega), if_neg (by omega), if_neg (by omega), if_neg (by omega)]
    exact ⟨fun h => absurd h not_present_zero, fun h => absurd h (by omega)⟩

theorem has_fourPages : ∃ R, Has layout 401 fourSpace R fourPages := by
  obtain ⟨lost, h⟩ := (sound_parent []).has (live_parent [])
  have htab : (space parentMem 401).tab 0 = some 402 := tab_fourSpace
  have hzero : ∀ v, v ≠ 0 → (space parentMem 401).pte v = 0 := by
    intro v hv
    rw [space_parent, Space.setPte_of_ne _ _ hv, Space.addTab_pte]
  have h₁ := h.mapNext (v := 1) (f := 7) (p := 404) htab (by decide) (hzero 1 (by decide)) rfl
    (by decide) rfl (by decide)
  have h₂ := h₁.mapNext (v := 2) (f := 3) (p := 405) htab (by decide) (hzero 2 (by decide)) rfl
    (by decide) rfl (by decide)
  exact ⟨_, h₂.mapNext (v := 3) (f := 7) (p := 406) htab (by decide) (hzero 3 (by decide)) rfl
    (by decide) rfl (by decide)⟩

end Cs350.Vm
