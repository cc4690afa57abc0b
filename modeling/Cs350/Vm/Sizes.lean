import Cs350.Vm.Isolation

set_option autoImplicit false

/-! # The sizes of the processes

The process table changes only where a call assigns to one of its entries, and a size that is put
there comes from `allocuvm`, `deallocuvm` or another entry. So no size reaches `KERNBASE`, whatever
happens to the memory. -/

namespace Cs350.Vm

open Sched (Slot)
open Prog Transition

/-! ## What leaves the process table alone -/

/-- The program does not change the process table. -/
structure Quiet {α : Type} (m : VmM α) : Prop where
  keeps : ∀ s, Sat (fun _ => True) m s fun _ s' => s'.proc = s.proc

namespace Quiet

variable {α β : Type} {m m' : VmM α} {f : α → VmM β}

theorem pure (a : α) : Quiet (Pure.pure a : VmM α) := ⟨fun _ => wp_pure rfl⟩

theorem stop (e : Panic) : Quiet (Prog.stop e : VmM α) := ⟨fun _ => wp_stop trivial⟩

theorem modify {g : State → State} (h : ∀ s, (g s).proc = s.proc) :
    Quiet (Prog.modify g : VmM Unit) := ⟨fun s => wp_modify (h s)⟩

theorem bind (hm : Quiet m) (hf : ∀ a, Quiet (f a)) : Quiet (m >>= f) :=
  ⟨fun s => wp_bind (hm.keeps s) fun a s' h => wp_mono ((hf a).keeps s') fun _ _ h' => h'.trans h⟩

theorem get_bind {f : State → VmM β} (hf : ∀ s, Quiet (f s)) : Quiet (Prog.get >>= f) :=
  ⟨fun s => wp_get_bind ((hf s).keeps s)⟩

theorem modify_bind {g : State → State} {f : Unit → VmM β} (hf : Quiet (f ()))
    (h : ∀ s, (g s).proc = s.proc) : Quiet (Prog.modify g >>= f) :=
  (modify h).bind fun _ => hf

theorem ite {c : Prop} [Decidable c] (hm : Quiet m) (hm' : Quiet m') :
    Quiet (if c then m else m') := by
  split_ifs
  · exact hm
  · exact hm'

theorem each {ι : Type} {g : ι → VmM Unit} (h : ∀ i, Quiet (g i)) (is : List ι) :
    Quiet (Prog.each g is) := by
  induction is with
  | nil => exact pure ()
  | cons i is ih => exact (h i).bind fun _ => ih

end Quiet

section Memory

variable (L : Layout)

theorem kalloc_quiet : Quiet kalloc := by
  refine Quiet.get_bind fun s => Quiet.modify_bind (Quiet.ite (Quiet.pure none) ?_) fun _ => rfl
  cases s.freelist with
  | nil => exact Quiet.pure none
  | cons p rest => exact Quiet.modify_bind (Quiet.pure _) fun _ => rfl

theorem kfree_quiet (p : Nat) : Quiet (kfree L p) :=
  Quiet.ite (Quiet.stop _) (Quiet.modify fun _ => rfl)

theorem walkpgdir_quiet (pgdir va : Nat) (alloc : Bool) : Quiet (walkpgdir pgdir va alloc) := by
  refine Quiet.get_bind fun _ => Quiet.ite (Quiet.pure _) (Quiet.ite ?_ (Quiet.pure _))
  refine kalloc_quiet.bind fun r => ?_
  cases r with
  | none => exact Quiet.pure none
  | some pgtab => exact Quiet.modify_bind (Quiet.pure _) fun _ => rfl

theorem mapLoop_quiet (pgdir perm n a pa : Nat) : Quiet (mapLoop pgdir perm n a pa) := by
  induction n generalizing a pa with
  | zero => exact Quiet.pure true
  | succ n ih =>
      refine (walkpgdir_quiet ..).bind fun r => ?_
      cases r with
      | none => exact Quiet.pure false
      | some x =>
          exact Quiet.get_bind fun _ => Quiet.ite (Quiet.stop _) <|
            Quiet.modify_bind (ih ..) fun _ => rfl

theorem mappages_quiet (pgdir va size pa perm : Nat) : Quiet (mappages pgdir va size pa perm) :=
  mapLoop_quiet ..

theorem deallocLoop_quiet (pgdir oldsz n a : Nat) : Quiet (deallocLoop L pgdir oldsz n a) := by
  induction n generalizing a with
  | zero => exact Quiet.pure ()
  | succ n ih =>
      refine Quiet.ite ((walkpgdir_quiet ..).bind fun r => ?_) (Quiet.pure ())
      cases r with
      | none => exact ih _
      | some x =>
          refine Quiet.get_bind fun _ => Quiet.ite (Quiet.ite (Quiet.stop _) ?_) (ih _)
          exact (kfree_quiet L _).bind fun _ => Quiet.modify_bind (ih _) fun _ => rfl

theorem deallocuvm_quiet (pgdir oldsz newsz : Nat) : Quiet (deallocuvm L pgdir oldsz newsz) :=
  Quiet.ite (Quiet.pure _) ((deallocLoop_quiet L ..).bind fun _ => Quiet.pure _)

theorem freevm_quiet (pgdir : Nat) : Quiet (freevm L pgdir) := by
  have htable : ∀ i, Quiet (freeTable L pgdir i) := fun _ =>
    Quiet.get_bind fun _ => Quiet.ite (kfree_quiet L _) (Quiet.pure ())
  exact Quiet.ite (Quiet.stop _) <| (deallocuvm_quiet L ..).bind fun _ =>
    (Quiet.each htable _).bind fun _ => kfree_quiet L _

theorem mapKernel_quiet (pgdir : Nat) (ks : List Kmap) : Quiet (mapKernel L pgdir ks) := by
  induction ks with
  | nil => exact Quiet.pure _
  | cons k ks ih =>
      exact (mappages_quiet ..).bind fun _ => Quiet.ite ih <|
        (freevm_quiet L _).bind fun _ => Quiet.pure none

theorem setupkvm_quiet : Quiet (setupkvm L) := by
  refine kalloc_quiet.bind fun r => ?_
  cases r with
  | none => exact Quiet.pure none
  | some pgdir => exact Quiet.modify_bind (mapKernel_quiet L ..) fun _ => rfl

theorem allocLoop_quiet (pgdir oldsz newsz n a : Nat) :
    Quiet (allocLoop L pgdir oldsz newsz n a) := by
  induction n generalizing a with
  | zero => exact Quiet.pure newsz
  | succ n ih =>
      refine kalloc_quiet.bind fun r => ?_
      cases r with
      | none => exact (deallocuvm_quiet L ..).bind fun _ => Quiet.pure 0
      | some page =>
          refine Quiet.modify_bind ((mappages_quiet ..).bind fun _ => Quiet.ite (ih _) ?_) fun _ => rfl
          exact (deallocuvm_quiet L ..).bind fun _ => (kfree_quiet L _).bind fun _ => Quiet.pure 0

theorem allocuvm_quiet (pgdir oldsz newsz : Nat) : Quiet (allocuvm L pgdir oldsz newsz) :=
  Quiet.ite (Quiet.pure 0) (Quiet.ite (Quiet.pure _) (allocLoop_quiet L ..))

theorem copyLoop_quiet (pgdir d n i : Nat) : Quiet (copyLoop L pgdir d n i) := by
  induction n generalizing i with
  | zero => exact Quiet.pure _
  | succ n ih =>
      have hbad : Quiet (freevm L d >>= fun _ => Pure.pure (none : Option Nat)) :=
        (freevm_quiet L d).bind fun _ => Quiet.pure none
      refine (walkpgdir_quiet ..).bind fun r => ?_
      cases r with
      | none => exact Quiet.stop _
      | some x =>
          refine Quiet.get_bind fun _ => Quiet.ite (kalloc_quiet.bind fun r => ?_) (Quiet.stop _)
          cases r with
          | none => exact hbad
          | some page =>
              exact Quiet.modify_bind ((mappages_quiet ..).bind fun _ => Quiet.ite (ih _) hbad)
                fun _ => rfl

theorem copyuvm_quiet (pgdir sz : Nat) : Quiet (copyuvm L pgdir sz) := by
  refine (setupkvm_quiet L).bind fun r => ?_
  cases r with
  | none => exact Quiet.pure none
  | some d => exact copyLoop_quiet L ..

theorem clearpteu_quiet (pgdir uva : Nat) : Quiet (clearpteu pgdir uva) := by
  refine (walkpgdir_quiet ..).bind fun r => ?_
  cases r with
  | none => exact Quiet.stop _
  | some x => exact Quiet.modify fun _ => rfl

theorem uva2ka_quiet (pgdir uva : Nat) : Quiet (uva2ka pgdir uva) := by
  refine (walkpgdir_quiet ..).bind fun r => ?_
  cases r with
  | none => exact Quiet.stop _
  | some x => exact Quiet.get_bind fun _ => Quiet.pure _

theorem copyoutLoop_quiet (pgdir n va : Nat) (buf : List UInt8) :
    Quiet (copyoutLoop pgdir n va buf) := by
  induction n generalizing va buf with
  | zero => exact Quiet.pure true
  | succ n ih =>
      refine Quiet.ite (Quiet.pure true) ((uva2ka_quiet ..).bind fun r => ?_)
      cases r with
      | none => exact Quiet.pure false
      | some page => exact Quiet.modify_bind (ih ..) fun _ => rfl

theorem copyout_quiet (pgdir va : Nat) (buf : List UInt8) : Quiet (copyout pgdir va buf) :=
  copyoutLoop_quiet ..

theorem loadLoop_quiet (pgdir addr : Nat) (data : Nat → List UInt8) (sz n k : Nat) :
    Quiet (loadLoop pgdir addr data sz n k) := by
  induction n generalizing k with
  | zero => exact Quiet.pure true
  | succ n ih =>
      refine (walkpgdir_quiet ..).bind fun r => ?_
      cases r with
      | none => exact Quiet.stop _
      | some x =>
          exact Quiet.get_bind fun _ => Quiet.modify_bind (Quiet.ite (ih _) (Quiet.pure false))
            fun _ => rfl

theorem loaduvm_quiet (pgdir addr : Nat) (data : Nat → List UInt8) (sz : Nat) :
    Quiet (loaduvm pgdir addr data sz) :=
  Quiet.ite (Quiet.stop _) (loadLoop_quiet ..)

theorem pushArgs_quiet (pgdir : Nat) (args : List (List UInt8)) (sp : Nat) (ustack : List Nat) :
    Quiet (pushArgs pgdir args sp ustack) := by
  induction args generalizing sp ustack with
  | nil => exact Quiet.pure _
  | cons arg args ih =>
      exact Quiet.ite (Quiet.pure none) <| (copyout_quiet ..).bind fun _ =>
        Quiet.ite (ih ..) (Quiet.pure none)

theorem inituvm_quiet (pgdir : Nat) (init : List UInt8) : Quiet (inituvm pgdir init) := by
  refine kalloc_quiet.bind fun r => ?_
  cases r with
  | none => exact Quiet.stop _
  | some page =>
      exact Quiet.modify_bind ((mappages_quiet ..).bind fun _ => Quiet.modify fun _ => rfl)
        fun _ => rfl

theorem userWrite_quiet (cur : Slot) (va : Nat) (bytes : List UInt8) :
    Quiet (userWrite cur va bytes) := by
  refine Quiet.get_bind fun _ => (walkpgdir_quiet ..).bind fun r => ?_
  cases r with
  | none => exact Quiet.pure ()
  | some x =>
      refine Quiet.get_bind fun s => ?_
      cases userPage (s.entry x.1 x.2) with
      | none => exact Quiet.pure ()
      | some page => exact Quiet.modify fun _ => rfl

end Memory

/-! ## The sizes that are computed -/

section Results

variable {L : Layout} {s : State}

/-- A result of `allocuvm` is below `KERNBASE` unless it is the old size. -/
theorem allocuvm_size (pgdir oldsz newsz : Nat) :
    Sat (fun _ => True) (allocuvm L pgdir oldsz newsz) s fun r s' => s'.proc = s.proc ∧
      (r < kernBase ∨ r = oldsz ∧ newsz < oldsz) := by
  refine wp_and ((allocuvm_quiet L ..).keeps s) ?_
  refine wp_ite (fun _ => wp_pure (Or.inl (by decide))) fun hnew => wp_ite
    (fun hlt => wp_pure (Or.inr ⟨rfl, hlt⟩)) fun _ => ?_
  have hloop : ∀ n a s, Sat (fun _ => True) (allocLoop L pgdir oldsz newsz n a) s fun r _ =>
      r < kernBase := fun n => by
    induction n with
    | zero => exact fun _ _ => wp_pure (Nat.lt_of_not_le hnew)
    | succ n ih =>
        intro a s
        refine wp_bind (kalloc_quiet.keeps s) fun r s₁ _ => ?_
        cases r with
        | none =>
            exact wp_bind ((deallocuvm_quiet L ..).keeps s₁) fun _ _ _ => wp_pure (by decide)
        | some page =>
            refine wp_modify_bind (wp_bind ((mappages_quiet ..).keeps _) fun ok s₂ _ => ?_)
            refine wp_ite (fun _ => ih _ s₂) fun _ => ?_
            exact wp_bind ((deallocuvm_quiet L ..).keeps s₂) fun _ s₃ _ =>
              wp_bind ((kfree_quiet L page).keeps s₃) fun _ _ _ => wp_pure (by decide)
  exact wp_mono (hloop _ _ s) fun _ _ h => Or.inl h

/-- The process table is as before, and the result, if there is one, is below `KERNBASE`. -/
def Below (s : State) (r : Option Nat) (s' : State) : Prop :=
  s'.proc = s.proc ∧ ∀ sz, r = some sz → sz < kernBase

theorem below_none {s' : State} (h : s'.proc = s.proc) : Below s none s' :=
  ⟨h, fun _ hr => (nomatch hr)⟩

theorem execLoad_size (pgdir : Nat) (phs : List Phdr) {sz : Nat} (hsz : sz < kernBase) :
    Sat (fun _ => True) (execLoad L pgdir phs sz) s (Below s) := by
  induction phs generalizing s sz with
  | nil =>
      refine wp_pure ⟨rfl, fun sz' hr => ?_⟩
      rwa [← Option.some.inj hr]
  | cons ph phs ih =>
      refine wp_ite (fun _ => wp_pure (below_none rfl)) fun _ => ?_
      refine wp_ite (fun _ => ih hsz) fun _ => ?_
      refine wp_ite (fun _ => wp_pure (below_none rfl)) fun _ => ?_
      refine wp_ite (fun _ => wp_pure (below_none rfl)) fun _ => ?_
      refine wp_bind (allocuvm_size ..) fun r s₁ h₁ => ?_
      have hr : r < kernBase := h₁.2.elim id fun h => by omega
      refine wp_ite (fun _ => wp_pure (below_none h₁.1)) fun _ => ?_
      refine wp_ite (fun _ => wp_pure (below_none h₁.1)) fun _ => ?_
      refine wp_bind ((loaduvm_quiet ..).keeps s₁) fun ok s₂ h₂ => ?_
      have hproc : s₂.proc = s.proc := h₂.trans h₁.1
      refine wp_ite (fun _ => ?_) fun _ => wp_pure (below_none hproc)
      exact wp_mono (ih hr) fun _ _ h₃ => ⟨h₃.1.trans hproc, h₃.2⟩

theorem execStack_size (pgdir : Nat) {sz : Nat} (argv : List (List UInt8))
    (hsz : sz < kernBase) :
    Sat (fun _ => True) (execStack L pgdir sz argv) s (Below s) := by
  have hround : pgRoundUp sz ≤ kernBase := by
    unfold pgRoundUp uint kernBase pgSize at *
    omega
  have hsum : uint (pgRoundUp sz + 2 * pgSize) = pgRoundUp sz + 2 * pgSize := by
    unfold uint kernBase pgSize at *
    omega
  refine wp_bind (allocuvm_size ..) fun r s₁ h₁ => ?_
  have hr : r < kernBase := h₁.2.elim id fun h => by omega
  refine wp_ite (fun _ => wp_pure (below_none h₁.1)) fun _ => ?_
  refine wp_bind ((clearpteu_quiet ..).keeps s₁) fun _ s₂ h₂ => ?_
  refine wp_bind ((pushArgs_quiet ..).keeps s₂) fun r s₃ h₃ => ?_
  have hproc₃ : s₃.proc = s.proc := h₃.trans (h₂.trans h₁.1)
  cases r with
  | none => exact wp_pure (below_none hproc₃)
  | some x =>
      refine wp_bind ((copyout_quiet ..).keeps s₃) fun ok s₄ h₄ => ?_
      have hproc₄ : s₄.proc = s.proc := h₄.trans hproc₃
      refine wp_ite (fun _ => wp_pure ⟨hproc₄, fun sz' hsz' => ?_⟩) fun _ => wp_pure (below_none hproc₄)
      rwa [← Option.some.inj hsz']

end Results

/-! ## The invariant -/

/-- The sizes of all processes are below `KERNBASE`. -/
def Small (s : State) : Prop := ∀ p, (s.proc p).Live → (s.proc p).sz < kernBase

namespace Small

variable {L : Layout} {s s' : State} {p : Slot}

theorem congr (h : Small s) (hproc : s'.proc = s.proc) : Small s' := by
  unfold Small at *
  rwa [hproc]

/-- One entry changes. -/
theorem put (h : Small s) (hproc : s'.proc = s.proc) {f : Proc → Proc}
    (hf : (f (s.proc p)).Live → (f (s.proc p)).sz < kernBase) : Small (s'.setProc p f) := by
  intro q hq
  by_cases hqp : q = p
  · subst hqp
    rw [State.setProc_self, hproc] at hq ⊢
    exact hf hq
  · rw [State.setProc_of_ne s' f hqp, hproc] at hq ⊢
    exact h q hq

theorem quiet (h : Small s) {α : Type} {m : VmM α} (hm : Quiet m) :
    Sat (fun _ => True) m s fun _ s' => Small s' :=
  wp_mono (hm.keeps s) fun _ _ hproc => h.congr hproc

theorem allocproc (h : Small s) : Sat (fun _ => True) allocproc s fun _ s' => Small s' ∧
    ∀ p, (s.proc p).Live → s'.proc p = s.proc p := by
  refine wp_get_bind ?_
  split
  next => exact wp_pure ⟨h, fun _ _ => rfl⟩
  next p hfind =>
    have hunused : (s.proc p).state = .unused := by simpa using List.find?_some hfind
    -- the entry that is taken is not one of a process
    have hne : ∀ q, (s.proc q).Live → q ≠ p := fun q hq heq => hq.1 (heq ▸ hunused)
    refine wp_modify_bind (wp_bind (kalloc_quiet.keeps _) fun r s₁ h₁ => ?_)
    have h₂ : Small s₁ := Small.congr (h.put rfl fun hlive => absurd rfl hlive.2) h₁
    have hkeep : ∀ f q, (s.proc q).Live → (s₁.setProc p f).proc q = s.proc q := fun f q hq => by
      rw [State.setProc_of_ne _ _ (hne q hq), h₁, State.setProc_of_ne _ _ (hne q hq)]
    have hp : (s₁.proc p).state = .embryo := by rw [h₁, State.setProc_self]
    cases r with
    | none =>
        exact wp_modify_bind (wp_pure ⟨h₂.put rfl fun hlive => absurd rfl hlive.1, hkeep _⟩)
    | some page =>
        exact wp_modify_bind (wp_pure ⟨h₂.put rfl fun hlive => absurd hp hlive.2, hkeep _⟩)

theorem fork (h : Small s) {cur : Slot} (hcur : (s.proc cur).Live) :
    Sat (fun _ => True) (fork L cur) s fun _ s' => Small s' := by
  refine wp_bind h.allocproc fun r s₁ h₁ => ?_
  cases r with
  | none => exact wp_pure h₁.1
  | some np =>
      refine wp_get_bind (wp_bind ((copyuvm_quiet L ..).keeps s₁) fun r s₂ h₂ => ?_)
      have hsmall := h₁.1.congr h₂
      cases r with
      | none =>
          refine wp_modify_bind (wp_bind ((kfree_quiet L _).keeps _) fun _ s₃ h₃ => ?_)
          refine wp_modify_bind (wp_pure ?_)
          have hmid : Small s₃ := Small.congr (hsmall.put rfl fun hlive => hsmall np hlive) h₃
          exact hmid.put rfl fun hlive => absurd rfl hlive.1
      | some d =>
          refine wp_modify_bind (wp_pure (hsmall.put rfl fun _ => ?_))
          show (s₂.proc cur).sz < kernBase
          rw [h₂, h₁.2 cur hcur]
          exact h cur hcur

theorem growproc (h : Small s) {cur : Slot} (hcur : (s.proc cur).Live) (n : Int) :
    Sat (fun _ => True) (growproc L cur n) s fun _ s' => Small s' := by
  have hsz := h cur hcur
  refine wp_get_bind (wp_ite (fun _ => ?_) fun _ => wp_ite (fun _ => ?_) fun _ => wp_pure h)
  · refine wp_bind (allocuvm_size ..) fun r s₁ h₁ => ?_
    refine wp_ite (fun _ => wp_pure (h.congr h₁.1)) fun _ => wp_modify_bind (wp_pure ?_)
    have hr : r < kernBase := h₁.2.elim id fun hr => by omega
    exact h.put h₁.1 fun _ => hr
  · have hshrink : ∀ newsz, Sat (fun _ => True) (deallocuvm L (s.proc cur).pgdir (s.proc cur).sz newsz)
        s fun r s' => s'.proc = s.proc ∧ r ≤ (s.proc cur).sz := fun newsz => by
      refine wp_and ((deallocuvm_quiet L ..).keeps s) ?_
      refine wp_ite (fun _ => wp_pure (Nat.le_refl _)) fun hlt => ?_
      exact wp_bind ((deallocLoop_quiet L ..).keeps s) fun _ _ _ => wp_pure (by omega)
    refine wp_bind (hshrink _) fun r s₁ h₁ => ?_
    refine wp_ite (fun _ => wp_pure (h.congr h₁.1)) fun _ => wp_modify_bind (wp_pure ?_)
    exact h.put h₁.1 fun _ => Nat.lt_of_le_of_lt h₁.2 hsz

theorem exec (h : Small s) (cur : Slot) (im : Image) (argv : List (List UInt8)) :
    Sat (fun _ => True) (exec L cur im argv) s fun _ s' => Small s' := by
  have hbad : ∀ d s', s'.proc = s.proc → Sat (fun _ => True) (execBad L d) s' fun _ s' => Small s' :=
    fun d s' hproc => wp_bind ((freevm_quiet L d).keeps s') fun _ _ h' =>
      wp_pure (h.congr (h'.trans hproc))
  refine wp_ite (fun _ => wp_pure h) fun _ => wp_bind ((setupkvm_quiet L).keeps s) fun r s₁ h₁ => ?_
  cases r with
  | none => exact wp_pure (h.congr h₁)
  | some d =>
      refine wp_bind (execLoad_size d im.phdrs (by decide)) fun r s₂ h₂ => ?_
      have hproc₂ : s₂.proc = s.proc := h₂.1.trans h₁
      cases r with
      | none => exact hbad d s₂ hproc₂
      | some sz =>
          refine wp_bind (execStack_size d argv (h₂.2 sz rfl)) fun r s₃ h₃ => ?_
          have hproc₃ : s₃.proc = s.proc := h₃.1.trans hproc₂
          cases r with
          | none => exact hbad d s₃ hproc₃
          | some sz' =>
              refine wp_get_bind (wp_modify_bind (wp_bind ((freevm_quiet L _).keeps _)
                fun _ s₄ h₄ => wp_pure ?_))
              exact Small.congr (h.put hproc₃ fun _ => h₃.2 sz' rfl) h₄

theorem exit (h : Small s) (cur : Slot) (hcur : (s.proc cur).Live) :
    Sat (fun _ => True) (exit cur) s fun _ s' => Small s' := by
  refine wp_get_bind (wp_ite (fun _ => wp_stop trivial) fun _ => wp_modify fun p hp => ?_)
  have hsame : ∀ q : Proc, (if (s.proc p).parent = some cur then
      { s.proc p with parent := some s.initproc } else s.proc p) = q → q.sz = (s.proc p).sz ∧
        q.state = (s.proc p).state := by
    rintro q rfl
    split_ifs <;> exact ⟨rfl, rfl⟩
  dsimp only at hp ⊢
  by_cases hpc : p = cur
  · rw [if_pos hpc]
    dsimp only
    rw [(hsame _ rfl).1, hpc]
    exact h cur hcur
  · rw [if_neg hpc] at hp ⊢
    rw [(hsame _ rfl).1]
    refine h p ?_
    unfold Proc.Live at *
    rwa [(hsame _ rfl).2] at hp

theorem wait (h : Small s) (cur : Slot) :
    Sat (fun _ => True) (wait L cur) s fun _ s' => Small s' := by
  refine wp_get_bind ?_
  split
  next => exact wp_pure h
  next p hfind =>
    refine wp_bind ((kfree_quiet L _).keeps s) fun _ s₁ h₁ => wp_modify_bind ?_
    have h₂ : Small (s₁.setProc p fun q => { q with kstack := 0 }) :=
      (h.congr h₁).put rfl fun hlive => h.congr h₁ p hlive
    refine wp_bind (h₂.quiet (freevm_quiet L _)) fun _ s₃ h₃ => wp_modify_bind (wp_pure ?_)
    exact h₃.put rfl fun hlive => absurd rfl hlive.1

theorem userinit (h : Small s) (init : List UInt8) :
    Sat (fun _ => True) (userinit L init) s fun _ s' => Small s' := by
  refine wp_bind h.allocproc fun r s₁ h₁ => ?_
  cases r with
  | none => exact wp_stop trivial
  | some p =>
      refine wp_modify_bind (wp_bind (Small.quiet (s := { s₁ with initproc := p }) h₁.1
        (setupkvm_quiet L)) fun r s₂ h₂ => ?_)
      cases r with
      | none => exact wp_stop trivial
      | some d =>
          refine wp_bind (h₂.quiet (inituvm_quiet d init)) fun _ s₃ h₃ => wp_modify ?_
          exact h₃.put rfl fun _ => by
            show pgSize < kernBase
            decide

theorem call (h : Small s) {call : Call} (hallowed : call.Allowed s) :
    Sat (fun _ => True) (call.run L) s fun _ s' => Small s' := by
  have hclose : ∀ page writable, Quiet (pipeclose L page writable) := fun page writable => by
    refine Quiet.get_bind fun s => ?_
    cases s.pipe page with
    | none => exact Quiet.pure ()
    | some e =>
        exact Quiet.ite (Quiet.modify_bind (kfree_quiet L page) fun _ => rfl)
          (Quiet.modify fun _ => rfl)
  have hpipe : ∀ files, Quiet (pipealloc files) := fun files => by
    refine Quiet.ite (Quiet.pure false) (kalloc_quiet.bind fun r => ?_)
    cases r with
    | none => exact Quiet.pure false
    | some page => exact Quiet.modify_bind (Quiet.pure true) fun _ => rfl
  cases call with
  | kvmalloc =>
      exact h.quiet ((setupkvm_quiet L).bind fun _ => Quiet.modify fun _ => rfl)
  | userinit init => exact h.userinit init
  | fork cur => exact wp_bind (h.fork hallowed.1) fun _ _ h' => wp_pure h'
  | exec cur im argv => exact wp_bind (h.exec cur im argv) fun _ _ h' => wp_pure h'
  | sbrk cur n => exact wp_bind (h.growproc hallowed.1.1 n) fun _ _ h' => wp_pure h'
  | exit cur => exact h.exit cur hallowed.1
  | wait cur => exact wp_bind (h.wait cur) fun _ _ h' => wp_pure h'
  | pipe files => exact wp_bind (h.quiet (hpipe files)) fun _ _ h' => wp_pure h'
  | close page writable => exact h.quiet (hclose page writable)
  | userWrite cur va bytes => exact h.quiet (userWrite_quiet cur va bytes)

theorem step {a : List Bool × Call} (h : Small s) (hstep : Step L s a s') : Small s' := by
  obtain ⟨hallowed, hrun⟩ := hstep
  have h₀ : Small { s with fails := a.1 } := h.congr rfl
  exact wp_of_run (h₀.call hallowed) (fun _ _ => trivial) hrun

/-- In every state that is reached, the sizes are below `KERNBASE`. -/
theorem along {s₀ : State} {tr : List (State × (List Bool × Call))} (hboot : Boot L s₀)
    (hrun : Run (Step L) s₀ tr s) : Along Small tr s :=
  hrun.invariant (fun p hp => absurd (hboot.proc p) hp.1) fun _ _ _ h hs => h.step hs

end Small

end Cs350.Vm
