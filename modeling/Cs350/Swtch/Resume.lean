import Cs350.Swtch.Machine

set_option autoImplicit false

/-! # A thread goes on where it was

A call of `swtch` leaves a frame on the stack of the caller that holds its registers. As long as the
thread does not run nobody touches the frame, so the call that switches back to it returns with the
registers and the stack that it was made with. -/

namespace Cs350.Swtch

open Transition

section Words

variable {m : Machine} {v : UInt32}

theorem toNat_sub_four {a : UInt32} (h : 4 ≤ a.toNat) : (a - 4).toNat = a.toNat - 4 :=
  UInt32.toNat_sub_of_le a 4 h

theorem toNat_add_of_lt {a k : UInt32} (h : a.toNat + k.toNat < 2 ^ 32) :
    (a + k).toNat = a.toNat + k.toNat := by
  rw [UInt32.toNat_add, Nat.mod_eq_of_lt h]

theorem word_eq {mem : Mem} {a : Nat} (h : mem.load a 4 = v.toNat) :
    UInt32.ofNat (mem.load a 4) = v := by
  rw [h, UInt32.ofNat_toNat]

theorem load_store_word (mem : Mem) (a : Nat) (v : UInt32) :
    (mem.store a 4 v.toNat).load a 4 = v.toNat := by
  rw [Mem.load_store]
  exact Nat.mod_eq_of_lt v.toNat_lt

/-- The memory after a push. -/
theorem pushl_mem (h : 4 ≤ m.regs.esp.toNat) (v : UInt32) :
    (m.pushl v).mem = m.mem.store (m.regs.esp.toNat - 4) 4 v.toNat := by
  show m.mem.store (m.regs.esp - 4).toNat 4 v.toNat = _
  rw [toNat_sub_four h]

theorem pushl_esp (h : 4 ≤ m.regs.esp.toNat) (v : UInt32) :
    (m.pushl v).regs.esp.toNat = m.regs.esp.toNat - 4 := toNat_sub_four h

end Words

/-! ## One call -/

/-- The frame below the stack pointer of a thread holds its registers. -/
structure Frame (mem : Mem) (σ : Saved) : Prop where
  edi : mem.load (σ.esp.toNat - 20) 4 = σ.edi.toNat
  esi : mem.load (σ.esp.toNat - 16) 4 = σ.esi.toNat
  ebx : mem.load (σ.esp.toNat - 12) 4 = σ.ebx.toNat
  ebp : mem.load (σ.esp.toNat - 8) 4 = σ.ebp.toNat
  eip : mem.load (σ.esp.toNat - 4) 4 = σ.eip.toNat

/-- The memory after `swtch` has saved the registers. -/
def savedMem (m : Machine) (old new ret : UInt32) : Mem :=
  let e := m.regs.esp.toNat
  (((((((m.mem.store (e - 4) 4 new.toNat).store (e - 8) 4 old.toNat).store (e - 12) 4 ret.toNat).store
    (e - 16) 4 m.regs.ebp.toNat).store (e - 20) 4 m.regs.ebx.toNat).store
    (e - 24) 4 m.regs.esi.toNat).store (e - 28) 4 m.regs.edi.toNat).store old.toNat 4 (e - 28)

section Call

variable {m : Machine} {old new ret : UInt32}

/-- The stack when `swtch` begins. -/
def called (m : Machine) (old new ret : UInt32) : Machine := ((m.pushl new).pushl old).pushl ret

theorem called_mem (h : 28 ≤ m.regs.esp.toNat) : (called m old new ret).mem =
    ((m.mem.store (m.regs.esp.toNat - 4) 4 new.toNat).store (m.regs.esp.toNat - 8) 4 old.toNat).store
      (m.regs.esp.toNat - 12) 4 ret.toNat := by
  have h₁ := pushl_esp (m := m) (by omega) new
  have h₂ := pushl_esp (m := m.pushl new) (by omega) old
  rw [called, pushl_mem (by omega), pushl_mem (by omega), pushl_mem (by omega), h₂, h₁, Nat.sub_sub,
    Nat.sub_sub]

theorem called_esp (h : 28 ≤ m.regs.esp.toNat) :
    (called m old new ret).regs.esp.toNat = m.regs.esp.toNat - 12 := by
  have h₁ := pushl_esp (m := m) (by omega) new
  have h₂ := pushl_esp (m := m.pushl new) (by omega) old
  rw [called, pushl_esp (by omega), h₂, h₁, Nat.sub_sub, Nat.sub_sub]

/-- `swtch` finds its arguments. -/
theorem called_args (h : 28 ≤ m.regs.esp.toNat) :
    (called m old new ret).word ((called m old new ret).regs.esp + 4) = old ∧
      (called m old new ret).word ((called m old new ret).regs.esp + 8) = new := by
  have hesp := @called_esp m old new ret h
  have hlt := m.regs.esp.toNat_lt
  have h4 : ((called m old new ret).regs.esp + 4).toNat = m.regs.esp.toNat - 8 := by
    have hsum := toNat_add_of_lt (a := (called m old new ret).regs.esp) (k := 4) (by
      rw [hesp]
      show _ + 4 < _
      omega)
    rw [hsum, hesp]
    show _ + 4 = _
    omega
  have h8 : ((called m old new ret).regs.esp + 8).toNat = m.regs.esp.toNat - 4 := by
    have hsum := toNat_add_of_lt (a := (called m old new ret).regs.esp) (k := 8) (by
      rw [hesp]
      show _ + 8 < _
      omega)
    rw [hsum, hesp]
    show _ + 8 = _
    omega
  rw [Machine.word, Machine.word, h4, h8, called_mem h]
  refine ⟨word_eq ?_, word_eq ?_⟩
  · rw [Mem.load_store_of_disjoint _ _ _ _ _ _ (by omega), load_store_word]
  · rw [Mem.load_store_of_disjoint _ _ _ _ _ _ (by omega),
      Mem.load_store_of_disjoint _ _ _ _ _ _ (by omega), load_store_word]

/-- The machine after the first two instructions of `swtch`. -/
def begun (m : Machine) : Machine :=
  { m with
    regs := { m.regs with eax := m.word (m.regs.esp + 4), edx := m.word (m.regs.esp + 8) } }

/-- Four words are pushed. -/
def pushl4 (m : Machine) (a b c d : UInt32) : Machine := (((m.pushl a).pushl b).pushl c).pushl d

theorem pushl4_esp (h : 16 ≤ m.regs.esp.toNat) (a b c d : UInt32) :
    (pushl4 m a b c d).regs.esp.toNat = m.regs.esp.toNat - 16 := by
  have h₁ := pushl_esp (m := m) (by omega) a
  have h₂ := pushl_esp (m := m.pushl a) (by omega) b
  have h₃ := pushl_esp (m := (m.pushl a).pushl b) (by omega) c
  rw [pushl4, pushl_esp (by omega), h₃, h₂, h₁]
  simp only [Nat.sub_sub, Nat.reduceAdd]

theorem pushl4_mem (h : 16 ≤ m.regs.esp.toNat) (a b c d : UInt32) :
    (pushl4 m a b c d).mem = (((m.mem.store (m.regs.esp.toNat - 4) 4 a.toNat).store
      (m.regs.esp.toNat - 8) 4 b.toNat).store (m.regs.esp.toNat - 12) 4 c.toNat).store
        (m.regs.esp.toNat - 16) 4 d.toNat := by
  have h₁ := pushl_esp (m := m) (by omega) a
  have h₂ := pushl_esp (m := m.pushl a) (by omega) b
  have h₃ := pushl_esp (m := (m.pushl a).pushl b) (by omega) c
  rw [pushl4, pushl_mem (by omega), pushl_mem (by omega), pushl_mem (by omega), pushl_mem (by omega),
    h₃, h₂, h₁]
  simp only [Nat.sub_sub, Nat.reduceAdd]

/-- The first half of a call. -/
theorem saveRegs_spec (h : 28 ≤ m.regs.esp.toNat) :
    (saveRegs (called m old new ret)).mem = savedMem m old new ret ∧
      (saveRegs (called m old new ret)).regs.edx = new := by
  obtain ⟨hold, hnew⟩ := @called_args m old new ret h
  have hesp := @called_esp m old new ret h
  have hmem := @called_mem m old new ret h
  have hesp4 := pushl4_esp (m := begun (called m old new ret)) (show 16 ≤ _ by
    show 16 ≤ (called m old new ret).regs.esp.toNat
    omega) m.regs.ebp m.regs.ebx m.regs.esi m.regs.edi
  have hmem4 := pushl4_mem (m := begun (called m old new ret)) (show 16 ≤ _ by
    show 16 ≤ (called m old new ret).regs.esp.toNat
    omega) m.regs.ebp m.regs.ebx m.regs.esi m.regs.edi
  have hbegun : (begun (called m old new ret)).regs.esp.toNat = m.regs.esp.toNat - 12 := hesp
  have hbegunmem : (begun (called m old new ret)).mem = (called m old new ret).mem := rfl
  refine ⟨?_, hnew⟩
  show (pushl4 (begun (called m old new ret)) m.regs.ebp m.regs.ebx m.regs.esi m.regs.edi).mem.store
    ((called m old new ret).word ((called m old new ret).regs.esp + 4)).toNat 4
    (pushl4 (begun (called m old new ret)) m.regs.ebp m.regs.ebx m.regs.esi m.regs.edi).regs.esp.toNat
    = _
  rw [hold, hesp4, hmem4, hbegun, hbegunmem, hmem]
  simp only [savedMem, Nat.sub_sub, Nat.reduceAdd]

end Call

/-- The machine goes on as the thread that was saved. -/
structure Resumed (m : Machine) (σ : Saved) : Prop where
  eip : m.regs.eip = σ.eip
  esp : m.regs.esp = σ.esp
  ebp : m.regs.ebp = σ.ebp
  ebx : m.regs.ebx = σ.ebx
  esi : m.regs.esi = σ.esi
  edi : m.regs.edi = σ.edi

/-- The second half of a call. -/
theorem loadRegs_spec {m : Machine} {σ : Saved} (hedx : m.regs.edx.toNat + 20 = σ.esp.toNat)
    (hf : Frame m.mem σ) : Resumed (loadRegs m) σ := by
  have hlt := σ.esp.toNat_lt
  have hadd : ∀ a k : UInt32, k = 4 → a.toNat + 4 ≤ σ.esp.toNat → (a + k).toNat = a.toNat + 4 := by
    rintro a _ rfl hle
    exact toNat_add_of_lt (Nat.lt_of_le_of_lt hle hlt)
  have h₁ := hadd m.regs.edx 4 rfl (by omega)
  have h₂ := hadd (m.regs.edx + 4) 4 rfl (by omega)
  have h₃ := hadd (m.regs.edx + 4 + 4) 4 rfl (by omega)
  have h₄ := hadd (m.regs.edx + 4 + 4 + 4) 4 rfl (by omega)
  have h₅ := hadd (m.regs.edx + 4 + 4 + 4 + 4) 4 rfl (by omega)
  -- the words are popped in the order of `struct context`
  have hword : ∀ (a v : UInt32) (k : Nat), a.toNat = σ.esp.toNat - k →
      m.mem.load (σ.esp.toNat - k) 4 = v.toNat → m.word a = v := by
    intro a v k ha hv
    rw [Machine.word, ha]
    exact word_eq hv
  refine ⟨?_, ?_, ?_, ?_, ?_, ?_⟩
  · exact hword (m.regs.edx + 4 + 4 + 4 + 4) _ 4 (by omega) hf.eip
  · refine UInt32.toNat_inj.1 ?_
    show (m.regs.edx + 4 + 4 + 4 + 4 + 4).toNat = _
    omega
  · exact hword (m.regs.edx + 4 + 4 + 4) _ 8 (by omega) hf.ebp
  · exact hword (m.regs.edx + 4 + 4) _ 12 (by omega) hf.ebx
  · exact hword (m.regs.edx + 4) _ 16 (by omega) hf.esi
  · exact hword m.regs.edx _ 20 (by omega) hf.edi

theorem loadRegs_mem (m : Machine) : (loadRegs m).mem = m.mem := rfl

section Saved

variable {m : Machine} {old new ret : UInt32}

/-- Only the part of the stack below the stack pointer changes, and the pointer to the context. -/
theorem savedMem_apply (h : 28 ≤ m.regs.esp.toNat) {a : Nat}
    (hstack : a < m.regs.esp.toNat - 28 ∨ m.regs.esp.toNat ≤ a)
    (hold : a < old.toNat ∨ old.toNat + 4 ≤ a) : savedMem m old new ret a = m.mem a := by
  rw [savedMem, Mem.store_apply _ _ _ _ _ (by omega), Mem.store_apply _ _ _ _ _ (by omega),
    Mem.store_apply _ _ _ _ _ (by omega), Mem.store_apply _ _ _ _ _ (by omega),
    Mem.store_apply _ _ _ _ _ (by omega), Mem.store_apply _ _ _ _ _ (by omega),
    Mem.store_apply _ _ _ _ _ (by omega), Mem.store_apply _ _ _ _ _ (by omega)]

/-- The frame of the caller. -/
theorem savedMem_frame (h : 28 ≤ m.regs.esp.toNat) {σ : Saved}
    (hesp : σ.esp.toNat = m.regs.esp.toNat - 8) (heip : σ.eip = ret) (hebp : σ.ebp = m.regs.ebp)
    (hebx : σ.ebx = m.regs.ebx) (hesi : σ.esi = m.regs.esi) (hedi : σ.edi = m.regs.edi)
    (hold : old.toNat + 4 ≤ m.regs.esp.toNat - 28 ∨ m.regs.esp.toNat ≤ old.toNat) :
    Frame (savedMem m old new ret) σ ∧
      (savedMem m old new ret).load old.toNat 4 = σ.esp.toNat - 20 := by
  have hlt := m.regs.esp.toNat_lt
  have hsub : ∀ k, σ.esp.toNat - k = m.regs.esp.toNat - (8 + k) := by
    intro k
    rw [hesp, Nat.sub_sub]
  refine ⟨⟨?_, ?_, ?_, ?_, ?_⟩, ?_⟩
  · rw [hsub, savedMem, Mem.load_store_of_disjoint _ _ _ _ _ _ (by omega), load_store_word, hedi]
  · rw [hsub, savedMem, Mem.load_store_of_disjoint _ _ _ _ _ _ (by omega),
      Mem.load_store_of_disjoint _ _ _ _ _ _ (by omega), load_store_word, hesi]
  · rw [hsub, savedMem, Mem.load_store_of_disjoint _ _ _ _ _ _ (by omega),
      Mem.load_store_of_disjoint _ _ _ _ _ _ (by omega),
      Mem.load_store_of_disjoint _ _ _ _ _ _ (by omega), load_store_word, hebx]
  · rw [hsub, savedMem, Mem.load_store_of_disjoint _ _ _ _ _ _ (by omega),
      Mem.load_store_of_disjoint _ _ _ _ _ _ (by omega),
      Mem.load_store_of_disjoint _ _ _ _ _ _ (by omega),
      Mem.load_store_of_disjoint _ _ _ _ _ _ (by omega), load_store_word, hebp]
  · rw [hsub, savedMem, Mem.load_store_of_disjoint _ _ _ _ _ _ (by omega),
      Mem.load_store_of_disjoint _ _ _ _ _ _ (by omega),
      Mem.load_store_of_disjoint _ _ _ _ _ _ (by omega),
      Mem.load_store_of_disjoint _ _ _ _ _ _ (by omega),
      Mem.load_store_of_disjoint _ _ _ _ _ _ (by omega), load_store_word, heip]
  · rw [savedMem, Mem.load_store, hsub]
    exact Nat.mod_eq_of_lt (by omega)

end Saved

/-! ## The threads that are not running -/

structure Asleep {T : Type} (L : Layout T) (t : T) (σ : Saved) (mem : Mem) : Prop where
  frame : Frame mem σ
  context : mem.load (L.context t) 4 = σ.esp.toNat - contextSize
  lo : L.kstack t + contextSize ≤ σ.esp.toNat
  hi : σ.esp.toNat ≤ σ.bound
  top : σ.bound ≤ L.top t
  stack : ∀ a, σ.esp.toNat ≤ a → a < σ.bound → mem a = σ.mem a

structure Inv {T : Type} (L : Layout T) (s : St T) : Prop where
  running : s.saved s.running = none
  apart : ∀ t u, t ≠ u → s.Live t → s.Live u → L.Apart t u
  asleep : ∀ t σ, s.saved t = some σ → Asleep L t σ s.m.mem

section Invariant

variable {T : Type} {L : Layout T} {t u : T} {σ : Saved} {mem mem' : Mem}

theorem Asleep.congr (h : Asleep L t σ mem)
    (hstack : ∀ a, σ.esp.toNat - contextSize ≤ a → a < σ.bound → mem' a = mem a)
    (hcontext : ∀ a, L.context t ≤ a → a < L.context t + 4 → mem' a = mem a) :
    Asleep L t σ mem' := by
  have hlo := h.lo
  have hhi := h.hi
  unfold contextSize at hlo hstack
  have hload : ∀ k, 4 ≤ k → k ≤ 20 →
      mem'.load (σ.esp.toNat - k) 4 = mem.load (σ.esp.toNat - k) 4 := fun k h4 h20 =>
    Mem.load_congr fun i hi => hstack _ (by omega) (by omega)
  refine ⟨⟨?_, ?_, ?_, ?_, ?_⟩, ?_, h.lo, h.hi, h.top, fun a ha hlt => ?_⟩
  · rw [hload 20 (by decide) (by decide), h.frame.edi]
  · rw [hload 16 (by decide) (by decide), h.frame.esi]
  · rw [hload 12 (by decide) (by decide), h.frame.ebx]
  · rw [hload 8 (by decide) (by decide), h.frame.ebp]
  · rw [hload 4 (by decide) (by decide), h.frame.eip]
  · rw [← h.context]
    exact Mem.load_congr fun i hi => hcontext _ (by omega) (by omega)
  · rw [hstack a (by omega) hlt, h.stack a ha hlt]

theorem Layout.toNat_context (L : Layout T) (t : T) :
    (UInt32.ofNat (L.context t)).toNat = L.context t :=
  UInt32.toNat_ofNat_of_lt' (Nat.lt_of_le_of_lt (Nat.le_add_right ..) (L.context_lt t))

/-- Writes within the stack of a thread and to its pointer leave the others asleep. -/
theorem Asleep.other (h : Asleep L u σ mem) (hapart : L.Apart u t)
    (hmem : ∀ a, (a < L.kstack t ∨ L.top t ≤ a) → (a < L.context t ∨ L.context t + 4 ≤ a) →
      mem' a = mem a) : Asleep L u σ mem' := by
  have hstacks := hapart.kstack
  have hcontexts := hapart.context
  have hut := L.outside u t
  have htu := L.outside t u
  have hlo := h.lo
  have htop := h.top
  refine h.congr (fun a ha hlt => hmem a ?_ ?_) fun a ha hlt => hmem a ?_ ?_ <;>
  · unfold Layout.top contextSize at *
    omega

/-- `allocproc` writes on the new stack only, and to the pointer to the new context. -/
theorem allocproc_apply (forkret trapret : UInt32) {a : Nat} (hstack : a < L.kstack t ∨ L.top t ≤ a)
    (hcontext : a < L.context t ∨ L.context t + 4 ≤ a) :
    allocproc L forkret trapret t mem a = mem a := by
  have htop : L.top t = L.kstack t + 4096 := rfl
  have hout : ¬(L.top t - 76 - 4 - 20 ≤ a ∧ a < L.top t - 76 - 4 - 20 + 20) := by omega
  show ((((mem.store (L.top t - 76 - 4) 4 trapret.toNat).store (L.context t) 4
    (L.top t - 76 - 4 - 20)).memset (L.top t - 76 - 4 - 20) 0 20).store (L.top t - 76 - 4 - 20 + 16) 4
      forkret.toNat) a = mem a
  rw [Mem.store_apply _ _ _ _ _ (by omega), Mem.memset, if_neg hout, Mem.store_apply _ _ _ _ _ hcontext,
    Mem.store_apply _ _ _ _ _ (by omega)]

/-- The frame that `allocproc` makes. -/
theorem allocproc_asleep (L : Layout T) (forkret trapret : UInt32) (t : T) (mem : Mem) :
    Asleep L t (newThread L forkret t (allocproc L forkret trapret t mem))
      (allocproc L forkret trapret t mem) := by
  have hlt := L.kstack_lt t
  unfold kstackSize at hlt
  have hout := L.outside t t
  unfold kstackSize at hout
  have htop : L.top t = L.kstack t + 4096 := rfl
  have hesp : (newThread L forkret t (allocproc L forkret trapret t mem)).esp.toNat =
      L.top t - 80 := by
    show (UInt32.ofNat (L.top t - 76 - 4)).toNat = _
    rw [UInt32.toNat_ofNat_of_lt' (by show _ < 2 ^ 32; omega)]
    omega
  let mem₂ := (mem.store (L.top t - 76 - 4) 4 trapret.toNat).store (L.context t) 4
    (L.top t - 76 - 4 - 20)
  let mem₃ := mem₂.memset (L.top t - 76 - 4 - 20) 0 20
  have hmem : allocproc L forkret trapret t mem =
      mem₃.store (L.top t - 76 - 4 - 20 + 16) 4 forkret.toNat := rfl
  -- `memset` clears the four registers
  have hzero : ∀ k, 8 ≤ k → k ≤ 20 →
      (allocproc L forkret trapret t mem).load (L.top t - 80 - k) 4 = 0 := by
    intro k h8 h20
    rw [hmem, Mem.load_store_of_disjoint _ _ _ _ _ _ (by omega)]
    exact Mem.load_memset_zero _ (by omega) 4 (by omega)
  have hbound : (newThread L forkret t (allocproc L forkret trapret t mem)).bound = L.top t - 76 := rfl
  refine ⟨⟨?_, ?_, ?_, ?_, ?_⟩, ?_, ?_, ?_, ?_, fun a _ _ => rfl⟩
  · rw [hesp]
    exact hzero 20 (by decide) (by decide)
  · rw [hesp]
    exact hzero 16 (by decide) (by decide)
  · rw [hesp]
    exact hzero 12 (by decide) (by decide)
  · rw [hesp]
    exact hzero 8 (by decide) (by decide)
  · have haddr : L.top t - 80 - 4 = L.top t - 76 - 4 - 20 + 16 := by omega
    rw [hesp, haddr, hmem, load_store_word]
    rfl
  · have hcleared : mem₃.load (L.context t) 4 = mem₂.load (L.context t) 4 :=
      Mem.load_congr fun i hi => if_neg (by omega)
    rw [hesp, hmem, Mem.load_store_of_disjoint _ _ _ _ _ _ (by omega), hcleared, Mem.load_store]
    unfold contextSize
    rw [Nat.mod_eq_of_lt (by omega)]
    omega
  · unfold contextSize
    omega
  · omega
  · omega

/-- The word on top of the new stack. -/
theorem allocproc_trapret (L : Layout T) (forkret trapret : UInt32) (t : T) (mem : Mem) :
    (allocproc L forkret trapret t mem).load (L.top t - 80) 4 = trapret.toNat := by
  have hout := L.outside t t
  unfold kstackSize at hout
  have htop : L.top t = L.kstack t + 4096 := rfl
  let mem₁ := mem.store (L.top t - 76 - 4) 4 trapret.toNat
  let mem₂ := mem₁.store (L.context t) 4 (L.top t - 76 - 4 - 20)
  have hmem : allocproc L forkret trapret t mem =
      (mem₂.memset (L.top t - 76 - 4 - 20) 0 20).store (L.top t - 76 - 4 - 20 + 16) 4
        forkret.toNat := rfl
  have hcleared : (mem₂.memset (L.top t - 76 - 4 - 20) 0 20).load (L.top t - 80) 4 =
      mem₂.load (L.top t - 80) 4 := Mem.load_congr fun i hi => if_neg (by omega)
  rw [hmem, Mem.load_store_of_disjoint _ _ _ _ _ _ (by omega), hcleared,
    Mem.load_store_of_disjoint _ _ _ _ _ _ (by omega)]
  exact load_store_word mem _ trapret

/-! ## The switch -/

variable {s s' : St T} {ret : UInt32}

theorem Inv.ne (h : Inv L s) (hsaved : s.saved t = some σ) : t ≠ s.running := by
  rintro rfl
  rw [h.running] at hsaved
  cases hsaved

/-- The memory after a switch. -/
theorem switch_mem (hroom : L.kstack s.running + 28 ≤ s.m.regs.esp.toNat) :
    (s.switch L t ret).mem = savedMem s.m (UInt32.ofNat (L.context s.running))
      (s.m.word (UInt32.ofNat (L.context t))) ret := by
  rw [St.switch, callSwtch, swtch, loadRegs_mem]
  exact (saveRegs_spec (by omega)).1

/-- The thread that calls `swtch` is left asleep. -/
theorem switch_asleep (hroom : L.kstack s.running + 28 ≤ s.m.regs.esp.toNat)
    (htop : s.m.regs.esp.toNat ≤ L.top s.running) :
    Asleep L s.running (s.save L ret (s.switch L t ret).mem) (s.switch L t ret).mem := by
  have hout := L.outside s.running s.running
  have hcontext := L.toNat_context s.running
  have hesp : (s.save L ret (s.switch L t ret).mem).esp.toNat = s.m.regs.esp.toNat - 8 :=
    UInt32.toNat_sub_of_le s.m.regs.esp 8 (show 8 ≤ s.m.regs.esp.toNat by omega)
  have hspec := @savedMem_frame s.m (UInt32.ofNat (L.context s.running))
    (s.m.word (UInt32.ofNat (L.context t))) ret (by omega)
    (s.save L ret (s.switch L t ret).mem) hesp rfl rfl rfl rfl rfl (by
      rw [hcontext]
      unfold Layout.top at htop
      omega)
  obtain ⟨hframe, hload⟩ := hspec
  rw [hcontext] at hload
  refine ⟨?_, ?_, ?_, ?_, Nat.le_refl _, fun a _ _ => rfl⟩
  · rw [switch_mem hroom] at hframe ⊢
    exact hframe
  · rw [switch_mem hroom] at hload ⊢
    exact hload
  · unfold contextSize
    omega
  · exact hesp ▸ Nat.le_trans (Nat.sub_le ..) htop

/-- Another thread stays asleep. -/
theorem switch_other (hroom : L.kstack s.running + 28 ≤ s.m.regs.esp.toNat)
    (htop : s.m.regs.esp.toNat ≤ L.top s.running) (hapart : L.Apart u s.running)
    (h : Asleep L u σ s.m.mem) : Asleep L u σ (s.switch L t ret).mem := by
  rw [switch_mem hroom]
  refine h.other hapart fun a hstack hcontext => savedMem_apply (by omega) ?_ ?_
  · exact hstack.imp (by omega) (Nat.le_trans htop)
  · rw [L.toNat_context]
    exact hcontext

/-- The thread that was asleep goes on. -/
theorem switch_resumed (hroom : L.kstack s.running + 28 ≤ s.m.regs.esp.toNat)
    (htop : s.m.regs.esp.toNat ≤ L.top s.running) (hapart : L.Apart t s.running)
    (h : Asleep L t σ s.m.mem) : Resumed (s.switch L t ret) σ := by
  have hlater := @switch_other T L t t σ s ret hroom htop hapart h
  have hlo := h.lo
  unfold contextSize at hlo
  have hnew : (s.m.word (UInt32.ofNat (L.context t))).toNat = σ.esp.toNat - 20 := by
    rw [Machine.word, L.toNat_context, h.context]
    exact UInt32.toNat_ofNat_of_lt' (Nat.lt_of_le_of_lt (Nat.sub_le ..) σ.esp.toNat_lt)
  obtain ⟨_, hedx⟩ := @saveRegs_spec s.m (UInt32.ofNat (L.context s.running))
    (s.m.word (UInt32.ofNat (L.context t))) ret (by omega)
  rw [St.switch, callSwtch, swtch, loadRegs_mem] at hlater
  rw [St.switch, callSwtch, swtch]
  refine loadRegs_spec ?_ hlater.frame
  show (saveRegs (called _ _ _ _)).regs.edx.toNat + 20 = _
  rw [hedx, hnew]
  omega

theorem St.Live.running (s : St T) : s.Live s.running := .inl rfl

theorem St.Live.of_saved (h : s.saved t = some σ) : s.Live t :=
  .inr (h ▸ rfl)

theorem Layout.Apart.symm (h : L.Apart t u) : L.Apart u t :=
  ⟨h.kstack.symm, h.context.symm⟩

end Invariant

/-! ## Runs -/

section Runs

variable {T : Type} [DecidableEq T] {L : Layout T} {forkret trapret : UInt32} {s s' : St T}

/-- The threads that a step leaves with a stack: those that had one, and the new one. -/
theorem Step.live {a : Act T} (hs : Step L forkret trapret s a s') {u : T} (hu : s'.Live u) :
    s.Live u ∨ a = .allocproc u ∧ ∀ v, s.Live v → L.Apart u v := by
  cases hs with
  | compute => exact .inl hu
  | @allocproc t mem _ hapart =>
      rcases eq_or_ne u t with rfl | hut
      · exact .inr ⟨rfl, hapart⟩
      · refine .inl (hu.imp_right fun h => ?_)
        dsimp only at h
        rwa [Function.update_of_ne hut] at h
  | @swtch t ret m hsaved =>
      refine .inl ?_
      rcases hu with rfl | h
      · exact .inr hsaved
      · dsimp only at h
        rcases eq_or_ne u t with rfl | hut
        · exact .inr hsaved
        · rw [Function.update_of_ne hut] at h
          rcases eq_or_ne u s.running with rfl | hur
          · exact St.Live.running s
          · rw [Function.update_of_ne hur] at h
            exact .inr h
  | @kfree t =>
      refine .inl (hu.imp_right fun h => ?_)
      dsimp only at h
      rcases eq_or_ne u t with rfl | hut
      · rw [Function.update_self] at h
        cases h
      · rwa [Function.update_of_ne hut] at h

theorem Inv.step_apart (h : Inv L s) {a : Act T} (hs : Step L forkret trapret s a s') {t u : T}
    (hne : t ≠ u) (ht : s'.Live t) (hu : s'.Live u) : L.Apart t u := by
  rcases hs.live ht with ht | ⟨rfl, ht⟩
  · rcases hs.live hu with hu | ⟨rfl, hu⟩
    · exact h.apart t u hne ht hu
    · exact (hu t ht).symm
  · rcases hs.live hu with hu | ⟨ha, _⟩
    · exact ht u hu
    · exact absurd (Act.allocproc.inj ha) hne

theorem Inv.step (h : Inv L s) {a : Act T} (hs : Step L forkret trapret s a s') : Inv L s' := by
  refine ⟨?_, fun t u => h.step_apart hs, fun u σ hσ => ?_⟩
  · cases hs with
    | compute => exact h.running
    | allocproc hnew =>
        exact (Function.update_of_ne (fun heq => hnew (.inl heq.symm)) _ _).trans h.running
    | swtch => exact Function.update_self ..
    | kfree hne => exact (Function.update_of_ne hne.symm _ _).trans h.running
  · cases hs with
    | compute hkept => exact (h.asleep u σ hσ).congr (hkept u σ hσ).1 (hkept u σ hσ).2
    | @allocproc t mem hnew hapart hmem =>
        dsimp only at hσ ⊢
        subst hmem
        rcases eq_or_ne u t with rfl | hut
        · rw [Function.update_self] at hσ
          rw [← Option.some.inj hσ]
          exact allocproc_asleep L forkret trapret u s.m.mem
        · rw [Function.update_of_ne hut] at hσ
          exact (h.asleep u σ hσ).other (hapart u (.of_saved hσ)).symm fun a =>
            allocproc_apply forkret trapret
    | @swtch t ret m hsaved hroom htop hm =>
        dsimp only at hσ ⊢
        subst hm
        rcases eq_or_ne u t with rfl | hut
        · rw [Function.update_self] at hσ
          cases hσ
        · rw [Function.update_of_ne hut] at hσ
          rcases eq_or_ne u s.running with rfl | hur
          · rw [Function.update_self] at hσ
            rw [← Option.some.inj hσ]
            exact switch_asleep hroom htop
          · rw [Function.update_of_ne hur] at hσ
            exact switch_other hroom htop (h.apart u _ hur (.of_saved hσ) (.running s))
              (h.asleep u σ hσ)
    | @kfree t hne =>
        dsimp only at hσ
        rcases eq_or_ne u t with rfl | hut
        · rw [Function.update_self] at hσ
          cases hσ
        · rw [Function.update_of_ne hut] at hσ
          exact h.asleep u σ hσ

/-- A thread stays asleep until somebody switches to it or frees it. -/
theorem saved_mid {a : T} {σ : Saved} {mid : List (St T × Act T)}
    (hrun : Run (Step L forkret trapret) s mid s') (hinv : Inv L s) (hσ : s.saved a = some σ)
    (hmid : ∀ x ∈ mid, x.2 ≠ .kfree a ∧ ∀ ret, x.2 ≠ .swtch a ret) :
    Inv L s' ∧ s'.saved a = some σ := by
  have hstep : ∀ u b u', (Inv L u ∧ u.saved a = some σ) → (b ≠ .kfree a ∧ ∀ ret, b ≠ .swtch a ret) →
      Step L forkret trapret u b u' → Inv L u' ∧ u'.saved a = some σ := by
    intro u b u' ⟨hu, hua⟩ ⟨hfree, hswtch⟩ hs
    refine ⟨hu.step hs, ?_⟩
    cases hs with
    | compute => exact hua
    | @allocproc t mem hnew =>
        have hne : a ≠ t := by
          rintro rfl
          exact hnew (.of_saved hua)
        exact (Function.update_of_ne hne _ _).trans hua
    | @swtch t ret =>
        have hne : a ≠ t := by
          rintro rfl
          exact hswtch ret rfl
        exact (Function.update_of_ne hne _ _).trans
          ((Function.update_of_ne (hu.ne hua) _ _).trans hua)
    | @kfree t =>
        have hne : a ≠ t := by
          rintro rfl
          exact hfree rfl
        exact (Function.update_of_ne hne _ _).trans hua
  exact (hrun.invariant_of_steps (C := fun _ b => b ≠ .kfree a ∧ ∀ ret, b ≠ .swtch a ret)
    ⟨hinv, hσ⟩ hstep hmid).2

/-- The switch to a thread that has been asleep since `s`. -/
theorem switch_back {a : T} {σ : Saved} {mid : List (St T × Act T)} {s₂ : St T} {ret : UInt32}
    (hrun : Run (Step L forkret trapret) s (mid ++ [(s₂, .swtch a ret)]) s') (hinv : Inv L s)
    (hσ : s.saved a = some σ)
    (hmid : ∀ x ∈ mid, x.2 ≠ .kfree a ∧ ∀ ret, x.2 ≠ .swtch a ret) :
    s'.running = a ∧ Resumed s'.m σ ∧ Asleep L a σ s'.m.mem := by
  obtain ⟨hrun, hlast⟩ := hrun.unsnoc
  obtain ⟨hinv₂, hσ₂⟩ := saved_mid hrun hinv hσ hmid
  have hapart := hinv₂.apart a _ (hinv₂.ne hσ₂) (.of_saved hσ₂) (.running s₂)
  have hasleep := hinv₂.asleep a σ hσ₂
  cases hlast with
  | swtch _ hroom htop hm =>
      subst hm
      exact ⟨rfl, switch_resumed hroom htop hapart hasleep,
        switch_other hroom htop hapart hasleep⟩

theorem Inv.of_boot {s₀ : St T} (hboot : ∀ t, s₀.saved t = none) {tr : List (St T × Act T)}
    (hrun : Run (Step L forkret trapret) s₀ tr s) : Inv L s := by
  have h₀ : Inv L s₀ := by
    refine ⟨hboot _, fun t u hne ht hu => ?_, fun t σ hσ => ?_⟩
    · have hlive : ∀ v, s₀.Live v → v = s₀.running := fun v hv => hv.elim id fun h => by
        rw [hboot v] at h
        cases h
      exact absurd ((hlive t ht).trans (hlive u hu).symm) hne
    · rw [hboot t] at hσ
      cases hσ
  exact (hrun.invariant h₀ fun _ _ _ hi => hi.step).2

/-- **A call of `swtch` returns.** When somebody switches back to the thread that made the call, it
    goes on behind it with the callee-saved registers and the stack of the call. -/
theorem swtch_returns {s₀ s₁ s₂ s₃ : St T} {t : T} {ret ret' : UInt32}
    {pre mid : List (St T × Act T)} (hboot : ∀ t, s₀.saved t = none)
    (hrun : Run (Step L forkret trapret) s₀
      (pre ++ ((s₁, .swtch t ret) :: mid ++ [(s₂, .swtch s₁.running ret')])) s₃)
    (hmid : ∀ x ∈ mid, x.2 ≠ .kfree s₁.running ∧ ∀ ret, x.2 ≠ .swtch s₁.running ret) :
    s₃.running = s₁.running ∧ s₃.m.regs.eip = ret ∧ s₃.m.regs.esp = s₁.m.regs.esp - 8 ∧
      s₃.m.regs.ebp = s₁.m.regs.ebp ∧ s₃.m.regs.ebx = s₁.m.regs.ebx ∧
      s₃.m.regs.esi = s₁.m.regs.esi ∧ s₃.m.regs.edi = s₁.m.regs.edi ∧
      ∀ b, s₁.m.regs.esp.toNat ≤ b → b < L.top s₁.running → s₃.m.mem b = s₁.m.mem b := by
  obtain ⟨u, hpre, hrest⟩ := hrun.split
  obtain ⟨rfl, v, hs, hback⟩ := hrest.uncons
  have hinv := Inv.of_boot hboot hpre
  have hinv' := hinv.step hs
  cases hs with
  | @swtch _ _ m hsaved hroom htop hm =>
      obtain ⟨σ, hσ⟩ := Option.isSome_iff_exists.1 hsaved
      have hsave : Function.update (Function.update s₁.saved s₁.running (some (s₁.save L ret m.mem)))
          t none s₁.running = some (s₁.save L ret m.mem) := by
        rw [Function.update_of_ne (hinv.ne hσ).symm, Function.update_self]
      obtain ⟨hrunning, hres, hasleep⟩ := switch_back hback hinv' hsave hmid
      refine ⟨hrunning, hres.eip, hres.esp, hres.ebp, hres.ebx, hres.esi, hres.edi,
        fun b hlo hhi => ?_⟩
      have hout := L.outside s₁.running s₁.running
      have hesp : (s₁.save L ret m.mem).esp.toNat = s₁.m.regs.esp.toNat - 8 :=
        UInt32.toNat_sub_of_le s₁.m.regs.esp 8 (show 8 ≤ s₁.m.regs.esp.toNat by omega)
      have hkept : s₃.m.mem b = m.mem b := hasleep.stack b (by omega) hhi
      have hcontext := L.toNat_context s₁.running
      rw [hkept, hm, switch_mem hroom, savedMem_apply (by omega) (.inr hlo)]
      unfold Layout.top at htop hhi
      omega

/-- Two threads. -/
def pairLayout : Layout Bool where
  kstack t := if t then 8192 else 4096
  context t := if t then 104 else 100
  kstack_lt := by decide
  context_lt := by decide
  outside := by decide

/-- A machine with the stack pointer in the middle of the stack. -/
def pairMachine (t : Bool) (mem : Mem) : Machine where
  regs := ⟨0, if t then 12000 else 6000, 7, 8, 9, 10, 0, 0⟩
  mem := mem

def pairBoot : St Bool := ⟨pairMachine false fun _ => 0, false, fun _ => none⟩

def pairNew : St Bool where
  m := { pairBoot.m with mem := allocproc pairLayout 256 512 true pairBoot.m.mem }
  running := false
  saved := Function.update pairBoot.saved true
    (some (newThread pairLayout 256 true (allocproc pairLayout 256 512 true pairBoot.m.mem)))

def pairOther : St Bool where
  m := pairNew.switch pairLayout true 1024
  running := true
  saved := Function.update (Function.update pairNew.saved false
    (some (pairNew.save pairLayout 1024 (pairNew.switch pairLayout true 1024).mem))) true none

theorem pair_allocproc : Step pairLayout 256 512 pairBoot (.allocproc true) pairNew := by
  have hlive : ∀ v, pairBoot.Live v → v = false := fun v hv => hv.elim id fun h => by cases h
  have hapart : pairLayout.Apart true false := ⟨by decide, by decide⟩
  exact .allocproc (fun h => absurd (hlive _ h) (by decide)) (fun v hv => hlive v hv ▸ hapart) rfl

/-- The new thread is made and switched to. -/
theorem pair_start : Run (Step pairLayout 256 512) pairBoot
    [(pairBoot, .allocproc true), (pairNew, .swtch true 1024)] pairOther := by
  have hswtch : Step pairLayout 256 512 pairNew (.swtch true 1024) pairOther :=
    .swtch rfl (by decide) (by decide) rfl
  exact Run.cons pair_allocproc (Run.cons hswtch Run.nil)

theorem swtch_returns_pair : ∃ s : St Bool, s.running = false ∧ s.m.regs.eip = 1024 ∧
    s.m.regs.esp = 5992 ∧ s.m.regs.ebp = 7 := by
  -- the new thread moves its stack pointer, and switches back
  let s : St Bool := { pairOther with m := pairMachine true pairOther.m.mem }
  have h₃ : Step pairLayout 256 512 pairOther .compute s :=
    .compute fun _ _ _ => ⟨fun _ _ _ => rfl, fun _ _ _ => rfl⟩
  have h₄ : Step pairLayout 256 512 s (.swtch false 2048) _ := .swtch rfl (by decide) (by decide) rfl
  have hrun : Run (Step pairLayout 256 512) pairBoot ([(pairBoot, .allocproc true)] ++
      ((pairNew, .swtch true 1024) :: [(pairOther, .compute)] ++ [(s, .swtch false 2048)])) _ :=
    pair_start.append (Run.cons h₃ (Run.cons h₄ Run.nil))
  obtain ⟨hrunning, heip, hesp, hebp, _⟩ := swtch_returns (fun _ => rfl) hrun fun x hx => by
    rw [List.mem_singleton.1 hx]
    exact ⟨by simp, by simp⟩
  exact ⟨_, hrunning, heip, hesp, hebp⟩

/-- A new thread begins in `forkret`, which returns to `trapret`, with the stack pointer at the trap
    frame when it does. -/
theorem new_thread_begins {s₀ s₁ s₂ s₃ : St T} {t : T} {ret : UInt32}
    {pre mid : List (St T × Act T)} (hboot : ∀ t, s₀.saved t = none)
    (hrun : Run (Step L forkret trapret) s₀
      (pre ++ ((s₁, .allocproc t) :: mid ++ [(s₂, .swtch t ret)])) s₃)
    (hmid : ∀ x ∈ mid, x.2 ≠ .kfree t ∧ ∀ ret, x.2 ≠ .swtch t ret) :
    s₃.running = t ∧ s₃.m.regs.eip = forkret ∧ s₃.m.word s₃.m.regs.esp = trapret ∧
      (s₃.m.regs.esp + 4).toNat = L.top t - trapframeSize ∧ s₃.m.regs.ebp = 0 ∧
      s₃.m.regs.ebx = 0 ∧ s₃.m.regs.esi = 0 ∧ s₃.m.regs.edi = 0 := by
  obtain ⟨u, hpre, hrest⟩ := hrun.split
  obtain ⟨rfl, v, hs, hback⟩ := hrest.uncons
  have hinv := Inv.of_boot hboot hpre
  have hinv' := hinv.step hs
  cases hs with
  | @allocproc _ mem hnew hne hmem =>
      obtain ⟨hrunning, hres, hasleep⟩ := switch_back hback hinv' (Function.update_self ..) hmid
      have hlt := L.kstack_lt t
      unfold kstackSize at hlt
      have htop : L.top t = L.kstack t + 4096 := rfl
      have hesp : s₃.m.regs.esp.toNat = L.top t - 80 := by
        rw [hres.esp]
        show (UInt32.ofNat (L.top t - 76 - 4)).toNat = _
        rw [UInt32.toNat_ofNat_of_lt' (by show _ < 2 ^ 32; omega)]
        omega
      refine ⟨hrunning, hres.eip, ?_, ?_, hres.ebp, hres.ebx, hres.esi, hres.edi⟩
      · have hload : s₃.m.mem.load (L.top t - 80) 4 = mem.load (L.top t - 80) 4 :=
          Mem.load_congr fun i hi => hasleep.stack _ (by rw [← hres.esp]; omega)
            (show _ < L.top t - 76 by omega)
        rw [Machine.word, hesp, hload, hmem, allocproc_trapret, UInt32.ofNat_toNat]
      · rw [toNat_add_of_lt (by rw [hesp]; show _ + 4 < _; omega), hesp]
        show _ + 4 = L.top t - 76
        omega

/-- The parent of the thread goes on for a while, with other registers and a word of its stack
    written, before the new thread runs. -/
theorem new_thread_begins_pair : ∃ s : St Bool, s.running = true ∧ s.m.regs.eip = 256 ∧
    s.m.word s.m.regs.esp = 512 ∧ s.m.regs.ebx = 0 := by
  let s : St Bool :=
    { pairNew with m := pairMachine false (pairNew.m.mem.store 5000 4 77) }
  have hapart : ∀ a, a < 5000 ∨ 5004 ≤ a → s.m.mem a = pairNew.m.mem a := fun a ha =>
    Mem.store_apply _ _ _ _ _ ha
  have hkept : Kept pairLayout pairNew s.m.mem := by
    intro t σ hσ
    cases t with
    | false => cases hσ
    | true =>
        obtain rfl := Option.some.inj hσ
        refine ⟨fun a hlo _ => hapart a (.inr ?_), fun a _ hhi => hapart a (.inl ?_)⟩
        · change 12288 - 76 - 4 - 20 ≤ a at hlo
          omega
        · change a < 104 + 4 at hhi
          omega
  have h₂ : Step pairLayout 256 512 pairNew .compute s := .compute hkept
  have h₃ : Step pairLayout 256 512 s (.swtch true 1024) _ := .swtch rfl (by decide) (by decide) rfl
  have hrun : Run (Step pairLayout 256 512) pairBoot
      ([] ++ ((pairBoot, .allocproc true) :: [(pairNew, .compute)] ++ [(s, .swtch true 1024)])) _ :=
    Run.cons pair_allocproc (Run.cons h₂ (Run.cons h₃ Run.nil))
  obtain ⟨hrunning, heip, hword, _, _, hebx, _⟩ := new_thread_begins (fun _ => rfl) hrun fun x hx => by
    rw [List.mem_singleton.1 hx]
    exact ⟨by simp, by simp⟩
  exact ⟨_, hrunning, heip, hword, hebx⟩

end Runs

end Cs350.Swtch
