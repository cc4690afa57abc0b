import Cs350.Swtch.Resume
import Cs350.Swtch.Trap

set_option autoImplicit false

/-! # The trap frame

What `alltraps` pushes is a `struct trapframe`, and `trapret` pops one. So a trap is invisible to the
code that it interrupts, a system call changes `%eax` only, and the child of `fork` comes back from
its parent's system call with the parent's registers. -/

namespace Cs350.Swtch

/-! ## Words on a stack -/

/-- The words are pushed one after the other. -/
def storeDown : Mem → UInt32 → List UInt32 → Mem
  | mem, _, [] => mem
  | mem, a, v :: vs => storeDown (mem.store (a - 4).toNat 4 v.toNat) (a - 4) vs

theorem storeDown_apply {a : UInt32} {vs : List UInt32} (h : 4 * vs.length ≤ a.toNat) (mem : Mem)
    {x : Nat} (hx : a.toNat ≤ x ∨ x < a.toNat - 4 * vs.length) : storeDown mem a vs x = mem x := by
  induction vs generalizing a mem with
  | nil => rfl
  | cons v vs ih =>
      rw [List.length_cons] at h hx
      have hsub := toNat_sub_four (a := a) (by omega)
      rw [storeDown, ih (by omega) _ (by omega), Mem.store_apply _ _ _ _ _ (by omega)]

theorem load_storeDown {a : UInt32} {vs : List UInt32} (h : 4 * vs.length ≤ a.toNat) (mem : Mem)
    {i : Nat} (hi : i < vs.length) :
    (storeDown mem a vs).load (a.toNat - 4 * (i + 1)) 4 = vs[i].toNat := by
  induction vs generalizing a mem i with
  | nil => exact absurd hi (Nat.not_lt_zero i)
  | cons v vs ih =>
      rw [List.length_cons] at h hi
      have hsub := toNat_sub_four (a := a) (by omega)
      rw [storeDown]
      cases i with
      | zero =>
          have hload : (storeDown (mem.store (a - 4).toNat 4 v.toNat) (a - 4) vs).load
              (a.toNat - 4 * (0 + 1)) 4 = (mem.store (a - 4).toNat 4 v.toNat).load (a - 4).toNat 4 := by
            rw [hsub]
            exact Mem.load_congr fun j hj => storeDown_apply (by omega) _ (by omega)
          rw [hload, load_store_word, List.getElem_cons_zero]
      | succ i =>
          have haddr : a.toNat - 4 * (i + 1 + 1) = (a - 4).toNat - 4 * (i + 1) := by omega
          rw [haddr, ih (by omega) _ (by omega), List.getElem_cons_succ]

/-- The low half of a word. -/
theorem toUInt16_load (mem : Mem) (a : Nat) :
    (UInt32.ofNat (mem.load a 4)).toUInt16 = UInt16.ofNat (mem.load a 2) := by
  have hlt := mem.load_lt a 4
  have hmod : mem.load a 4 % 2 ^ 16 = mem.load a 2 % 2 ^ 16 := by
    simp only [Mem.load]
    omega
  apply UInt16.toNat_inj.1
  rw [UInt32.toNat_toUInt16, UInt32.toNat_ofNat_of_lt' hlt, UInt16.toNat_ofNat', hmod]

/-! ## The way out -/

/-- The registers that `trapret` leaves. -/
def Trapframe.cpu (tf : Trapframe) (esp : UInt32) (ss : UInt16) : Cpu where
  edi := tf.edi
  esi := tf.esi
  ebp := tf.ebp
  esp := if tf.cs &&& 3 != 0 then tf.esp else esp
  ebx := tf.ebx
  edx := tf.edx
  ecx := tf.ecx
  eax := tf.eax
  gs := tf.gs
  fs := tf.fs
  es := tf.es
  ds := tf.ds
  ss := if tf.cs &&& 3 != 0 then tf.ss else ss
  cs := tf.cs
  eip := tf.eip
  eflags := tf.eflags

theorem Trapframe.cpu_cs (tf : Trapframe) (esp : UInt32) (ss : UInt16) :
    (tf.cpu esp ss).cs = tf.cs := rfl

/-- The frame of a user program has its own stack. -/
theorem Trapframe.cpu_user {tf : Trapframe} (h : (tf.cs &&& 3 != 0) = true) (esp esp' : UInt32)
    (ss ss' : UInt16) : tf.cpu esp ss = tf.cpu esp' ss' := by
  rw [Trapframe.cpu, Trapframe.cpu, if_pos h, if_pos h, if_pos h, if_pos h]

theorem word_add {c : Core} {a k : UInt32} (h : a.toNat + k.toNat < 2 ^ 32) :
    c.word (a + k) = UInt32.ofNat (c.mem.load (a.toNat + k.toNat) 4) := by
  rw [Core.word, toNat_add_of_lt h]

theorem trapret_cpu (c : Core) (h : c.cpu.esp.toNat + 76 ≤ 2 ^ 32) :
    (trapret c).cpu = (trapframeAt c.mem c.cpu.esp.toNat).cpu (c.cpu.esp + 68) c.cpu.ss := by
  have hadd : ∀ k : UInt32, k.toNat ≤ 72 →
      (c.cpu.esp + k).toNat = c.cpu.esp.toNat + k.toNat := fun k hk => toNat_add_of_lt (by omega)
  simp only [trapret, popal, Core.popl, iret, Core.word, Core.user, UInt32.add_assoc,
    UInt32.reduceAdd]
  simp (disch := decide) only [hadd, UInt32.reduceToNat, toUInt16_load]
  rw [trapframeAt, Trapframe.cpu]
  dsimp only
  cases UInt16.ofNat (c.mem.load (c.cpu.esp.toNat + 60) 2) &&& 3 != 0 <;> rfl

theorem leave_cpu (c : Core) {p : UInt32} (hp : c.cpu.esp + 4 = p) (h : p.toNat + 76 ≤ 2 ^ 32) :
    (leave c).cpu = (trapframeAt c.mem p.toNat).cpu (p + 68) c.cpu.ss := by
  subst hp
  exact trapret_cpu { c with cpu := { c.cpu with esp := c.cpu.esp + 4 } } h

/-- What happens to the frame is seen in the registers; of a frame that stays as it is but for the
    saved `%eax`, there only. -/
theorem Trapframe.cpu_congr {mem mem' : Mem} {p : Nat} (esp : UInt32) (ss : UInt16)
    (h : ∀ a, p ≤ a → a < p + 68 → a < p + 28 ∨ p + 32 ≤ a → mem' a = mem a)
    (huser : (trapframeAt mem p).cs &&& 3 ≠ 0 → ∀ a, p + 68 ≤ a → a < p + 76 → mem' a = mem a) :
    (trapframeAt mem' p).cpu esp ss =
      { (trapframeAt mem p).cpu esp ss with eax := UInt32.ofNat (mem'.load (p + 28) 4) } := by
  have hword : ∀ k, k + 4 ≤ 28 ∨ (32 ≤ k ∧ k + 4 ≤ 68) → mem'.load (p + k) 4 = mem.load (p + k) 4 :=
    fun k hk => Mem.load_congr fun i hi => h _ (by omega) (by omega) (by omega)
  have hshort : ∀ k, 32 ≤ k → k + 2 ≤ 68 → mem'.load (p + k) 2 = mem.load (p + k) 2 :=
    fun k hlo hhi => Mem.load_congr fun i hi => h _ (by omega) (by omega) (by omega)
  have hcs : (trapframeAt mem' p).cs = (trapframeAt mem p).cs :=
    congrArg UInt16.ofNat (hshort 60 (by decide) (by decide))
  rw [Trapframe.cpu, Trapframe.cpu, hcs]
  apply Cpu.ext
  case esp =>
    by_cases hu : (trapframeAt mem p).cs &&& 3 = 0
    · simp [hu]
    · have hload : mem'.load (p + 68) 4 = mem.load (p + 68) 4 :=
        Mem.load_congr fun i hi => huser hu _ (by omega) (by omega)
      simp [trapframeAt, hload]
  case ss =>
    by_cases hu : (trapframeAt mem p).cs &&& 3 = 0
    · simp [hu]
    · have hload : mem'.load (p + 72) 2 = mem.load (p + 72) 2 :=
        Mem.load_congr fun i hi => huser hu _ (by omega) (by omega)
      simp [trapframeAt, hload]
  case eax => rfl
  case cs => rfl
  case edi => exact congrArg UInt32.ofNat (hword 0 (by decide))
  case esi => exact congrArg UInt32.ofNat (hword 4 (by decide))
  case ebp => exact congrArg UInt32.ofNat (hword 8 (by decide))
  case ebx => exact congrArg UInt32.ofNat (hword 16 (by decide))
  case edx => exact congrArg UInt32.ofNat (hword 20 (by decide))
  case ecx => exact congrArg UInt32.ofNat (hword 24 (by decide))
  case gs => exact congrArg UInt16.ofNat (hshort 32 (by decide) (by decide))
  case fs => exact congrArg UInt16.ofNat (hshort 36 (by decide) (by decide))
  case es => exact congrArg UInt16.ofNat (hshort 40 (by decide) (by decide))
  case ds => exact congrArg UInt16.ofNat (hshort 44 (by decide) (by decide))
  case eip => exact congrArg UInt32.ofNat (hword 56 (by decide))
  case eflags => exact congrArg UInt32.ofNat (hword 64 (by decide))

/-! ## The way in -/

/-- The stack pointer after `n` pushes. -/
def down : UInt32 → Nat → UInt32
  | a, 0 => a
  | a, n + 1 => down (a - 4) n

theorem toNat_down {a : UInt32} {n : Nat} (h : 4 * n ≤ a.toNat) :
    (down a n).toNat = a.toNat - 4 * n := by
  induction n generalizing a with
  | zero => rfl
  | succ n ih =>
      have hsub := toNat_sub_four (a := a) (by omega)
      rw [down, ih (by omega)]
      omega

/-- Where the kernel begins to push. -/
def base (esp0 : UInt32) (c : Core) : UInt32 := if c.user then esp0 else c.cpu.esp

/-- The stack pointer is pushed by a trap from a user program only. -/
def userWords (c : Core) : List UInt32 :=
  if c.user then [c.cpu.ss.toUInt32, c.cpu.esp] else []

section Enter

variable {esp0 gate ret i err : UInt32} {istrap : Bool} {c : Core}

theorem intr_mem : (intr esp0 istrap gate i err c).mem =
    storeDown c.mem (base esp0 c) (userWords c ++
      [c.cpu.eflags, c.cpu.cs.toUInt32, c.cpu.eip] ++ if hasErr i then [err] else []) := by
  rw [intr, base, userWords]
  cases c.user <;> cases hasErr i <;> rfl

theorem intr_cpu : (intr esp0 istrap gate i err c).cpu = { c.cpu with
    esp := down (base esp0 c) ((userWords c).length + 3 + if hasErr i then 1 else 0)
    ss := if c.user then segKdata else c.cpu.ss
    cs := segKcode
    eip := gate
    eflags := if istrap then c.cpu.eflags else c.cpu.eflags &&& ~~~flIf } := by
  rw [intr, base, userWords]
  cases c.user <;> cases hasErr i <;> rfl

theorem vector_mem : (vector i c).mem = storeDown c.mem c.cpu.esp
    ((if hasErr i then [] else [0]) ++ [i]) := by
  rw [vector]
  cases hasErr i <;> rfl

theorem vector_cpu : (vector i c).cpu =
    { c.cpu with esp := down c.cpu.esp (1 + if hasErr i then 0 else 1) } := by
  rw [vector]
  cases hasErr i <;> rfl

theorem alltraps_mem : (alltraps ret c).mem = storeDown c.mem c.cpu.esp
    [c.cpu.ds.toUInt32, c.cpu.es.toUInt32, c.cpu.fs.toUInt32, c.cpu.gs.toUInt32, c.cpu.eax,
      c.cpu.ecx, c.cpu.edx, c.cpu.ebx, down c.cpu.esp 4, c.cpu.ebp, c.cpu.esi, c.cpu.edi,
      down c.cpu.esp 12, ret] := by
  rfl

theorem alltraps_esp : (alltraps ret c).cpu.esp = down c.cpu.esp 14 := by
  rfl

theorem pushl_ss (c : Core) (v : UInt32) : (c.pushl v).cpu.ss = c.cpu.ss := rfl

theorem alltraps_ss : (alltraps ret c).cpu.ss = c.cpu.ss := by
  simp only [alltraps, pushal, pushl_ss]

/-- The words of the frame, in the order in which they are pushed. -/
def frameWords (oesp i err : UInt32) (c : Core) : List UInt32 :=
  userWords c ++ [c.cpu.eflags, c.cpu.cs.toUInt32, c.cpu.eip, if hasErr i then err else 0, i,
    c.cpu.ds.toUInt32, c.cpu.es.toUInt32, c.cpu.fs.toUInt32, c.cpu.gs.toUInt32, c.cpu.eax,
    c.cpu.ecx, c.cpu.edx, c.cpu.ebx, oesp, c.cpu.ebp, c.cpu.esi, c.cpu.edi]

/-- `sizeof(struct trapframe)`, less the two fields that a trap in the kernel does not push. -/
def frameSize (c : Core) : Nat := 4 * ((userWords c).length + 17)

/-- The pointer that `trap` is called with. -/
def framePtr (esp0 : UInt32) (c : Core) : UInt32 := down (base esp0 c) ((userWords c).length + 17)

theorem enter_mem : ∃ oesp, (enter esp0 istrap gate ret i err c).mem =
    storeDown c.mem (base esp0 c) (frameWords oesp i err c ++ [framePtr esp0 c, ret]) := by
  refine ⟨down (base esp0 c) ((userWords c).length + 9), ?_⟩
  rw [enter, alltraps_mem, vector_mem, vector_cpu, intr_mem, intr_cpu]
  dsimp only
  rw [frameWords, framePtr, userWords]
  cases c.user <;> cases hasErr i <;>
    simp only [if_true, if_false, Bool.false_eq_true, List.nil_append, List.cons_append,
      List.length_nil, List.length_cons, Nat.reduceAdd, storeDown, down]

theorem enter_esp : (enter esp0 istrap gate ret i err c).cpu.esp =
    down (base esp0 c) ((userWords c).length + 19) := by
  rw [enter, alltraps_esp, vector_cpu, intr_cpu]
  dsimp only
  rw [userWords]
  cases c.user <;> cases hasErr i <;>
    simp only [if_true, if_false, Bool.false_eq_true, List.length_nil, List.length_cons,
      Nat.reduceAdd, down]

theorem enter_ss : (enter esp0 istrap gate ret i err c).cpu.ss =
    if c.user then segKdata else c.cpu.ss := by
  rw [enter, alltraps_ss, vector_cpu, intr_cpu]

theorem frameWords_length (oesp : UInt32) :
    (frameWords oesp i err c).length = (userWords c).length + 17 := by
  rw [frameWords, List.length_append]
  rfl

/-- There is room for the frame and the call of `trap`, and the stack is not at the end of memory. -/
structure Room (esp0 : UInt32) (c : Core) : Prop where
  lo : frameSize c + 8 ≤ (base esp0 c).toNat
  hi : (base esp0 c).toNat + 8 ≤ 2 ^ 32

theorem toNat_framePtr (h : Room esp0 c) :
    (framePtr esp0 c).toNat = (base esp0 c).toNat - frameSize c := by
  have hlo := h.lo
  unfold frameSize at hlo
  rw [framePtr, toNat_down (by omega), frameSize]

/-- A word of the frame. -/
theorem load_enter (h : Room esp0 c) : ∃ oesp, ∀ k (hk : k < (frameWords oesp i err c).length),
    (enter esp0 istrap gate ret i err c).mem.load ((base esp0 c).toNat - 4 * (k + 1)) 4 =
      ((frameWords oesp i err c)[k]).toNat := by
  obtain ⟨oesp, hmem⟩ := @enter_mem esp0 gate ret i err istrap c
  have hlen := @frameWords_length i err c oesp
  have hall : (frameWords oesp i err c ++ [framePtr esp0 c, ret]).length =
      (frameWords oesp i err c).length + 2 := List.length_append
  have hlo := h.lo
  unfold frameSize at hlo
  refine ⟨oesp, fun k hk => ?_⟩
  rw [hmem, load_storeDown (by omega) _ (by omega), List.getElem_append_left hk]

/-- `trap` is called with the address of the frame. -/
theorem enter_arg (h : Room esp0 c) :
    (enter esp0 istrap gate ret i err c).word ((enter esp0 istrap gate ret i err c).cpu.esp + 4) =
      framePtr esp0 c := by
  obtain ⟨oesp, hmem⟩ := @enter_mem esp0 gate ret i err istrap c
  have hlen := @frameWords_length i err c oesp
  have hlt := (base esp0 c).toNat_lt
  have hall : (frameWords oesp i err c ++ [framePtr esp0 c, ret]).length =
      (frameWords oesp i err c).length + 2 := List.length_append
  have hlo := h.lo
  unfold frameSize at hlo
  have hesp : (down (base esp0 c) ((userWords c).length + 19)).toNat =
      (base esp0 c).toNat - 4 * ((userWords c).length + 19) := toNat_down (by omega)
  have haddr : (down (base esp0 c) ((userWords c).length + 19)).toNat + 4 =
      (base esp0 c).toNat - 4 * ((frameWords oesp i err c).length + 1) := by omega
  rw [enter_esp, word_add (show _ + 4 < _ by omega)]
  show UInt32.ofNat ((enter esp0 istrap gate ret i err c).mem.load (_ + 4) 4) = _
  rw [haddr, hmem, load_storeDown (by omega) _ (by omega),
    List.getElem_append_right (Nat.le_refl _)]
  simp only [Nat.sub_self, List.getElem_cons_zero, UInt32.ofNat_toNat]

/-- What is pushed is a `struct trapframe` with the registers of the code that is interrupted. -/
theorem enter_frame (h : Room esp0 c) :
    (trapframeAt (enter esp0 istrap gate ret i err c).mem (framePtr esp0 c).toNat).cpu
      (base esp0 c) c.cpu.ss = c.cpu ∧
    (trapframeAt (enter esp0 istrap gate ret i err c).mem (framePtr esp0 c).toNat).trapno = i := by
  obtain ⟨oesp, hload⟩ := @load_enter esp0 gate ret i err istrap c h
  have hptr := toNat_framePtr h
  have h := h.lo
  unfold frameSize at h hptr
  let words := [c.cpu.eflags, c.cpu.cs.toUInt32, c.cpu.eip, if hasErr i then err else 0, i,
    c.cpu.ds.toUInt32, c.cpu.es.toUInt32, c.cpu.fs.toUInt32, c.cpu.gs.toUInt32, c.cpu.eax,
    c.cpu.ecx, c.cpu.edx, c.cpu.ebx, oesp, c.cpu.ebp, c.cpu.esi, c.cpu.edi]
  have hget : ∀ {a : Nat} (k : Nat) (v : UInt32), (frameWords oesp i err c)[k]? = some v →
      a = (base esp0 c).toNat - 4 * (k + 1) →
      UInt32.ofNat ((enter esp0 istrap gate ret i err c).mem.load a 4) = v := by
    rintro _ k v hv rfl
    obtain ⟨hk, hv⟩ := List.getElem?_eq_some_iff.1 hv
    rw [hload k hk, hv, UInt32.ofNat_toNat]
  -- the fields that every trap pushes
  have hword : ∀ {k : Nat} (v : UInt32), words[k]? = some v → k ≤ 16 →
      UInt32.ofNat ((enter esp0 istrap gate ret i err c).mem.load
        ((framePtr esp0 c).toNat + 4 * (16 - k)) 4) = v := by
    intro k v hv hk
    refine hget ((userWords c).length + k) v ?_ (by omega)
    rw [frameWords, List.getElem?_append_right (by omega), Nat.add_sub_cancel_left]
    exact hv
  have hshort : ∀ {k : Nat} (v : UInt16), words[k]? = some v.toUInt32 → k ≤ 16 →
      UInt16.ofNat ((enter esp0 istrap gate ret i err c).mem.load
        ((framePtr esp0 c).toNat + 4 * (16 - k)) 2) = v := by
    intro k v hv hk
    rw [← toUInt16_load, hword _ hv hk, UInt16.toUInt16_toUInt32]
  have hcs := hshort (k := 1) c.cpu.cs rfl (by decide)
  have hesp : c.user = true → UInt32.ofNat ((enter esp0 istrap gate ret i err c).mem.load
      ((framePtr esp0 c).toNat + 68) 4) = c.cpu.esp := by
    intro hu
    rw [userWords, if_pos hu] at hptr h
    refine hget 1 _ ?_ (by rw [hptr]; simp only [List.length_cons, List.length_nil] at h ⊢; omega)
    rw [frameWords, userWords, if_pos hu]
    rfl
  have hss : c.user = true → UInt16.ofNat ((enter esp0 istrap gate ret i err c).mem.load
      ((framePtr esp0 c).toNat + 72) 2) = c.cpu.ss := by
    intro hu
    rw [userWords, if_pos hu] at hptr h
    rw [← toUInt16_load, hget 0 c.cpu.ss.toUInt32 ?_ ?_, UInt16.toUInt16_toUInt32]
    · rw [frameWords, userWords, if_pos hu]
      rfl
    · rw [hptr]
      simp only [List.length_cons, List.length_nil] at h ⊢
      omega
  refine ⟨?_, hword (k := 4) i rfl (by decide)⟩
  rw [trapframeAt, Trapframe.cpu]
  apply Cpu.ext
  case esp =>
    dsimp only
    rw [hcs]
    cases hu : c.user with
    | true => exact (if_pos hu).trans (hesp hu)
    | false =>
        have hbase : base esp0 c = c.cpu.esp := if_neg (Bool.eq_false_iff.1 hu)
        exact (if_neg (Bool.eq_false_iff.1 hu)).trans hbase
  case ss =>
    dsimp only
    rw [hcs]
    cases hu : c.user with
    | true => exact (if_pos hu).trans (hss hu)
    | false => exact if_neg (Bool.eq_false_iff.1 hu)
  case cs => exact hcs
  case edi => exact hword (k := 16) _ rfl (by decide)
  case esi => exact hword (k := 15) _ rfl (by decide)
  case ebp => exact hword (k := 14) _ rfl (by decide)
  case ebx => exact hword (k := 12) _ rfl (by decide)
  case edx => exact hword (k := 11) _ rfl (by decide)
  case ecx => exact hword (k := 10) _ rfl (by decide)
  case eax => exact hword (k := 9) _ rfl (by decide)
  case gs => exact hshort (k := 8) _ rfl (by decide)
  case fs => exact hshort (k := 7) _ rfl (by decide)
  case es => exact hshort (k := 6) _ rfl (by decide)
  case ds => exact hshort (k := 5) _ rfl (by decide)
  case eip => exact hword (k := 2) _ rfl (by decide)
  case eflags => exact hword (k := 0) _ rfl (by decide)

theorem down_succ (a : UInt32) (n : Nat) : down a (n + 1) + 4 = down a n := by
  induction n generalizing a with
  | zero => exact UInt32.sub_add_cancel a 4
  | succ n ih => exact ih (a - 4)

theorem frameSize_eq (c : Core) : frameSize c = if c.user then 76 else 68 := by
  rw [frameSize, userWords]
  cases c.user <;> rfl

/-- The registers after `trapret`, for a frame that is as it was pushed but for the saved `%eax`. -/
theorem leave_frame {mem : Mem} {k : Core} (h : Room esp0 c)
    (hframe : (trapframeAt mem (framePtr esp0 c).toNat).cpu (base esp0 c) c.cpu.ss = c.cpu)
    (hesp : k.cpu.esp + 4 = framePtr esp0 c) (hss : c.user = false → k.cpu.ss = c.cpu.ss)
    (hkept : ∀ a, (framePtr esp0 c).toNat ≤ a → a < (base esp0 c).toNat →
      a < (framePtr esp0 c).toNat + 28 ∨ (framePtr esp0 c).toNat + 32 ≤ a → k.mem a = mem a) :
    (leave k).cpu = { c.cpu with eax := k.word (framePtr esp0 c + 28) } := by
  have hptr := toNat_framePtr h
  have hlo := h.lo
  have hhi := h.hi
  have hsize := frameSize_eq c
  have hcs := congrArg Cpu.cs hframe
  rw [Trapframe.cpu_cs] at hcs
  have hrest : (trapframeAt mem (framePtr esp0 c).toNat).cpu (framePtr esp0 c + 68) k.cpu.ss =
      c.cpu := by
    cases hu : c.user with
    | true => exact (Trapframe.cpu_user (hcs ▸ hu) _ _ _ _).trans hframe
    | false =>
        have h68 : frameSize c = 68 := hsize.trans (if_neg (Bool.eq_false_iff.1 hu))
        have hend : framePtr esp0 c + 68 = base esp0 c := by
          apply UInt32.toNat_inj.1
          rw [toNat_add_of_lt (show _ + 68 < _ by omega)]
          show _ + 68 = _
          omega
        rw [hend, hss hu]
        exact hframe
  have hcase : c.user = true ∧ frameSize c = 76 ∨ c.user = false ∧ frameSize c = 68 := by
    cases hu : c.user with
    | true => exact .inl ⟨rfl, hsize.trans (if_pos hu)⟩
    | false => exact .inr ⟨rfl, hsize.trans (if_neg (Bool.eq_false_iff.1 hu))⟩
  have huser : (trapframeAt mem (framePtr esp0 c).toNat).cs &&& 3 ≠ 0 → frameSize c = 76 := by
    rw [hcs]
    intro hne
    obtain ⟨_, h76⟩ | ⟨hu, _⟩ := hcase
    · exact h76
    · rw [Core.user, bne_eq_false_iff_eq] at hu
      exact absurd hu hne
  have heax : k.word (framePtr esp0 c + 28) =
      UInt32.ofNat (k.mem.load ((framePtr esp0 c).toNat + 28) 4) := word_add (show _ + 28 < _ by omega)
  rw [leave_cpu k hesp (by omega), Trapframe.cpu_congr _ _
    (fun a hle hlt hne => hkept a hle (by omega) hne) fun hu a hle hlt => hkept a (by omega) (by
      have h76 := huser hu
      omega) (by omega), hrest, heax]

/-- **A trap returns to the code that it has interrupted.** If `trap` leaves its frame alone, but for
    the saved `%eax`, that register is all that changes. -/
theorem trap_returns {k : Core} (h : Room esp0 c)
    (hesp : k.cpu.esp = (enter esp0 istrap gate ret i err c).cpu.esp + 4)
    (hss : k.cpu.ss = (enter esp0 istrap gate ret i err c).cpu.ss)
    (hkept : ∀ a, (framePtr esp0 c).toNat ≤ a → a < (base esp0 c).toNat →
      a < (framePtr esp0 c).toNat + 28 ∨ (framePtr esp0 c).toNat + 32 ≤ a →
      k.mem a = (enter esp0 istrap gate ret i err c).mem a) :
    (leave k).cpu = { c.cpu with eax := k.word (framePtr esp0 c + 28) } := by
  refine leave_frame h (enter_frame h).1 ?_ (fun hu => ?_) hkept
  · rw [hesp, enter_esp, down_succ, down_succ, framePtr]
  · rw [hss, enter_ss, if_neg (Bool.eq_false_iff.1 hu)]

/-- The first process, as `userinit` sets it up. -/
def initcode : Core where
  cpu := ⟨0, 0, 0, 4096, 0, 0, 0, 0, 0, 0, 35, 35, 35, 27, 0, flIf⟩
  mem := fun _ => 0

/-- A core that has come back from `trap`. -/
def back (c : Core) : Core := { c with cpu := { c.cpu with esp := c.cpu.esp + 4 } }

/-- The kernel, in the middle of a function, with interrupts on. -/
def inKernel : Core where
  cpu := ⟨1, 2, 7100, 7000, 3, 4, 5, 6, 0, 0, 16, 16, 16, 8, 3000, flIf⟩
  mem := fun _ => 0

/-- A system call of the first process, and an interrupt of the timer in the kernel. -/
theorem trap_returns_initcode :
    (leave (back (enter 8192 true 1024 2048 64 0 initcode))).cpu =
      { initcode.cpu with
        eax := (enter 8192 true 1024 2048 64 0 initcode).word (framePtr 8192 initcode + 28) } ∧
    (leave (back (enter 8192 false 1024 2048 32 0 inKernel))).cpu =
      { inKernel.cpu with
        eax := (enter 8192 false 1024 2048 32 0 inKernel).word (framePtr 8192 inKernel + 28) } :=
  ⟨trap_returns ⟨by decide, by decide⟩ rfl rfl fun _ _ _ _ => rfl,
    trap_returns ⟨by decide, by decide⟩ rfl rfl fun _ _ _ _ => rfl⟩

/-! ## `fork` -/

/-- What `fork` writes in the trap frame of the child: `*np->tf = *curproc->tf` and
    `np->tf->eax = 0`. -/
def forkFrame (mem : Mem) (tf child : Nat) : Mem :=
  (mem.copy child tf 76).store (child + 28) 4 0

/-- The frame of the child is the one of the parent, with a cleared `%eax`. -/
theorem forkFrame_cpu {mem mem' : Mem} {tf child : Nat} (esp : UInt32) (ss : UInt16)
    (h : ∀ a, child ≤ a → a < child + 76 → mem' a = forkFrame mem tf child a) :
    (trapframeAt mem' child).cpu esp ss = { (trapframeAt mem tf).cpu esp ss with eax := 0 } := by
  -- move the frame of the parent to where the child has its own
  let moved : Mem := fun a => mem (tf + (a - child))
  have hmoved : trapframeAt moved child = trapframeAt mem tf := by
    have hload : ∀ k w, moved.load (child + k) w = mem.load (tf + k) w := by
      intro k w
      induction w generalizing k with
      | zero => rfl
      | succ w ih =>
          have hbyte : moved (child + k) = mem (tf + k) :=
            congrArg (fun i => mem (tf + i)) (Nat.add_sub_cancel_left ..)
          rw [Mem.load, Mem.load, hbyte, Nat.add_assoc child, Nat.add_assoc tf, ih]
    have hload0 : ∀ w, moved.load child w = mem.load tf w := hload 0
    simp only [trapframeAt, hload, hload0]
  have heax : mem'.load (child + 28) 4 = 0 := by
    have hload : mem'.load (child + 28) 4 = (forkFrame mem tf child).load (child + 28) 4 :=
      Mem.load_congr fun i hi => h _ (by omega) (by omega)
    rw [hload, forkFrame, Mem.load_store]
    exact Nat.zero_mod _
  have hcopied : ∀ a, child ≤ a → a < child + 76 → a < child + 28 ∨ child + 32 ≤ a →
      mem' a = moved a := by
    intro a hle hlt hne
    rw [h a hle hlt, forkFrame, Mem.store_apply _ _ _ _ _ (by omega), Mem.copy, if_pos ⟨hle, hlt⟩]
  rw [Trapframe.cpu_congr esp ss (fun a hle hlt hne => hcopied a hle (by omega) hne)
    fun _ a hle hlt => hcopied a (by omega) hlt (by omega), hmoved, heax]
  rfl

/-- **`fork` returns twice.** The parent goes on with the pid of the child in `%eax`; when the child
    first comes to `trapret` it goes on at the same place with the same registers, and with zero. -/
theorem fork_returns_twice {m : Mem} {parent child : Core} {pid tf : UInt32} (huser : c.user = true)
    (h : Room esp0 c)
    (hframe : ∀ a, (framePtr esp0 c).toNat ≤ a → a < esp0.toNat →
      m a = (enter esp0 istrap gate ret i err c).mem a)
    (hapart : tf.toNat + 76 ≤ (framePtr esp0 c).toNat ∨ esp0.toNat ≤ tf.toNat)
    (hin : tf.toNat + 76 ≤ 2 ^ 32)
    (hparent : parent.cpu.esp = (enter esp0 istrap gate ret i err c).cpu.esp + 4)
    (hpid : ∀ a, (framePtr esp0 c).toNat ≤ a → a < esp0.toNat → parent.mem a =
      (forkFrame m (framePtr esp0 c).toNat tf.toNat).store ((framePtr esp0 c).toNat + 28) 4 pid.toNat a)
    (hchild : child.cpu.esp = tf)
    (htf : ∀ a, tf.toNat ≤ a → a < tf.toNat + 76 →
      child.mem a = forkFrame m (framePtr esp0 c).toNat tf.toNat a) :
    (leave parent).cpu = { c.cpu with eax := pid } ∧
      (trapret child).cpu = { c.cpu with eax := 0 } := by
  have hbase : base esp0 c = esp0 := if_pos huser
  have hptr := toNat_framePtr h
  have hsize : frameSize c = 76 := (frameSize_eq c).trans (if_pos huser)
  have hlo := h.lo
  rw [hbase, hsize] at hptr hlo
  have hpushed := (@enter_frame esp0 gate ret i err istrap c h).1
  have hcs := congrArg Cpu.cs hpushed
  rw [Trapframe.cpu_cs] at hcs
  constructor
  · have hparent' : (leave parent).cpu =
        { c.cpu with eax := parent.word (framePtr esp0 c + 28) } := by
      have hring : c.user = false → parent.cpu.ss = c.cpu.ss := fun hk =>
        absurd (huser.symm.trans hk) (by decide)
      refine leave_frame h hpushed ?_ hring fun a hle hlt hne => ?_
      · rw [hparent, enter_esp, down_succ, down_succ, framePtr]
      · rw [hbase] at hlt
        rw [hpid a hle hlt, Mem.store_apply _ _ _ _ _ (by omega), forkFrame,
          Mem.store_apply _ _ _ _ _ (by omega), Mem.copy_apply _ _ _ _ _ (by omega),
          hframe a hle hlt]
    have hword : parent.word (framePtr esp0 c + 28) = pid := by
      have hload : parent.mem.load ((framePtr esp0 c).toNat + 28) 4 = pid.toNat := by
        refine (Mem.load_congr fun b hb => hpid _ (by omega) (by omega)).trans ?_
        exact load_store_word _ _ pid
      have hlt := esp0.toNat_lt
      rw [word_add (show _ + 28 < _ by omega)]
      show UInt32.ofNat (parent.mem.load (_ + 28) 4) = pid
      rw [hload, UInt32.ofNat_toNat]
    rw [hparent', hword]
  · have hread : (trapframeAt m (framePtr esp0 c).toNat).cpu (tf + 68) child.cpu.ss =
        { c.cpu with eax := UInt32.ofNat (m.load ((framePtr esp0 c).toNat + 28) 4) } := by
      rw [Trapframe.cpu_congr _ _ (fun a hle hlt _ => hframe a hle (by omega)) fun _ a hle hlt =>
        hframe a (by omega) (by omega), Trapframe.cpu_user (hcs ▸ huser) _ (base esp0 c) _ c.cpu.ss,
        hpushed]
    subst hchild
    rw [trapret_cpu child hin, forkFrame_cpu _ _ htf, hread]

theorem fork_returns_twice_initcode : ∃ parent child : Core,
    (leave parent).cpu = { initcode.cpu with eax := 2 } ∧
      (trapret child).cpu = { initcode.cpu with eax := 0 } := by
  let m := (enter 8192 true 1024 2048 64 0 initcode).mem
  let frame := forkFrame m (framePtr 8192 initcode).toNat 20000
  let parent : Core :=
    { back (enter 8192 true 1024 2048 64 0 initcode) with
      mem := frame.store ((framePtr 8192 initcode).toNat + 28) 4 2 }
  let child : Core := ⟨{ initcode.cpu with esp := 20000 }, frame⟩
  refine ⟨parent, child, ?_⟩
  exact @fork_returns_twice 8192 1024 2048 64 0 true initcode m parent child 2 20000 rfl
    ⟨by decide, by decide⟩ (fun _ _ _ => rfl) (.inr (by decide)) (by decide) rfl (fun _ _ _ => rfl)
    rfl fun _ _ _ => rfl

end Enter

end Cs350.Swtch
