import Cs350.Lib.Returns
import Cs350.Vm.Isolation
import Cs350.Vm.Sizes

set_option autoImplicit false

/-! # The arguments of system calls (`syscall.c`)

The functions that take the arguments of a system call from the memory of the process that makes
it. They check addresses against the size of the process with sums that wrap around in 32 bits;
since sizes are below `KERNBASE`, the checks are right all the same. Every read leaves its address
as a mark. -/

namespace Cs350.Vm

open Sched (Slot)
open Prog Transition

abbrev ArgM := Prog Panic Nat State

/-! ## Reading the memory of a process -/

/-- The byte that the kernel reads at an address while the page table of `p` is in use. -/
def userByte (s : State) (p : Slot) (a : Nat) : Option UInt8 :=
  (pageAt (s.entry (s.proc p).pgdir (pdx a))).bind fun pgtab =>
    (pageAt (s.entry pgtab (ptx a))).map fun page => s.mem page (a % pgSize)

/-- Read a byte. -/
def peek (cur : Slot) (a : Nat) : ArgM UInt8 :=
  mark (fun _ => a) >>= fun _ => get >>= fun s =>
    match userByte s cur a with
    | none => stop .fault
    | some b => pure b

/-- `*(int*)(addr)`, as four bytes. -/
def peekInt (cur : Slot) (addr : Nat) : ArgM Nat :=
  peek cur addr >>= fun b₀ => peek cur (uint (addr + 1)) >>= fun b₁ =>
    peek cur (uint (addr + 2)) >>= fun b₂ => peek cur (uint (addr + 3)) >>= fun b₃ =>
      pure (b₀.toNat + 2 ^ 8 * b₁.toNat + 2 ^ 16 * b₂.toNat + 2 ^ 24 * b₃.toNat)

/-! ## `syscall.c` -/

/-- `fetchint`: the int at `addr`, nothing for -1. -/
def fetchint (cur : Slot) (addr : Nat) : ArgM (Option Nat) :=
  get >>= fun s =>
    if addr ≥ (s.proc cur).sz ∨ uint (addr + 4) > (s.proc cur).sz then pure none
    else peekInt cur addr >>= fun i => pure (some i)

/-- The loop of `fetchstr`, for `n` bytes from `s` on. -/
def fetchstrLoop (cur : Slot) (pp : Nat) : Nat → Nat → ArgM (Option (Nat × Nat))
  | 0, _ => pure none
  | n + 1, s =>
      peek cur s >>= fun b =>
        if b = 0 then pure (some (pp, s - pp)) else fetchstrLoop cur pp n (s + 1)

/-- `fetchstr`: the address and the length of the string, nothing for -1. -/
def fetchstr (cur : Slot) (addr : Nat) : ArgM (Option (Nat × Nat)) :=
  get >>= fun s =>
    if addr ≥ (s.proc cur).sz then pure none
    else fetchstrLoop cur addr ((s.proc cur).sz - addr) addr

/-- `argint`, where `esp` is the stack pointer of the process. -/
def argint (cur : Slot) (esp : Nat) (n : Int) : ArgM (Option Nat) :=
  fetchint cur ((esp + 4 + 4 * n) % 2 ^ 32).toNat

/-- `argptr`: the pointer, nothing for -1. -/
def argptr (cur : Slot) (esp : Nat) (n size : Int) : ArgM (Option Nat) :=
  argint cur esp n >>= fun
    | none => pure none
    | some i => get >>= fun s =>
        if size < 0 ∨ i ≥ (s.proc cur).sz ∨ ((i + size) % 2 ^ 32).toNat > (s.proc cur).sz then
          pure none
        else pure (some i)

/-- `argstr` -/
def argstr (cur : Slot) (esp : Nat) (n : Int) : ArgM (Option (Nat × Nat)) :=
  argint cur esp n >>= fun
    | none => pure none
    | some addr => fetchstr cur addr

/-! ## What they read -/

/-- A string in the memory of a process, with its NUL. -/
structure Str (s : State) (p : Slot) (ptr len : Nat) : Prop where
  inside : ptr + len < (s.proc p).sz
  body : ∀ i < len, ∃ b, b ≠ 0 ∧ userByte s p (ptr + i) = some b
  nul : userByte s p (ptr + len) = some 0

/-- All reads are below the size. -/
def Inside (s : State) (p : Slot) (reads : List Nat) : Prop := ∀ a ∈ reads, a < (s.proc p).sz

/-- What the functions return of a process, and which addresses they read. -/
structure ArgsInside (s : State) (p : Slot) : Prop where
  fetchint : ∀ addr < 2 ^ 32, returns (fetchint p addr) s fun reads r s' => s' = s ∧
    Inside s p reads ∧
      ∀ i, r = some i → reads = List.range' addr 4 ∧ addr + 4 ≤ (s.proc p).sz ∧ i < 2 ^ 32
  fetchstr : ∀ addr < 2 ^ 32, returns (fetchstr p addr) s fun reads r s' => s' = s ∧
    Inside s p reads ∧ ∀ ptr len, r = some (ptr, len) → ptr = addr ∧ Str s p ptr len
  argint : ∀ esp < 2 ^ 32, ∀ n, returns (argint p esp n) s fun reads r s' => s' = s ∧
    Inside s p reads ∧ ∀ i, r = some i → i < 2 ^ 32 ∧
      ∃ addr : Nat, (addr : Int) = (esp + 4 + 4 * n) % 2 ^ 32 ∧ reads = List.range' addr 4 ∧
        addr + 4 ≤ (s.proc p).sz
  argptr : ∀ esp < 2 ^ 32, ∀ n size : Int, size < 2 ^ 31 →
    returns (argptr p esp n size) s fun reads r s' => s' = s ∧
      Inside s p reads ∧ ∀ ptr, r = some ptr → 0 ≤ size ∧ ptr + size ≤ (s.proc p).sz
  argstr : ∀ esp < 2 ^ 32, ∀ n, returns (argstr p esp n) s fun reads r s' => s' = s ∧
    Inside s p reads ∧ ∀ ptr len, r = some (ptr, len) → Str s p ptr len

section Reads

variable {s : State} {p : Slot}

theorem peek_returns (a : Nat) : returns (peek p a) s fun reads b s' =>
    s' = s ∧ reads = [a] ∧ userByte s p a = some b := by
  refine returns_mark_bind (returns_get_bind ?_)
  cases h : userByte s p a with
  | none => exact returns_stop _
  | some b => exact returns_pure ⟨rfl, rfl, rfl⟩

theorem peekInt_returns {addr : Nat} (h : addr + 4 ≤ 2 ^ 32) :
    returns (peekInt p addr) s fun reads i s' =>
      s' = s ∧ reads = List.range' addr 4 ∧ i < 2 ^ 32 := by
  refine returns_bind (peek_returns addr) fun w₀ b₀ s₀ h₀ => ?_
  obtain ⟨rfl, rfl, -⟩ := h₀
  refine returns_bind (peek_returns _) fun w₁ b₁ s₁ h₁ => ?_
  obtain ⟨rfl, rfl, -⟩ := h₁
  refine returns_bind (peek_returns _) fun w₂ b₂ s₂ h₂ => ?_
  obtain ⟨rfl, rfl, -⟩ := h₂
  refine returns_bind (peek_returns _) fun w₃ b₃ s₃ h₃ => returns_pure ?_
  obtain ⟨rfl, rfl, -⟩ := h₃
  have hid : ∀ k < 4, uint (addr + k) = addr + k := fun k hk => Nat.mod_eq_of_lt (by omega)
  refine ⟨rfl, ?_, ?_⟩
  · rw [hid 1 (by decide), hid 2 (by decide), hid 3 (by decide)]
    rfl
  · have := b₀.toNat_lt
    have := b₁.toNat_lt
    have := b₂.toNat_lt
    have := b₃.toNat_lt
    omega

/-- `s` goes from a byte of the string to the next one. -/
theorem fetchstrLoop_returns {ptr : Nat} (n a : Nat) (ha : ptr ≤ a)
    (hend : a + n ≤ (s.proc p).sz)
    (hbody : ∀ i < a - ptr, ∃ b, b ≠ 0 ∧ userByte s p (ptr + i) = some b) :
    returns (fetchstrLoop p ptr n a) s fun reads r s' => s' = s ∧ Inside s p reads ∧
      ∀ ptr' len, r = some (ptr', len) → ptr' = ptr ∧ Str s p ptr' len := by
  induction n generalizing a with
  | zero => exact returns_pure ⟨rfl, fun _ h => (nomatch h), fun _ _ hr => (nomatch hr)⟩
  | succ n ih =>
      refine returns_bind (peek_returns a) fun reads b s₁ h₁ => ?_
      obtain ⟨rfl, rfl, hb⟩ := h₁
      refine returns_ite (fun hzero => returns_pure ⟨rfl, ?_, fun ptr' len hr => ?_⟩) fun hne => ?_
      · simp [Inside]
        omega
      · obtain ⟨rfl, rfl⟩ := Prod.mk.inj (Option.some.inj hr)
        have hlast : ptr + (a - ptr) = a := by omega
        exact ⟨rfl, by omega, hbody, by rw [hlast, hb, hzero]⟩
      · refine returns_mono (ih (a + 1) (by omega) (by omega) fun i hi => ?_) fun reads r s' h => ?_
        · by_cases hia : i < a - ptr
          · exact hbody i hia
          · exact ⟨b, hne, by rw [show ptr + i = a by omega, hb]⟩
        · obtain ⟨rfl, hin, hr⟩ := h
          refine ⟨rfl, fun x hx => ?_, hr⟩
          rcases List.mem_append.1 hx with hx | hx
          · rw [List.mem_singleton.1 hx]
            omega
          · exact hin x hx

/-! With the size below `KERNBASE`, the sums of the checks do not wrap. -/

theorem fetchint_returns (hsz : (s.proc p).sz < kernBase) {addr : Nat} (haddr : addr < 2 ^ 32) :
    returns (fetchint p addr) s fun reads r s' => s' = s ∧ Inside s p reads ∧
      ∀ i, r = some i → reads = List.range' addr 4 ∧ addr + 4 ≤ (s.proc p).sz ∧ i < 2 ^ 32 := by
  have hkern : kernBase = 2 ^ 31 := rfl
  refine returns_get_bind (returns_ite (fun _ => ?_) fun hok => ?_)
  · exact returns_pure ⟨rfl, fun _ h => (nomatch h), fun _ hr => (nomatch hr)⟩
  · have hsum : uint (addr + 4) = addr + 4 := Nat.mod_eq_of_lt (by omega)
    rw [hsum] at hok
    refine returns_bind (peekInt_returns (by omega)) fun reads i s' h => returns_pure ?_
    obtain ⟨rfl, rfl, hi⟩ := h
    rw [List.append_nil]
    refine ⟨rfl, fun a ha => ?_, fun j hj => ⟨rfl, by omega, ?_⟩⟩
    · have := List.mem_range'_1.1 ha
      omega
    · rwa [← Option.some.inj hj]

theorem fetchstr_returns (addr : Nat) : returns (fetchstr p addr) s fun reads r s' => s' = s ∧
    Inside s p reads ∧ ∀ ptr len, r = some (ptr, len) → ptr = addr ∧ Str s p ptr len := by
  refine returns_get_bind (returns_ite (fun _ => ?_) fun hlt => ?_)
  · exact returns_pure ⟨rfl, fun _ h => (nomatch h), fun _ _ hr => (nomatch hr)⟩
  · exact fetchstrLoop_returns _ addr (Nat.le_refl _) (by omega) fun i hi => by omega

theorem argint_returns (hsz : (s.proc p).sz < kernBase) (esp : Nat) (n : Int) :
    returns (argint p esp n) s fun reads r s' => s' = s ∧ Inside s p reads ∧
      ∀ i, r = some i → i < 2 ^ 32 ∧
        ∃ addr : Nat, (addr : Int) = (esp + 4 + 4 * n) % 2 ^ 32 ∧ reads = List.range' addr 4 ∧
          addr + 4 ≤ (s.proc p).sz := by
  refine returns_mono (fetchint_returns hsz (by omega)) fun reads r s' h => ?_
  refine ⟨h.1, h.2.1, fun i hi => ?_⟩
  obtain ⟨hreads, hle, hlt⟩ := h.2.2 i hi
  exact ⟨hlt, _, by omega, hreads, hle⟩

theorem argptr_returns (hsz : (s.proc p).sz < kernBase) (esp : Nat) (n : Int) {size : Int}
    (hsize : size < 2 ^ 31) : returns (argptr p esp n size) s fun reads r s' => s' = s ∧
      Inside s p reads ∧ ∀ ptr, r = some ptr → 0 ≤ size ∧ ptr + size ≤ (s.proc p).sz := by
  have hkern : kernBase = 2 ^ 31 := rfl
  refine returns_bind (argint_returns hsz esp n) fun reads r s' h => ?_
  obtain ⟨rfl, hin, hr⟩ := h
  cases r with
  | none =>
      exact returns_pure ⟨rfl, by rwa [List.append_nil], fun _ hr => (nomatch hr)⟩
  | some i =>
      have hi := (hr i rfl).1
      refine returns_get_bind (returns_ite (fun _ => ?_) fun hok => ?_)
      · exact returns_pure ⟨rfl, by rwa [List.append_nil], fun _ hr => (nomatch hr)⟩
      · -- `i` and `size` are below 2³¹, so the pointer past the end is not cut
        refine returns_pure ⟨rfl, by rwa [List.append_nil], fun ptr hptr => ?_⟩
        obtain rfl := Option.some.inj hptr
        omega

theorem argstr_returns (hsz : (s.proc p).sz < kernBase) (esp : Nat) (n : Int) :
    returns (argstr p esp n) s fun reads r s' => s' = s ∧
      Inside s p reads ∧ ∀ ptr len, r = some (ptr, len) → Str s p ptr len := by
  refine returns_bind (argint_returns hsz esp n) fun reads r s' h => ?_
  obtain ⟨rfl, hin, hr⟩ := h
  cases r with
  | none =>
      exact returns_pure ⟨rfl, by rwa [List.append_nil], fun _ _ hr => (nomatch hr)⟩
  | some addr =>
      refine returns_mono (fetchstr_returns addr) fun reads' r s'' h => ?_
      refine ⟨h.1, fun a ha => ?_, fun ptr len hr => (h.2.2 ptr len hr).2⟩
      exact (List.mem_append.1 ha).elim (hin a) (h.2.1 a)

theorem argsInside (hsz : (s.proc p).sz < kernBase) : ArgsInside s p where
  fetchint _ haddr := fetchint_returns hsz haddr
  fetchstr addr _ := fetchstr_returns addr
  argint esp _ n := argint_returns hsz esp n
  argptr esp _ n _ hsize := argptr_returns hsz esp n hsize
  argstr esp _ n := argstr_returns hsz esp n

end Reads

/-! ## In every state that is reached -/

/-- **System call arguments stay in the memory of the caller.** -/
theorem args_inside_along {L : Layout} {s₀ s : State} {tr : List (State × (List Bool × Call))}
    (hboot : Boot L s₀) (hrun : Run (Step L) s₀ tr s) :
    Along (fun s => ∀ p, (s.proc p).Live → (s.proc p).sz < kernBase ∧ ArgsInside s p) tr s := by
  have hinside : ∀ s, Small s → ∀ p, (s.proc p).Live → (s.proc p).sz < kernBase ∧ ArgsInside s p :=
    fun s h p hp => ⟨h p hp, argsInside (h p hp)⟩
  obtain ⟨hall, hlast⟩ := Small.along hboot hrun
  exact ⟨fun x hx => hinside x.1 (hall x hx), hinside s hlast⟩

/-- A run that makes the first process. -/
theorem args_inside_first : ∃ p tr s, Run (Step layout) boot tr s ∧ (s.proc p).Live ∧
    ArgsInside s p := by
  have hcredits := credits_boot
  have hreset := credits_reset boot
  obtain ⟨s, hstep, -, p, hfirst⟩ := step_of_sat [] (.userinit []) (fun _ => rfl)
    (userinit_spec (boot_ok.sound.reset []) [] (Or.inl ⟨⟨0, rfl⟩, by omega⟩))
  have hlive : (s.proc p).Live := Proc.live_of_state hfirst.state (by decide) (by decide)
  have hrun := Run.nil.snoc hstep
  exact ⟨p, _, s, hrun, hlive, ((args_inside_along boot_ok hrun).2 p hlive).2⟩

end Cs350.Vm
