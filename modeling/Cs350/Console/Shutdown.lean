import Cs350.Lib.CString
import Mathlib.Data.List.Basic

set_option autoImplicit false

/-! # `sys_shutdown2`

The system call prints a string of the calling process and writes the power-off ports. The string
is the format of `cprintf`. What happens is a list of events in order: reads of memory, characters
sent to the console, and words written to ports. The lock of the console is left out, and so is what
`panic` prints; nothing has panicked before. -/

namespace Cs350.Console.Shutdown

inductive Event
  /-- the byte at this address is read -/
  | read (a : Nat)
  /-- `consputc(c)` -/
  | putc (c : UInt8)
  /-- `outw(port, data)` -/
  | outw (port data : Nat)
deriving DecidableEq

/-! ## `cprintf` -/

/-- The first loop of `printint`, from the last digit on, for at most `n` digits. -/
def digitLoop (base : Nat) : Nat → Nat → List UInt8
  | 0, _ => []
  | n + 1, x =>
      (if x % base < 10 then UInt8.ofNat (48 + x % base) else UInt8.ofNat (87 + x % base)) ::
        if x / base = 0 then [] else digitLoop base n (x / base)

/-- `printint(xx, base, sign)`, for the bits of `xx`. -/
def printint (xx base : Nat) (sign : Bool) : List UInt8 :=
  let sign := sign && decide (2 ^ 31 ≤ xx)
  let x := if sign then 2 ^ 32 - xx else xx
  let buf := digitLoop base 16 x
  (if sign then buf ++ ['-'.toUInt8] else buf).reverse

/-- The word at `argp` is read. -/
def readWord (argp : Nat) : List Event := (List.range' argp 4).map .read

/-- The loop for `%s`. Addresses come round again after `2 ^ 32` bytes. -/
def stringLoop (mem : Mem) : Nat → Nat → List Event
  | 0, _ => []
  | n + 1, s =>
      .read s :: if mem s = 0 then [] else .putc (mem s) :: stringLoop mem n ((s + 1) % 2 ^ 32)

/-- The `switch` on the character after a `'%'`: the events, and the next argument. -/
def conversion (mem : Mem) (c : UInt8) (argp : Nat) : List Event × Nat :=
  if c = 'd'.toUInt8 then
    (readWord argp ++ (printint (mem.load argp 4) 10 true).map .putc, argp + 4)
  else if c = 'x'.toUInt8 ∨ c = 'p'.toUInt8 then
    (readWord argp ++ (printint (mem.load argp 4) 16 false).map .putc, argp + 4)
  else if c = 's'.toUInt8 then
    let s := mem.load argp 4
    (readWord argp ++
      if s = 0 then "(null)".toUTF8.toList.map .putc else stringLoop mem (2 ^ 32) s, argp + 4)
  else if c = '%'.toUInt8 then ([.putc '%'.toUInt8], argp)
  else ([.putc '%'.toUInt8, .putc c], argp)

/-- The loop of `cprintf`, for the rest of the format from `fmt[i]` on; `look i` is the read of
    `fmt[i]`. -/
def cprintfLoop (mem : Mem) (look : Nat → List Event) : List UInt8 → Nat → Nat → List Event
  | [], i, _ => look i
  | [c], i, _ =>
      if c ≠ '%'.toUInt8 then look i ++ .putc c :: look (i + 1) else look i ++ look (i + 1)
  | c :: d :: cs, i, argp =>
      if c ≠ '%'.toUInt8 then look i ++ .putc c :: cprintfLoop mem look (d :: cs) (i + 1) argp
      else
        look i ++ look (i + 1) ++ (conversion mem d argp).1 ++
          cprintfLoop mem look cs (i + 2) (conversion mem d argp).2

/-- `cprintf(fmt, ...)`, for the text of the format and the address of the arguments after it;
    `fmt` is nothing for a constant of the kernel. The result is nothing for a panic. -/
def cprintf (mem : Mem) (fmt : Option Nat) (text : List UInt8) (argp : Nat) : Option (List Event) :=
  if fmt = some 0 then none
  else some (cprintfLoop mem (fun i => (fmt.map fun p => .read (p + i)).toList) text 0 argp)

/-! ## The system call -/

/-- `KERNBASE` -/
def kernBase : Nat := 2 ^ 31

/-- A process in the system call. -/
structure Caller where
  /-- memory, by virtual address -/
  mem : Mem
  sz : Nat
  /-- the stack pointer of the process -/
  esp : Nat
  /-- what comes after `fmt` on the kernel stack, in the call of `cprintf` -/
  argp : Nat
  user : sz ≤ kernBase
  stack : kernBase ≤ argp

/-- `fetchint(addr)`: the word, nothing for -1. -/
def fetchint (c : Caller) (addr : Nat) : Option Nat × List Event :=
  if addr ≥ c.sz ∨ (addr + 4) % 2 ^ 32 > c.sz then (none, [])
  else (some (c.mem.load addr 4), readWord addr)

/-- The loop of `fetchstr`, for `n` bytes from `s` on: how many come before the NUL. -/
def fetchstrLoop (mem : Mem) : Nat → Nat → Option Nat × List Event
  | 0, _ => (none, [])
  | n + 1, s =>
      if mem s = 0 then (some 0, [.read s])
      else
        let (len, evs) := fetchstrLoop mem n (s + 1)
        (len.map (· + 1), .read s :: evs)

/-- `fetchstr(addr)`: the length, nothing for -1. -/
def fetchstr (c : Caller) (addr : Nat) : Option Nat × List Event :=
  if addr ≥ c.sz then (none, []) else fetchstrLoop c.mem (c.sz - addr) addr

/-- `argstr(0)`: the pointer and the length, nothing for -1. -/
def argstr (c : Caller) : Option (Nat × Nat) × List Event :=
  match fetchint c ((c.esp + 4) % 2 ^ 32) with
  | (none, evs) => (none, evs)
  | (some addr, evs) =>
      let (len, evs') := fetchstr c addr
      (len.map fun n => (addr, n), evs ++ evs')

/-- `sys_shutdown2`: the result, nothing if the kernel panics, and what happens. -/
def sysShutdown2 (c : Caller) : Option Int × List Event :=
  match argstr c with
  | (none, evs) => (some (-1), evs)
  | (some (msg, len), evs) =>
      match cprintf c.mem (some msg) ((List.range len).map fun i => c.mem (msg + i)) c.argp with
      | none => (none, evs)
      | some out =>
          match cprintf c.mem none ['\n'.toUInt8] c.argp with
          | none => (none, evs ++ out)
          | some nl =>
              (some 0, evs ++ out ++ nl ++ [.outw 0xB004 (0x0 ||| 0x2000), .outw 0x604 (0x0 ||| 0x2000)])

/-! ## Statements -/

/-- The event can be seen outside. -/
def Event.visible : Event → Bool
  | .read _ => false
  | _ => true

/-- The call is made with the string `cs` at `msg`. -/
structure Passes (c : Caller) (msg : Nat) (cs : List UInt8) : Prop where
  esp : c.esp + 8 ≤ c.sz
  arg : c.mem.load (c.esp + 4) 4 = msg
  string : c.mem.IsString msg cs
  inside : msg + cs.length < c.sz

/-- What comes after the message. -/
def powerOff : List Event := [.putc '\n'.toUInt8, .outw 0xB004 0x2000, .outw 0x604 0x2000]

/-- The bytes of the string and a newline are sent to the console, and then the ports are written;
    nothing is read but the string, and the argument that points to it. -/
def Verbatim (c : Caller) (msg : Nat) (cs : List UInt8) : Prop :=
  ∃ evs, sysShutdown2 c = (some 0, evs) ∧
    evs.filter Event.visible = cs.map .putc ++ powerOff ∧
    ∀ a, .read a ∈ evs → (c.esp + 4 ≤ a ∧ a < c.esp + 8) ∨ (msg ≤ a ∧ a ≤ msg + cs.length)

/-- The characters that `cprintf` knows after a `'%'`. -/
def conversions : List UInt8 :=
  ['d'.toUInt8, 'x'.toUInt8, 'p'.toUInt8, 's'.toUInt8, '%'.toUInt8]

/-- From left to right, there is a character after every `'%'`, and it is none of those. -/
def Plain : List UInt8 → Prop
  | [] => True
  | [c] => c ≠ '%'.toUInt8
  | c :: d :: cs => if c ≠ '%'.toUInt8 then Plain (d :: cs) else d ∉ conversions ∧ Plain cs

/-! ## What `cprintf` does with a string -/

section Loop

variable {mem : Mem} {p : Nat} {cs : List UInt8}

/-- The reads of a format at `p`. -/
def lookAt (p i : Nat) : List Event := [.read (p + i)]

@[simp] theorem visible_lookAt (p i : Nat) : (lookAt p i).filter Event.visible = [] := rfl

@[simp] theorem visible_putc (c : UInt8) : (Event.putc c).visible = true := rfl

@[simp] theorem read_mem_lookAt {a i : Nat} : .read a ∈ lookAt p i ↔ a = p + i := by
  simp [lookAt]

theorem conversion_plain {c : UInt8} (hc : c ∉ conversions) (argp : Nat) :
    conversion mem c argp = ([.putc '%'.toUInt8, .putc c], argp) := by
  simp only [conversions, List.mem_cons, not_or] at hc
  simp [conversion, hc]

/-- A plain string is printed as it is. -/
theorem visible_of_plain (h : Plain cs) (i argp : Nat) :
    (cprintfLoop mem (lookAt p) cs i argp).filter Event.visible = cs.map .putc := by
  induction cs using Plain.induct generalizing i argp with
  | case1 => rfl
  | case2 c =>
      have hc : c ≠ '%'.toUInt8 := h
      simp [cprintfLoop, hc, List.filter_cons]
  | case3 c d cs hc ih =>
      rw [Plain, if_pos hc] at h
      simp [cprintfLoop, hc, List.filter_cons, ih h]
  | case4 c d cs hc ih =>
      rw [Plain, if_neg hc] at h
      have hpct : c = '%'.toUInt8 := not_not.1 hc
      simp [cprintfLoop, hpct, conversion_plain h.1, List.filter_cons, ih h.2]

theorem reads_of_plain (h : Plain cs) {i argp a : Nat}
    (ha : .read a ∈ cprintfLoop mem (lookAt p) cs i argp) :
    p + i ≤ a ∧ a ≤ p + i + cs.length := by
  induction cs using Plain.induct generalizing i argp with
  | case1 =>
      simp [cprintfLoop] at ha
      simp [ha]
  | case2 c =>
      have hc : c ≠ '%'.toUInt8 := h
      simp [cprintfLoop, hc] at ha
      rw [List.length_singleton]
      omega
  | case3 c d cs hc ih =>
      rw [Plain, if_pos hc] at h
      rw [List.length_cons]
      simp [cprintfLoop, hc] at ha
      rcases ha with ha | ha
      · omega
      · have hrest := ih h ha
        omega
  | case4 c d cs hc ih =>
      rw [Plain, if_neg hc] at h
      have hpct : c = '%'.toUInt8 := not_not.1 hc
      rw [List.length_cons, List.length_cons]
      simp [cprintfLoop, hpct, conversion_plain h.1] at ha
      rcases ha with ha | ha | ha
      · omega
      · omega
      · have hrest := ih h.2 ha
        omega

/-- A conversion takes an argument, or it is a `'%'` for two. -/
theorem conversion_special (mem : Mem) {c : UInt8} (hc : c ∈ conversions) (argp : Nat) :
    .read argp ∈ (conversion mem c argp).1 ∨
      conversion mem c argp = ([.putc '%'.toUInt8], argp) := by
  have hword : .read argp ∈ readWord argp := by simp [readWord]
  simp only [conversions, List.mem_cons, List.not_mem_nil, or_false] at hc
  rw [conversion]
  by_cases hd : c = 'd'.toUInt8
  · left
    simp [hd, hword]
  by_cases hx : c = 'x'.toUInt8 ∨ c = 'p'.toUInt8
  · left
    simp [if_neg hd, if_pos hx, hword]
  by_cases hs : c = 's'.toUInt8
  · left
    simp [if_neg hd, if_neg hx, if_pos hs, hword]
  · right
    rw [if_neg hd, if_neg hx, if_neg hs, if_pos (by tauto)]

/-- A string that is not plain is not printed as it is, unless arguments are read for it. -/
theorem length_of_not_plain (mem : Mem) (p : Nat) (cs : List UInt8) (i argp : Nat) :
    .read argp ∈ cprintfLoop mem (lookAt p) cs i argp ∨
      ((cprintfLoop mem (lookAt p) cs i argp).filter Event.visible).length ≤ cs.length ∧
        (((cprintfLoop mem (lookAt p) cs i argp).filter Event.visible).length = cs.length →
          Plain cs) := by
  induction cs using Plain.induct generalizing i with
  | case1 => exact Or.inr ⟨Nat.le_refl _, fun _ => trivial⟩
  | case2 c =>
      right
      by_cases hc : c = '%'.toUInt8 <;> simp [cprintfLoop, hc, List.filter_cons, Plain]
  | case3 c d cs hc ih =>
      rcases ih (i + 1) with hread | ⟨hle, heq⟩
      · left
        simp [cprintfLoop, hc, hread]
      · right
        simp [cprintfLoop, hc, List.filter_cons, Plain] at hle heq ⊢
        exact ⟨hle, heq⟩
  | case4 c d cs hc ih =>
      have hpct : c = '%'.toUInt8 := not_not.1 hc
      by_cases hd : d ∈ conversions
      · rcases conversion_special mem hd argp with hread | hconv
        · left
          simp [cprintfLoop, hpct, hread]
        · rcases ih (i + 2) with hread | ⟨hle, heq⟩
          · left
            simp [cprintfLoop, hpct, hconv, hread]
          · right
            simp [cprintfLoop, hpct, hconv, List.filter_cons, Plain, hd] at hle heq ⊢
            omega
      · rcases ih (i + 2) with hread | ⟨hle, heq⟩
        · left
          simp [cprintfLoop, hpct, conversion_plain hd, hread]
        · right
          simp [cprintfLoop, hpct, conversion_plain hd, List.filter_cons, Plain, hd] at hle heq ⊢
          exact ⟨hle, heq⟩

end Loop

/-! ## What the system call does with a string -/

section Call

variable {c : Caller} {msg : Nat} {cs : List UInt8}

theorem fetchstrLoop_string {mem : Mem} {p n : Nat} (h : mem.IsString p cs) (hn : cs.length < n) :
    fetchstrLoop mem n p = (some cs.length, (List.range' p (cs.length + 1)).map .read) := by
  induction cs generalizing p n with
  | nil =>
      obtain ⟨n, rfl⟩ := Nat.exists_eq_add_of_lt hn
      rw [fetchstrLoop, if_pos h.eq_zero]
      rfl
  | cons d cs ih =>
      obtain ⟨n, rfl⟩ := Nat.exists_eq_add_of_lt (Nat.zero_lt_of_lt hn)
      rw [List.length_cons] at hn
      have hd : mem p ≠ 0 := by
        rw [h.head]
        exact h.head_ne
      rw [fetchstrLoop, if_neg hd, ih (n := 0 + n) h.tail (by omega)]
      rfl

theorem bytes_string {mem : Mem} {p : Nat} (h : mem.IsString p cs) :
    (List.range cs.length).map (fun i => mem (p + i)) = cs := by
  refine List.ext_getElem (by simp) fun i hi _ => ?_
  rw [List.getElem_map, List.getElem_range]
  exact h.get (by simpa using hi)

/-- The reads of the arguments. -/
def argReads (c : Caller) (msg len : Nat) : List Event :=
  readWord (c.esp + 4) ++ (List.range' msg (len + 1)).map .read

theorem Passes.argstr (h : Passes c msg cs) :
    argstr c = (some (msg, cs.length), argReads c msg cs.length) := by
  have hesp := h.esp
  have hinside := h.inside
  have huser := c.user
  unfold kernBase at huser
  have hword : fetchint c ((c.esp + 4) % 2 ^ 32) = (some msg, readWord (c.esp + 4)) := by
    rw [Nat.mod_eq_of_lt (by omega), fetchint, if_neg (by omega), h.arg]
  have hstr : fetchstr c msg = (some cs.length, (List.range' msg (cs.length + 1)).map .read) := by
    rw [fetchstr, if_neg (by omega)]
    exact fetchstrLoop_string h.string (by omega)
  rw [Shutdown.argstr, hword]
  simp only [hstr]
  rfl

/-- The events of the call for a string that is not at address 0. -/
theorem Passes.sysShutdown2 (h : Passes c msg cs) (hmsg : msg ≠ 0) :
    sysShutdown2 c = (some 0, argReads c msg cs.length ++
      cprintfLoop c.mem (lookAt msg) cs 0 c.argp ++ powerOff) := by
  have hfmt : cprintf c.mem (some msg) cs c.argp =
      some (cprintfLoop c.mem (lookAt msg) cs 0 c.argp) := if_neg (by simpa using hmsg)
  have hnl : cprintf c.mem none ['\n'.toUInt8] c.argp = some [.putc '\n'.toUInt8] := rfl
  rw [Shutdown.sysShutdown2, h.argstr]
  simp only [bytes_string h.string, hfmt, hnl, List.append_assoc]
  rfl

/-- At address 0 the string is no format for `cprintf`. -/
theorem Passes.panics (h : Passes c 0 cs) : (Shutdown.sysShutdown2 c).1 = none := by
  rw [Shutdown.sysShutdown2, h.argstr]
  rfl

theorem visible_reads (l : List Nat) : (l.map Event.read).filter Event.visible = [] := by
  induction l with
  | nil => rfl
  | cons a l ih => simp [Event.visible]

theorem visible_argReads (c : Caller) (msg len : Nat) :
    (argReads c msg len).filter Event.visible = [] := by
  rw [argReads, readWord, List.filter_append, visible_reads, visible_reads, List.append_nil]

/-- **When the message is printed verbatim**: it is not at address 0, and no `'%'` in it is the last
    character or comes before one that `cprintf` knows. -/
theorem verbatim_iff (h : Passes c msg cs) : Verbatim c msg cs ↔ msg ≠ 0 ∧ Plain cs := by
  by_cases hmsg : msg = 0
  · subst hmsg
    refine iff_of_false (fun hv => ?_) fun hp => hp.1 rfl
    obtain ⟨evs, hrun, -⟩ := hv
    have hpanic := h.panics
    rw [hrun] at hpanic
    exact nomatch hpanic
  have hrun := h.sysShutdown2 hmsg
  have hvisible : ∀ l, (argReads c msg cs.length ++ l ++ powerOff).filter Event.visible =
      l.filter Event.visible ++ powerOff := by
    intro l
    rw [List.filter_append, List.filter_append, visible_argReads, List.nil_append]
    rfl
  constructor
  · intro hv
    obtain ⟨evs, hevs, hout, hreads⟩ := hv
    obtain rfl := (Prod.mk.inj (hrun.symm.trans hevs)).2
    rw [hvisible, List.append_cancel_right_eq] at hout
    refine ⟨hmsg, ?_⟩
    rcases length_of_not_plain c.mem msg cs 0 c.argp with hread | ⟨-, hlen⟩
    · -- the argument is on the kernel stack, and the caller's memory is below it
      have huser := c.user
      have hstack := c.stack
      have hesp := h.esp
      have hinside := h.inside
      have hin := hreads c.argp (by simp [hread])
      omega
    · exact hlen (by rw [hout, List.length_map])
  · intro hp
    refine ⟨_, hrun, ?_, fun a ha => ?_⟩
    · rw [hvisible, visible_of_plain hp.2]
    · simp only [List.mem_append, argReads, readWord] at ha
      rcases ha with ((ha | ha) | ha) | ha
      · left
        simp at ha
        omega
      · right
        simp at ha
        omega
      · right
        simpa using reads_of_plain hp.2 ha
      · simp [powerOff] at ha

end Call

/-- A process with a message of three characters at address 16. -/
def asks (c₀ c₁ c₂ : UInt8) : Caller where
  mem a := if a = 4 then 16 else if a = 16 then c₀ else if a = 17 then c₁ else if a = 18 then c₂ else 0
  sz := 4096
  esp := 0
  argp := kernBase
  user := by decide
  stack := Nat.le_refl _

/-- "5%!", where no conversion follows the `%`. -/
theorem verbatim_iff_percent : Verbatim (asks 53 37 33) 16 [53, 37, 33] :=
  (verbatim_iff ⟨by decide, by decide, by decide, by decide⟩).2
    ⟨by decide, by simp [Plain]; decide⟩

/-- "9%d" reads the kernel stack. -/
theorem shutdown2_not_verbatim :
    Passes (asks 57 37 100) 16 [57, 37, 100] ∧ ¬ Verbatim (asks 57 37 100) 16 [57, 37, 100] := by
  have hpasses : Passes (asks 57 37 100) 16 [57, 37, 100] := ⟨by decide, by decide, by decide, by decide⟩
  refine ⟨hpasses, fun hv => ?_⟩
  obtain ⟨evs, hevs, hout, -⟩ := hv
  obtain rfl := (Prod.mk.inj ((hpasses.sysShutdown2 (by decide)).symm.trans hevs)).2
  revert hout
  decide

end Cs350.Console.Shutdown
