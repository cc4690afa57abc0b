import Cs350.Lib.Transition
import Mathlib.Logic.Function.Basic
import Mathlib.Tactic.Common

set_option autoImplicit false

/-! # The shell's processes

`execcmd` of `main.c` as a transition system over POSIX processes. The C stack of a process is its
list of frames: what is left of the current `execcmd` call, then what is left of its callers; a
process whose list is empty has returned to the read loop of `main`. `fork` copies the list, so a
child that does not `exit` goes on with everything its parent still has to do.

The kernel side is what the calls document: `wait` takes any terminated child, fails when there is
none left and blocks otherwise; the children of a process that terminates lose their parent;
descriptors are allocated lowest first. `fork` succeeds. The outcome of `execvp`, `open` and `pipe`
and the values that `main.c` leaves uninitialised are part of the label of a step. Signal handling
and the messages printed are not modelled. -/

namespace Cs350.Shell

/-- The flags passed to `open`: `O_RDONLY`, or `O_WRONLY|O_CREAT`. -/
inductive Mode
  | rdonly | wronlyCreat
  deriving DecidableEq, Repr

/-- The trees built by the parser, over the type `W` of words. An EXEC holds the words before the
    null entry of `argv`. -/
inductive Cmd (W : Type)
  | exec (argv : List W)
  | redir (cmd : Cmd W) (file : W) (mode : Mode) (fdToClose : Nat)
  | pipe (left right : Cmd W)
  | list (left right : Cmd W)
  | back (cmd : Cmd W)
  deriving DecidableEq, Repr

/-! ## File descriptors -/

/-- What a descriptor refers to: a file of the shell's environment, an opened file, or the end of a
    pipe. -/
inductive Desc (W : Type)
  | outer (n : Nat)
  | file (name : W) (mode : Mode)
  | pipeRead (id : Nat)
  | pipeWrite (id : Nat)
  deriving DecidableEq, Repr

/-- The descriptor table of a process. -/
abbrev FdTable (W : Type) := List (Option (Desc W))

namespace FdTable

variable {W : Type}

def get (t : FdTable W) (n : Nat) : Option (Desc W) := t[n]?.join

/-- The lowest free descriptor. -/
def free (t : FdTable W) : Nat := t.findIdx Option.isNone

def put (t : FdTable W) (n : Nat) (d : Option (Desc W)) : FdTable W :=
  if n < t.length then t.set n d else t ++ List.replicate (n - t.length) none ++ [d]

def alloc (t : FdTable W) (d : Desc W) : Nat × FdTable W := (t.free, t.put t.free (some d))

/-- `dup`. -/
def dup (t : FdTable W) (n : Nat) : Int × FdTable W :=
  match t.get n with
  | none => (-1, t)
  | some d => ((t.alloc d).1, (t.alloc d).2)

/-- `dup2`; a descriptor that is not open makes it fail without effect. -/
def dup2 (t : FdTable W) (old : Int) (new : Nat) : FdTable W :=
  match old with
  | .negSucc _ => t
  | .ofNat n =>
    match t.get n with
    | none => t
    | some d => t.put new (some d)

/-- `close`. -/
def close (t : FdTable W) (n : Nat) : FdTable W := if n < t.length then t.set n none else t

/-- `fd = open(file, mode); dup2(fd, n); close(fd)`, where `open` may fail. -/
def openOnto (t : FdTable W) (file : W) (mode : Mode) (n : Nat) (ok : Bool) : FdTable W :=
  if ok then
    let (fd, t) := t.alloc (.file file mode)
    (t.dup2 fd n).close fd
  else t

/-- `pipe(fd)`, creating the pipe `id`. -/
def pipe (t : FdTable W) (id : Nat) : Nat × Nat × FdTable W :=
  let (r, t) := t.alloc (.pipeRead id)
  let (w, t) := t.alloc (.pipeWrite id)
  (r, w, t)

end FdTable

/-! ## Processes -/

/-- What is left to do. The pids kept in `waitOnce` and `waitAll` are those of the processes the
    construct forked; the code has no such variables and no step reads them. -/
inductive Frame (W : Type)
  | call (c : Cmd W)
  | exit (status : Int)
  | execvp (argv : List W)
  /-- `while(wait(&status) != pid)`. -/
  | waitFor (pid : Nat)
  /-- `wait(&status2)`. -/
  | waitOnce (own : Nat)
  /-- `while(wait(NULL) > 0)`. -/
  | waitAll (own : List Nat)
  /-- The child of a REDIR opens its file. -/
  | redirect (file : W) (mode : Mode) (fdToClose : Nat)
  /-- `dup2(s_stdin, STDIN_FILENO); dup2(s_stdout, STDOUT_FILENO)`. -/
  | redirEnd (sStdin sStdout : Int)
  /-- The first child of a PIPE takes the write end. -/
  | pipeOut (fd0 fd1 : Nat)
  /-- The second child of a PIPE takes the read end. -/
  | pipeIn (fd0 fd1 : Nat)
  /-- The second `fork` of a PIPE. -/
  | pipeFork (right : Cmd W) (fd0 fd1 : Nat) (cpid0 : Nat)
  /-- The parent closes both ends. -/
  | pipeClose (fd0 fd1 : Nat)
  /-- `dup2(saved_stdin, STDIN_FILENO); dup2(saved_stdout, STDOUT_FILENO)`. -/
  | pipeEnd
  deriving DecidableEq, Repr

/-- The frames in which the process calls `wait`. -/
def Frame.Waits {W : Type} : Frame W → Prop
  | .waitFor _ | .waitOnce _ | .waitAll _ => True
  | _ => False

/-- Running shell code, running the program it became, terminated, or also waited for. -/
inductive Status (W : Type)
  | shell (code : List (Frame W))
  | program (argv : List W)
  | zombie (status : Int)
  | reaped
  deriving DecidableEq, Repr

structure Proc (W : Type) where
  parent : Option Nat
  fds : FdTable W
  status : Status W
  deriving DecidableEq, Repr

/-- All processes; those from `next` on are not created yet. The shell is process 0. -/
structure World (W : Type) where
  proc : Nat → Proc W
  next : Nat
  nextPipe : Nat

/-- The steps of the system. `ok` is the outcome of `execvp`, `open` or `pipe`. -/
inductive Act (W : Type)
  /-- `p` is in the read loop and gets a command. -/
  | read (p : Nat) (c : Cmd W)
  | run (p : Nat) (ok : Bool)
  /-- The last two calls of a PIPE, with the values of the uninitialised variables. -/
  | restore (p : Nat) (savedStdin savedStdout : Int)
  /-- `wait` in `p` returns the terminated child `q`. -/
  | reap (p q : Nat)
  /-- `wait` in `p` returns -1. -/
  | noChild (p : Nat)
  /-- The program that `q` became terminates. -/
  | finish (q : Nat) (status : Int)
  deriving DecidableEq, Repr

variable {W : Type}

/-- The processes of a shell that has just been started. -/
def World.init (fds : FdTable W) : World W where
  proc p := if p = 0 then ⟨none, fds, .shell []⟩ else ⟨none, [], .reaped⟩
  next := 1
  nextPipe := 0

/-- `q` is a child of `p` that has not been waited for. -/
def World.Child (w : World W) (p q : Nat) : Prop :=
  (w.proc q).parent = some p ∧ (w.proc q).status ≠ .reaped

/-- `q` has terminated. -/
def World.Terminated (w : World W) (q : Nat) : Prop :=
  (w.proc q).status = .reaped ∨ ∃ n, (w.proc q).status = .zombie n

instance [DecidableEq W] (w : World W) (p q : Nat) : Decidable (w.Child p q) :=
  inferInstanceAs (Decidable (_ ∧ _))

def Status.terminated : Status W → Bool
  | .reaped | .zombie _ => true
  | _ => false

instance (w : World W) (q : Nat) : Decidable (w.Terminated q) :=
  decidable_of_iff ((w.proc q).status.terminated = true) <| by
    unfold World.Terminated Status.terminated
    cases (w.proc q).status <;> simp

def World.setStatus (w : World W) (p : Nat) (st : Status W) : World W :=
  { w with proc := Function.update w.proc p { w.proc p with status := st } }

/-- `exit`: the children lose their parent. -/
def World.terminate (w : World W) (p : Nat) (status : Int) : World W :=
  { w with proc := fun q =>
      if q = p then { w.proc p with status := .zombie status }
      else if (w.proc q).parent = some p then { w.proc q with parent := none }
      else w.proc q }

/-- How a process goes on: its descriptors and what is left to do, and the code of the child if one
    is forked (the child starts with the same descriptors). -/
structure Outcome (W : Type) where
  fds : FdTable W
  code : List (Frame W)
  child : Option (List (Frame W)) := none
  newPipe : Bool := false

/-- What a frame does to its process. -/
inductive Result (W : Type)
  | next (o : Outcome W)
  | exec (argv : List W)
  | exit (status : Int)

/-- `execcmd(c)` up to the first `wait`, its return, or the second `fork` of a PIPE; `pid` is what
    `fork` returns in the parent and `k` what is left to do after the call. -/
def execcmd (c : Cmd W) (k : List (Frame W)) (fds : FdTable W) (pid : Nat) (pipeId : Nat)
    (ok : Bool) : Result W :=
  match c with
  | .exec argv =>
    if argv = [] then .next { fds := fds, code := k }
    else .next { fds := fds, code := .waitFor pid :: k, child := some (.execvp argv :: k) }
  | .redir cmd file mode fd =>
    let (sStdout, fds) := fds.dup 1
    let (sStdin, fds) := fds.dup 0
    .next {
      fds := fds
      code := .waitAll [pid] :: .redirEnd sStdin sStdout :: k
      child := some (.redirect file mode fd :: .call cmd :: .exit 0 :: k) }
  | .list left right =>
    .next {
      fds := fds
      code := .waitOnce pid :: .call right :: k
      child := some (.call left :: .exit 0 :: k) }
  | .pipe left right =>
    if ok then
      let (fd0, fd1, fds) := fds.pipe pipeId
      .next {
        fds := fds
        code := .pipeFork right fd0 fd1 pid :: k
        child := some (.pipeOut fd0 fd1 :: .call left :: .exit 0 :: k)
        newPipe := true }
    else .exit (-1)
  | .back cmd => .next { fds := fds, code := k, child := some (.call cmd :: .exit 1 :: k) }

/-- The frames that do not wait, with `k` left to do afterwards. -/
def runFrame (f : Frame W) (k : List (Frame W)) (fds : FdTable W) (pid : Nat) (pipeId : Nat)
    (ok : Bool) : Option (Result W) :=
  match f with
  | .call c => some (execcmd c k fds pid pipeId ok)
  | .exit n => some (.exit n)
  | .execvp argv => some (if ok then .exec argv else .next { fds := fds, code := k })
  | .redirect file mode fd =>
    some (.next {
      fds := if fd = 0 ∨ fd = 1 then fds.openOnto file mode fd ok else fds
      code := k })
  | .redirEnd sStdin sStdout =>
    some (.next { fds := (fds.dup2 sStdin 0).dup2 sStdout 1, code := k })
  | .pipeOut fd0 fd1 =>
    let (_, fds) := fds.dup 1
    some (.next { fds := ((fds.dup2 fd1 1).close fd0).close fd1, code := k })
  | .pipeIn fd0 fd1 =>
    let (_, fds) := fds.dup 0
    some (.next { fds := ((fds.dup2 fd0 0).close fd0).close fd1, code := k })
  | .pipeFork right fd0 fd1 cpid0 =>
    some (.next {
      fds := fds
      code := .pipeClose fd0 fd1 :: .waitAll [cpid0, pid] :: .waitAll [cpid0, pid] :: .pipeEnd :: k
      child := some (.pipeIn fd0 fd1 :: .call right :: .exit 0 :: k) })
  | .pipeClose fd0 fd1 => some (.next { fds := (fds.close fd0).close fd1, code := k })
  | .waitFor _ | .waitOnce _ | .waitAll _ | .pipeEnd => none

/-- The process goes on as the outcome says, and its child, if any, gets the next pid. -/
def World.continue (w : World W) (p : Nat) (o : Outcome W) : World W :=
  let proc := Function.update w.proc p { w.proc p with fds := o.fds, status := .shell o.code }
  let nextPipe := if o.newPipe then w.nextPipe + 1 else w.nextPipe
  match o.child with
  | none => { w with proc := proc, nextPipe := nextPipe }
  | some code =>
    { proc := Function.update proc w.next ⟨some p, o.fds, .shell code⟩
      next := w.next + 1
      nextPipe := nextPipe }

def World.apply (w : World W) (p : Nat) : Result W → World W
  | .next o => w.continue p o
  | .exec argv => w.setStatus p (.program argv)
  | .exit n => w.terminate p n

/-- One step; `none` where it is not possible (a `wait` that blocks included). -/
def World.step [DecidableEq W] (w : World W) : Act W → Option (World W)
  | .read p c =>
    match (w.proc p).status with
    | .shell [] => some (w.setStatus p (.shell [.call c]))
    | _ => none
  | .run p ok =>
    match (w.proc p).status with
    | .shell (f :: k) => (runFrame f k (w.proc p).fds w.next w.nextPipe ok).map (w.apply p)
    | _ => none
  | .restore p savedStdin savedStdout =>
    match (w.proc p).status with
    | .shell (.pipeEnd :: k) =>
      some (w.continue p
        { fds := ((w.proc p).fds.dup2 savedStdin 0).dup2 savedStdout 1, code := k })
    | _ => none
  | .reap p q =>
    if w.Child p q ∧ w.Terminated q then
      match (w.proc p).status with
      | .shell (.waitFor pid :: k) =>
        if q = pid then some ((w.setStatus q .reaped).setStatus p (.shell k))
        else some (w.setStatus q .reaped)
      | .shell (.waitOnce _ :: k) => some ((w.setStatus q .reaped).setStatus p (.shell k))
      | .shell (.waitAll _ :: _) => some (w.setStatus q .reaped)
      | _ => none
    else none
  | .noChild p =>
    if ∀ q < w.next, ¬ w.Child p q then
      match (w.proc p).status with
      | .shell (.waitFor _ :: _) => some w
      | .shell (.waitOnce _ :: k) => some (w.setStatus p (.shell k))
      | .shell (.waitAll _ :: k) => some (w.setStatus p (.shell k))
      | _ => none
    else none
  | .finish q status =>
    match (w.proc q).status with
    | .program _ => some (w.terminate q status)
    | _ => none

/-- The step relation of the shell. -/
def Step [DecidableEq W] (w : World W) (a : Act W) (w' : World W) : Prop := w.step a = some w'

/-! ## What a step does -/

/-- The steps, case by case. -/
inductive Moves (w : World W) : Act W → World W → Prop
  | read {p : Nat} {c : Cmd W} (hp : (w.proc p).status = .shell []) :
      Moves w (.read p c) (w.setStatus p (.shell [.call c]))
  | run {p : Nat} {ok : Bool} {f : Frame W} {k : List (Frame W)} {r : Result W}
      (hp : (w.proc p).status = .shell (f :: k))
      (hr : runFrame f k (w.proc p).fds w.next w.nextPipe ok = some r) :
      Moves w (.run p ok) (w.apply p r)
  | restore {p : Nat} {x y : Int} {k : List (Frame W)}
      (hp : (w.proc p).status = .shell (.pipeEnd :: k)) :
      Moves w (.restore p x y)
        (w.continue p { fds := ((w.proc p).fds.dup2 x 0).dup2 y 1, code := k })
  /-- The child that ends the wait. -/
  | reapLast {p q : Nat} {f : Frame W} {k : List (Frame W)} (hchild : w.Child p q)
      (hterm : w.Terminated q) (hp : (w.proc p).status = .shell (f :: k))
      (hf : f = .waitFor q ∨ ∃ own, f = .waitOnce own) :
      Moves w (.reap p q) ((w.setStatus q .reaped).setStatus p (.shell k))
  | reapOther {p q : Nat} {f : Frame W} {k : List (Frame W)} (hchild : w.Child p q)
      (hterm : w.Terminated q) (hp : (w.proc p).status = .shell (f :: k))
      (hf : (∃ pid, f = .waitFor pid ∧ q ≠ pid) ∨ ∃ own, f = .waitAll own) :
      Moves w (.reap p q) (w.setStatus q .reaped)
  | waitFails {p : Nat} {f : Frame W} {k : List (Frame W)} (hno : ∀ q < w.next, ¬ w.Child p q)
      (hp : (w.proc p).status = .shell (f :: k))
      (hf : (∃ own, f = .waitOnce own) ∨ ∃ own, f = .waitAll own) :
      Moves w (.noChild p) (w.setStatus p (.shell k))
  /-- `while(wait(&status) != pid)` without children never ends. -/
  | waitSpins {p q : Nat} {k : List (Frame W)} (hno : ∀ q < w.next, ¬ w.Child p q)
      (hp : (w.proc p).status = .shell (.waitFor q :: k)) : Moves w (.noChild p) w
  | finish {q : Nat} {n : Int} {argv : List W} (hq : (w.proc q).status = .program argv) :
      Moves w (.finish q n) (w.terminate q n)

theorem step_moves [DecidableEq W] {w w' : World W} {a : Act W} (h : Step w a w') :
    Moves w a w' := by
  have h : w.step a = some w' := h
  cases a with
  | read p c =>
      simp only [World.step] at h
      split at h
      · obtain rfl := Option.some.inj h
        exact .read (by assumption)
      · cases h
  | run p ok =>
      simp only [World.step] at h
      split at h
      · obtain ⟨r, hr, rfl⟩ := Option.map_eq_some_iff.1 h
        exact .run (by assumption) hr
      · cases h
  | restore p x y =>
      simp only [World.step] at h
      split at h
      · obtain rfl := Option.some.inj h
        exact .restore (by assumption)
      · cases h
  | reap p q =>
      simp only [World.step] at h
      split_ifs at h with hq
      split at h
      · split_ifs at h with hpid
        · obtain rfl := Option.some.inj h
          exact .reapLast hq.1 hq.2 (by assumption) (Or.inl (by rw [hpid]))
        · obtain rfl := Option.some.inj h
          exact .reapOther hq.1 hq.2 (by assumption) (Or.inl ⟨_, rfl, hpid⟩)
      · obtain rfl := Option.some.inj h
        exact .reapLast hq.1 hq.2 (by assumption) (Or.inr ⟨_, rfl⟩)
      · obtain rfl := Option.some.inj h
        exact .reapOther hq.1 hq.2 (by assumption) (Or.inr ⟨_, rfl⟩)
      · cases h
  | noChild p =>
      simp only [World.step] at h
      split_ifs at h with hno
      split at h
      · obtain rfl := Option.some.inj h
        exact .waitSpins hno (by assumption)
      · obtain rfl := Option.some.inj h
        exact .waitFails hno (by assumption) (Or.inl ⟨_, rfl⟩)
      · obtain rfl := Option.some.inj h
        exact .waitFails hno (by assumption) (Or.inr ⟨_, rfl⟩)
      · cases h
  | finish q n =>
      simp only [World.step] at h
      split at h
      · obtain rfl := Option.some.inj h
        exact .finish (by assumption)
      · cases h

/-! ## The processes after a step -/

theorem not_terminated_of_shell {w : World W} {p : Nat} {k : List (Frame W)}
    (h : (w.proc p).status = .shell k) : ¬ w.Terminated p := by
  rintro (h' | ⟨n, h'⟩) <;> rw [h] at h' <;> cases h'

@[simp] theorem setStatus_next (w : World W) (p : Nat) (st : Status W) :
    (w.setStatus p st).next = w.next := rfl

@[simp] theorem terminate_next (w : World W) (p : Nat) (n : Int) :
    (w.terminate p n).next = w.next := rfl

@[simp] theorem setStatus_status_self (w : World W) (p : Nat) (st : Status W) :
    ((w.setStatus p st).proc p).status = st := by simp [World.setStatus]

theorem setStatus_proc_of_ne (w : World W) {p q : Nat} (st : Status W) (h : q ≠ p) :
    (w.setStatus p st).proc q = w.proc q := by simp [World.setStatus, h]

@[simp] theorem setStatus_parent (w : World W) (p q : Nat) (st : Status W) :
    ((w.setStatus p st).proc q).parent = (w.proc q).parent := by
  by_cases h : q = p
  · subst h
    simp [World.setStatus]
  · rw [setStatus_proc_of_ne w st h]

theorem setStatus_comm (w : World W) {p q : Nat} (h : p ≠ q) (st st' : Status W) :
    (w.setStatus p st).setStatus q st' = (w.setStatus q st').setStatus p st := by
  simp only [World.setStatus, Function.update_of_ne h, Function.update_of_ne h.symm]
  rw [Function.update_comm h]

@[simp] theorem terminate_status_self (w : World W) (p : Nat) (n : Int) :
    ((w.terminate p n).proc p).status = .zombie n := by simp [World.terminate]

theorem terminate_status_of_ne (w : World W) {p q : Nat} (n : Int) (h : q ≠ p) :
    ((w.terminate p n).proc q).status = (w.proc q).status := by
  simp only [World.terminate, if_neg h]
  split_ifs <;> rfl

/-- The process that terminates keeps its parent; its children have none any more. -/
theorem terminate_parent {w : World W} {p q r : Nat} {n : Int}
    (h : ((w.terminate p n).proc q).parent = some r) :
    (w.proc q).parent = some r ∧ (q ≠ p → r ≠ p) := by
  by_cases hq : q = p
  · subst hq
    exact ⟨by simpa [World.terminate] using h, fun hne => absurd rfl hne⟩
  · by_cases hp : (w.proc q).parent = some p
    · simp [World.terminate, hq, hp] at h
    · simp only [World.terminate, if_neg hq, if_neg hp] at h
      exact ⟨h, fun _ hr => hp (hr ▸ h)⟩

theorem continue_proc_of_ne (w : World W) {p q : Nat} (o : Outcome W) (hp : q ≠ p)
    (hnext : q ≠ w.next) : (w.continue p o).proc q = w.proc q := by
  unfold World.continue
  cases o.child <;> simp [hp, hnext]

theorem continue_self (w : World W) {p : Nat} (o : Outcome W) (hp : p ≠ w.next) :
    (w.continue p o).proc p = { w.proc p with fds := o.fds, status := .shell o.code } := by
  unfold World.continue
  cases o.child <;> simp [hp]

/-- Without a child the next entry stays; a child starts there with its code. -/
theorem continue_next (w : World W) {p : Nat} (o : Outcome W) (hp : p ≠ w.next) :
    (o.child = none ∧ (w.continue p o).next = w.next ∧
      (w.continue p o).proc w.next = w.proc w.next) ∨
    ∃ code, o.child = some code ∧ (w.continue p o).next = w.next + 1 ∧
      (w.continue p o).proc w.next = ⟨some p, o.fds, .shell code⟩ := by
  unfold World.continue
  cases hc : o.child with
  | none => exact Or.inl ⟨rfl, by simp, by simp [hp.symm]⟩
  | some code => exact Or.inr ⟨code, rfl, by simp⟩

end Cs350.Shell
