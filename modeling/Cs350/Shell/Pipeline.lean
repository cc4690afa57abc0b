import Cs350.Shell.Grammar
import Cs350.Shell.Steps

set_option autoImplicit false

/-! # The descriptors of a pipeline

A pipeline of `n` commands is a PIPE whose right side is a pipeline of the others, and `execcmd` runs
the right side in a child of the process that made the pipe. That child has saved its standard input
with `dup` before it takes the read end, and does not close the copy; when it makes the next pipe, its
standard input is the read end of the one before. So from the third command on every program starts
with copies of the read ends of all pipes but the last two, and ends of pipes are where they belong
in the first two. -/

namespace Cs350.Shell

open Transition FdTable

variable {W : Type}

/-- The tree of a pipeline of simple commands. -/
def pipeline : List (List W) → Cmd W
  | [] => .exec []
  | [argv] => .exec argv
  | argv :: rest => .pipe (.exec argv) (pipeline rest)

/-! ## The trees of pipelines -/

/-- Made of PIPEs and EXECs. -/
def Cmd.Simple : Cmd W → Prop
  | .exec _ => True
  | .pipe left right => left.Simple ∧ right.Simple
  | _ => False

theorem ExecOf.simple {ts : List Tok} {c : Cmd Word} (h : ExecOf ts c) (hc : c.Simple) :
    ∃ argv, c = .exec argv := by
  cases h with
  | @mk _ rs _ ws rs' _ _ _ =>
      rcases List.eq_nil_or_concat (rs ++ rs') with hnil | ⟨init, r, hr⟩
      · exact ⟨ws, by rw [hnil, List.foldl_nil]⟩
      · rw [hr, List.concat_eq_append, List.foldl_append] at hc
        exact hc.elim

theorem PipeOf.simple {ts : List Tok} {c : Cmd Word} (h : PipeOf ts c) (hc : c.Simple) :
    ∃ stages, stages ≠ [] ∧ c = pipeline stages := by
  induction h with
  | one h =>
      obtain ⟨argv, rfl⟩ := h.simple hc
      exact ⟨[argv], List.cons_ne_nil _ _, rfl⟩
  | more h h' ih =>
      obtain ⟨argv, rfl⟩ := h.simple hc.1
      obtain ⟨stages, hne, rfl⟩ := ih hc.2
      obtain ⟨next, rest, rfl⟩ := List.exists_cons_of_ne_nil hne
      exact ⟨argv :: next :: rest, List.cons_ne_nil _ _, rfl⟩

/-- A line of PIPEs and EXECs is a pipeline. -/
theorem parsecmd_simple {buf : List Char} {c : Cmd Word} (h : parsecmd buf = .ok c)
    (hc : c.Simple) : ∃ stages, stages ≠ [] ∧ c = pipeline stages := by
  have hline := parsecmd_lineOf h
  generalize lineTokens buf = ts at hline
  cases hline with
  | one n hpipe =>
      cases n with
      | zero => exact hpipe.simple hc
      | succ n =>
          rw [Function.iterate_succ_apply'] at hc
          exact hc.elim
  | more => exact hc.elim

/-! ## Tables that hold ends of pipes -/

/-- An end of a pipe that is not older than `first`. -/
def Desc.Since (first : Nat) (d : Desc W) : Prop := ∃ id, d.pipe? = some id ∧ first ≤ id

/-- Of the ends of pipes not older than `first`, the descriptors from 2 on, those in `skip` apart,
    hold the read ends of `ids` and nothing else. -/
def Strays (first : Nat) (ids : List Nat) (skip : Nat → Prop) (fds : FdTable W) : Prop :=
  ∀ d : Desc W, d.Since first →
    ((∃ m, 2 ≤ m ∧ ¬ skip m ∧ fds.get m = some d) ↔ ∃ id ∈ ids, d = .pipeRead id)

/-- Standard input and output, and the read ends that are held besides. -/
structure Holds (first : Nat) (stdin stdout : Desc W) (ids : List Nat) (fds : FdTable W) : Prop where
  stdin : fds.get 0 = some stdin
  stdout : fds.get 1 = some stdout
  strays : Strays first ids (fun _ => False) fds

/-- The same after `pipe(fd)`. -/
structure HoldsPipe (first : Nat) (stdin stdout : Desc W) (ids : List Nat) (id fd0 fd1 : Nat)
    (fds : FdTable W) : Prop where
  stdin : fds.get 0 = some stdin
  stdout : fds.get 1 = some stdout
  high0 : 2 ≤ fd0
  high1 : 2 ≤ fd1
  ne : fd0 ≠ fd1
  readEnd : fds.get fd0 = some (.pipeRead id)
  writeEnd : fds.get fd1 = some (.pipeWrite id)
  strays : Strays first ids (fun m => m = fd0 ∨ m = fd1) fds

section Tables

variable {first : Nat} {stdin stdout : Desc W} {ids : List Nat} {fds fds' : FdTable W}
  {skip skip' : Nat → Prop}

theorem Strays.congr (h : Strays first ids skip fds)
    (hget : ∀ m, 2 ≤ m → ∀ d, ¬ skip' m ∧ fds'.get m = some d ↔ ¬ skip m ∧ fds.get m = some d) :
    Strays first ids skip' fds' := by
  intro d hd
  rw [← h d hd]
  exact exists_congr fun m => and_congr_right fun hm => hget m hm d

/-- One more descriptor. -/
theorem get_put_free {t : FdTable W} (d : Desc W) (m : Nat) :
    (t.put t.free (some d)).get m = if m = t.free then some d else t.get m := get_put ..

theorem Holds.pipe (h : Holds first stdin stdout ids fds) (id : Nat) :
    HoldsPipe first stdin stdout ids id (fds.pipe id).1 (fds.pipe id).2.1 (fds.pipe id).2.2 := by
  have hfree := two_le_free h.stdin h.stdout
  have hget := get_put_free (t := fds) (.pipeRead id)
  generalize hr : fds.free = r at hfree hget
  have hput : ∀ m, m ≠ r → (fds.put r (some (.pipeRead id))).get m = fds.get m := fun m hm =>
    (hget m).trans (if_neg hm)
  have h0 := (hput 0 (by omega)).trans h.stdin
  have h1 := (hput 1 (by omega)).trans h.stdout
  have hfree' := two_le_free h0 h1
  have hget' := get_put_free (t := fds.put r (some (.pipeRead id))) (.pipeWrite id)
  have hread : (fds.put r (some (.pipeRead id))).get r = some (.pipeRead id) :=
    (hget r).trans (if_pos rfl)
  have hne := ne_free hread
  have hnone : fds.get r = none := by
    rw [← hr]
    exact get_free fds
  have hwrite := get_free (fds.put r (some (.pipeRead id)))
  generalize hw : (fds.put r (some (.pipeRead id))).free = w at hfree' hget' hne hwrite
  rw [hput w hne.symm] at hwrite
  have hpipe : fds.pipe id =
      (r, w, (fds.put r (some (.pipeRead id))).put w (some (.pipeWrite id))) := by
    simp only [FdTable.pipe, alloc, hr, hw]
  rw [hpipe]
  refine ⟨?_, ?_, hfree, hfree', hne, ?_, ?_, h.strays.congr fun m _ d => ?_⟩
  · exact (hget' 0).trans ((if_neg (by omega)).trans h0)
  · exact (hget' 1).trans ((if_neg (by omega)).trans h1)
  · exact (hget' r).trans ((if_neg hne).trans hread)
  · exact (hget' w).trans (if_pos rfl)
  · show ¬ (m = r ∨ m = w) ∧ _ ↔ ¬ False ∧ _
    rw [hget', hget]
    by_cases hmw : m = w
    · rw [hmw, hwrite]
      simp
    · by_cases hmr : m = r
      · rw [hmr, hnone]
        simp
      · rw [if_neg hmw, if_neg hmr]
        simp [hmw, hmr]

variable {id fd0 fd1 : Nat}

/-- The table of a child of a PIPE after `dup(n); dup2(fd, n); close(fd[0]); close(fd[1])`. -/
theorem get_taken (fd0 fd1 : Nat) {n fd : Nat} {x e : Desc W} (hn : fds.get n = some x)
    (hfd : fds.get fd = some e) (m : Nat) : ((((fds.dup n).2.dup2 fd n).close fd0).close fd1).get m =
      if m = fd1 then none else if m = fd0 then none else if m = n then some e
      else if m = fds.free then some x else fds.get m := by
  have hne := ne_free hfd
  have hcopy : (fds.put fds.free (some x)).get fd = some e := by
    rw [get_put, if_neg hne]
    exact hfd
  rw [get_close, get_close, dup_eq hn, get_dup2 hcopy, get_put]

/-- The copy that `dup` makes of standard input or output stays. -/
theorem HoldsPipe.strays_taken (h : HoldsPipe first stdin stdout ids id fd0 fd1 fds) {n fd : Nat}
    {x e : Desc W} (hlow : n < 2) (hn : fds.get n = some x) (hfd : fds.get fd = some e)
    {ids' : List Nat} (hids : ∀ d : Desc W, d.Since first →
      ((∃ i ∈ ids', d = .pipeRead i) ↔ (∃ i ∈ ids, d = .pipeRead i) ∨ d = x)) :
    Strays first ids' (fun _ => False) ((((fds.dup n).2.dup2 fd n).close fd0).close fd1) := by
  have hget := get_taken fd0 fd1 hn hfd
  have hfree := two_le_free h.stdin h.stdout
  have h0 := ne_free h.readEnd
  have h1 := ne_free h.writeEnd
  intro d hd
  rw [hids d hd, ← h.strays d hd]
  constructor
  · rintro ⟨m, hm, -, hmd⟩
    rw [hget] at hmd
    split_ifs at hmd with hm1 hm0 hmn hmf
    · omega
    · exact Or.inr (Option.some.inj hmd).symm
    · exact Or.inl ⟨m, hm, not_or.2 ⟨hm0, hm1⟩, hmd⟩
  · rintro (⟨m, hm, hskip, hmd⟩ | rfl)
    · rw [not_or] at hskip
      refine ⟨m, hm, not_false, ?_⟩
      rw [hget, if_neg hskip.2, if_neg hskip.1, if_neg (by omega), if_neg (ne_free hmd)]
      exact hmd
    · refine ⟨fds.free, hfree, not_false, ?_⟩
      rw [hget, if_neg h1.symm, if_neg h0.symm, if_neg (by omega), if_pos rfl]

/-- The first child of a PIPE: its standard output was no end of one of the pipes. -/
theorem HoldsPipe.pipeOut (h : HoldsPipe first stdin stdout ids id fd0 fd1 fds)
    (hout : ¬ stdout.Since first) :
    Holds first stdin (.pipeWrite id) ids
      ((((fds.dup 1).2.dup2 fd1 1).close fd0).close fd1) := by
  have hget := get_taken fd0 fd1 h.stdout h.writeEnd
  have hfree := two_le_free h.stdin h.stdout
  have hhigh0 := h.high0
  have hhigh1 := h.high1
  refine ⟨?_, ?_, h.strays_taken Nat.one_lt_two h.stdout h.writeEnd fun d hd => ?_⟩
  · rw [hget, if_neg (by omega), if_neg (by omega), if_neg (by omega), if_neg (by omega)]
    exact h.stdin
  · rw [hget, if_neg (by omega), if_neg (by omega), if_pos rfl]
  · refine ⟨Or.inl, ?_⟩
    rintro (hmem | rfl)
    · exact hmem
    · exact absurd hd hout

/-- The second child of a PIPE keeps a copy of its standard input. -/
theorem HoldsPipe.pipeIn (h : HoldsPipe first stdin stdout ids id fd0 fd1 fds) {ids' : List Nat}
    (hids : ∀ d : Desc W, d.Since first →
      ((∃ i ∈ ids', d = .pipeRead i) ↔ (∃ i ∈ ids, d = .pipeRead i) ∨ d = stdin)) :
    Holds first (.pipeRead id) stdout ids'
      ((((fds.dup 0).2.dup2 fd0 0).close fd0).close fd1) := by
  have hget := get_taken fd0 fd1 h.stdin h.readEnd
  have hfree := two_le_free h.stdin h.stdout
  have hhigh0 := h.high0
  have hhigh1 := h.high1
  refine ⟨?_, ?_, h.strays_taken Nat.two_pos h.stdin h.readEnd hids⟩
  · rw [hget, if_neg (by omega), if_neg (by omega), if_pos rfl]
  · rw [hget, if_neg (by omega), if_neg (by omega), if_neg (by omega), if_neg (by omega)]
    exact h.stdout

end Tables

/-! ## The processes of a pipeline -/

/-- What a process is to the pipeline, `pipes` being those between the stages before it. -/
inductive Part
  /-- It runs the rest of the pipeline. -/
  | runs (pipes : List Nat)
  /-- It has made the next pipe and forked its first child. -/
  | splits (pipes : List Nat) (id : Nat)
  /-- It is that child. -/
  | left (pipes : List Nat) (id : Nat)
  /-- It was forked by an EXEC; `own` is the pipe after it. -/
  | stage (pipes : List Nat) (own : Option Nat)
  deriving DecidableEq, Repr

/-- What a process that runs the frame `f` and the child it forks are to the pipeline from then on;
    `id` is the number of the next pipe. -/
def Part.next (part : Part) (f : Frame W) (id : Nat) (ok : Bool) : Option Part × Option Part :=
  match part, f with
  | .runs pipes, .pipeIn _ _ => (some (.runs pipes), none)
  | .runs pipes, .call (.pipe _ _) =>
    if ok then (some (.splits pipes id), some (.left pipes id)) else (none, none)
  | .runs pipes, .call (.exec argv) => (none, if argv = [] then none else some (.stage pipes none))
  | .splits pipes own, .pipeFork _ _ _ _ => (none, some (.runs (pipes ++ [own])))
  | .left pipes own, .pipeOut _ _ => (some (.left pipes own), none)
  | .left pipes own, .call (.exec argv) =>
    (none, if argv = [] then none else some (.stage pipes (some own)))
  | _, _ => (none, none)

/-- What the processes are to the pipeline after the step `a` in `w`. -/
def stepParts (parts : Nat → Option Part) (w : World W) (a : Act W) : Nat → Option Part :=
  match a with
  | .run p ok =>
    match parts p, (w.proc p).status with
    | some part, .shell (f :: _) =>
      let (self, child) := part.next f w.nextPipe ok
      Function.update (Function.update parts p self) w.next child
    | _, _ => parts
  | _ => parts

/-- What the processes are to the pipeline that `p` has begun to run, after the steps `tr`. -/
def partsOf (p : Nat) (tr : List (World W × Act W)) : Nat → Option Part :=
  tr.foldl (fun parts x => stepParts parts x.1 x.2)
    (Function.update (fun _ => none) p (some (.runs [])))

/-- The standard input of the stage after `pipes`. -/
def stdinAfter (outer : Desc W) (pipes : List Nat) : Desc W :=
  match pipes.getLast? with
  | none => outer
  | some id => .pipeRead id

/-- The standard output of a stage. -/
def stdoutTo (outer : Desc W) (own : Option Nat) : Desc W :=
  match own with
  | none => outer
  | some id => .pipeWrite id

/-- The code and the table of a process that is part of the pipeline `stages`, whose outer standard
    input and output are `d` and `e`. -/
inductive Shape (first : Nat) (d e : Desc W) (stages : List (List W)) :
    Part → List (Frame W) → FdTable W → Prop
  | call {pipes : List Nat} {k : List (Frame W)} {fds : FdTable W} (hlt : pipes.length < stages.length)
      (h : Holds first (stdinAfter d pipes) e pipes.dropLast fds) :
      Shape first d e stages (.runs pipes) (.call (pipeline (stages.drop pipes.length)) :: k) fds
  | pipeIn {pipes : List Nat} {id fd0 fd1 : Nat} {k : List (Frame W)} {fds : FdTable W}
      (hlt : pipes.length + 1 < stages.length)
      (h : HoldsPipe first (stdinAfter d pipes) e pipes.dropLast id fd0 fd1 fds) :
      Shape first d e stages (.runs (pipes ++ [id]))
        (.pipeIn fd0 fd1 :: .call (pipeline (stages.drop (pipes.length + 1))) :: k) fds
  | pipeFork {pipes : List Nat} {id fd0 fd1 cpid : Nat} {k : List (Frame W)} {fds : FdTable W}
      (hlt : pipes.length + 1 < stages.length)
      (h : HoldsPipe first (stdinAfter d pipes) e pipes.dropLast id fd0 fd1 fds) :
      Shape first d e stages (.splits pipes id)
        (.pipeFork (pipeline (stages.drop (pipes.length + 1))) fd0 fd1 cpid :: k) fds
  | pipeOut {pipes : List Nat} {id fd0 fd1 : Nat} {argv : List W} {k : List (Frame W)}
      {fds : FdTable W} (hlt : pipes.length + 1 < stages.length)
      (hargv : stages[pipes.length]? = some argv)
      (h : HoldsPipe first (stdinAfter d pipes) e pipes.dropLast id fd0 fd1 fds) :
      Shape first d e stages (.left pipes id) (.pipeOut fd0 fd1 :: .call (.exec argv) :: k) fds
  | callLeft {pipes : List Nat} {id : Nat} {argv : List W} {k : List (Frame W)} {fds : FdTable W}
      (hlt : pipes.length + 1 < stages.length) (hargv : stages[pipes.length]? = some argv)
      (h : Holds first (stdinAfter d pipes) (.pipeWrite id) pipes.dropLast fds) :
      Shape first d e stages (.left pipes id) (.call (.exec argv) :: k) fds
  | stage {pipes : List Nat} {own : Option Nat} {argv : List W} {k : List (Frame W)}
      {fds : FdTable W} (hargv : stages[pipes.length]? = some argv)
      (hown : own = none ↔ pipes.length + 1 = stages.length)
      (h : Holds first (stdinAfter d pipes) (stdoutTo e own) pipes.dropLast fds) :
      Shape first d e stages (.stage pipes own) (.execvp argv :: k) fds

section Shape

variable {first : Nat} {d e : Desc W} {stages : List (List W)} {part : Part} {f : Frame W}
  {k : List (Frame W)} {fds : FdTable W}

/-- The call that is left after `n` stages. -/
theorem pipeline_drop {n : Nat} (hlt : n < stages.length) :
    ∃ argv, stages[n]? = some argv ∧
      (n + 1 = stages.length ∧ pipeline (stages.drop n) = .exec argv ∨
        n + 1 < stages.length ∧
          pipeline (stages.drop n) = .pipe (.exec argv) (pipeline (stages.drop (n + 1)))) := by
  refine ⟨stages[n], List.getElem?_eq_getElem hlt, ?_⟩
  rw [List.drop_eq_getElem_cons hlt]
  rcases Nat.lt_or_ge (n + 1) stages.length with hmore | hlast
  · rw [List.drop_eq_getElem_cons hmore]
    exact Or.inr ⟨hmore, rfl⟩
  · rw [List.drop_eq_nil_of_le hlast]
    exact Or.inl ⟨by omega, rfl⟩

/-- The pipes before the one at standard input, and it, are all pipes. -/
theorem mem_pipes (hd : ¬ d.Since first) (pipes : List Nat) {x : Desc W} (hx : x.Since first) :
    (∃ i ∈ pipes, x = .pipeRead i) ↔
      (∃ i ∈ pipes.dropLast, x = .pipeRead i) ∨ x = stdinAfter d pipes := by
  rcases List.eq_nil_or_concat pipes with rfl | ⟨init, last, rfl⟩
  · have hne : x ≠ stdinAfter d [] := by
      rintro rfl
      exact hd hx
    simpa using hne
  · simp [stdinAfter, or_and_right, exists_or]

/-- A process of the pipeline waits for nothing. -/
theorem Shape.not_waits (h : Shape first d e stages part (f :: k) fds) :
    ¬ f.Waits ∧ f ≠ .pipeEnd := by
  generalize hcode : f :: k = code at h
  cases h <;> obtain ⟨rfl, rfl⟩ := List.cons.inj hcode <;> exact ⟨id, fun h => nomatch h⟩

theorem Shape.code (h : Shape first d e stages part k fds) : ∃ f k', k = f :: k' := by
  cases h <;> exact ⟨_, _, rfl⟩

/-- The pipes before a process of the pipeline are not older than `first`. -/
def Part.From (first : Nat) : Part → Prop
  | .runs pipes | .stage pipes _ => ∀ id ∈ pipes, first ≤ id
  | .splits pipes own | .left pipes own => (∀ id ∈ pipes, first ≤ id) ∧ first ≤ own

/-- A process or a child that takes part in the pipeline has the shape for it. -/
def Takes (first : Nat) (d e : Desc W) (stages : List (List W)) (part : Option Part)
    (code : Option (List (Frame W))) (fds : FdTable W) : Prop :=
  ∀ part', part = some part' → part'.From first ∧
    ∃ code', code = some code' ∧ Shape first d e stages part' code' fds

theorem Takes.none (code : Option (List (Frame W))) : Takes first d e stages none code fds :=
  fun _ h => nomatch h

theorem Takes.some {code : List (Frame W)} (hfrom : part.From first)
    (h : Shape first d e stages part code fds) :
    Takes first d e stages (some part) (some code) fds := by
  rintro part' heq
  obtain rfl := Option.some.inj heq
  exact ⟨hfrom, code, rfl, h⟩

/-- The EXEC of a stage forks the process that becomes the program. -/
theorem takes_exec {pipes : List Nat} {own : Option Nat} {argv : List W}
    (hfrom : ∀ id ∈ pipes, first ≤ id) (hargv : stages[pipes.length]? = some argv)
    (hown : own = none ↔ pipes.length + 1 = stages.length)
    (h : Holds first (stdinAfter d pipes) (stdoutTo e own) pipes.dropLast fds) {pid id : Nat}
    {ok : Bool} {o : Outcome W} (ho : execcmd (.exec argv) k fds pid id ok = .next o) :
    Takes first d e stages (if argv = [] then none else some (.stage pipes own)) o.child o.fds := by
  simp only [execcmd] at ho
  split_ifs at ho ⊢
  · exact Takes.none _
  · cases ho
    exact Takes.some hfrom (.stage hargv hown h)

/-- One frame of a process of the pipeline. -/
theorem Shape.run (hd : ¬ d.Since first) (he : ¬ e.Since first) (hfrom : part.From first)
    (h : Shape first d e stages part (f :: k) fds) {pid id : Nat} (hid : first ≤ id) {ok : Bool}
    {r : Result W} (hr : runFrame f k fds pid id ok = some r) :
    part.next f id ok = (none, none) ∨ ∃ o, r = .next o ∧
      Takes first d e stages (part.next f id ok).1 (some o.code) o.fds ∧
      Takes first d e stages (part.next f id ok).2 o.child o.fds := by
  generalize hcode : f :: k = code at h
  cases h with
  | @call pipes _ _ hlt h =>
      obtain ⟨rfl, rfl⟩ := List.cons.inj hcode
      obtain ⟨argv, hargv, ⟨hlast, hpipe⟩ | ⟨hmore, hpipe⟩⟩ := pipeline_drop hlt
      · rw [hpipe] at hr ⊢
        obtain rfl := Option.some.inj hr
        obtain ⟨o, ho⟩ : ∃ o, execcmd (.exec argv) k fds pid id ok = .next o := by
          simp only [execcmd]
          split_ifs <;> exact ⟨_, rfl⟩
        refine Or.inr ⟨o, ho, Takes.none _, takes_exec hfrom hargv ?_ h ho⟩
        exact ⟨fun _ => hlast, fun _ => rfl⟩
      · rw [hpipe] at hr ⊢
        cases ok with
        | false => exact Or.inl rfl
        | true =>
            obtain rfl := Option.some.inj hr
            refine Or.inr ⟨_, rfl, ?_, ?_⟩
            · exact Takes.some ⟨hfrom, hid⟩ (.pipeFork hmore (h.pipe id))
            · exact Takes.some ⟨hfrom, hid⟩ (.pipeOut hmore hargv (h.pipe id))
  | @pipeIn pipes own fd0 fd1 _ _ hlt h =>
      obtain ⟨rfl, rfl⟩ := List.cons.inj hcode
      obtain rfl := Option.some.inj hr
      refine Or.inr ⟨_, rfl, Takes.some hfrom ?_, Takes.none _⟩
      have hholds := h.pipeIn fun x hx => mem_pipes hd pipes hx
      have hlen : (pipes ++ [own]).length = pipes.length + 1 := by simp
      rw [← hlen] at hlt ⊢
      refine .call hlt ?_
      rw [List.dropLast_concat, stdinAfter, List.getLast?_concat]
      exact hholds
  | @pipeFork pipes own fd0 fd1 cpid _ _ hlt h =>
      obtain ⟨rfl, rfl⟩ := List.cons.inj hcode
      obtain rfl := Option.some.inj hr
      refine Or.inr ⟨_, rfl, Takes.none _, Takes.some (fun i hi => ?_) (.pipeIn hlt h)⟩
      rcases List.mem_append.1 hi with hi | hi
      · exact hfrom.1 i hi
      · rw [List.mem_singleton.1 hi]
        exact hfrom.2
  | @pipeOut pipes own fd0 fd1 argv _ _ hlt hargv h =>
      obtain ⟨rfl, rfl⟩ := List.cons.inj hcode
      obtain rfl := Option.some.inj hr
      exact Or.inr ⟨_, rfl, Takes.some hfrom (.callLeft hlt hargv (h.pipeOut he)), Takes.none _⟩
  | @callLeft pipes own argv _ _ hlt hargv h =>
      obtain ⟨rfl, rfl⟩ := List.cons.inj hcode
      obtain rfl := Option.some.inj hr
      obtain ⟨o, ho⟩ : ∃ o, execcmd (.exec argv) k fds pid id ok = .next o := by
        simp only [execcmd]
        split_ifs <;> exact ⟨_, rfl⟩
      refine Or.inr ⟨o, ho, Takes.none _, takes_exec hfrom.1 hargv ?_ h ho⟩
      exact ⟨fun h => absurd h (Option.some_ne_none own), fun h => absurd h (Nat.ne_of_lt hlt)⟩
  | stage => 
      obtain ⟨rfl, rfl⟩ := List.cons.inj hcode
      exact Or.inl rfl

end Shape

/-! ## Whole runs -/

/-- Every process of the pipeline has the shape for its part. -/
structure Parted (first : Nat) (d e : Desc W) (stages : List (List W)) (parts : Nat → Option Part)
    (w : World W) : Prop where
  sane : Sane w
  made : first ≤ w.nextPipe
  shape : ∀ q part, parts q = some part → part.From first ∧
    ∃ code, (w.proc q).status = .shell code ∧ Shape first d e stages part code (w.proc q).fds

section Parted

variable {first : Nat} {d e : Desc W} {stages : List (List W)} {parts : Nat → Option Part}
  {w w' : World W} {a : Act W}

/-- The processes that do not take the step themselves. -/
theorem Parted.others (h : Parted first d e stages parts w) (hm : Moves w a w') {q : Nat}
    {part : Part} (hq : parts q = some part) (hne : ∀ ok, a ≠ .run q ok) :
    part.From first ∧
      ∃ code, (w'.proc q).status = .shell code ∧ Shape first d e stages part code (w'.proc q).fds := by
  obtain ⟨hfrom, code, hst, hshape⟩ := h.shape q part hq
  obtain ⟨f, k, rfl⟩ := hshape.code
  obtain ⟨hwaits, hend⟩ := hshape.not_waits
  obtain ⟨hst', hfds'⟩ := moves_keep h.sane.codes hm hst hwaits hend hne
  exact ⟨hfrom, _, hst', hfds' ▸ hshape⟩

/-- The parts after a step: as before, or given by the frame that a process of the pipeline runs. -/
theorem stepParts_cases (parts : Nat → Option Part) (w : World W) (a : Act W) :
    (stepParts parts w a = parts ∧ ∀ p ok part f k, a = .run p ok → parts p = some part →
      (w.proc p).status ≠ .shell (f :: k)) ∨
    ∃ p ok part f k, a = .run p ok ∧ parts p = some part ∧ (w.proc p).status = .shell (f :: k) ∧
      stepParts parts w a = Function.update
        (Function.update parts p (part.next f w.nextPipe ok).1) w.next
        (part.next f w.nextPipe ok).2 := by
  cases a with
  | run p ok =>
      cases hpart : parts p with
      | none =>
          refine Or.inl ⟨by simp only [stepParts, hpart], fun p' ok' part f k heq hp => ?_⟩
          cases heq
          exact nomatch hpart.symm.trans hp
      | some part =>
          by_cases hst : ∃ f k, (w.proc p).status = .shell (f :: k)
          · obtain ⟨f, k, hst⟩ := hst
            exact Or.inr ⟨p, ok, part, f, k, rfl, hpart, hst, by simp only [stepParts, hpart, hst]⟩
          · refine Or.inl ⟨?_, fun p' ok' part f k heq hp hst' => ?_⟩
            · simp only [stepParts, hpart]
              split
              · exact absurd ⟨_, _, by assumption⟩ hst
              · rfl
            · cases heq
              exact hst ⟨f, k, hst'⟩
  | _ => exact Or.inl ⟨rfl, fun _ _ _ _ _ h => (nomatch h)⟩

theorem Parted.step (hd : ¬ d.Since first) (he : ¬ e.Since first)
    (h : Parted first d e stages parts w) (hm : Moves w a w') :
    Parted first d e stages (stepParts parts w a) w' := by
  refine ⟨h.sane.step hm, h.made.trans (moves_nextPipe hm), fun q part hq => ?_⟩
  rcases stepParts_cases parts w a with ⟨heq, hnot⟩ | ⟨p, ok, mine, f, k, rfl, hmine, hst, heq⟩
  · rw [heq] at hq
    refine h.others hm hq fun ok ha => ?_
    obtain ⟨-, code, hst, hshape⟩ := h.shape q part hq
    obtain ⟨f, k, rfl⟩ := hshape.code
    exact hnot q ok part f k ha hq hst
  · rw [heq, Function.update_apply, Function.update_apply] at hq
    obtain ⟨hfrom, code, hst', hshape⟩ := h.shape p mine hmine
    cases hst.symm.trans hst'
    have hpn : p ≠ w.next := (h.sane.codes.lt_next_of_shell hst).ne
    have hkeep : q ≠ p → parts q = some part → _ := fun hqp hq =>
      h.others hm hq fun ok' ha => hqp (by cases ha; rfl)
    cases hm with
    | @run _ _ f' k' r hp hr =>
        cases hst.symm.trans hp
        rcases hshape.run hd he hfrom h.made hr with hnone | ⟨o, rfl, hself, hchild⟩
        · rw [hnone] at hq
          split_ifs at hq with hqn hqp
          exact hkeep hqp hq
        · show _ ∧ ∃ code, ((w.continue p o).proc q).status = _ ∧
            Shape _ _ _ _ _ _ ((w.continue p o).proc q).fds
          split_ifs at hq with hqn hqp
          · obtain ⟨hfrom', code, hcode, hshape'⟩ := hchild part hq
            refine ⟨hfrom', code, ?_⟩
            rcases continue_next w o hpn with ⟨hnone, -⟩ | ⟨code', hc, -, hnew⟩
            · exact nomatch hnone.symm.trans hcode
            · cases hc.symm.trans hcode
              rw [hqn, hnew]
              exact ⟨rfl, hshape'⟩
          · obtain ⟨hfrom', code, hcode, hshape'⟩ := hself part hq
            refine ⟨hfrom', code, ?_⟩
            rw [hqp, continue_self w o hpn]
            obtain rfl := Option.some.inj hcode
            exact ⟨rfl, hshape'⟩
          · exact hkeep hqp hq

end Parted

section Run

variable [DecidableEq W] {fds : FdTable W} {w₀ w : World W} {tr₀ tr : List (World W × Act W)}

omit [DecidableEq W] in
theorem Sane.init (hopen : fds.Open) (hends : ∀ n d, fds.get n = some d → d.pipe? = none) :
    Sane (World.init fds) := by
  refine ⟨codeOk_init (.body (.ret (Or.inl rfl))) fds, fun q code hq => ?_⟩
  by_cases h0 : q = 0
  · subst h0
    cases hq
    exact ⟨hopen, fun n d id hn hd => (nomatch (hends n d hn).symm.trans hd), fun f hf => (nomatch hf)⟩
  · simp [World.init, h0] at hq

theorem run_sane (hopen : fds.Open) (hends : ∀ n d, fds.get n = some d → d.pipe? = none)
    (hrun : Run Step (World.init fds) tr w) : Sane w :=
  (hrun.invariant (Sane.init hopen hends) fun _ _ _ h hs => h.step (step_moves hs)).2

/-- The whole pipeline, from the call that runs it. -/
theorem run_parted {stages : List (List W)} {p : Nat} {k : List (Frame W)} {d e : Desc W}
    (hsane : Sane w₀) (hp : (w₀.proc p).status = .shell (.call (pipeline stages) :: k))
    (hpos : 0 < stages.length) (h0 : (w₀.proc p).fds.get 0 = some d)
    (h1 : (w₀.proc p).fds.get 1 = some e) (hrun : Run Step w₀ tr w) :
    Parted w₀.nextPipe d e stages (partsOf p tr) w := by
  have hknown := (hsane.able p _ hp).known
  have hold : ∀ {n x}, (w₀.proc p).fds.get n = some x → ¬ x.Since w₀.nextPipe := by
    rintro n x hn ⟨id, hid, hle⟩
    exact absurd (hknown n x id hn hid) (Nat.not_lt.2 hle)
  induction hrun with
  | nil =>
      refine ⟨hsane, Nat.le_refl _, fun q part hq => ?_⟩
      rw [partsOf, List.foldl_nil, Function.update_apply] at hq
      split_ifs at hq with hqp
      obtain rfl := Option.some.inj hq
      refine ⟨fun _ h => (nomatch h), _, hqp ▸ hp, ?_⟩
      have hholds : Holds w₀.nextPipe (stdinAfter d []) e ([] : List Nat).dropLast
          (w₀.proc p).fds := by
        refine ⟨h0, h1, fun x hx => ?_⟩
        constructor
        · rintro ⟨m, -, -, hm⟩
          exact absurd hx (hold hm)
        · rintro ⟨_, h, -⟩
          exact nomatch h
      exact hqp ▸ .call hpos hholds
  | snoc _ hs ih =>
      rw [partsOf, List.foldl_append]
      exact ih.step (hold h0) (hold h1) (step_moves hs)

/-- Standard input is the pipe before the stage and standard output the one after it, or what the
    pipeline has for them, and no other descriptor is an end of a pipe made since it began. -/
structure Placed (first : Nat) (t : FdTable W) (pipes : List Nat) (own : Option Nat)
    (fds : FdTable W) : Prop where
  stdin : fds.get 0 = match pipes.getLast? with
    | none => t.get 0
    | some id => some (.pipeRead id)
  stdout : fds.get 1 = match own with
    | none => t.get 1
    | some id => some (.pipeWrite id)
  others : ∀ m d, 2 ≤ m → fds.get m = some d → ¬ d.Since first

omit [DecidableEq W] in
theorem Holds.placed_iff {first : Nat} {d e : Desc W} {t : FdTable W} {pipes : List Nat}
    {own : Option Nat} (hd : t.get 0 = some d) (he : t.get 1 = some e)
    (hfrom : ∀ id ∈ pipes, first ≤ id)
    (h : Holds first (stdinAfter d pipes) (stdoutTo e own) pipes.dropLast fds) :
    Placed first t pipes own fds ↔ pipes.length ≤ 1 := by
  constructor
  · intro hplaced
    by_contra hlen
    have hne : pipes.dropLast ≠ [] := by
      rw [← List.length_pos_iff, List.length_dropLast]
      omega
    obtain ⟨id, hid⟩ := List.exists_mem_of_ne_nil _ hne
    have hsince : (Desc.pipeRead (W := W) id).Since first :=
      ⟨id, rfl, hfrom id (List.dropLast_subset _ hid)⟩
    obtain ⟨m, hm, -, hget⟩ := (h.strays _ hsince).2 ⟨id, hid, rfl⟩
    exact hplaced.others m _ hm hget hsince
  · intro hlen
    have hnil : pipes.dropLast = [] := by
      rw [← List.length_eq_zero_iff, List.length_dropLast]
      omega
    refine ⟨?_, ?_, fun m x hm hget hx => ?_⟩
    · rw [h.stdin, stdinAfter]
      cases pipes.getLast? with
      | none => exact hd.symm
      | some id => rfl
    · rw [h.stdout]
      cases own with
      | none => exact he.symm
      | some id => rfl
    · obtain ⟨id, hid, -⟩ := (h.strays x hx).1 ⟨m, hm, not_false, hget⟩
      rw [hnil] at hid
      exact nomatch hid

/-- **The descriptors of a pipeline.** When the stage after the pipes `pipes` calls `execvp`, its
    standard input and output are the ends of the neighbouring pipes and it holds no other end of a
    pipe, exactly if it is one of the first two stages. -/
theorem pipeline_stage_iff (hopen : fds.Open)
    (hends : ∀ n d, fds.get n = some d → d.pipe? = none) (hrun₀ : Run Step (World.init fds) tr₀ w₀)
    {stages : List (List W)} (hn : 2 ≤ stages.length) {p : Nat} {k : List (Frame W)}
    (hp : (w₀.proc p).status = .shell (.call (pipeline stages) :: k)) (hrun : Run Step w₀ tr w)
    {q : Nat} {pipes : List Nat} {own : Option Nat}
    (hq : partsOf p tr q = some (.stage pipes own)) :
    (∃ argv k', (w.proc q).status = .shell (.execvp argv :: k') ∧
      stages[pipes.length]? = some argv) ∧
    (own = none ↔ pipes.length + 1 = stages.length) ∧
    (Placed w₀.nextPipe (w₀.proc p).fds pipes own (w.proc q).fds ↔ pipes.length + 1 ≤ 2) := by
  have hsane := run_sane hopen hends hrun₀
  obtain ⟨hstd⟩ := hsane.able p _ hp
  obtain ⟨d, h0⟩ := Option.isSome_iff_exists.1 hstd.stdin
  obtain ⟨e, h1⟩ := Option.isSome_iff_exists.1 hstd.stdout
  have hparted := run_parted hsane hp (by omega) h0 h1 hrun
  obtain ⟨hfrom, code, hst, hshape⟩ := hparted.shape q _ hq
  generalize (w.proc q).fds = fds' at hshape ⊢
  cases hshape with
  | @stage _ _ argv k' _ hargv hown h =>
      refine ⟨⟨argv, k', hst, hargv⟩, hown, (h.placed_iff h0 h1 hfrom).trans ?_⟩
      omega

end Run

/-- The standard descriptors of the shell. -/
def shellFds : FdTable Word := [some (.outer 0), some (.outer 1), some (.outer 2)]

theorem shellFds_ends (n : Nat) (d : Desc Word) (h : shellFds.get n = some d) : d.pipe? = none := by
  match n with
  | 0 | 1 | 2 =>
      cases h
      rfl
  | n + 3 => exact nomatch h

/-- The words `a`, `b` and `c` of the line `a|b|c`. -/
def abc : List (List Word) := [[⟨0, ['a']⟩], [⟨2, ['b']⟩], [⟨4, ['c']⟩]]

/-- The third command of `a|b|c` is about to become its program, and its descriptor 6 is the read end
    of the first pipe. -/
theorem pipeline_third_stage :
    ∃ w₁ tr w, parsecmd "a|b|c".toList = .ok (pipeline abc) ∧
      Step (World.init shellFds) (.read 0 (pipeline abc)) w₁ ∧ Run Step w₁ tr w ∧
      partsOf 0 tr 5 = some (.stage [0, 1] none) ∧
      (w.proc 5).status = .shell [.execvp [⟨4, ['c']⟩], .exit 0, .exit 0] ∧
      (w.proc 5).fds.get 6 = some (.pipeRead 0) ∧
      ¬ Placed w₁.nextPipe (w₁.proc 0).fds [0, 1] none (w.proc 5).fds := by
  let w₁ := (World.init shellFds).setStatus 0 (.shell [.call (pipeline abc)])
  have hplay : ((play World.step w₁ [.run 0 true, .run 0 true, .run 2 true, .run 2 true, .run 2 true,
      .run 4 true, .run 4 true]).map fun r =>
        (partsOf 0 r.1 5, (r.2.proc 5).status, (r.2.proc 5).fds.get 6)) =
      some (some (.stage [0, 1] none), .shell [.execvp [⟨4, ['c']⟩], .exit 0, .exit 0],
        some (.pipeRead 0)) := by decide +kernel
  obtain ⟨⟨tr, w⟩, hplay, heq⟩ := Option.map_eq_some_iff.1 hplay
  obtain ⟨hpart, heq⟩ := Prod.mk.inj heq
  obtain ⟨hst, hget⟩ := Prod.mk.inj heq
  refine ⟨w₁, tr, w, by decide, rfl, (play_run hplay).1, hpart, hst, hget, fun hplaced => ?_⟩
  exact hplaced.others 6 _ (by decide) hget ⟨0, rfl, Nat.le_refl 0⟩

/-- The second command of `a|b` has the read end of the pipe and no other end. -/
theorem pipeline_stage_two :
    ∃ w₁ tr w, Step (World.init shellFds) (.read 0 (pipeline (abc.take 2))) w₁ ∧ Run Step w₁ tr w ∧
      partsOf 0 tr 3 = some (.stage [0] none) ∧
      Placed w₁.nextPipe (w₁.proc 0).fds [0] none (w.proc 3).fds := by
  let w₁ := (World.init shellFds).setStatus 0 (.shell [.call (pipeline (abc.take 2))])
  have hplay : ((play World.step w₁ [.run 0 true, .run 0 true, .run 2 true, .run 2 true]).map
      fun r => partsOf 0 r.1 3) = some (some (.stage [0] none)) := by decide +kernel
  obtain ⟨⟨tr, w⟩, hplay, hpart⟩ := Option.map_eq_some_iff.1 hplay
  have hread : Step (World.init shellFds) (.read 0 (pipeline (abc.take 2))) w₁ := rfl
  have hrun : Run Step w₁ tr w := (play_run hplay).1
  refine ⟨w₁, tr, w, hread, hrun, hpart, ?_⟩
  have hcall : (w₁.proc 0).status = .shell (.call (pipeline (abc.take 2)) :: []) := rfl
  exact (pipeline_stage_iff ⟨rfl, rfl⟩ shellFds_ends (Run.nil.snoc hread) (by decide) hcall hrun
    hpart).2.2.2 (by decide)

end Cs350.Shell
