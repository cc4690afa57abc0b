import Cs350.Shell.Exec

set_option autoImplicit false

/-! # The command line parser

`parser.c`: a recursive descent parser over a cursor `*ps` into the line. A `Cursor` is that pointer
as an offset together with the characters from there up to `es`; a byte stands as the character with
its code. The parser ends in a tree, in a PANIC, or in the `exit(0)` of the builtin command.

The loops and the recursion take a bound on the number of rounds, the length of the line plus one;
running out of it is a result of its own, which never occurs (see `Cs350.Shell.Grammar`). REDIR
nodes are built around an EXEC node whose `argv` is still being filled in, so `parseexec` carries
the redirections and the arguments separately and puts the node together at its end. The buffer is
not written to before `nulterminate` (see `Cs350.Shell.Nulterminate`). -/

namespace Cs350.Shell

/-- `whitespace`. -/
def whitespace : List Char := [' ', '\t', '\r', '\n', '\x0b']

/-- `symbols`. -/
def symbols : List Char := ['<', '|', '>', '&', ';']

/-- `MAXARGS`. -/
def maxArgs : Nat := 10

/-- `*ps`, with what is left of the line. -/
structure Cursor where
  pos : Nat
  rest : List Char
  deriving DecidableEq, Repr

/-- A word of the line: the pointer `q`, and the characters up to `eq`. -/
structure Word where
  q : Nat
  text : List Char
  deriving DecidableEq, Repr

/-- `eq`. -/
def Word.eq (w : Word) : Nat := w.q + w.text.length

/-- What `gettoken` returns: 0, the symbol (`+` for `>>`), or `a` with the word. -/
inductive Tok
  | eof | pipe | semi | amp | lt | gt | gtgt
  | word (w : Word)
  deriving DecidableEq, Repr

/-- `while(s < es && strchr(whitespace, *s)) s++`. -/
def Cursor.skip (s : Cursor) : Cursor :=
  ⟨s.pos + (s.rest.takeWhile (· ∈ whitespace)).length, s.rest.dropWhile (· ∈ whitespace)⟩

/-- `peek`: the cursor after the blanks, and whether the next character is one of `toks`. -/
def peek (ps : Cursor) (toks : List Char) : Cursor × Bool :=
  let s := ps.skip
  (s, match s.rest with
    | [] => false
    | c :: _ => decide (c ∈ toks))

/-- A character that belongs to a word. -/
def wordChar (c : Char) : Bool := c ∉ whitespace ∧ c ∉ symbols

/-- `gettoken`. -/
def gettoken (ps : Cursor) : Tok × Cursor :=
  let s := ps.skip
  match s.rest with
  | [] => (.eof, s)
  | '|' :: r => (.pipe, (Cursor.mk (s.pos + 1) r).skip)
  | ';' :: r => (.semi, (Cursor.mk (s.pos + 1) r).skip)
  | '&' :: r => (.amp, (Cursor.mk (s.pos + 1) r).skip)
  | '<' :: r => (.lt, (Cursor.mk (s.pos + 1) r).skip)
  | '>' :: r =>
    match r with
    | '>' :: r => (.gtgt, (Cursor.mk (s.pos + 2) r).skip)
    | r => (.gt, (Cursor.mk (s.pos + 1) r).skip)
  | c :: r =>
    let text := (c :: r).takeWhile wordChar
    (.word ⟨s.pos, text⟩, (Cursor.mk (s.pos + text.length) ((c :: r).dropWhile wordChar)).skip)

/-- How the parser stops without a tree. -/
inductive Stop
  | exit
  | panic (msg : String)
  | rounds
  deriving DecidableEq, Repr

/-- The arguments of `init_redircmd` besides the command. -/
structure Redir where
  file : Word
  mode : Mode
  fdToClose : Nat
  deriving DecidableEq, Repr

/-- `init_redircmd`. -/
def initRedircmd (cmd : Cmd Word) (r : Redir) : Cmd Word := .redir cmd r.file r.mode r.fdToClose

/-- An EXEC node with REDIR nodes around it, the last one outermost. -/
def execNode (argv : List Word) (redirs : List Redir) : Cmd Word :=
  redirs.foldl initRedircmd (.exec argv)

/-- The `switch(tok)` of `parseredirs`. -/
def redirOf (tok : Tok) (file : Word) : List Redir :=
  match tok with
  | .lt => [⟨file, .rdonly, 0⟩]
  | .gt => [⟨file, .wronlyCreat, 1⟩]
  | .gtgt => [⟨file, .wronlyCreat, 1⟩]
  | _ => []

/-- `parseredirs`: the redirections added to those there are. -/
def parseredirs : Nat → List Redir → Cursor → Except Stop (List Redir × Cursor)
  | 0, _, _ => .error .rounds
  | n + 1, redirs, ps =>
    let (ps, found) := peek ps ['<', '>']
    if found then
      let (tok, ps) := gettoken ps
      match gettoken ps with
      | (.word file, ps) => parseredirs n (redirs ++ redirOf tok file) ps
      | _ => .error (.panic "missing file for redirection\n")
    else .ok (redirs, ps)

/-- The loop of `parseexec`. -/
def parseexecLoop : Nat → List Word → List Redir → Cursor →
    Except Stop (List Word × List Redir × Cursor)
  | 0, _, _, _ => .error .rounds
  | n + 1, argv, redirs, ps =>
    let (ps, stop) := peek ps ['|', ')', '&', ';']
    if stop then .ok (argv, redirs, ps)
    else
      match gettoken ps with
      | (.eof, ps) => .ok (argv, redirs, ps)
      | (.word w, ps) =>
        if argv = [] ∧ w.text = ['e', 'x', 'i', 't'] then .error .exit
        else if (argv ++ [w]).length ≥ maxArgs then .error (.panic "too many args\n")
        else
          match parseredirs (n + 1) redirs ps with
          | .error e => .error e
          | .ok (redirs, ps) => parseexecLoop n (argv ++ [w]) redirs ps
      | _ => .error (.panic "syntax\n")

/-- `parseexec`. -/
def parseexec (n : Nat) (ps : Cursor) : Except Stop (Cmd Word × Cursor) :=
  match parseredirs n [] ps with
  | .error e => .error e
  | .ok (redirs, ps) =>
    match parseexecLoop n [] redirs ps with
    | .error e => .error e
    | .ok (argv, redirs, ps) => .ok (execNode argv redirs, ps)

/-- `parsepipe`. -/
def parsepipe : Nat → Cursor → Except Stop (Cmd Word × Cursor)
  | 0, _ => .error .rounds
  | n + 1, ps =>
    match parseexec (n + 1) ps with
    | .error e => .error e
    | .ok (cmd, ps) =>
      let (ps, found) := peek ps ['|']
      if found then
        let (_, ps) := gettoken ps
        match parsepipe n ps with
        | .error e => .error e
        | .ok (right, ps) => .ok (.pipe cmd right, ps)
      else .ok (cmd, ps)

/-- The loop of `parseline` over `&`. -/
def parsebacks : Nat → Cmd Word → Cursor → Except Stop (Cmd Word × Cursor)
  | 0, _, _ => .error .rounds
  | n + 1, cmd, ps =>
    let (ps, found) := peek ps ['&']
    if found then
      let (_, ps) := gettoken ps
      parsebacks n (.back cmd) ps
    else .ok (cmd, ps)

/-- `parseline`. -/
def parseline : Nat → Cursor → Except Stop (Cmd Word × Cursor)
  | 0, _ => .error .rounds
  | n + 1, ps =>
    match parsepipe (n + 1) ps with
    | .error e => .error e
    | .ok (cmd, ps) =>
      match parsebacks (n + 1) cmd ps with
      | .error e => .error e
      | .ok (cmd, ps) =>
        let (ps, found) := peek ps [';']
        if found then
          let (_, ps) := gettoken ps
          match parseline n ps with
          | .error e => .error e
          | .ok (right, ps) => .ok (.list cmd right, ps)
        else .ok (cmd, ps)

/-- `parsecmd` on the string in `buf`, which ends at the first NUL. -/
def parsecmd (buf : List Char) : Except Stop (Cmd Word) :=
  let s := buf.takeWhile (· ≠ '\x00')
  match parseline (s.length + 1) ⟨0, s⟩ with
  | .error e => .error e
  | .ok (cmd, ps) =>
    let (ps, _) := peek ps []
    if ps.rest ≠ [] then .error (.panic "syntax\n") else .ok cmd

end Cs350.Shell
