import Cs350.Lib.ByteMemory

set_option autoImplicit false

/-! # `grep.c`

The buffer is memory, with the carry-over of an unfinished line from one `read` to the next. The
input is the list of what the calls of `read` return, so that a stream can arrive in any pieces. C
strings that are only looked at are lists of bytes without the terminating zero. -/

namespace Cs350.Grep

/-- `'\n'` -/
def newline : UInt8 := 10

/-- `sizeof(buf)` -/
def bufSize : Nat := 1024

/-! ## The matcher -/

/-- `matchstar(c, re, text)`, where `here` is `matchhere(re, ·)`. -/
def matchstar (here : List UInt8 → Bool) (c : UInt8) : List UInt8 → Bool
  | [] => here []
  | t :: text => here (t :: text) || ((t = c || c = '.'.toUInt8) && matchstar here c text)

/-- `matchhere(re, text)`: search for `re` at the beginning of `text`. -/
def matchhere : List UInt8 → List UInt8 → Bool
  | [], _ => true
  | [c], text =>
      if c = '$'.toUInt8 then text = []
      else
        match text with
        | [] => false
        | t :: text => (c = '.'.toUInt8 || c = t) && matchhere [] text
  | c :: d :: re, text =>
      if d = '*'.toUInt8 then matchstar (matchhere re) c text
      else
        match text with
        | [] => false
        | t :: text => (c = '.'.toUInt8 || c = t) && matchhere (d :: re) text

/-- The loop of `match`, which must look at the empty string too. -/
def matchLoop (re : List UInt8) : List UInt8 → Bool
  | [] => matchhere re []
  | t :: text => matchhere re (t :: text) || matchLoop re text

/-- `match(re, text)` -/
def matchText : List UInt8 → List UInt8 → Bool
  | [], text => matchLoop [] text
  | c :: re, text => if c = '^'.toUInt8 then matchhere re text else matchLoop (c :: re) text

/-! ## Memory -/

/-- `strchr(s, c)`, looking at `n` bytes at most. -/
def strchr (buf : Mem) (c : UInt8) : Nat → Nat → Option Nat
  | 0, _ => none
  | n + 1, s => if buf s = 0 then none else if buf s = c then some s else strchr buf c n (s + 1)

/-- The C string at `p`, looking at `n` bytes at most. -/
def cstr (buf : Mem) : Nat → Nat → List UInt8
  | 0, _ => []
  | n + 1, p => if buf p = 0 then [] else buf p :: cstr buf n (p + 1)

/-- The `n` bytes at `p`. -/
def bytes (buf : Mem) (p : Nat) : Nat → List UInt8
  | 0 => []
  | n + 1 => buf p :: bytes buf (p + 1) n

/-- Put bytes at `p`. -/
def put (buf : Mem) (p : Nat) : List UInt8 → Mem
  | [] => buf
  | c :: cs => put (Function.update buf p c) (p + 1) cs

/-! ## `grep` -/

/-- The inner loop, `n` rounds at most: the buffer, `p`, and what is written to the output. -/
def lineLoop (pattern : List UInt8) : Nat → Mem → Nat → Mem × Nat × List UInt8
  | 0, buf, p => (buf, p, [])
  | n + 1, buf, p =>
      match strchr buf newline bufSize p with
      | none => (buf, p, [])
      | some q =>
          let buf := Function.update buf q 0
          if matchText pattern (cstr buf bufSize p) then
            let buf := Function.update buf q newline
            let (buf', p', out) := lineLoop pattern n buf (q + 1)
            (buf', p', bytes buf p (q + 1 - p) ++ out)
          else
            lineLoop pattern n buf (q + 1)

/-- `buf` and `m` -/
structure Buffer where
  buf : Mem
  m : Nat

/-- The third argument of `read`. -/
def Buffer.request (b : Buffer) : Nat := bufSize - b.m - 1

/-- One round of the outer loop, for what `read` has put into the buffer. -/
def grepRound (pattern : List UInt8) (b : Buffer) (data : List UInt8) : Buffer × List UInt8 :=
  let buf := put b.buf b.m data
  let m := b.m + data.length
  let buf := Function.update buf m 0
  let (buf, p, out) := lineLoop pattern bufSize buf 0
  let m := if p = 0 then 0 else m
  if m > 0 then (⟨buf.copy 0 p (m - p), m - p⟩, out) else (⟨buf, m⟩, out)

/-- The outer loop. A `read` that returns nothing ends it. -/
def grepLoop (pattern : List UInt8) : Buffer → List (List UInt8) → List UInt8
  | _, [] => []
  | b, data :: reads =>
      if data = [] then []
      else
        let (b, out) := grepRound pattern b data
        out ++ grepLoop pattern b reads

/-- `grep(pattern, fd)`: what it writes, for the buffer as it is and what `read(fd, ..)` returns. -/
def grep (pattern : List UInt8) (buf : Mem) (reads : List (List UInt8)) : List UInt8 :=
  grepLoop pattern ⟨buf, 0⟩ reads

end Cs350.Grep
