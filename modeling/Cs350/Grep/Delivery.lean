import Cs350.Grep.Defs
import Mathlib.Data.List.Basic

set_option autoImplicit false

/-! # How the input of `grep` is delivered

A round of the outer loop writes the lines of the buffer that match and carries over what comes
after the last newline. If there is no newline in the buffer, nothing is carried over: the
beginning of an unfinished line is lost. So `grep` is right exactly on the deliveries in which every
call of `read` returns a newline. -/

namespace Cs350.Grep

/-! ## Bytes in memory -/

/-- The bytes `cs` are at `p`. -/
def At (buf : Mem) : Nat → List UInt8 → Prop
  | _, [] => True
  | p, c :: cs => buf p = c ∧ At buf (p + 1) cs

section Memory

variable {buf buf' : Mem} {p q : Nat} {c : UInt8} {xs ys : List UInt8}

theorem At.append : At buf p (xs ++ ys) ↔ At buf p xs ∧ At buf (p + xs.length) ys := by
  induction xs generalizing p with
  | nil => simp [At]
  | cons x xs ih =>
      rw [List.cons_append, At, At, ih, and_assoc, List.length_cons, Nat.add_assoc,
        Nat.add_comm 1]

theorem At.congr (h : ∀ i, i < xs.length → buf' (q + i) = buf (p + i)) :
    At buf' q xs ↔ At buf p xs := by
  induction xs generalizing p q with
  | nil => exact Iff.rfl
  | cons x xs ih =>
      have hhead : buf' q = buf p := h 0 (by simp)
      have htail := ih (p := p + 1) (q := q + 1) fun i hi => by
        have := h (i + 1) (by simpa using hi)
        rwa [Nat.add_right_comm q 1 i, Nat.add_right_comm p 1 i]
      rw [At, At, hhead, htail]

/-- A write to another place. -/
theorem At.update (v : UInt8) (h : q < p ∨ p + xs.length ≤ q) :
    At (Function.update buf q v) p xs ↔ At buf p xs := by
  refine At.congr fun i hi => ?_
  exact Function.update_of_ne (by omega) ..

theorem put_of_lt (h : q < p) : put buf p xs q = buf q := by
  induction xs generalizing buf p with
  | nil => rfl
  | cons x xs ih =>
      rw [put, ih (by omega)]
      exact Function.update_of_ne (by omega) ..

theorem At.put (buf : Mem) (p : Nat) (xs : List UInt8) : At (put buf p xs) p xs := by
  induction xs generalizing buf p with
  | nil => trivial
  | cons x xs ih =>
      refine ⟨?_, ih ..⟩
      rw [Grep.put, put_of_lt (Nat.lt_succ_self p), Function.update_self]

theorem At.bytes (h : At buf p xs) : bytes buf p xs.length = xs := by
  induction xs generalizing p with
  | nil => rfl
  | cons x xs ih => rw [List.length_cons, Grep.bytes, h.1, ih h.2]

theorem At.strchr_some {n : Nat} (h : At buf p (xs ++ c :: ys)) (hc : c ∉ xs) (hzero : 0 ∉ xs)
    (hne : c ≠ 0) (hn : xs.length < n) : strchr buf c n p = some (p + xs.length) := by
  induction xs generalizing p n with
  | nil =>
      obtain ⟨n, rfl⟩ := Nat.exists_eq_add_of_lt hn
      have hp : buf p = c := h.1
      rw [strchr, hp, if_neg hne, if_pos rfl]
      rfl
  | cons x xs ih =>
      obtain ⟨n, rfl⟩ := Nat.exists_eq_add_of_lt (Nat.zero_lt_of_lt hn)
      rw [List.length_cons] at hn
      rw [List.mem_cons, not_or] at hc hzero
      have hp : buf p = x := h.1
      have hrest := ih (n := 0 + n) h.2 hc.2 hzero.2 (by omega)
      rw [strchr, hp, if_neg (Ne.symm hzero.1), if_neg (Ne.symm hc.1), hrest, List.length_cons,
        Nat.add_assoc, Nat.add_comm 1]

theorem At.strchr_none {n : Nat} (h : At buf p (xs ++ [0])) (hc : c ∉ xs) :
    strchr buf c n p = none := by
  induction xs generalizing p n with
  | nil =>
      have hp : buf p = 0 := h.1
      cases n with
      | zero => rfl
      | succ n => rw [strchr, hp, if_pos rfl]
  | cons x xs ih =>
      rw [List.mem_cons, not_or] at hc
      have hp : buf p = x := h.1
      cases n with
      | zero => rfl
      | succ n =>
          rw [strchr, hp, if_neg (Ne.symm hc.1), ih h.2 hc.2, ite_self]

theorem At.cstr {n : Nat} (h : At buf p (xs ++ [0])) (hzero : 0 ∉ xs) (hn : xs.length < n) :
    cstr buf n p = xs := by
  induction xs generalizing p n with
  | nil =>
      obtain ⟨n, rfl⟩ := Nat.exists_eq_add_of_lt hn
      rw [Grep.cstr, show buf p = 0 from h.1, if_pos rfl]
  | cons x xs ih =>
      obtain ⟨n, rfl⟩ := Nat.exists_eq_add_of_lt (Nat.zero_lt_of_lt hn)
      rw [List.length_cons] at hn
      rw [List.mem_cons, not_or] at hzero
      have hp : buf p = x := h.1
      rw [Grep.cstr, hp, if_neg (Ne.symm hzero.1), ih (n := 0 + n) h.2 hzero.2 (by omega)]

end Memory

/-! ## Lines -/

/-- The text of some lines. -/
def text (lines : List (List UInt8)) : List UInt8 := lines.flatMap (· ++ [newline])

/-- The bytes of a line, without its newline. -/
structure Line (l : List UInt8) : Prop where
  newline : newline ∉ l
  zero : 0 ∉ l

/-- The lines that match, which `grep` should write. -/
def selected (pattern : List UInt8) (lines : List (List UInt8)) : List UInt8 :=
  text (lines.filter (matchText pattern))

theorem text_cons (l : List UInt8) (ls : List (List UInt8)) :
    text (l :: ls) = l ++ newline :: text ls := by
  simp [text]

theorem text_append (ls ls' : List (List UInt8)) : text (ls ++ ls') = text ls ++ text ls' :=
  List.flatMap_append

theorem selected_append (pattern : List UInt8) (ls ls' : List (List UInt8)) :
    selected pattern (ls ++ ls') = selected pattern ls ++ selected pattern ls' := by
  rw [selected, List.filter_append, text_append]
  rfl

theorem selected_cons (pattern l : List UInt8) (ls : List (List UInt8)) :
    selected pattern (l :: ls) =
      (if matchText pattern l then l ++ [newline] else []) ++ selected pattern ls := by
  unfold selected
  by_cases h : matchText pattern l
  · simp [h, text]
  · simp [h]

theorem length_text_le {ls : List (List UInt8)} : ls.length ≤ (text ls).length := by
  induction ls with
  | nil => exact Nat.le_refl 0
  | cons l ls ih =>
      rw [text_cons, List.length_append, List.length_cons, List.length_cons]
      omega

/-- Every text is some lines and the beginning of the next one. -/
theorem exists_lines (t : List UInt8) : ∃ ls rest, t = text ls ++ rest ∧
    (∀ l ∈ ls, newline ∉ l) ∧ newline ∉ rest := by
  induction t with
  | nil => exact ⟨[], [], rfl, by simp, by simp⟩
  | cons c t ih =>
      obtain ⟨ls, rest, rfl, hls, hrest⟩ := ih
      by_cases hc : c = newline
      · subst hc
        refine ⟨[] :: ls, rest, by simp [text], ?_, hrest⟩
        simpa using hls
      · -- the byte belongs to the first line, or to the last one
        cases ls with
        | nil => exact ⟨[], c :: rest, rfl, by simp, by simp [hrest, Ne.symm hc]⟩
        | cons l ls =>
            refine ⟨(c :: l) :: ls, rest, by simp [text], ?_, hrest⟩
            rw [List.forall_mem_cons] at hls ⊢
            exact ⟨by simpa [Ne.symm hc] using hls.1, hls.2⟩

/-- Where a line ends. -/
theorem append_newline_inj {xs xs' ys ys' : List UInt8} (hxs : newline ∉ xs) (hxs' : newline ∉ xs')
    (h : xs ++ newline :: ys = xs' ++ newline :: ys') : xs = xs' ∧ ys = ys' := by
  induction xs generalizing xs' with
  | nil =>
      cases xs' with
      | nil => simpa using h
      | cons x' xs' =>
          rw [List.nil_append, List.cons_append, List.cons.injEq] at h
          simp [← h.1] at hxs'
  | cons x xs ih =>
      cases xs' with
      | nil =>
          rw [List.nil_append, List.cons_append, List.cons.injEq] at h
          simp [h.1] at hxs
      | cons x' xs' =>
          rw [List.mem_cons, not_or] at hxs hxs'
          rw [List.cons_append, List.cons_append, List.cons.injEq] at h
          obtain ⟨rfl, hys⟩ := ih hxs.2 hxs'.2 h.2
          exact ⟨by rw [h.1], hys⟩

/-- The lines of a text are the only ones. -/
theorem text_prefix {ls lines : List (List UInt8)} {t : List UInt8}
    (hls : ∀ l ∈ ls, newline ∉ l) (hlines : ∀ l ∈ lines, newline ∉ l)
    (h : text ls ++ t = text lines) : ∃ lines', lines = ls ++ lines' ∧ t = text lines' := by
  induction ls generalizing lines with
  | nil => exact ⟨lines, rfl, h⟩
  | cons l ls ih =>
      rw [text_cons, List.append_assoc, List.cons_append] at h
      cases lines with
      | nil => simp [text] at h
      | cons l' lines =>
          rw [text_cons] at h
          simp only [List.forall_mem_cons] at hls hlines
          obtain ⟨rfl, hrest⟩ := append_newline_inj hls.1 hlines.1 h
          obtain ⟨lines', rfl, ht⟩ := ih hls.2 hlines.2 hrest
          exact ⟨lines', rfl, ht⟩

/-! ## One round -/

/-- The lines of the buffer are written if they match, and `p` is at what comes after them. -/
theorem lineLoop_spec (pattern : List UInt8) {rest : List UInt8} (hrest : newline ∉ rest)
    {ls : List (List UInt8)} {n : Nat} {buf : Mem} {p : Nat}
    (h : At buf p (text ls ++ (rest ++ [0]))) (hls : ∀ l ∈ ls, Line l) (hn : ls.length ≤ n)
    (hroom : (text ls).length < bufSize) :
    ∃ buf', lineLoop pattern n buf p = (buf', p + (text ls).length, selected pattern ls) ∧
      At buf' (p + (text ls).length) (rest ++ [0]) := by
  induction ls generalizing n buf p with
  | nil =>
      refine ⟨buf, ?_, h⟩
      cases n with
      | zero => rfl
      | succ n =>
          rw [lineLoop, At.strchr_none h hrest]
          rfl
  | cons l ls ih =>
      simp only [List.forall_mem_cons] at hls
      obtain ⟨hl, hls⟩ := hls
      rw [text_cons, List.length_append, List.length_cons] at hroom
      rw [text_cons, List.append_assoc, List.cons_append] at h
      obtain ⟨hline, hnl, htail⟩ := At.append.1 h
      have hq : strchr buf newline bufSize p = some (p + l.length) :=
        h.strchr_some hl.newline hl.zero (by decide) (by omega)
      obtain ⟨n, rfl⟩ : ∃ m, n = m + 1 := Nat.exists_eq_add_one_of_ne_zero (by
        rw [List.length_cons] at hn
        omega)
      -- the line is looked at as a string
      have hstr : At (Function.update buf (p + l.length) 0) p (l ++ [0]) :=
        At.append.2 ⟨(At.update 0 (Or.inr (Nat.le_refl _))).2 hline, Function.update_self .., trivial⟩
      rw [lineLoop, hq, selected_cons, text_cons, List.length_append, List.length_cons]
      dsimp only
      rw [hstr.cstr hl.zero (by omega)]
      have hpos : p + l.length + 1 + (text ls).length = p + (l.length + ((text ls).length + 1)) := by
        omega
      split_ifs with hm
      · have hout : At (Function.update (Function.update buf (p + l.length) 0) (p + l.length) newline)
            p (l ++ [newline]) :=
          At.append.2 ⟨(At.update _ (Or.inr (Nat.le_refl _))).2 (At.append.1 hstr).1,
            Function.update_self .., trivial⟩
        have hafter := (At.update newline (Or.inl (Nat.lt_succ_self _))).2
          ((At.update 0 (Or.inl (Nat.lt_succ_self _))).2 htail)
        obtain ⟨buf', hloop, hat⟩ := ih hafter hls (Nat.le_of_succ_le_succ hn) (by omega)
        have hbytes := hout.bytes
        rw [List.length_append, List.length_singleton] at hbytes
        rw [hpos] at hloop hat
        refine ⟨buf', ?_, hat⟩
        rw [hloop, show p + l.length + 1 - p = l.length + 1 by omega, hbytes]
      · have hafter := (At.update 0 (Or.inl (Nat.lt_succ_self _))).2 htail
        obtain ⟨buf', hloop, hat⟩ := ih hafter hls (Nat.le_of_succ_le_succ hn) (by omega)
        rw [hpos] at hloop hat
        exact ⟨buf', by rw [hloop, List.nil_append], hat⟩

/-- The unfinished line that is carried over is `carry`. -/
structure Buffer.Holds (b : Buffer) (carry : List UInt8) : Prop where
  m : b.m = carry.length
  bytes : At b.buf 0 carry

theorem grepRound_spec (pattern : List UInt8) {b : Buffer} {carry data rest : List UInt8}
    {ls : List (List UInt8)} (h : b.Holds carry) (hroom : data.length ≤ b.request)
    (hpos : data ≠ []) (heq : carry ++ data = text ls ++ rest) (hls : ∀ l ∈ ls, Line l)
    (hrest : newline ∉ rest) :
    (grepRound pattern b data).2 = selected pattern ls ∧
      (grepRound pattern b data).1.Holds (if ls = [] then [] else rest) := by
  obtain ⟨buf, m⟩ := b
  obtain ⟨rfl, hcarry⟩ := h
  have hlen : 0 < data.length := List.length_pos_iff.2 hpos
  have hlens := congrArg List.length heq
  rw [List.length_append, List.length_append] at hlens
  have hreq : data.length ≤ bufSize - carry.length - 1 := hroom
  -- what the inner loop sees
  have hat : At (Function.update (put buf carry.length data) (carry.length + data.length) 0) 0
      (text ls ++ (rest ++ [0])) := by
    rw [← List.append_assoc, ← heq]
    refine At.append.2 ⟨(At.update _ (Or.inr (by simp))).2 (At.append.2 ⟨?_, ?_⟩), ?_, trivial⟩
    · exact (At.congr fun i hi => by rw [put_of_lt (by simpa using hi)]).2 hcarry
    · rw [Nat.zero_add]
      exact At.put ..
    · rw [List.length_append, Nat.zero_add, Function.update_self]
  have hrounds : ls.length ≤ bufSize := Nat.le_trans length_text_le (by omega)
  obtain ⟨buf', hloop, hafter⟩ := lineLoop_spec pattern hrest hat hls hrounds (by omega)
  rw [Nat.zero_add] at hloop hafter
  unfold grepRound
  dsimp only
  rw [hloop]
  dsimp only
  cases ls with
  | nil => exact ⟨rfl, rfl, trivial⟩
  | cons l ls =>
      have hp : (text (l :: ls)).length ≠ 0 := by
        rw [text_cons, List.length_append, List.length_cons]
        omega
      rw [if_neg hp, if_pos (by omega), if_neg (List.cons_ne_nil l ls)]
      refine ⟨rfl, ?_, ?_⟩
      · show carry.length + data.length - _ = _
        omega
      · refine (At.congr fun i hi => ?_).2 (At.append.1 hafter).1
        show Mem.copy _ _ _ _ _ = _
        rw [Mem.copy, if_pos (by omega), Nat.zero_add, Nat.sub_zero]

/-! ## All rounds -/

/-- The calls of `read` return something, and no more than they are asked for. -/
def Served (pattern : List UInt8) : Buffer → List (List UInt8) → Prop
  | _, [] => True
  | b, data :: reads =>
      (data ≠ [] ∧ data.length ≤ b.request) ∧ Served pattern (grepRound pattern b data).1 reads

/-- With a newline in every piece, all matching lines are written. -/
theorem grepLoop_selected (pattern : List UInt8) {b : Buffer} {carry : List UInt8}
    {reads lines : List (List UInt8)} (h : b.Holds carry) (hcarry : newline ∉ carry)
    (hserved : Served pattern b reads) (heq : carry ++ reads.flatten = text lines)
    (hlines : ∀ l ∈ lines, Line l) (hnl : ∀ data ∈ reads, newline ∈ data) :
    grepLoop pattern b reads = selected pattern lines := by
  induction reads generalizing b carry lines with
  | nil =>
      cases lines with
      | nil => rfl
      | cons l lines =>
          rw [List.flatten_nil, List.append_nil, text_cons] at heq
          simp [heq] at hcarry
  | cons data reads ih =>
      obtain ⟨⟨hpos, hroom⟩, hserved⟩ := hserved
      rw [List.forall_mem_cons] at hnl
      obtain ⟨ls, rest, hsplit, hls, hrest⟩ := exists_lines (carry ++ data)
      -- the lines of the buffer are the first ones of the text
      rw [List.flatten_cons, ← List.append_assoc, hsplit, List.append_assoc] at heq
      obtain ⟨lines, rfl, htext⟩ := text_prefix hls (fun l hl => (hlines l hl).newline) heq
      rw [List.forall_mem_append] at hlines
      obtain ⟨hout, hholds⟩ := grepRound_spec pattern h hroom hpos hsplit hlines.1 hrest
      have hne : ls ≠ [] := by
        rintro rfl
        have hmem : newline ∈ carry ++ data := List.mem_append.2 (Or.inr hnl.1)
        rw [hsplit] at hmem
        exact hrest hmem
      rw [if_neg hne] at hholds
      rw [grepLoop, if_neg hpos, selected_append]
      dsimp only
      rw [hout, ih hholds hrest hserved htext hlines.2 hnl.2]

/-- The empty pattern matches every line. -/
theorem selected_nil (lines : List (List UInt8)) : selected [] lines = text lines := by
  have hall : ∀ l : List UInt8, matchText [] l = true := fun l => by
    cases l <;> rfl
  rw [selected, List.filter_eq_self.2 fun l _ => hall l]

/-- With the empty pattern, nothing is written of what a piece without a newline has added. -/
theorem length_grepLoop_le {b : Buffer} {carry : List UInt8} {reads : List (List UInt8)}
    (h : b.Holds carry) (hcarry : newline ∉ carry) (hserved : Served [] b reads)
    (hzero : 0 ∉ carry ++ reads.flatten) :
    (grepLoop [] b reads).length + (reads.countP fun data => newline ∉ data) ≤
      carry.length + reads.flatten.length := by
  induction reads generalizing b carry with
  | nil => simp [grepLoop]
  | cons data reads ih =>
      obtain ⟨⟨hpos, hroom⟩, hserved⟩ := hserved
      have hlen : 0 < data.length := List.length_pos_iff.2 hpos
      obtain ⟨ls, rest, hsplit, hls, hrest⟩ := exists_lines (carry ++ data)
      rw [List.flatten_cons, ← List.append_assoc, hsplit, List.mem_append, List.mem_append,
        not_or, not_or] at hzero
      have hlines : ∀ l ∈ ls, Line l := fun l hl => ⟨hls l hl, fun hmem =>
        hzero.1.1 (List.mem_flatMap.2 ⟨l, hl, List.mem_append.2 (Or.inl hmem)⟩)⟩
      obtain ⟨hout, hholds⟩ := grepRound_spec [] h hroom hpos hsplit hlines hrest
      have hlens := congrArg List.length hsplit
      rw [List.length_append, List.length_append] at hlens
      rw [grepLoop, if_neg hpos, List.flatten_cons, List.length_append, List.countP_cons]
      rw [hout, selected_nil, List.length_append]
      by_cases hnil : ls = []
      · rw [if_pos hnil] at hholds
        -- the round drops what has been read: the bytes of `data` are counted on the right only
        have hrec := ih hholds (by simp) hserved (by simpa using hzero.2)
        rw [hnil, List.length_nil] at *
        simp only [text, List.flatMap_nil, List.length_nil] at hlens ⊢
        split_ifs <;> omega
      · rw [if_neg hnil] at hholds
        have hrec := ih hholds hrest hserved (by simp [hzero.1.2, hzero.2])
        have hmem : newline ∈ data := by
          have hin : newline ∈ carry ++ data := by
            obtain ⟨l, ls, rfl⟩ := List.exists_cons_of_ne_nil hnil
            rw [hsplit, text_cons]
            simp
          exact (List.mem_append.1 hin).resolve_left hcarry
        rw [if_neg (by simpa using hmem)]
        omega

/-- **When `grep` is right**: for a text that is delivered in pieces, `grep` writes the lines that
    match, whatever the pattern, if and only if there is a newline in every piece. -/
theorem grep_selected_iff (buf : Mem) {reads lines : List (List UInt8)}
    (hserved : ∀ pattern, Served pattern ⟨buf, 0⟩ reads) (heq : reads.flatten = text lines)
    (hlines : ∀ l ∈ lines, Line l) :
    (∀ pattern, grep pattern buf reads = selected pattern lines) ↔
      ∀ data ∈ reads, newline ∈ data := by
  have hholds : Buffer.Holds ⟨buf, 0⟩ [] := ⟨rfl, trivial⟩
  constructor
  · intro hright
    have hzero : (0 : UInt8) ∉ [] ++ reads.flatten := by
      rw [List.nil_append, heq]
      intro hmem
      obtain ⟨l, hl, hmem⟩ := List.mem_flatMap.1 hmem
      rcases List.mem_append.1 hmem with hmem | hmem
      · exact (hlines l hl).zero hmem
      · simp [newline] at hmem
    have hlen := length_grepLoop_le hholds (by simp) (hserved []) hzero
    have hall := hright []
    unfold grep at hall
    rw [hall, selected_nil, ← heq, List.length_nil] at hlen
    have hcount : (reads.countP fun data => newline ∉ data) = 0 := by omega
    simpa using List.countP_eq_zero.1 hcount
  · intro hnl pattern
    exact grepLoop_selected pattern hholds (by simp) (hserved pattern) heq hlines hnl

/-- The lines "ab" and "ca": the first byte of the second one comes with the first line, and is
    carried over. -/
theorem grep_selected_carried : grep [97] (fun _ => 0) [[97, 98, 10, 99], [97, 10]] =
    selected [97] [[97, 98], [99, 97]] := by
  have hlines : ∀ l ∈ [[97, 98], [99, 97]], Line l := by
    intro l hl
    rcases List.mem_pair.1 hl with rfl | rfl <;> exact ⟨by decide, by decide⟩
  have hserved : ∀ pattern, Served pattern ⟨fun _ => 0, 0⟩ [[97, 98, 10, 99], [97, 10]] := by
    intro pattern
    refine ⟨⟨by decide, by decide⟩, ⟨by decide, ?_⟩, trivial⟩
    have hempty : Buffer.Holds ⟨fun _ => 0, 0⟩ [] := ⟨rfl, trivial⟩
    have hsplit : [] ++ [97, 98, 10, 99] = text [[97, 98]] ++ [99] := rfl
    have hround := grepRound_spec pattern hempty (by decide) (by decide) hsplit
      (List.forall_mem_singleton.2 ⟨by decide, by decide⟩) (by decide)
    rw [Buffer.request, hround.2.m]
    decide
  exact (grep_selected_iff _ hserved rfl hlines).2 (by decide) [97]

/-- The line "ab" in two pieces: `grep` looks for "a" in "b". -/
theorem grep_loses_line :
    (∀ pattern, Served pattern ⟨fun _ => 0, 0⟩ [[97], [98, 10]]) ∧
      [[97], [98, 10]].flatten = text [[97, 98]] ∧ Line [97, 98] ∧
      matchText [97] [97, 98] = true ∧ grep [97] (fun _ => 0) [[97], [98, 10]] = [] := by
  refine ⟨fun pattern => ⟨⟨by decide, by decide⟩, ⟨by decide, ?_⟩, trivial⟩, rfl,
    ⟨by decide, by decide⟩, by decide, by decide +kernel⟩
  -- nothing is carried over from the first piece
  have hempty : Buffer.Holds ⟨fun _ => 0, 0⟩ [] := ⟨rfl, trivial⟩
  have hsplit : [] ++ [97] = text [] ++ [97] := rfl
  have hround := grepRound_spec pattern hempty (by decide) (by decide) hsplit (by simp) (by decide)
  rw [Buffer.request, hround.2.m]
  decide

end Cs350.Grep
