import Cs350.Shell.Return

set_option autoImplicit false

/-! # The shell's own descriptors

What a command does to the descriptor table of the shell itself. EXEC, BACK and the left side of a
LIST run in children, so only the command at the right end of the LISTs matters. A REDIR saves
descriptors 0 and 1 in the parent, where nothing needs them, and does not close the copies. A PIPE
saves them in its children and restores them in the parent, from variables that are not set
there. -/

namespace Cs350.Shell

open Transition

variable {W : Type}

/-! ## Tables -/

namespace FdTable

/-- The same descriptors are open and refer to the same files. -/
def Same (t t' : FdTable W) : Prop := ∀ n, t.get n = t'.get n

/-- Descriptors 0 and 1 are open. -/
structure Open (t : FdTable W) : Prop where
  stdin : (t.get 0).isSome
  stdout : (t.get 1).isSome

theorem get_put (t : FdTable W) (n m : Nat) (d : Option (Desc W)) :
    (t.put n d).get m = if m = n then d else t.get m := by
  unfold put get
  by_cases hn : n < t.length
  · rw [if_pos hn, List.getElem?_set]
    by_cases hm : n = m
    · subst hm
      simp [hn]
    · rw [if_neg hm, if_neg (Ne.symm hm)]
  · rw [if_neg hn, List.getElem?_append, List.getElem?_append]
    simp only [List.length_append, List.length_replicate, List.getElem?_replicate]
    rcases Nat.lt_trichotomy m n with hlt | heq | hgt
    · rw [if_pos (by omega), if_neg (Nat.ne_of_lt hlt)]
      by_cases hm : m < t.length
      · rw [if_pos hm]
      · rw [if_neg hm, if_pos (by omega), List.getElem?_eq_none (by omega)]
        rfl
    · subst heq
      rw [if_neg (by omega), if_pos rfl, show m - (t.length + (m - t.length)) = 0 by omega]
      rfl
    · rw [if_neg (by omega), if_neg (Nat.ne_of_gt hgt), List.getElem?_eq_none (by simp; omega),
        List.getElem?_eq_none (by omega)]

theorem get_free (t : FdTable W) : t.get t.free = none := by
  unfold get free
  by_cases h : t.findIdx Option.isNone < t.length
  · have hnone := List.findIdx_getElem (w := h)
    rw [List.getElem?_eq_getElem h]
    simpa using hnone
  · rw [List.getElem?_eq_none (Nat.le_of_not_lt h)]
    rfl

theorem get_close (t : FdTable W) (n m : Nat) :
    (t.close n).get m = if m = n then none else t.get m := by
  unfold close get
  by_cases hn : n < t.length
  · rw [if_pos hn, List.getElem?_set]
    by_cases hm : n = m
    · subst hm
      simp [hn]
    · rw [if_neg hm, if_neg (Ne.symm hm)]
  · rw [if_neg hn]
    split_ifs with hm
    · rw [List.getElem?_eq_none (by omega)]
      rfl
    · rfl

/-- `dup2` with a descriptor that is open. -/
theorem get_dup2 {t : FdTable W} {a : Nat} {d : Desc W} (ha : t.get a = some d) (n m : Nat) :
    (t.dup2 a n).get m = if m = n then some d else t.get m := by
  have hdup : t.dup2 a n = t.put n (some d) := by
    simp only [dup2, ha]
  rw [hdup, get_put]

theorem get_dup2_of_ne (t : FdTable W) (x : Int) {n m : Nat} (h : m ≠ n) :
    (t.dup2 x n).get m = t.get m := by
  match x with
  | .negSucc _ => rfl
  | .ofNat a =>
      cases ha : t.get a with
      | none => simp only [dup2, ha]
      | some d =>
          show (t.dup2 (a : Int) n).get m = t.get m
          rw [get_dup2 ha, if_neg h]

/-- `x` is not an open descriptor, or refers to the same file as `n`: `dup2(x, n)` changes
    nothing. -/
def Harmless (t : FdTable W) (x : Int) (n : Nat) : Prop :=
  ∀ a : Nat, x = a → ∀ d, t.get a = some d → t.get n = some d

theorem dup2_same_iff (t : FdTable W) (x : Int) (n : Nat) :
    (t.dup2 x n).Same t ↔ t.Harmless x n := by
  constructor
  · rintro hsame a rfl d ha
    rw [← hsame n, get_dup2 ha, if_pos rfl]
  · intro h m
    by_cases hm : m = n
    · subst hm
      match x with
      | .negSucc _ => rfl
      | .ofNat a =>
          cases ha : t.get a with
          | none => simp only [dup2, ha]
          | some d =>
              show (t.dup2 (a : Int) m).get m = t.get m
              rw [get_dup2 ha, if_pos rfl, h a rfl d ha]
    · exact get_dup2_of_ne t x hm

theorem Harmless.congr {t t' : FdTable W} (h : t.Same t') {x : Int} {n : Nat}
    (hx : t'.Harmless x n) : t.Harmless x n := by
  intro a ha d hd
  rw [h] at hd ⊢
  exact hx a ha d hd

theorem Same.trans {t t' t'' : FdTable W} (h : t.Same t') (h' : t'.Same t'') : t.Same t'' :=
  fun n => (h n).trans (h' n)

theorem Same.symm {t t' : FdTable W} (h : t.Same t') : t'.Same t := fun n => (h n).symm

/-- The two calls that end a REDIR or a PIPE. -/
theorem restore_same_iff (t : FdTable W) (x y : Int) :
    ((t.dup2 x 0).dup2 y 1).Same t ↔ t.Harmless x 0 ∧ t.Harmless y 1 := by
  constructor
  · intro hsame
    have hx : t.Harmless x 0 := by
      rintro a rfl d ha
      rw [← hsame 0, get_dup2_of_ne _ y (by decide), get_dup2 ha, if_pos rfl]
    have hfirst := (dup2_same_iff t x 0).2 hx
    have hsecond : ((t.dup2 x 0).dup2 y 1).Same (t.dup2 x 0) := hsame.trans hfirst.symm
    exact ⟨hx, ((dup2_same_iff _ y 1).1 hsecond).congr hfirst.symm⟩
  · rintro ⟨hx, hy⟩
    have hfirst := (dup2_same_iff t x 0).2 hx
    exact ((dup2_same_iff _ y 1).2 (hy.congr hfirst)).trans hfirst

/-- What is open in `t` is open in `fds` and refers to the same files. -/
def Keeps (t fds : FdTable W) : Prop := ∀ n d, t.get n = some d → fds.get n = some d

theorem Same.keeps {t fds : FdTable W} (h : fds.Same t) : t.Keeps fds := by
  intro n d hn
  rw [h, hn]

theorem Keeps.trans {t t' t'' : FdTable W} (h : t.Keeps t') (h' : t'.Keeps t'') : t.Keeps t'' :=
  fun n d hn => h' n d (h n d hn)

theorem Keeps.isOpen {t fds : FdTable W} (h : t.Keeps fds) (ht : t.Open) : fds.Open := by
  obtain ⟨d, hd⟩ := Option.isSome_iff_exists.1 ht.stdin
  obtain ⟨e, he⟩ := Option.isSome_iff_exists.1 ht.stdout
  exact ⟨by rw [h 0 d hd]; rfl, by rw [h 1 e he]; rfl⟩

theorem keeps_put_free (t : FdTable W) (d : Option (Desc W)) : t.Keeps (t.put t.free d) := by
  intro n e hn
  rw [get_put, if_neg, hn]
  rintro rfl
  rw [get_free] at hn
  exact nomatch hn

theorem Open.dup2 {t : FdTable W} (h : t.Open) (x : Int) (n : Nat) : (t.dup2 x n).Open := by
  match x with
  | .negSucc _ => exact h
  | .ofNat a =>
      cases ha : t.get a with
      | none =>
          simp only [FdTable.dup2, ha]
          exact h
      | some d =>
          refine ⟨?_, ?_⟩
          · show ((t.dup2 (a : Int) n).get 0).isSome
            rw [get_dup2 ha]
            split_ifs
            · rfl
            · exact h.stdin
          · show ((t.dup2 (a : Int) n).get 1).isSome
            rw [get_dup2 ha]
            split_ifs
            · rfl
            · exact h.stdout

/-- A copy of an open descriptor, under the lowest number that is free. -/
theorem dup_eq {t : FdTable W} {n : Nat} {d : Desc W} (h : t.get n = some d) :
    t.dup n = ((t.free : Int), t.put t.free (some d)) := by
  simp only [dup, h, alloc]

/-- Closing both ends of a pipe undoes `pipe`. -/
theorem pipe_close_same {t fds : FdTable W} (h : fds.Same t) (id : Nat) :
    (((fds.pipe id).2.2.close (fds.pipe id).1).close (fds.pipe id).2.1).Same t := by
  intro n
  have hfree := fds.get_free
  have hfree' := (fds.put fds.free (some (.pipeRead id))).get_free
  rw [get_put] at hfree'
  simp only [pipe, alloc, get_close, get_put, ← h n]
  split_ifs with hw hr
  · split_ifs at hfree' with heq
    rw [hw, hfree']
  · rw [hr, hfree]
  · rfl

end FdTable

/-! ## One call of `execcmd` in the shell -/

open FdTable

/-- There is a descriptor more. -/
structure Leaked (t fds : FdTable W) : Prop where
  keeps : t.Keeps fds
  more : ∃ n, t.get n = none ∧ (fds.get n).isSome

theorem Leaked.not_same {t fds : FdTable W} (h : Leaked t fds) : ¬ fds.Same t := by
  intro hsame
  obtain ⟨n, hnone, hsome⟩ := h.more
  rw [hsame, hnone] at hsome
  exact nomatch hsome

/-- The parent of a REDIR has copies of descriptors 0 and 1. -/
structure Saved (t fds : FdTable W) (sStdin sStdout : Int) : Prop where
  leaked : Leaked t fds
  stdin : ∃ a : Nat, sStdin = a ∧ fds.get a = t.get 0
  stdout : ∃ a : Nat, sStdout = a ∧ fds.get a = t.get 1

theorem saved_of_dup {t fds : FdTable W} (ht : t.Open) (h : fds.Same t) :
    Saved t ((fds.dup 1).2.dup 0).2 ((fds.dup 1).2.dup 0).1 (fds.dup 1).1 := by
  obtain ⟨e, he⟩ := Option.isSome_iff_exists.1 ht.stdout
  obtain ⟨d, hd⟩ := Option.isSome_iff_exists.1 ht.stdin
  have hfree : t.get fds.free = none := by rw [← h, fds.get_free]
  have h1 : fds.dup 1 = ((fds.free : Int), fds.put fds.free (some e)) :=
    dup_eq (by rw [h, he])
  have hkeeps := fds.keeps_put_free (some e)
  have h0 : (fds.put fds.free (some e)).get 0 = some d := hkeeps 0 d (by rw [h, hd])
  have hcopy : (fds.put fds.free (some e)).get fds.free = some e := by rw [get_put, if_pos rfl]
  have hkeeps' := (fds.put fds.free (some e)).keeps_put_free (some d)
  rw [h1]
  simp only [dup_eq h0]
  refine ⟨⟨(h.keeps.trans hkeeps).trans hkeeps', fds.free, hfree, ?_⟩, ⟨_, rfl, ?_⟩, ⟨_, rfl, ?_⟩⟩
  · rw [hkeeps' _ e hcopy]
    rfl
  · rw [get_put, if_pos rfl, hd]
  · rw [hkeeps' _ e hcopy, he]

/-- The restoring calls of a REDIR change nothing: descriptors 0 and 1 were not changed. -/
theorem Saved.restore {t fds : FdTable W} {x y : Int} (h : Saved t fds x y) :
    ((fds.dup2 x 0).dup2 y 1).Same fds := by
  obtain ⟨a, rfl, ha⟩ := h.stdin
  obtain ⟨b, rfl, hb⟩ := h.stdout
  refine (restore_same_iff fds a b).2 ⟨?_, ?_⟩
  · rintro a' heq d hd
    obtain rfl := Int.ofNat.inj heq
    exact h.leaked.keeps 0 d (ha ▸ hd)
  · rintro b' heq d hd
    obtain rfl := Int.ofNat.inj heq
    exact h.leaked.keeps 1 d (hb ▸ hd)

def Cmd.IsRedir : Cmd W → Prop
  | .redir _ _ _ _ => True
  | _ => False

/-- The shell has called `execcmd` with descriptors `t`; its command ends in `l`, and it has `code`
    left to do, with descriptors `fds`. -/
inductive InCall (l : Cmd W) (t : FdTable W) : List (Frame W) → FdTable W → Prop
  | call {c : Cmd W} {fds : FdTable W} (hl : c.last = l) (hfds : fds.Same t) :
      InCall l t [.call c] fds
  | list {own : Nat} {right : Cmd W} {fds : FdTable W} (hl : right.last = l) (hfds : fds.Same t) :
      InCall l t [.waitOnce own, .call right] fds
  | exec {pid : Nat} {fds : FdTable W} (hl : ¬ l.IsRedir) (hfds : fds.Same t) :
      InCall l t [.waitFor pid] fds
  | redirWait {own : List Nat} {x y : Int} {fds : FdTable W} (hl : l.IsRedir)
      (hfds : Saved t fds x y) : InCall l t [.waitAll own, .redirEnd x y] fds
  | redirEnd {x y : Int} {fds : FdTable W} (hl : l.IsRedir) (hfds : Saved t fds x y) :
      InCall l t [.redirEnd x y] fds
  | pipeFork {right : Cmd W} {fd0 fd1 cpid : Nat} {fds : FdTable W} (hl : ¬ l.IsRedir)
      (hfds : ((fds.close fd0).close fd1).Same t) :
      InCall l t [.pipeFork right fd0 fd1 cpid] fds
  | pipeClose {fd0 fd1 : Nat} {own own' : List Nat} {fds : FdTable W} (hl : ¬ l.IsRedir)
      (hfds : ((fds.close fd0).close fd1).Same t) :
      InCall l t [.pipeClose fd0 fd1, .waitAll own, .waitAll own', .pipeEnd] fds
  | pipeWait {own own' : List Nat} {fds : FdTable W} (hl : ¬ l.IsRedir) (hfds : fds.Same t) :
      InCall l t [.waitAll own, .waitAll own', .pipeEnd] fds
  | pipeWait' {own : List Nat} {fds : FdTable W} (hl : ¬ l.IsRedir) (hfds : fds.Same t) :
      InCall l t [.waitAll own, .pipeEnd] fds
  | pipeEnd {fds : FdTable W} (hl : ¬ l.IsRedir) (hfds : fds.Same t) : InCall l t [.pipeEnd] fds

/-- The shell takes a step of its own. -/
inductive OwnStep (w : World W) : Act W → Status W → FdTable W → Prop
  | read {c : Cmd W} (hp : (w.proc 0).status = .shell []) :
      OwnStep w (.read 0 c) (.shell [.call c]) (w.proc 0).fds
  | next {ok : Bool} {f : Frame W} {k : List (Frame W)} {o : Outcome W}
      (hp : (w.proc 0).status = .shell (f :: k))
      (hr : runFrame f k (w.proc 0).fds w.next w.nextPipe ok = some (.next o)) :
      OwnStep w (.run 0 ok) (.shell o.code) o.fds
  | exec {ok : Bool} {f : Frame W} {k : List (Frame W)} {argv : List W}
      (hp : (w.proc 0).status = .shell (f :: k))
      (hr : runFrame f k (w.proc 0).fds w.next w.nextPipe ok = some (.exec argv)) :
      OwnStep w (.run 0 ok) (.program argv) (w.proc 0).fds
  | exit {ok : Bool} {f : Frame W} {k : List (Frame W)} {n : Int}
      (hp : (w.proc 0).status = .shell (f :: k))
      (hr : runFrame f k (w.proc 0).fds w.next w.nextPipe ok = some (.exit n)) :
      OwnStep w (.run 0 ok) (.zombie n) (w.proc 0).fds
  | restore {x y : Int} {k : List (Frame W)} (hp : (w.proc 0).status = .shell (.pipeEnd :: k)) :
      OwnStep w (.restore 0 x y) (.shell k) (((w.proc 0).fds.dup2 x 0).dup2 y 1)
  | wait {a : Act W} {f : Frame W} {k : List (Frame W)} (ha : ∀ x y, a ≠ .restore 0 x y)
      (hp : (w.proc 0).status = .shell (f :: k)) (hf : f.Waits) :
      OwnStep w a (.shell k) (w.proc 0).fds
  | finish {n : Int} {argv : List W} (hp : (w.proc 0).status = .program argv) :
      OwnStep w (.finish 0 n) (.zombie n) (w.proc 0).fds

/-- The shell has no parent, and its entry is taken. -/
structure Rooted (w : World W) : Prop where
  parent : (w.proc 0).parent = none
  next : 0 < w.next

theorem Rooted.init (fds : FdTable W) : Rooted (World.init fds) := ⟨rfl, Nat.one_pos⟩

theorem Rooted.setStatus {w : World W} (h : Rooted w) (p : Nat) (st : Status W) :
    Rooted (w.setStatus p st) := ⟨by rw [setStatus_parent, h.parent], h.next⟩

theorem Rooted.terminate {w : World W} (h : Rooted w) (p : Nat) (n : Int) :
    Rooted (w.terminate p n) := by
  refine ⟨?_, h.next⟩
  simp only [World.terminate]
  split_ifs with hp hparent
  · rw [← hp, h.parent]
  · rfl
  · exact h.parent

theorem Rooted.continue {w : World W} (h : Rooted w) (p : Nat) (o : Outcome W) :
    Rooted (w.continue p o) := by
  have hne : 0 ≠ w.next := Nat.ne_of_lt h.next
  constructor
  · by_cases hp : p = 0
    · subst hp
      rw [continue_self w o hne]
      exact h.parent
    · rw [continue_proc_of_ne w o (Ne.symm hp) hne, h.parent]
  · unfold World.continue
    cases o.child with
    | none => exact h.next
    | some code => exact Nat.succ_pos _

theorem setStatus_fds (w : World W) (p q : Nat) (st : Status W) :
    ((w.setStatus p st).proc q).fds = (w.proc q).fds := by
  by_cases hq : q = p
  · subst hq
    simp [World.setStatus]
  · rw [setStatus_proc_of_ne w st hq]

theorem terminate_fds (w : World W) (p q : Nat) (n : Int) :
    ((w.terminate p n).proc q).fds = (w.proc q).fds := by
  simp only [World.terminate]
  split_ifs with hq
  · rw [hq]
  · rfl
  · rfl

/-- The shell is not anybody's child, so that only its own steps change it. -/
theorem moves_zero {w w' : World W} {a : Act W} (h : Rooted w) (hm : Moves w a w') :
    Rooted w' ∧
      ((w'.proc 0).status = (w.proc 0).status ∧ (w'.proc 0).fds = (w.proc 0).fds ∧
          (∀ x y, a ≠ .restore 0 x y) ∨
        OwnStep w a (w'.proc 0).status (w'.proc 0).fds) := by
  have hchild : ∀ {p q}, w.Child p q → q ≠ 0 := by
    rintro p q hc rfl
    rw [World.Child, h.parent] at hc
    cases hc.1
  cases hm with
  | @read p c hp =>
      refine ⟨h.setStatus p _, ?_⟩
      rw [setStatus_fds]
      by_cases h0 : p = 0
      · subst h0
        rw [setStatus_status_self]
        exact Or.inr (.read hp)
      · rw [setStatus_proc_of_ne w _ (Ne.symm h0)]
        exact Or.inl ⟨rfl, rfl, fun _ _ ha => by cases ha⟩
  | @run p ok f k r hp hr =>
      by_cases h0 : p = 0
      · subst h0
        cases r with
        | next o =>
            refine ⟨h.continue 0 o, Or.inr ?_⟩
            simp only [World.apply, continue_self w o (Nat.ne_of_lt h.next)]
            exact .next hp hr
        | exec argv =>
            refine ⟨h.setStatus 0 _, Or.inr ?_⟩
            simp only [World.apply, setStatus_fds, setStatus_status_self]
            exact .exec hp hr
        | exit n =>
            refine ⟨h.terminate 0 n, Or.inr ?_⟩
            simp only [World.apply, terminate_fds, terminate_status_self]
            exact .exit hp hr
      · have hne := Ne.symm h0
        cases r with
        | next o =>
            refine ⟨h.continue p o, Or.inl ?_⟩
            rw [World.apply, continue_proc_of_ne w o hne (Nat.ne_of_lt h.next)]
            exact ⟨rfl, rfl, fun _ _ ha => by cases ha⟩
        | exec argv =>
            refine ⟨h.setStatus p _, Or.inl ?_⟩
            rw [World.apply, setStatus_proc_of_ne w _ hne]
            exact ⟨rfl, rfl, fun _ _ ha => by cases ha⟩
        | exit n =>
            refine ⟨h.terminate p n, Or.inl ?_⟩
            rw [World.apply, terminate_fds, terminate_status_of_ne w n hne]
            exact ⟨rfl, rfl, fun _ _ ha => by cases ha⟩
  | @restore p x y k hp =>
      refine ⟨h.continue p _, ?_⟩
      by_cases h0 : p = 0
      · subst h0
        rw [continue_self w _ (Nat.ne_of_lt h.next)]
        exact Or.inr (.restore hp)
      · rw [continue_proc_of_ne w _ (Ne.symm h0) (Nat.ne_of_lt h.next)]
        refine Or.inl ⟨rfl, rfl, fun x' y' ha => h0 ?_⟩
        cases ha
        rfl
  | @reapLast p q f k hc hterm hp hf =>
      refine ⟨(h.setStatus q _).setStatus p _, ?_⟩
      have hq := Ne.symm (hchild hc)
      rw [setStatus_fds, setStatus_fds]
      by_cases h0 : p = 0
      · subst h0
        rw [setStatus_status_self]
        refine Or.inr (.wait (fun _ _ ha => by cases ha) hp ?_)
        rcases hf with rfl | ⟨own, rfl⟩ <;> trivial
      · rw [setStatus_proc_of_ne _ _ (Ne.symm h0), setStatus_proc_of_ne w _ hq]
        exact Or.inl ⟨rfl, rfl, fun _ _ ha => by cases ha⟩
  | @reapOther p q f k hc hterm hp hf =>
      refine ⟨h.setStatus q _, Or.inl ?_⟩
      rw [setStatus_proc_of_ne w _ (Ne.symm (hchild hc))]
      exact ⟨rfl, rfl, fun _ _ ha => by cases ha⟩
  | @waitFails p f k hno hp hf =>
      refine ⟨h.setStatus p _, ?_⟩
      rw [setStatus_fds]
      by_cases h0 : p = 0
      · subst h0
        rw [setStatus_status_self]
        refine Or.inr (.wait (fun _ _ ha => by cases ha) hp ?_)
        rcases hf with ⟨own, rfl⟩ | ⟨own, rfl⟩ <;> trivial
      · rw [setStatus_proc_of_ne w _ (Ne.symm h0)]
        exact Or.inl ⟨rfl, rfl, fun _ _ ha => by cases ha⟩
  | @waitSpins p q k hno hp => exact ⟨h, Or.inl ⟨rfl, rfl, fun _ _ ha => by cases ha⟩⟩
  | @finish q n argv hq =>
      refine ⟨h.terminate q n, ?_⟩
      rw [terminate_fds]
      by_cases h0 : q = 0
      · subst h0
        rw [terminate_status_self]
        exact Or.inr (.finish hq)
      · rw [terminate_status_of_ne w n (Ne.symm h0)]
        exact Or.inl ⟨rfl, rfl, fun _ _ ha => by cases ha⟩

/-- If the step ends a PIPE, the variables it restores from do no harm. -/
def Spares (w : World W) (a : Act W) : Prop :=
  ∀ x y, a = .restore 0 x y →
    (w.proc 0).fds.Harmless x 0 ∧ (w.proc 0).fds.Harmless y 1

/-- The shell has returned to its read loop by this step. -/
structure Returned (l : Cmd W) (t : FdTable W) (w : World W) (a : Act W) (fds : FdTable W) :
    Prop where
  isOpen : fds.Open
  same : fds.Same t ↔ ¬ l.IsRedir ∧ Spares w a

theorem Returned.of_same {l : Cmd W} {t fds : FdTable W} {w : World W} {a : Act W} (ht : t.Open)
    (hl : ¬ l.IsRedir) (hfds : fds.Same t) (ha : ∀ x y, a ≠ .restore 0 x y) :
    Returned l t w a fds :=
  ⟨hfds.keeps.isOpen ht, fun _ => ⟨hl, fun x y h => absurd h (ha x y)⟩, fun _ => hfds⟩

/-- `execcmd` in the shell, up to its first `wait` or its return. -/
theorem InCall.execcmd {c : Cmd W} {t fds : FdTable W} (ht : t.Open) (hfds : fds.Same t)
    {pid pipeId : Nat} {ok : Bool} {o : Outcome W}
    (h : Shell.execcmd c [] fds pid pipeId ok = .next o) :
    InCall c.last t o.code o.fds ∨ o.code = [] ∧ ¬ c.last.IsRedir ∧ o.fds.Same t := by
  cases c with
  | exec argv =>
      simp only [Shell.execcmd] at h
      split_ifs at h
      · cases h
        exact Or.inr ⟨rfl, id, hfds⟩
      · cases h
        exact Or.inl (.exec id hfds)
  | redir cmd file mode fd =>
      cases h
      exact Or.inl (.redirWait trivial (saved_of_dup ht hfds))
  | list left right =>
      cases h
      exact Or.inl (.list rfl hfds)
  | pipe left right =>
      simp only [Shell.execcmd] at h
      split_ifs at h
      cases h
      exact Or.inl (.pipeFork id (pipe_close_same hfds _))
  | back cmd =>
      cases h
      exact Or.inr ⟨rfl, id, hfds⟩

theorem execcmd_ne_exec (c : Cmd W) (k : List (Frame W)) (fds : FdTable W) (pid pipeId : Nat)
    (ok : Bool) (argv : List W) : execcmd c k fds pid pipeId ok ≠ .exec argv := by
  intro h
  cases c with
  | exec argv' =>
      simp only [execcmd] at h
      split_ifs at h
  | pipe left right =>
      simp only [execcmd] at h
      split_ifs at h
  | _ => cases h

theorem spares_restore (w : World W) (x y : Int) :
    Spares w (.restore 0 x y) ↔ (w.proc 0).fds.Harmless x 0 ∧ (w.proc 0).fds.Harmless y 1 := by
  refine ⟨fun h => h x y rfl, fun h x' y' heq => ?_⟩
  cases heq
  exact h

theorem InCall.step {l : Cmd W} {t fds : FdTable W} (ht : t.Open) {w : World W} {a : Act W}
    {st : Status W} {code : List (Frame W)} (hcode : (w.proc 0).status = .shell code)
    (h : InCall l t code (w.proc 0).fds) (hs : OwnStep w a st fds) :
    (∃ code', st = .shell code' ∧ InCall l t code' fds ∧ ∀ x y, a ≠ .restore 0 x y) ∨
      (st = .shell [] ∧ Returned l t w a fds) ∨ ∃ n, st = .zombie n := by
  have hne : code ≠ [] := by
    intro hnil
    rw [hnil] at h
    exact nomatch h
  cases hs with
  | read hp =>
      rw [hp] at hcode
      exact absurd (Status.shell.inj hcode).symm hne
  | exit hp hr => exact Or.inr (Or.inr ⟨_, rfl⟩)
  | finish hp =>
      rw [hp] at hcode
      exact nomatch hcode
  | @exec ok f k argv hp hr =>
      rw [hp] at hcode
      rw [← Status.shell.inj hcode] at h
      cases h with
      | @call c _ hl hfds =>
          exact absurd (Option.some.inj hr) (execcmd_ne_exec c _ _ _ _ _ argv)
      | _ => exact nomatch hr
  | @wait _ f k ha hp hf =>
      rw [hp] at hcode
      rw [← Status.shell.inj hcode] at h
      cases h with
      | list hl hfds => exact Or.inl ⟨_, rfl, .call hl hfds, ha⟩
      | exec hl hfds => exact Or.inr (Or.inl ⟨rfl, .of_same ht hl hfds ha⟩)
      | redirWait hl hfds => exact Or.inl ⟨_, rfl, .redirEnd hl hfds, ha⟩
      | pipeWait hl hfds => exact Or.inl ⟨_, rfl, .pipeWait' hl hfds, ha⟩
      | pipeWait' hl hfds => exact Or.inl ⟨_, rfl, .pipeEnd hl hfds, ha⟩
      | _ => exact absurd hf id
  | @restore x y k hp =>
      rw [hp] at hcode
      rw [← Status.shell.inj hcode] at h
      cases h with
      | pipeEnd hl hfds =>
          refine Or.inr (Or.inl ⟨rfl, ((hfds.keeps.isOpen ht).dup2 x 0).dup2 y 1, ?_⟩)
          rw [spares_restore, ← restore_same_iff]
          exact ⟨fun hsame => ⟨hl, hsame.trans hfds.symm⟩, fun hk => hk.2.trans hfds⟩
  | @next ok f k o hp hr =>
      rw [hp] at hcode
      rw [← Status.shell.inj hcode] at h
      have ha : ∀ x y, Act.run (W := W) 0 ok ≠ .restore 0 x y := fun _ _ ha => nomatch ha
      cases h with
      | @call c _ hl hfds =>
          have hr := Option.some.inj hr
          subst hl
          rcases InCall.execcmd ht hfds hr with hin | ⟨hnil, hl, hsame⟩
          · exact Or.inl ⟨_, rfl, hin, ha⟩
          · exact Or.inr (Or.inl ⟨by rw [hnil], .of_same ht hl hsame ha⟩)
      | redirEnd hl hfds =>
          cases hr
          refine Or.inr (Or.inl ⟨rfl, ?_, ?_⟩)
          · exact hfds.restore.keeps.isOpen (hfds.leaked.keeps.isOpen ht)
          · refine ⟨fun hsame => absurd (hfds.restore.symm.trans hsame) hfds.leaked.not_same,
              fun hk => absurd hl hk.1⟩
      | pipeFork hl hfds =>
          cases hr
          exact Or.inl ⟨_, rfl, .pipeClose hl hfds, ha⟩
      | pipeClose hl hfds =>
          cases hr
          exact Or.inl ⟨_, rfl, .pipeWait hl hfds, ha⟩
      | _ => exact nomatch hr

/-! ## Whole runs -/

section Run

variable [DecidableEq W] {fds : FdTable W} {w w₁ w₂ : World W} {c : Cmd W}
  {tr tr₁ : List (World W × Act W)}

/-- The shell between two steps: in its read loop, in a call, or terminated. -/
inductive AtShell (w : World W) : Prop
  | idle (hst : (w.proc 0).status = .shell []) (hfds : (w.proc 0).fds.Open)
  | busy (l : Cmd W) (t : FdTable W) (code : List (Frame W)) (ht : t.Open)
      (hst : (w.proc 0).status = .shell code) (hin : InCall l t code (w.proc 0).fds)
  | gone (n : Int) (hst : (w.proc 0).status = .zombie n)

omit [DecidableEq W] in
theorem OwnStep.not_zombie {a : Act W} {st : Status W} {n : Int}
    (hst : (w.proc 0).status = .zombie n) (h : OwnStep w a st fds) : False := by
  cases h with
  | read hp => rw [hp] at hst; exact nomatch hst
  | next hp hr => rw [hp] at hst; exact nomatch hst
  | exec hp hr => rw [hp] at hst; exact nomatch hst
  | exit hp hr => rw [hp] at hst; exact nomatch hst
  | restore hp => rw [hp] at hst; exact nomatch hst
  | wait ha hp hf => rw [hp] at hst; exact nomatch hst
  | finish hp => rw [hp] at hst; exact nomatch hst

theorem AtShell.step {a : Act W} (h : AtShell w) (hroot : Rooted w) (hs : Step w a w₁) :
    AtShell w₁ := by
  rcases (moves_zero hroot (step_moves hs)).2 with ⟨hst', hfds', -⟩ | hown
  · cases h with
    | idle hst hfds => exact .idle (hst'.trans hst) (hfds' ▸ hfds)
    | busy l t code ht hst hin => exact .busy l t code ht (hst'.trans hst) (hfds' ▸ hin)
    | gone n hst => exact .gone n (hst'.trans hst)
  · cases h with
    | idle hst hfds =>
        generalize hst₁ : (w₁.proc 0).status = st at hown
        generalize hfds₁ : (w₁.proc 0).fds = fds₁ at hown
        cases hown with
        | @read c _ =>
            exact .busy c.last _ _ hfds hst₁ (hfds₁ ▸ .call rfl fun _ => rfl)
        | next hp _ | exec hp _ | exit hp _ | restore hp | wait _ hp _ | finish hp =>
            rw [hp] at hst
            exact nomatch hst
    | busy l t code ht hst hin =>
        rcases hin.step ht hst hown with ⟨code', hst', hin', -⟩ | ⟨hst', hret⟩ | ⟨n, hst'⟩
        · exact .busy l t code' ht hst' hin'
        · exact .idle hst' hret.isOpen
        · exact .gone n hst'
    | gone n hst => exact (hown.not_zombie hst).elim

theorem run_atShell (hopen : fds.Open) (hrun : Run Step (World.init fds) tr w) :
    Rooted w ∧ AtShell w := by
  induction hrun with
  | nil => exact ⟨Rooted.init fds, .idle rfl hopen⟩
  | snoc _ hs ih =>
      exact ⟨(moves_zero ih.1 (step_moves hs)).1, ih.2.step ih.1 hs⟩

/-- What the shell is at after part of a call that it has not returned from before. -/
theorem call_progress {l : Cmd W} {t : FdTable W} (ht : t.Open) (hroot : Rooted w₁)
    {code : List (Frame W)} (hst : (w₁.proc 0).status = .shell code)
    (hin : InCall l t code (w₁.proc 0).fds) (hrun : Run Step w₁ tr₁ w₂)
    (hbusy : ∀ x ∈ tr₁, (x.1.proc 0).status ≠ .shell []) :
    Rooted w₂ ∧
      ((∃ code', (w₂.proc 0).status = .shell code' ∧ InCall l t code' (w₂.proc 0).fds ∧
          ∀ x ∈ tr₁, Spares x.1 x.2) ∨
        ((w₂.proc 0).status = .shell [] ∧
          ((w₂.proc 0).fds.Same t ↔ ¬ l.IsRedir ∧ ∀ x ∈ tr₁, Spares x.1 x.2)) ∨
        ∃ n, (w₂.proc 0).status = .zombie n) := by
  induction hrun with
  | nil => exact ⟨hroot, Or.inl ⟨code, hst, hin, by simp⟩⟩
  | @snoc tr w w' a hrun hs ih =>
      have hsnoc : (∀ x ∈ tr ++ [(w, a)], Spares x.1 x.2) ↔
          (∀ x ∈ tr, Spares x.1 x.2) ∧ Spares w a := by
        simp [or_imp, forall_and]
      obtain ⟨hroot, hat⟩ := ih fun x hx => hbusy x (List.mem_append_left _ hx)
      obtain ⟨hroot', hmove⟩ := moves_zero hroot (step_moves hs)
      refine ⟨hroot', ?_⟩
      rcases hat with ⟨code', hst, hin, hspares⟩ | ⟨hst, -⟩ | ⟨n, hst⟩
      · rcases hmove with ⟨hst', hfds', ha⟩ | hown
        · refine Or.inl ⟨code', hst'.trans hst, hfds' ▸ hin, hsnoc.2 ⟨hspares, ?_⟩⟩
          exact fun x y h => absurd h (ha x y)
        · rcases hin.step ht hst hown with ⟨code'', hst', hin', ha⟩ | ⟨hst', hret⟩ | ⟨n, hst'⟩
          · refine Or.inl ⟨code'', hst', hin', hsnoc.2 ⟨hspares, ?_⟩⟩
            exact fun x y h => absurd h (ha x y)
          · refine Or.inr (Or.inl ⟨hst', ?_⟩)
            rw [hret.same, hsnoc]
            exact ⟨fun h => ⟨h.1, hspares, h.2⟩, fun h => ⟨h.1, h.2.2⟩⟩
          · exact Or.inr (Or.inr ⟨n, hst'⟩)
      · exact absurd hst (hbusy (w, a) (by simp))
      · rcases hmove with ⟨hst', -, -⟩ | hown
        · exact Or.inr (Or.inr ⟨n, hst'.trans hst⟩)
        · exact (hown.not_zombie hst).elim

/-- **The shell's descriptors.** A call of `execcmd` in the shell, after any commands, leaves the
    descriptor table as it was if and only if the command at the right end of its LISTs is not a
    REDIR and the unset variables that a PIPE restores from do no harm. -/
theorem shell_fds_iff (hopen : fds.Open) (hrun : Run Step (World.init fds) tr w)
    (hread : Step w (.read 0 c) w₁) (hcall : Run Step w₁ tr₁ w₂)
    (hbusy : ∀ x ∈ tr₁, (x.1.proc 0).status ≠ .shell [])
    (hret : (w₂.proc 0).status = .shell []) :
    (w₂.proc 0).fds.Same (w.proc 0).fds ↔
      ¬ c.last.IsRedir ∧ ∀ x ∈ tr₁, Spares x.1 x.2 := by
  obtain ⟨hroot, hat⟩ := run_atShell hopen hrun
  have hmoves := step_moves hread
  have hroot₁ := (moves_zero hroot hmoves).1
  cases hmoves with
  | read hp =>
      have ht : (w.proc 0).fds.Open := by
        cases hat with
        | idle _ hfds => exact hfds
        | busy l t code ht hst hin =>
            rw [hp] at hst
            cases hst
            exact nomatch hin
        | gone n hst =>
            rw [hp] at hst
            exact nomatch hst
      have hin : InCall c.last (w.proc 0).fds [.call c]
          ((w.setStatus 0 (.shell [.call c])).proc 0).fds :=
        .call rfl fun n => by rw [setStatus_fds]
      obtain ⟨-, hcase⟩ :=
        call_progress ht hroot₁ (setStatus_status_self w 0 _) hin hcall hbusy
      rcases hcase with ⟨code', hst, hin', -⟩ | ⟨-, hiff⟩ | ⟨n, hst⟩
      · rw [hret] at hst
        cases hst
        exact nomatch hin'
      · exact hiff
      · rw [hret] at hst
        exact nomatch hst

end Run

/-- The three standard descriptors. -/
def stdFds : FdTable Nat := [some (.outer 0), some (.outer 1), some (.outer 2)]

theorem stdFds_open : stdFds.Open := ⟨rfl, rfl⟩

/-- The steps of the pipe `7 | 8` after it has been read, with -1 in both unset variables. -/
def pipeSteps : List (Act Nat) :=
  [.run 0 true, .run 0 true, .run 0 true, .run 1 true, .run 1 true, .run 2 true, .run 2 true,
    .run 3 true, .run 4 true, .finish 3 0, .finish 4 0, .reap 1 3, .reap 2 4, .run 1 true,
    .run 2 true, .reap 0 1, .reap 0 2, .noChild 0, .noChild 0, .restore 0 (-1) (-1)]

theorem shell_fds_pipe :
    ∃ w₁ tr₁ w₂, Step (World.init stdFds) (.read 0 (.pipe (.exec [7]) (.exec [8]))) w₁ ∧
      Run Step w₁ tr₁ w₂ ∧ tr₁.map Prod.snd = pipeSteps ∧ (w₂.proc 0).status = .shell [] ∧
      (w₂.proc 0).fds.Same stdFds := by
  let w₁ := (World.init stdFds).setStatus 0 (.shell [.call (.pipe (.exec [7]) (.exec [8]))])
  have hplay : ((play World.step w₁ pipeSteps).map fun r =>
      (decide (∀ x ∈ r.1, (x.1.proc 0).status ≠ .shell []), (r.2.proc 0).status)) =
        some (true, .shell []) := by decide +kernel
  obtain ⟨⟨tr₁, w₂⟩, hplay, heq⟩ := Option.map_eq_some_iff.1 hplay
  obtain ⟨hbusy, hret⟩ := Prod.mk.inj heq
  obtain ⟨hcall, hlabels⟩ := play_run hplay
  have hread : Step (World.init stdFds) (.read 0 (.pipe (.exec [7]) (.exec [8]))) w₁ := rfl
  refine ⟨w₁, tr₁, w₂, hread, hcall, hlabels, hret, ?_⟩
  refine (shell_fds_iff stdFds_open Run.nil hread hcall (of_decide_eq_true hbusy) hret).2
    ⟨fun h => h, fun x hx a b hab => ?_⟩
  have hmem : x.2 ∈ tr₁.map Prod.snd := List.mem_map_of_mem hx
  rw [hlabels, hab] at hmem
  simp only [pipeSteps, List.mem_cons, reduceCtorEq, false_or, List.not_mem_nil, or_false,
    Act.restore.injEq, true_and] at hmem
  obtain ⟨rfl, rfl⟩ := hmem
  exact ⟨fun n hn => (nomatch hn), fun n hn => (nomatch hn)⟩

/-- The command `7 > 9` is run: both copies of the standard descriptors stay open. -/
theorem redir_leaks_descriptors :
    ∃ tr w, Run Step (World.init stdFds) tr w ∧
      tr.map Prod.snd =
        [.read 0 (.redir (.exec [7]) 9 .wronlyCreat 1), .run 0 true, .run 1 true, .run 1 true,
          .run 2 true, .finish 2 0, .reap 1 2, .run 1 true, .reap 0 1, .noChild 0, .run 0 true] ∧
      (w.proc 0).status = .shell [] ∧
      (w.proc 0).fds = stdFds ++ [some (.outer 1), some (.outer 0)] ∧
      ¬ (w.proc 0).fds.Same stdFds := by
  have hplay : (play World.step (World.init stdFds) [.read 0 (.redir (.exec [7]) 9 .wronlyCreat 1),
      .run 0 true, .run 1 true, .run 1 true, .run 2 true, .finish 2 0, .reap 1 2, .run 1 true,
      .reap 0 1, .noChild 0, .run 0 true]).map (fun r => ((r.2.proc 0).status, (r.2.proc 0).fds)) =
        some (.shell [], stdFds ++ [some (.outer 1), some (.outer 0)]) := by decide +kernel
  obtain ⟨⟨tr, w⟩, hplay, heq⟩ := Option.map_eq_some_iff.1 hplay
  obtain ⟨hst, hfds⟩ := Prod.mk.inj heq
  obtain ⟨hrun, hlabels⟩ := play_run hplay
  refine ⟨tr, w, hrun, hlabels, hst, hfds, fun hsame => ?_⟩
  have hthree := hsame 3
  rw [hfds] at hthree
  exact nomatch hthree

end Cs350.Shell
