import Cs350.Lib.Prog

set_option autoImplicit false

/-! # The same program with other marks

Which points of a program have to be marked depends on what is to be said about it. Two programs
agree if they do the same apart from the marks: they return the same results and leave the same
states, or stop with the same errors. The rules follow the program. -/

namespace Cs350.Prog

variable {ε ω ω' σ α β : Type}

/-- A program without marks, as a part of one with marks. -/
def unmarked (m : Prog ε Empty σ α) : Prog ε ω σ α := fun s => ([], (m s).2)

/-- The run of the rest, after a part without marks. -/
theorem bind_run {m : Prog ε ω σ α} {f : α → Prog ε ω σ β} {s s' : σ} {a : α}
    (h : m s = ([], .ok (a, s'))) : (m >>= f) s = f a s' := by
  show Prog.bind m f s = f a s'
  unfold Prog.bind
  rw [h]
  rfl

/-- What comes first may be replaced by what runs in the same way. -/
theorem bind_congr_run {m m' : Prog ε ω σ α} {f : α → Prog ε ω σ β} {s : σ} (h : m s = m' s) :
    (m >>= f) s = (m' >>= f) s := by
  show Prog.bind m f s = Prog.bind m' f s
  unfold Prog.bind
  rw [h]

/-- Rounds of a loop over a list that do nothing. -/
theorem each_skip {ι : Type} {f : ι → Prog ε ω σ Unit} {s : σ} {is js : List ι}
    (h : ∀ i ∈ is, f i s = ([], .ok ((), s))) : each f (is ++ js) s = each f js s := by
  induction is with
  | nil => rfl
  | cons i is ih =>
      show (f i >>= fun _ => each f (is ++ js)) s = _
      rw [bind_run (h i List.mem_cons_self), ih fun j hj => h j (List.mem_cons_of_mem i hj)]

/-- The marks of a part are among those of the whole. -/
theorem marks_bind (m : Prog ε ω σ α) (f : α → Prog ε ω σ β) (s : σ) {w : ω} (hw : w ∈ (m s).1) :
    w ∈ ((m >>= f) s).1 := by
  show w ∈ (Prog.bind m f s).1
  unfold Prog.bind
  cases hrun : m s with
  | mk ws r =>
      rw [hrun] at hw
      cases r with
      | error e => exact hw
      | ok p => exact List.mem_append_left _ hw

theorem unmarked_run {m : Prog ε Empty σ α} {s s' : σ} {a : α} (h : m s = ([], .ok (a, s'))) :
    (unmarked m : Prog ε ω σ α) s = ([], .ok (a, s')) := by
  unfold unmarked
  rw [h]

/-- The programs differ in their marks only. -/
def Agrees (m : Prog ε ω σ α) (m' : Prog ε ω' σ α) : Prop := ∀ s, (m s).2 = (m' s).2

namespace Agrees

theorem unmarked (m : Prog ε Empty σ α) : Agrees (Prog.unmarked m : Prog ε ω σ α) m := fun _ => rfl

theorem pure (a : α) : Agrees (Pure.pure a : Prog ε ω σ α) (Pure.pure a : Prog ε ω' σ α) :=
  fun _ => rfl

theorem get : Agrees (Prog.get : Prog ε ω σ σ) (Prog.get : Prog ε ω' σ σ) := fun _ => rfl

theorem modify (g : σ → σ) :
    Agrees (Prog.modify g : Prog ε ω σ Unit) (Prog.modify g : Prog ε ω' σ Unit) := fun _ => rfl

theorem stop (e : ε) : Agrees (Prog.stop e : Prog ε ω σ α) (Prog.stop e : Prog ε ω' σ α) :=
  fun _ => rfl

theorem bind {m : Prog ε ω σ α} {m' : Prog ε ω' σ α} {f : α → Prog ε ω σ β}
    {f' : α → Prog ε ω' σ β} (hm : Agrees m m') (hf : ∀ a, Agrees (f a) (f' a)) :
    Agrees (m >>= f) (m' >>= f') := by
  intro s
  show (Prog.bind m f s).2 = (Prog.bind m' f' s).2
  have hs := hm s
  unfold Prog.bind
  cases hrun : m s with
  | mk ws r =>
      cases hrun' : m' s with
      | mk ws' r' =>
          rw [hrun, hrun'] at hs
          obtain rfl : r = r' := hs
          cases r with
          | error e => rfl
          | ok p => exact hf p.1 p.2

/-- A mark more. -/
theorem mark_bind {g : σ → ω} {f : Unit → Prog ε ω σ β} {m' : Prog ε ω' σ β}
    (hf : Agrees (f ()) m') : Agrees (mark g >>= f) m' := hf

theorem ite {c : Prop} [Decidable c] {m n : Prog ε ω σ α} {m' n' : Prog ε ω' σ α}
    (hm : c → Agrees m m') (hn : ¬ c → Agrees n n') :
    Agrees (if c then m else n) (if c then m' else n') := by
  split_ifs with h
  · exact hm h
  · exact hn h

end Agrees

end Cs350.Prog
