import Cs350.Bcache.Defs

set_option autoImplicit false

/-! # The list of buffers

At any time the list through `bcache.head` is a list of all buffers. Those that nobody uses are in
the order of their last release, the latest first, so that the second loop of `bget` finds the one
that was released first. Two buffers never stand for the same block, because `bget` looks through all
of them before it gives a buffer a new block. -/

namespace Cs350.Bcache

open LinkedRing (Links scan Ring)
open Transition

variable {π β : Type}

/-! ## The list -/

theorem ring_binit : Ring binit (List.finRange nbuf).reverse := by
  have hfold : ∀ (bs l : List Buf) (k : Links Buf), Ring k l → bs.Nodup → (∀ b ∈ bs, b ∉ l) →
      Ring (bs.foldl Links.pushFront k) (bs.reverse ++ l) := by
    intro bs
    induction bs with
    | nil => exact fun l k h _ _ => h
    | cons b bs ih =>
        intro l k h hnd hbl
        obtain ⟨hb, hnd'⟩ := List.nodup_cons.1 hnd
        have hrest := ih (b :: l) (k.pushFront b) (h.pushFront (hbl b List.mem_cons_self)) hnd'
          fun c hc hmem => by
            rcases List.mem_cons.1 hmem with rfl | hmem
            · exact hb hc
            · exact hbl c (List.mem_cons_of_mem b hc) hmem
        rw [List.reverse_cons, List.append_assoc]
        exact hrest
  have h := hfold (List.finRange nbuf) [] ⟨fun _ => none, fun _ => none⟩ (Ring.nil rfl rfl)
    (List.nodup_finRange _) fun _ _ => List.not_mem_nil
  rwa [List.append_nil] at h

theorem length_le {l : List Buf} (h : l.Nodup) : l.length ≤ nbuf := by
  have hle := h.length_le_card
  rwa [Fintype.card_fin] at hle

/-! ## The times of the releases -/

/-- The event is the end of a release of the buffer. -/
def Releases (b : Buf) : Event π β → Bool
  | .brelse u => u.buf = b
  | _ => false

/-- The buffer that `bget` returns. -/
def State.got (s : State π β) (dev blockno : Nat) : Option Buf :=
  (s.cached dev blockno).or s.unused

/-- The event is a call of `bget` that returns the buffer. -/
def Gets (b : Buf) (s : State π β) : Event π β → Bool
  | .bget _ dev blockno => s.got dev blockno = some b
  | _ => false

/-- The time of the last release of the buffer, counted in steps from 1 on; 0 if there was none. -/
def released (tr : List (State π β × Event π β)) (b : Buf) : Nat :=
  tr.length - tr.reverse.findIdx fun x => Releases b x.2

/-- The event as a change of these times. -/
def tick (time : Buf → Nat) (now : Nat) (e : Event π β) (b : Buf) : Nat :=
  if Releases b e then now else time b

theorem tick_brelse (time : Buf → Nat) (now : Nat) (u : Use π) :
    tick time now (.brelse u : Event π β) = Function.update time u.buf now := by
  funext b
  by_cases hb : b = u.buf
  · rw [hb, Function.update_self]
    exact if_pos (decide_eq_true rfl)
  · rw [Function.update_of_ne hb]
    exact if_neg (by simpa [Releases] using Ne.symm hb)

/-- The times after a step. -/
theorem released_snoc (tr : List (State π β × Event π β)) (x : State π β × Event π β) :
    released (tr ++ [x]) = tick (released tr) (tr.length + 1) x.2 := by
  funext b
  unfold released tick
  rw [List.reverse_append, List.reverse_singleton, List.singleton_append, List.findIdx_cons,
    List.length_append, List.length_singleton]
  cases Releases b x.2 with
  | true => rfl
  | false =>
      rw [cond_false, if_neg Bool.false_ne_true]
      exact Nat.add_sub_add_right ..

theorem released_le (tr : List (State π β × Event π β)) (b : Buf) : released tr b ≤ tr.length :=
  Nat.sub_le ..

/-! ## The invariant -/

/-- `l` is the list from the head on, and `time` says when each buffer was released last. -/
structure Inv (time : Buf → Nat) (l : List Buf) (s : State π β) : Prop where
  ring : Ring s.links l
  all : ∀ b, b ∈ l
  order : l.Pairwise fun a b => s.refcnt a = 0 → s.refcnt b = 0 → time b ≤ time a
  unique : ∀ a b, s.dev a ≠ 0 → s.dev a = s.dev b → s.blockno a = s.blockno b → a = b
  refcnt : ∀ b, s.refcnt b = s.uses.countP fun u => u.buf = b
  ident : ∀ u ∈ s.uses, s.dev u.buf = u.dev ∧ s.blockno u.buf = u.blockno

section Inv

variable {time : Buf → Nat} {l : List Buf} {s s' : State π β}

theorem inv_boot (disk : Nat → β) (data : Buf → β) :
    Inv (fun _ => 0) (List.finRange nbuf).reverse (State.boot disk data : State π β) where
  ring := ring_binit
  all b := List.mem_reverse.2 (List.mem_finRange b)
  order := List.pairwise_of_forall fun _ _ _ _ => le_rfl
  unique _ _ h := absurd rfl h
  refcnt _ := rfl
  ident _ hu := absurd hu List.not_mem_nil

namespace Inv

theorem cached_eq (h : Inv time l s) (dev blockno : Nat) : s.cached dev blockno =
    l.find? fun b => s.dev b = dev ∧ s.blockno b = blockno :=
  h.ring.scan_next _ (length_le h.ring.nodup)

theorem unused_eq (h : Inv time l s) : s.unused =
    l.reverse.find? fun b => s.refcnt b = 0 ∧ s.dirty b = false :=
  h.ring.scan_prev _ (length_le h.ring.nodup)

theorem cached_some (h : Inv time l s) {dev blockno : Nat} {b : Buf}
    (hb : s.cached dev blockno = some b) : s.dev b = dev ∧ s.blockno b = blockno := by
  rw [h.cached_eq] at hb
  have hfound := List.find?_some hb
  exact of_decide_eq_true hfound

theorem cached_none (h : Inv time l s) {dev blockno : Nat} (hb : s.cached dev blockno = none)
    (b : Buf) : ¬ (s.dev b = dev ∧ s.blockno b = blockno) := by
  rw [h.cached_eq] at hb
  exact of_decide_eq_false (Bool.eq_false_iff.2 (List.find?_eq_none.1 hb b (h.all b)))

/-- The buffer that is recycled: nobody uses it, and of all such buffers it was released first. -/
theorem unused_some (h : Inv time l s) {b : Buf} (hb : s.unused = some b) :
    (s.refcnt b = 0 ∧ s.dirty b = false) ∧
      ∀ c, s.refcnt c = 0 → s.dirty c = false → time b ≤ time c := by
  rw [h.unused_eq] at hb
  obtain ⟨hprop, as, bs, hsplit, has⟩ := List.find?_eq_some_iff_append.1 hb
  have hb' := of_decide_eq_true hprop
  refine ⟨hb', fun c hc hdirty => ?_⟩
  -- the buffers after it in the list were looked at before it
  have hl : l = bs.reverse ++ b :: as.reverse := by
    have hrev := congrArg List.reverse hsplit
    rw [List.reverse_reverse, List.reverse_append, List.reverse_cons, List.append_assoc,
      List.singleton_append] at hrev
    exact hrev
  have horder := h.order
  have hmem := h.all c
  rw [hl] at horder hmem
  rcases List.mem_append.1 hmem with hmem | hmem
  · exact (List.pairwise_append.1 horder).2.2 c hmem b List.mem_cons_self hc hb'.1
  · rcases List.mem_cons.1 hmem with rfl | hmem
    · exact le_rfl
    · have hno := has c (List.mem_reverse.1 hmem)
      rw [decide_eq_true (p := _ ∧ _) ⟨hc, hdirty⟩] at hno
      exact absurd hno (by decide)

theorem inverse (h : Inv time l s) (x : Option Buf) :
    s.links.prev (s.links.next x) = x ∧ s.links.next (s.links.prev x) = x := by
  constructor
  · refine h.ring.prev_next ?_
    cases x with
    | none => exact List.mem_cons_self
    | some b => exact List.mem_cons_of_mem _ (List.mem_map_of_mem (h.all b))
  · refine h.ring.next_prev ?_
    cases x with
    | none => exact List.mem_append_right _ List.mem_cons_self
    | some b => exact List.mem_append_left _ (List.mem_map_of_mem (h.all b))

/-- A buffer that a process uses is not free. -/
theorem refcnt_pos (h : Inv time l s) {u : Use π} (hu : u ∈ s.uses) : 0 < s.refcnt u.buf := by
  rw [h.refcnt, List.countP_pos_iff]
  exact ⟨u, hu, decide_eq_true rfl⟩

/-! ## A step keeps it -/

/-- Steps that leave the list and the counts alone. -/
theorem congr (h : Inv time l s) (hlinks : s'.links = s.links) (hdev : s'.dev = s.dev)
    (hblockno : s'.blockno = s.blockno) (hrefcnt : s'.refcnt = s.refcnt)
    (hcount : ∀ b, (s'.uses.countP fun u => u.buf = b) = s.uses.countP fun u => u.buf = b)
    (huses : ∀ u ∈ s'.uses, ∃ v ∈ s.uses, u.buf = v.buf ∧ u.dev = v.dev ∧ u.blockno = v.blockno) :
    Inv time l s' where
  ring := by rw [hlinks]; exact h.ring
  all := h.all
  order := by rw [hrefcnt]; exact h.order
  unique := by rw [hdev, hblockno]; exact h.unique
  refcnt b := by rw [hrefcnt, hcount]; exact h.refcnt b
  ident u hu := by
    obtain ⟨v, hv, hbuf, hd, hb⟩ := huses u hu
    rw [hdev, hblockno, hbuf, hd, hb]
    exact h.ident v hv

theorem iderw {disksize : Nat} {b : Buf} (h : Inv time l s)
    (hs' : s.iderw disksize b = some s') : Inv time l s' := by
  obtain ⟨-, ⟨-, rfl⟩ | ⟨-, -, rfl⟩⟩ := State.iderw_cases hs'
  · exact ⟨h.ring, h.all, h.order, h.unique, h.refcnt, h.ident⟩
  · exact ⟨h.ring, h.all, h.order, h.unique, h.refcnt, h.ident⟩

/-- The counts after a use has begun. -/
theorem refcnt_cons (h : Inv time l s) (u : Use π) {n : Nat} (hn : n = s.refcnt u.buf + 1) (c : Buf) :
    Function.update s.refcnt u.buf n c = (u :: s.uses).countP fun v => v.buf = c := by
  rw [List.countP_cons, ← h.refcnt]
  by_cases hc : c = u.buf
  · rw [hc, Function.update_self, if_pos (decide_eq_true rfl), hn]
  · rw [Function.update_of_ne hc, if_neg (by simpa using Ne.symm hc), Nat.add_zero]

/-- Buffers in use can come in any order. -/
theorem order_update (h : Inv time l s) (b : Buf) {n : Nat} (hn : n ≠ 0) : l.Pairwise fun a c =>
    Function.update s.refcnt b n a = 0 → Function.update s.refcnt b n c = 0 → time c ≤ time a := by
  have hfree : ∀ x, Function.update s.refcnt b n x = 0 → s.refcnt x = 0 := by
    intro x hx
    by_cases hxb : x = b
    · rw [hxb, Function.update_self] at hx
      exact absurd hx hn
    · rwa [Function.update_of_ne hxb] at hx
  exact h.order.imp fun hac ha hc => hac (hfree _ ha) (hfree _ hc)

theorem hit (h : Inv time l s) (p : π) {dev blockno : Nat} {b : Buf}
    (hb : s.cached dev blockno = some b) : Inv time l { s with
      refcnt := Function.update s.refcnt b (s.refcnt b + 1)
      uses := ⟨p, dev, blockno, b, .waiting⟩ :: s.uses } where
  ring := h.ring
  all := h.all
  order := h.order_update b (Nat.succ_ne_zero _)
  unique := h.unique
  refcnt := h.refcnt_cons ⟨p, dev, blockno, b, .waiting⟩ rfl
  ident u hu := by
    rcases List.mem_cons.1 hu with rfl | hu
    · exact h.cached_some hb
    · exact h.ident u hu

theorem recycle (h : Inv time l s) (p : π) {dev blockno : Nat} {b : Buf}
    (hmiss : s.cached dev blockno = none) (hb : s.unused = some b) : Inv time l { s with
      dev := Function.update s.dev b dev
      blockno := Function.update s.blockno b blockno
      valid := Function.update s.valid b false
      dirty := Function.update s.dirty b false
      refcnt := Function.update s.refcnt b 1
      uses := ⟨p, dev, blockno, b, .waiting⟩ :: s.uses } := by
  have hfree := (h.unused_some hb).1.1
  have hnew : ∀ a, a ≠ b → ¬ (dev = s.dev a ∧ blockno = s.blockno a) := fun a _ hident =>
    h.cached_none hmiss a ⟨hident.1.symm, hident.2.symm⟩
  refine ⟨h.ring, h.all, h.order_update b Nat.one_ne_zero, fun a c => ?_,
    h.refcnt_cons ⟨p, dev, blockno, b, .waiting⟩ (by rw [hfree]), fun u hu => ?_⟩
  · show Function.update s.dev b dev a ≠ 0 →
      Function.update s.dev b dev a = Function.update s.dev b dev c →
      Function.update s.blockno b blockno a = Function.update s.blockno b blockno c → a = c
    by_cases hab : a = b <;> by_cases hcb : c = b
    · exact fun _ _ _ => hab.trans hcb.symm
    · rw [hab, Function.update_self, Function.update_self, Function.update_of_ne hcb,
        Function.update_of_ne hcb]
      exact fun _ hd hn => absurd ⟨hd, hn⟩ (hnew c hcb)
    · rw [hcb, Function.update_self, Function.update_self, Function.update_of_ne hab,
        Function.update_of_ne hab]
      exact fun _ hd hn => absurd ⟨hd.symm, hn.symm⟩ (hnew a hab)
    · rw [Function.update_of_ne hab, Function.update_of_ne hab, Function.update_of_ne hcb,
        Function.update_of_ne hcb]
      exact h.unique a c
  · show Function.update s.dev b dev u.buf = u.dev ∧ Function.update s.blockno b blockno u.buf = _
    rcases List.mem_cons.1 hu with rfl | hu
    · exact ⟨Function.update_self .., Function.update_self ..⟩
    · have hne : u.buf ≠ b := fun heq => by
        have hpos := h.refcnt_pos hu
        rw [heq, hfree] at hpos
        exact Nat.lt_irrefl 0 hpos
      rw [Function.update_of_ne hne, Function.update_of_ne hne]
      exact h.ident u hu

variable [DecidableEq π]

theorem setPhase (h : Inv time l s) {u : Use π} (hu : u ∈ s.uses) (phase : Phase) :
    Inv time l (s.setPhase u phase) := by
  refine h.congr rfl rfl rfl rfl (fun b => ?_) fun v hv => ?_
  · rw [(List.perm_cons_erase hu).countP_eq]
    exact List.countP_cons.trans List.countP_cons.symm
  · rcases List.mem_cons.1 hv with rfl | hv
    · exact ⟨u, hu, rfl, rfl, rfl⟩
    · exact ⟨v, List.mem_of_mem_erase hv, rfl, rfl, rfl⟩

theorem acquiresleep (h : Inv time l s) {u : Use π} (hu : u ∈ s.uses) :
    Inv time l (s.acquiresleep u) :=
  setPhase (s := { s with lock := Function.update s.lock u.buf (some u.proc) })
    ⟨h.ring, h.all, h.order, h.unique, h.refcnt, h.ident⟩ hu .holding

theorem releasesleep (h : Inv time l s) {u : Use π} (hu : u ∈ s.uses) :
    Inv time l (s.releasesleep u) :=
  setPhase (s := { s with lock := Function.update s.lock u.buf none })
    ⟨h.ring, h.all, h.order, h.unique, h.refcnt, h.ident⟩ hu .releasing

/-- The buffer that is released for good moves to the front. -/
theorem brelse (h : Inv time l s) {u : Use π} (hu : u ∈ s.uses) {now : Nat}
    (hnow : ∀ b, time b ≤ now) :
    ∃ l', Inv (Function.update time u.buf now) l' (s.brelse u) := by
  have hrefcnt : ∀ c, Function.update s.refcnt u.buf (s.refcnt u.buf - 1) c
      = (s.uses.erase u).countP fun v => v.buf = c := by
    intro c
    have hcount := h.refcnt c
    rw [(List.perm_cons_erase hu).countP_eq, List.countP_cons] at hcount
    by_cases hc : c = u.buf
    · rw [hc, if_pos (decide_eq_true rfl)] at hcount
      rw [hc, Function.update_self, hcount, Nat.add_sub_cancel]
    · rw [if_neg (by simpa using Ne.symm hc), Nat.add_zero] at hcount
      rw [Function.update_of_ne hc, hcount]
  have hident : ∀ v ∈ s.uses.erase u, s.dev v.buf = v.dev ∧ s.blockno v.buf = v.blockno :=
    fun v hv => h.ident v (List.mem_of_mem_erase hv)
  by_cases hlast : s.refcnt u.buf - 1 = 0
  · have hnot : u.buf ∉ l.erase u.buf := h.ring.nodup.not_mem_erase
    have hring := (h.ring.unlink (h.all u.buf)).pushFront hnot
    refine ⟨u.buf :: l.erase u.buf, ?_, fun c => ?_, ?_, h.unique, hrefcnt, hident⟩
    · show Ring (if Function.update s.refcnt u.buf (s.refcnt u.buf - 1) u.buf = 0 then _ else _) _
      rwa [Function.update_self, if_pos hlast]
    · by_cases hc : c = u.buf
      · exact hc ▸ List.mem_cons_self
      · exact List.mem_cons_of_mem _ ((List.mem_erase_of_ne hc).2 (h.all c))
    · refine List.pairwise_cons.2 ⟨fun c hc _ _ => ?_, ?_⟩
      · have hne : c ≠ u.buf := fun heq => hnot (heq ▸ hc)
        rw [Function.update_self, Function.update_of_ne hne]
        exact hnow c
      · refine (h.order.sublist List.erase_sublist).imp_of_mem fun {a c} ha hc hac => ?_
        have hane : a ≠ u.buf := fun heq => hnot (heq ▸ ha)
        have hcne : c ≠ u.buf := fun heq => hnot (heq ▸ hc)
        show Function.update s.refcnt _ _ a = 0 → Function.update s.refcnt _ _ c = 0 → _
        rw [Function.update_of_ne hane, Function.update_of_ne hcne, Function.update_of_ne hane,
          Function.update_of_ne hcne]
        exact hac
  · -- somebody still uses it, so its place does not matter
    refine ⟨l, ?_, h.all, ?_, h.unique, hrefcnt, hident⟩
    · show Ring (if Function.update s.refcnt u.buf (s.refcnt u.buf - 1) u.buf = 0 then _ else _) _
      rw [Function.update_self, if_neg hlast]
      exact h.ring
    · refine (h.order_update u.buf hlast).imp fun {a c} hac ha hc => ?_
      have hne : ∀ x, Function.update s.refcnt u.buf (s.refcnt u.buf - 1) x = 0 → x ≠ u.buf := by
        rintro x hx rfl
        rw [Function.update_self] at hx
        exact hlast hx
      rw [Function.update_of_ne (hne a ha), Function.update_of_ne (hne c hc)]
      exact hac ha hc

theorem step {disksize size now : Nat} {e : Event π β} (h : Inv time l s)
    (hnow : ∀ b, time b ≤ now) (hstep : Step disksize size s e s') :
    ∃ l', Inv (tick time now e) l' s' := by
  cases step_move hstep with
  | hit hb => exact ⟨l, h.hit _ hb⟩
  | recycle hmiss hb => exact ⟨l, h.recycle _ hmiss hb⟩
  | found hu => exact ⟨l, h.acquiresleep hu⟩
  | fetched hu _ _ _ hs' => exact ⟨l, (h.acquiresleep hu).iderw hs'⟩
  | logged => exact ⟨l, h.ring, h.all, h.order, h.unique, h.refcnt, h.ident⟩
  | written _ _ hs' =>
      refine ⟨l, Inv.iderw ?_ hs'⟩
      exact ⟨h.ring, h.all, h.order, h.unique, h.refcnt, h.ident⟩
  | releasesleep hu => exact ⟨l, h.releasesleep hu⟩
  | brelse hu =>
      rw [tick_brelse]
      exact h.brelse hu hnow
  | clear => exact ⟨l, h.ring, h.all, h.order, h.unique, h.refcnt, h.ident⟩

end Inv

variable [DecidableEq π] {disksize size : Nat} {tr : List (State π β × Event π β)}

theorem run_inv {disk : Nat → β} {data : Buf → β}
    (hrun : Run (Step disksize size) (State.boot disk data) tr s) : ∃ l, Inv (released tr) l s := by
  induction hrun with
  | nil => exact ⟨_, inv_boot disk data⟩
  | snoc _ hstep ih =>
      obtain ⟨l, h⟩ := ih
      rw [released_snoc]
      exact h.step (fun b => Nat.le_succ_of_le (released_le _ b)) hstep

/-- A step counts the calls that have the buffer. -/
theorem Inv.calls_step {e : Event π β} (h : Inv time l s) (hstep : Step disksize size s e s')
    (b : Buf) : s.refcnt b + (if Gets b s e then 1 else 0) =
      s'.refcnt b + if Releases b e then 1 else 0 := by
  cases step_move hstep with
  | @hit p dev blockno c hb =>
      have hgot : s.got dev blockno = some c := by
        rw [State.got, hb]
        rfl
      show s.refcnt b + (if decide (s.got dev blockno = some b) then 1 else 0) =
        Function.update s.refcnt c (s.refcnt c + 1) b + 0
      rw [hgot]
      by_cases hbc : b = c
      · rw [hbc, Function.update_self, if_pos (decide_eq_true rfl), Nat.add_zero]
      · rw [Function.update_of_ne hbc, if_neg (by simpa using Ne.symm hbc)]
  | @recycle p dev blockno c hmiss hb =>
      have hgot : s.got dev blockno = some c := by
        rw [State.got, hmiss, hb]
        rfl
      show s.refcnt b + (if decide (s.got dev blockno = some b) then 1 else 0) =
        Function.update s.refcnt c 1 b + 0
      rw [hgot]
      by_cases hbc : b = c
      · rw [hbc, Function.update_self, if_pos (decide_eq_true rfl), (h.unused_some hb).1.1]
      · rw [Function.update_of_ne hbc, if_neg (by simpa using Ne.symm hbc)]
  | fetched _ _ _ _ hs' =>
      obtain ⟨-, ⟨-, rfl⟩ | ⟨-, -, rfl⟩⟩ := State.iderw_cases hs' <;> rfl
  | written _ _ hs' =>
      obtain ⟨-, ⟨-, rfl⟩ | ⟨-, -, rfl⟩⟩ := State.iderw_cases hs' <;> rfl
  | @brelse u hu =>
      show s.refcnt b + 0 = Function.update s.refcnt u.buf (s.refcnt u.buf - 1) b +
        if decide (u.buf = b) then 1 else 0
      have hpos := h.refcnt_pos hu
      by_cases hbc : b = u.buf
      · rw [hbc, Function.update_self, if_pos (decide_eq_true rfl)]
        omega
      · rw [Function.update_of_ne hbc, if_neg (by simpa using Ne.symm hbc)]
  | found | logged | releasesleep | clear => rfl

/-- `refcnt` is the number of the calls of `bget` that have returned the buffer, less the calls of
    `brelse` that have given it back. -/
theorem run_calls {disk : Nat → β} {data : Buf → β}
    (hrun : Run (Step disksize size) (State.boot disk data) tr s) (b : Buf) :
    (tr.countP fun x => Gets b x.1 x.2) = s.refcnt b + tr.countP fun x => Releases b x.2 := by
  induction hrun with
  | nil => rfl
  | snoc hrun hstep ih =>
      obtain ⟨l, h⟩ := run_inv hrun
      have hcalls := h.calls_step hstep b
      rw [List.countP_append, List.countP_append, List.countP_singleton, List.countP_singleton]
      dsimp only
      omega

/-! ## The list after any calls -/

/-- The list of buffers, their identities and their counts. -/
structure Lru (disksize size : Nat) (tr : List (State π β × Event π β)) (s : State π β) : Prop where
  /-- every buffer is in the list once -/
  ring : ∃ l, Ring s.links l ∧ ∀ b, b ∈ l
  inverse : ∀ x, s.links.prev (s.links.next x) = x ∧ s.links.next (s.links.prev x) = x
  unique : ∀ a b, s.dev a ≠ 0 → s.dev a = s.dev b → s.blockno a = s.blockno b → a = b
  /-- one for each process that waits for the buffer, holds it, or is about to give it back -/
  refcnt : ∀ b, s.refcnt b = s.uses.countP fun u => u.buf = b
  /-- they have called `bget` and not yet `brelse` -/
  calls : ∀ b, (tr.countP fun x => Gets b x.1 x.2) = s.refcnt b + tr.countP fun x => Releases b x.2
  /-- a buffer that is used or dirty keeps its block -/
  ident : ∀ e s', Step disksize size s e s' → ∀ b, 0 < s.refcnt b ∨ s.dirty b = true →
    s'.dev b = s.dev b ∧ s'.blockno b = s.blockno b
  /-- a buffer that is given another block is the one that was released first of those that are
      neither used nor dirty -/
  oldest : ∀ e s', Step disksize size s e s' → ∀ b,
    ¬ (s'.dev b = s.dev b ∧ s'.blockno b = s.blockno b) →
    ∀ c, s.refcnt c = 0 → s.dirty c = false → released tr b ≤ released tr c

/-- A step that gives a buffer another block has found it unused. -/
theorem unused_of_step {e : Event π β} (hstep : Step disksize size s e s') {b : Buf}
    (hne : ¬ (s'.dev b = s.dev b ∧ s'.blockno b = s.blockno b)) : s.unused = some b := by
  cases step_move hstep with
  | @recycle p dev blockno c hmiss hc =>
      by_cases hbc : b = c
      · rw [hbc]
        exact hc
      · exact absurd ⟨Function.update_of_ne hbc .., Function.update_of_ne hbc ..⟩ hne
  | fetched _ _ _ _ hs' =>
      obtain ⟨-, ⟨-, rfl⟩ | ⟨-, -, rfl⟩⟩ := State.iderw_cases hs' <;> exact absurd ⟨rfl, rfl⟩ hne
  | written _ _ hs' =>
      obtain ⟨-, ⟨-, rfl⟩ | ⟨-, -, rfl⟩⟩ := State.iderw_cases hs' <;> exact absurd ⟨rfl, rfl⟩ hne
  | hit | found | logged | releasesleep | brelse | clear => exact absurd ⟨rfl, rfl⟩ hne

/-- After any calls of `bget` and `brelse` by any processes, with any changes of the blocks. -/
theorem bcache_structure {disk : Nat → β} {data : Buf → β}
    (hrun : Run (Step disksize size) (State.boot disk data) tr s) : Lru disksize size tr s := by
  obtain ⟨l, h⟩ := run_inv hrun
  refine ⟨⟨l, h.ring, h.all⟩, h.inverse, h.unique, h.refcnt, run_calls hrun,
    fun e s' hstep b hb => ?_,
    fun e s' hstep b hne => (h.unused_some (unused_of_step hstep hne)).2⟩
  by_contra hne
  obtain ⟨⟨hrefcnt, hdirty⟩, -⟩ := h.unused_some (unused_of_step hstep hne)
  rcases hb with hb | hb
  · exact Nat.ne_of_gt hb hrefcnt
  · rw [hdirty] at hb
    exact nomatch hb

/-- Two processes read a block one after the other; the first one changes it. Then the other buffers
    are taken, and the first one is given another block. -/
def session : List (Event Nat Nat) :=
  let u (p : Nat) (phase : Phase) : Use Nat := ⟨p, 1, 5, ⟨0, zero_lt_nbuf⟩, phase⟩
  [.bget 1 1 5, .bget 2 1 5, .bread (u 1 .waiting), .write (u 1 .holding) 7 false,
    .releasesleep (u 1 .holding), .bread (u 2 .waiting), .brelse (u 1 .releasing),
    .releasesleep (u 2 .holding), .brelse (u 2 .releasing)]
    ++ (List.range 29).map (fun n => .bget 2 1 (100 + n)) ++ [.bget 1 1 6]

theorem bcache_structure_session : ∃ tr s,
    Run (Step 1000 30) (State.boot (fun _ => 0) fun _ => 0) tr s ∧ tr.map Prod.snd = session ∧
      s.blockno ⟨0, zero_lt_nbuf⟩ = 6 ∧ Lru 1000 30 tr s := by
  have hplays : (play (State.next 1000 30) (State.boot (fun _ => 0) fun _ => 0) session).map
      (fun x => x.2.blockno ⟨0, zero_lt_nbuf⟩) = some 6 := by decide +kernel
  obtain ⟨⟨tr, s⟩, hplay, hblockno⟩ := Option.map_eq_some_iff.1 hplays
  obtain ⟨hrun, hlabels⟩ := play_run hplay
  exact ⟨tr, s, hrun, hlabels, hblockno, bcache_structure hrun⟩

end Inv

end Cs350.Bcache
