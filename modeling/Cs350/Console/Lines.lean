import Cs350.Console.Defs

set_option autoImplicit false

/-! # What is typed and what is read

The indices stay in order, editing does not touch what is committed, and the bytes that
`consoleread` returns are the committed characters. A `^D` ends a read: one that comes after other
bytes is left in the buffer, and ends the next read too, so that each `^D` is the reason for one read
of no bytes. -/

namespace Cs350.Console

open RingBuffer (slot dist contents)
open Transition

theorem inputBuf_dvd : inputBuf.toNat ∣ 2 ^ 32 := by decide

/-! ## The input buffer -/

namespace Input

variable {i : Input}

/-- `r`, `w` and `e` are in this order, and not more than the buffer apart. -/
structure Ok (i : Input) : Prop where
  order : dist i.r i.w ≤ dist i.r i.e
  room : dist i.r i.e ≤ inputBuf.toNat

/-- Only the line that is being typed has changed. -/
structure Edited (i i' : Input) : Prop where
  buf : i'.buf = i.buf
  r : i'.r = i.r
  w : i'.w = i.w
  ok : i'.Ok

theorem Edited.pending {i' : Input} (h : Edited i i') : i'.pending = i.pending := by
  rw [Input.pending, h.buf, h.r, h.w, Input.pending]

theorem Ok.edited (h : i.Ok) : Edited i i := ⟨rfl, rfl, rfl, h⟩

/-- One character is taken back. -/
theorem Ok.back (h : i.Ok) (hne : i.e ≠ i.w) : Edited i { i with e := i.e - 1 } := by
  have hw : dist i.w i.e ≠ 0 := fun hzero => hne (RingBuffer.dist_eq_zero.1 hzero).symm
  have hadd := RingBuffer.dist_add h.order
  have hre : i.r ≠ i.e := fun heq => by
    rw [heq, RingBuffer.dist_self] at hadd
    omega
  have hpred := RingBuffer.dist_pred_right hre
  have hroom := h.room
  refine ⟨rfl, rfl, rfl, ?_, ?_⟩ <;> dsimp only <;> omega

theorem killLine_spec (h : i.Ok) (n : Nat) : Edited i (killLine n i) := by
  induction n generalizing i with
  | zero => exact h.edited
  | succ n ih =>
      rw [killLine]
      split_ifs with hc
      · have hback := h.back hc.1
        have hrest := ih hback.ok
        exact ⟨hrest.buf, hrest.r, hrest.w, hrest.ok⟩
      · exact h.edited

/-- What an interrupt does to the buffer: it commits some characters. -/
structure Typed (i : Input) (committed : List UInt8) (i' : Input) : Prop where
  r : i'.r = i.r
  pending : i'.pending = i.pending ++ committed
  ok : i'.Ok

theorem Edited.typed {i' : Input} (h : Edited i i') : Typed i [] i' :=
  ⟨h.r, by rw [h.pending, List.append_nil], h.ok⟩

theorem store_spec (h : i.Ok) (hroom : i.e - i.r < inputBuf) (c : UInt8) :
    Typed i (i.store c).2 (i.store c).1 := by
  have hlt : dist i.r i.e < inputBuf.toNat := UInt32.lt_iff_toNat_lt.1 hroom
  have hsize : inputBuf.toNat = 128 := rfl
  have hsucc := RingBuffer.dist_succ_right (i := i.r) (j := i.e) (by omega)
  have horder := h.order
  unfold store
  dsimp only
  generalize (if c = carriageReturn then newline else c) = c
  have hkeep : contents (Function.update i.buf (slot inputBuf i.e) c) inputBuf i.r i.w =
      i.pending := RingBuffer.contents_update inputBuf_dvd horder hlt c
  split_ifs
  · refine ⟨rfl, ?_, ⟨le_rfl, ?_⟩⟩
    · have hle : dist i.r i.w ≤ dist i.r (i.e + 1) := by omega
      rw [← hkeep]
      exact RingBuffer.contents_append hle
    · dsimp only
      omega
  · refine ⟨rfl, ?_, ⟨?_, ?_⟩⟩
    · rw [← hkeep, List.append_nil]
      rfl
    · dsimp only
      omega
    · dsimp only
      omega

/-- The characters that edit the line. -/
def Edits (c : UInt8) : Prop := c = ctrlU ∨ c = ctrlH ∨ c = delete

theorem intrChar_edited (h : i.Ok) {c : UInt8} (hc : Edits c) : Edited i (i.intrChar c).1 := by
  unfold intrChar
  by_cases hu : c = ctrlU
  · rw [if_neg (by rw [hu]; decide), if_pos hu]
    exact killLine_spec h _
  · have hback := hc.resolve_left hu
    rw [if_neg (by rcases hback with rfl | rfl <;> decide), if_neg hu, if_pos hback]
    split_ifs with hne
    · exact h.back hne
    · exact h.edited

theorem intrChar_spec (h : i.Ok) (c : UInt8) : Typed i (i.intrChar c).2 (i.intrChar c).1 := by
  unfold intrChar
  split_ifs with hp hu hb hne hroom
  · exact h.edited.typed
  · exact (killLine_spec h _).typed
  · exact (h.back hne).typed
  · exact h.edited.typed
  · exact store_spec h hroom.2 c
  · exact h.edited.typed

theorem intrLoop_spec (h : i.Ok) (cs : List UInt8) :
    Typed i (i.intrLoop cs).2 (i.intrLoop cs).1 := by
  induction cs generalizing i with
  | nil => exact h.edited.typed
  | cons c cs ih =>
      have hchar := intrChar_spec h c
      have hrest := ih hchar.ok
      rw [intrLoop]
      refine ⟨hrest.r.trans hchar.r, ?_, hrest.ok⟩
      dsimp only
      rw [hrest.pending, hchar.pending, List.append_assoc]

/-- The next character is taken out. -/
theorem Ok.pop (h : i.Ok) (hne : i.r ≠ i.w) : Ok { i with r := i.r + 1 } ∧
    i.pending = i.buf (slot inputBuf i.r) :: Input.pending { i with r := i.r + 1 } := by
  have hw := RingBuffer.dist_succ_left hne
  have horder := h.order
  have hroom := h.room
  have hre : i.r ≠ i.e := fun heq => by
    rw [← heq, RingBuffer.dist_self] at horder
    omega
  have he := RingBuffer.dist_succ_left hre
  refine ⟨⟨?_, ?_⟩, RingBuffer.contents_cons hne⟩ <;> dsimp only <;> omega

end Input

/-! ## Reading -/

/-- The committed characters that a read of these bytes uses up. -/
def ofRead (bs : List UInt8) : List UInt8 := if bs = [] then [ctrlD] else bs

theorem ofRead_of_ne {bs : List UInt8} (h : bs ≠ []) : ofRead bs = bs := if_neg h

/-- What `consoleread` does: the bytes in `dst` and the characters in the buffer, before and after. -/
def Taken (target : Nat) (killed : Bool) (i : Input) (got : List UInt8) (i' : Input) :
    Outcome → Prop
  | .bytes bs => ctrlD ∉ bs ∧ got ++ i.pending = ofRead bs ++ i'.pending
  | .error => killed = true
  | .sleep n got' => n + got'.length = target ∧ ctrlD ∉ got' ∧
      got ++ i.pending = got' ++ i'.pending

theorem readLoop_spec {target : Nat} (hpos : 0 < target) (killed : Bool) (n : Nat) (i : Input)
    (got : List UInt8) (h : i.Ok) (hn : n + got.length = target) (hgot : ctrlD ∉ got) :
    (readLoop target killed n i got).1.Ok ∧
      Taken target killed i got (readLoop target killed n i got).1
        (readLoop target killed n i got).2 := by
  have hne : n < target → got ≠ [] := by
    rintro hlt rfl
    rw [List.length_nil] at hn
    omega
  induction n generalizing i got with
  | zero => exact ⟨h, hgot, by rw [ofRead_of_ne (hne hpos)]; rfl⟩
  | succ n ih =>
      rw [readLoop]
      by_cases hempty : i.r = i.w
      · rw [if_pos hempty]
        cases killed with
        | true => exact ⟨h, rfl⟩
        | false => exact ⟨h, hn, hgot, rfl⟩
      · obtain ⟨hok, hpop⟩ := h.pop hempty
        rw [if_neg hempty]
        dsimp only
        generalize i.buf (slot inputBuf i.r) = c at hpop
        split_ifs with hc hlt hnl
        · -- the `^D` is left for the next read
          have hback : { i with r := i.r + 1 - 1 } = i := by rw [UInt32.add_sub_cancel]
          rw [hback]
          exact ⟨h, hgot, by rw [ofRead_of_ne (hne hlt)]⟩
        · have hnil : got = [] := List.length_eq_zero_iff.1 (by omega)
          refine ⟨hok, hgot, ?_⟩
          rw [hnil, hpop, hc]
          rfl
        · refine ⟨hok, ?_, ?_⟩
          · rw [List.mem_append, List.mem_singleton]
            exact fun hmem => hmem.elim hgot fun heq => hc heq.symm
          · rw [ofRead_of_ne (List.append_ne_nil_of_right_ne_nil _ (List.cons_ne_nil _ _)), hpop,
              List.append_assoc]
            rfl
        · have hlen : n + (got ++ [c]).length = target := by
            rw [List.length_append, List.length_singleton]
            omega
          have hgot' : ctrlD ∉ got ++ [c] := by
            rw [List.mem_append, List.mem_singleton]
            exact fun hmem => hmem.elim hgot fun heq => hc heq.symm
          have hrest := ih _ (got ++ [c]) hok hlen hgot' fun _ =>
            List.append_ne_nil_of_right_ne_nil _ (List.cons_ne_nil _ _)
          have happ : (got ++ [c]) ++ Input.pending { i with r := i.r + 1 } = got ++ i.pending := by
            rw [hpop, List.append_assoc]
            rfl
          refine ⟨hrest.1, ?_⟩
          have htaken := hrest.2
          generalize (readLoop target killed n { i with r := i.r + 1 } (got ++ [c])).2 = out
            at htaken ⊢
          cases out with
          | bytes bs => exact ⟨htaken.1, by rw [← happ]; exact htaken.2⟩
          | error => exact htaken
          | sleep n got' => exact ⟨htaken.1, htaken.2.1, by rw [← happ]; exact htaken.2.2⟩

/-! ## Runs -/

/-- A call of `consoleread` for at least one byte, by a process that is not killed; or an
    interrupt. -/
def Event.Plain : Event → Prop
  | .intr _ => True
  | .read n killed => 0 < n ∧ killed = false
  | .resume => True
  | .kill => False

/-- The characters that were committed during a run. -/
def committed (tr : List (State × (Event × Io))) : List UInt8 := tr.flatMap fun x => x.2.2.committed

/-- The bytes of a call that has returned. -/
def Outcome.reads : Outcome → List (List UInt8)
  | .bytes bs => [bs]
  | .error => []
  | .sleep _ _ => []

/-- The results of calls that a step shows. -/
def Io.reads (io : Io) : List (List UInt8) := (io.result.map Outcome.reads).getD []

/-- The results of the calls of `consoleread` during a run, in their order. -/
def reads (tr : List (State × (Event × Io))) : List (List UInt8) := tr.flatMap fun x => x.2.2.reads

/-- The bytes that the call in progress has read so far. -/
def State.inHand (s : State) : List UInt8 := s.call.elim [] (·.got)

/-- The call in progress. -/
structure Call.Ok (c : Call) : Prop where
  pos : 0 < c.target
  length : c.n + c.got.length = c.target
  got : ctrlD ∉ c.got
  killed : c.killed = false

structure Inv (s : State) : Prop where
  input : s.input.Ok
  call : ∀ c, s.call = some c → c.Ok

/-- What a step does to the characters: those that come in, and those that have been read. -/
structure Kept (s : State) (io : Io) (s' : State) : Prop where
  inv : Inv s'
  flow : s.inHand ++ s.input.pending ++ io.committed =
    io.reads.flatMap ofRead ++ (s'.inHand ++ s'.input.pending)
  clean : ∀ bs ∈ io.reads, ctrlD ∉ bs

section Step

variable {s s' : State}

theorem kept_read {target n : Nat} {got : List UInt8} (h : s.input.Ok) (hpos : 0 < target)
    (hn : n + got.length = target) (hgot : ctrlD ∉ got) (hin : s.inHand = got) :
    Kept s (State.read s.input target false n got).2 (State.read s.input target false n got).1 := by
  obtain ⟨hok, htaken⟩ := readLoop_spec hpos false n s.input got h hn hgot
  unfold State.read
  generalize readLoop target false n s.input got = r at hok htaken
  obtain ⟨i, out⟩ := r
  cases out with
  | bytes bs =>
      refine ⟨⟨hok, fun _ hc => nomatch hc⟩, ?_, fun bs' hbs => ?_⟩
      · rw [hin, htaken.2, List.append_nil]
        show _ = [bs].flatMap ofRead ++ ([] ++ i.pending)
        rw [List.flatMap_singleton, List.nil_append]
      · rw [List.mem_singleton.1 hbs]
        exact htaken.1
  | error => exact nomatch htaken
  | sleep n' got' =>
      obtain ⟨hlen, hclean, hflow⟩ := htaken
      refine ⟨⟨hok, fun c hc => ?_⟩, ?_, fun _ hbs => absurd hbs List.not_mem_nil⟩
      · obtain rfl := Option.some.inj hc
        exact ⟨hpos, hlen, hclean, rfl⟩
      · rw [hin, hflow, List.append_nil]
        rfl

theorem step_kept {e : Event × Io} (h : Inv s) (hplain : e.1.Plain) (hstep : Step s e s') :
    Kept s e.2 s' := by
  obtain ⟨e, io⟩ := e
  unfold Step at hstep
  cases e with
  | intr cs =>
      obtain ⟨rfl, rfl⟩ := Prod.mk.inj (Option.some.inj hstep)
      have htyped := Input.intrLoop_spec h.input cs
      refine ⟨⟨htyped.ok, fun c hc => ?_⟩, ?_, fun _ hbs => absurd hbs List.not_mem_nil⟩
      · obtain ⟨c', hc', rfl⟩ := Option.map_eq_some_iff.1 hc
        obtain ⟨hpos, hlen, hgot, hkilled⟩ := h.call c' hc'
        exact ⟨hpos, hlen, hgot, hkilled⟩
      · have hhand : State.inHand ⟨(s.input.intrLoop cs).1, s.call.map fun c =>
            { c with asleep := c.asleep && decide ¬ (s.input.intrLoop cs).2 ≠ [] }⟩ = s.inHand := by
          unfold State.inHand
          cases s.call <;> rfl
        rw [hhand, htyped.pending, List.append_assoc]
        rfl
  | read n killed =>
      obtain ⟨hnone, hnext⟩ := Option.ite_none_right_eq_some.1 hstep
      obtain ⟨hpos, rfl⟩ := hplain
      have hread := @kept_read _ n.toNat n.toNat [] h.input (by omega)
        (Nat.add_zero _) List.not_mem_nil (by rw [State.inHand, hnone]; rfl)
      rw [Option.some.inj hnext] at hread
      exact hread
  | resume =>
      obtain ⟨c, hc, hnext⟩ := Option.bind_eq_some_iff.1 hstep
      obtain ⟨-, hnext⟩ := Option.ite_none_left_eq_some.1 hnext
      obtain ⟨hpos, hlen, hgot, hkilled⟩ := h.call c hc
      rw [hkilled] at hnext
      have hread := kept_read h.input hpos hlen hgot (by rw [State.inHand, hc]; rfl)
      rw [Option.some.inj hnext] at hread
      exact hread
  | kill => exact hplain.elim

end Step

theorem Start.inv {s : State} (h : Start s) : Inv s := by
  refine ⟨⟨?_, ?_⟩, fun c hc => ?_⟩
  · rw [h.r, h.w, h.e]
  · rw [h.r, h.e]
    exact Nat.zero_le _
  · rw [h.call] at hc
    exact nomatch hc

theorem run_kept {s₀ s : State} {tr : List (State × (Event × Io))} (hstart : Start s₀)
    (hrun : Run Step s₀ tr s) (hplain : ∀ x ∈ tr, x.2.1.Plain) :
    Inv s ∧ committed tr = (reads tr).flatMap ofRead ++ (s.inHand ++ s.input.pending) ∧
      ∀ bs ∈ reads tr, ctrlD ∉ bs := by
  induction hrun with
  | nil =>
      refine ⟨hstart.inv, ?_, fun _ hbs => absurd hbs List.not_mem_nil⟩
      rw [State.inHand, hstart.call, Input.pending, hstart.r, hstart.w, RingBuffer.contents_self]
      rfl
  | @snoc tr s s' e _ hstep ih =>
      obtain ⟨hinv, hflow, hclean⟩ := ih fun x hx => hplain x (List.mem_append_left _ hx)
      have hkept := step_kept hinv (hplain (s, e) (by simp)) hstep
      have hcommitted : committed (tr ++ [(s, e)]) = committed tr ++ e.2.committed := by
        rw [committed, List.flatMap_append, List.flatMap_singleton]
        rfl
      have hreads : reads (tr ++ [(s, e)]) = reads tr ++ e.2.reads := by
        rw [reads, List.flatMap_append, List.flatMap_singleton]
        rfl
      refine ⟨hkept.inv, ?_, fun bs hbs => ?_⟩
      · rw [hcommitted, hreads, hflow, List.append_assoc, hkept.flow, List.flatMap_append,
          List.append_assoc]
      · rw [hreads] at hbs
        exact (List.mem_append.1 hbs).elim (hclean bs) (hkept.clean bs)

/-- The characters of reads, without those that end them. -/
theorem filter_ofRead {rs : List (List UInt8)} (h : ∀ bs ∈ rs, ctrlD ∉ bs) :
    (rs.flatMap ofRead).filter (· ≠ ctrlD) = rs.flatten := by
  induction rs with
  | nil => rfl
  | cons bs rs ih =>
      have hrest := ih fun b hb => h b (List.mem_cons_of_mem bs hb)
      have hbs : (ofRead bs).filter (· ≠ ctrlD) = bs := by
        by_cases hnil : bs = []
        · rw [hnil]
          rfl
        · rw [ofRead_of_ne hnil, List.filter_eq_self]
          intro b hb
          exact decide_eq_true fun heq => h bs List.mem_cons_self (heq ▸ hb)
      rw [List.flatMap_cons, List.filter_append, hbs, hrest, List.flatten_cons]

/-- **The line discipline**: the indices are in order; backspace and kill-line leave the committed
    characters alone; and the calls of `consoleread` return the committed characters in order, a
    call that returns nothing for each `^D`, and no `^D` otherwise. What has not been returned is in
    the hands of the call in progress, or pending. -/
theorem console_lines {s₀ s : State} {tr : List (State × (Event × Io))} (hstart : Start s₀)
    (hrun : Run Step s₀ tr s) (hplain : ∀ x ∈ tr, x.2.1.Plain) :
    (s.input.w - s.input.r ≤ s.input.e - s.input.r ∧ s.input.e - s.input.r ≤ inputBuf) ∧
    (∀ c, Input.Edits c → (s.input.intrChar c).1.w = s.input.w ∧
      (s.input.intrChar c).1.pending = s.input.pending) ∧
    committed tr = (reads tr).flatMap ofRead ++ (s.inHand ++ s.input.pending) ∧
    (committed tr).filter (· ≠ ctrlD) =
      (reads tr).flatten ++ (s.inHand ++ s.input.pending).filter (· ≠ ctrlD) := by
  obtain ⟨hinv, hflow, hclean⟩ := run_kept hstart hrun hplain
  refine ⟨⟨?_, ?_⟩, fun c hc => ?_, hflow, ?_⟩
  · exact UInt32.le_iff_toNat_le.2 hinv.input.order
  · exact UInt32.le_iff_toNat_le.2 hinv.input.room
  · have hedited := Input.intrChar_edited hinv.input hc
    exact ⟨hedited.w, hedited.pending⟩
  · rw [hflow, List.filter_append, filter_ofRead hclean]

/-- Nothing typed, nobody reads. -/
def fresh : State := ⟨⟨fun _ => 0, 0, 0, 0⟩, none⟩

/-- A reader waits; `ab`, backspace, `c` and `^D` are typed; it gets `ac`, and the next call gets
    nothing. -/
def session : List (Event × Io) :=
  [(.read 10 false, ⟨[], none⟩), (.intr [97, 98, ctrlH, 99], ⟨[], none⟩),
    (.intr [ctrlD], ⟨[97, 99, ctrlD], none⟩), (.resume, ⟨[], some (.bytes [97, 99])⟩),
    (.read 10 false, ⟨[], some (.bytes [])⟩)]

theorem session_plain : ∀ l ∈ session, l.1.Plain := by
  simp [session, Event.Plain]

theorem console_lines_session : ∃ tr s, Run Step fresh tr s ∧ tr.map Prod.snd = session ∧
    committed tr = (reads tr).flatMap ofRead ++ (s.inHand ++ s.input.pending) := by
  have hread : Step fresh (.read 10 false, ⟨[], none⟩) _ := rfl
  have hrun := ((((Run.nil.snoc hread).snoc
    (show Step _ (.intr [97, 98, ctrlH, 99], ⟨[], none⟩) _ from rfl)).snoc
    (show Step _ (.intr [ctrlD], ⟨[97, 99, ctrlD], none⟩) _ from rfl)).snoc
    (show Step _ (.resume, ⟨[], some (.bytes [97, 99])⟩) _ from rfl)).snoc
    (show Step _ (.read 10 false, ⟨[], some (.bytes [])⟩) _ from rfl)
  refine ⟨_, _, hrun, rfl, (console_lines ⟨rfl, rfl, rfl, rfl⟩ hrun fun x hx => ?_).2.2.1⟩
  exact session_plain _ (List.mem_map_of_mem (f := Prod.snd) hx)

end Cs350.Console
