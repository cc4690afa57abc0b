import Cs350.Bcache.Lru
import Cs350.Lib.Writes

set_option autoImplicit false

/-! # What the cache is for

A disk with one array of blocks would return from `bread` what was written last. The cache does the
same: a valid buffer holds what was written last to its block, and a block whose last write is only
in the log's list has a dirty buffer, which `bget` does not give away. -/

namespace Cs350.Bcache

open Transition

variable {π β : Type}

/-! ## The array of blocks -/

/-- The contents of the blocks after an event. -/
def Event.store (v : Nat → β) : Event π β → Nat → β
  | .write u d _ => Function.update v u.blockno d
  | _ => v

/-- Whether the last write to each block was one by `log_write`. -/
def Event.pin (pin : Nat → Bool) : Event π β → Nat → Bool
  | .write u _ logged => Function.update pin u.blockno logged
  | _ => pin

/-- What was written last to each block. -/
def stored (disk : Nat → β) (tr : List (State π β × Event π β)) : Nat → β :=
  tr.foldl (fun v x => x.2.store v) disk

/-- The blocks that are to be written by a commit. -/
def pinned (tr : List (State π β × Event π β)) : Nat → Bool :=
  tr.foldl (fun pin x => x.2.pin pin) fun _ => false

/-! ## The invariant -/

/-- The cache and the disk stand for the blocks `v`, of which those in `pin` are pinned. -/
structure Mirror (disksize : Nat) (v : Nat → β) (pin : Nat → Bool) (s : State π β) : Prop where
  valid : ∀ b, s.valid b = true →
    (s.dev b = 1 ∧ s.blockno b < disksize) ∧ s.data b = v (s.blockno b)
  dirty : ∀ b, s.dirty b = true → s.valid b = true
  holding : ∀ u ∈ s.uses, u.phase = .holding → s.valid u.buf = true
  disk : ∀ n, pin n = false → s.disk n = v n
  pinned : ∀ n, pin n = true → ∃ b, s.dirty b = true ∧ s.blockno b = n

namespace Mirror

variable {disksize : Nat} {v : Nat → β} {pin : Nat → Bool} {s s' : State π β}

theorem boot (disk : Nat → β) (data : Buf → β) :
    Mirror disksize disk (fun _ => false) (State.boot disk data : State π β) where
  valid _ h := nomatch h
  dirty _ h := nomatch h
  holding _ h := absurd h List.not_mem_nil
  disk _ _ := rfl
  pinned _ h := nomatch h

/-- A step that changes who uses the buffers. -/
theorem congr (h : Mirror disksize v pin s) (hdev : s'.dev = s.dev) (hblockno : s'.blockno = s.blockno)
    (hvalid : s'.valid = s.valid) (hdirty : s'.dirty = s.dirty) (hdata : s'.data = s.data)
    (hdisk : s'.disk = s.disk)
    (huses : ∀ u ∈ s'.uses, u.phase = .holding → s.valid u.buf = true) :
    Mirror disksize v pin s' where
  valid := by rw [hvalid, hdev, hblockno, hdata]; exact h.valid
  dirty := by rw [hdirty, hvalid]; exact h.dirty
  holding := by rw [hvalid]; exact huses
  disk := by rw [hdisk]; exact h.disk
  pinned := by rw [hdirty, hblockno]; exact h.pinned

/-- A buffer that is not dirty is given another block. -/
theorem recycle {time : Buf → Nat} {l : List Buf} (h : Mirror disksize v pin s) (hinv : Inv time l s)
    (p : π) {dev blockno : Nat} {b : Buf} (hb : s.unused = some b) : Mirror disksize v pin { s with
      dev := Function.update s.dev b dev
      blockno := Function.update s.blockno b blockno
      valid := Function.update s.valid b false
      dirty := Function.update s.dirty b false
      refcnt := Function.update s.refcnt b 1
      uses := ⟨p, dev, blockno, b, .waiting⟩ :: s.uses } := by
  obtain ⟨⟨hrefcnt, hclean⟩, -⟩ := hinv.unused_some hb
  refine ⟨fun c => ?_, fun c => ?_, fun u hu hphase => ?_, h.disk, fun n hn => ?_⟩
  · show Function.update s.valid b false c = true →
      (Function.update s.dev b dev c = 1 ∧ Function.update s.blockno b blockno c < disksize) ∧
        s.data c = v (Function.update s.blockno b blockno c)
    by_cases hcb : c = b
    · rw [hcb, Function.update_self]
      exact fun hvalid => nomatch hvalid
    · rw [Function.update_of_ne hcb, Function.update_of_ne hcb, Function.update_of_ne hcb]
      exact h.valid c
  · show Function.update s.dirty b false c = true → Function.update s.valid b false c = true
    by_cases hcb : c = b
    · rw [hcb, Function.update_self]
      exact fun hdirty => nomatch hdirty
    · rw [Function.update_of_ne hcb, Function.update_of_ne hcb]
      exact h.dirty c
  · show Function.update s.valid b false u.buf = true
    rcases List.mem_cons.1 hu with rfl | hu
    · exact nomatch hphase
    · have hne : u.buf ≠ b := fun heq => by
        have hpos := hinv.refcnt_pos hu
        rw [heq, hrefcnt] at hpos
        exact Nat.lt_irrefl 0 hpos
      rw [Function.update_of_ne hne]
      exact h.holding u hu hphase
  · obtain ⟨c, hc, hcn⟩ := h.pinned n hn
    have hne : c ≠ b := fun heq => by
      rw [heq, hclean] at hc
      exact nomatch hc
    refine ⟨c, ?_, ?_⟩
    · exact (Function.update_of_ne hne ..).trans hc
    · exact (Function.update_of_ne hne ..).trans hcn

/-- The block is read from the disk. -/
theorem fetch {time : Buf → Nat} {l : List Buf} (h : Mirror disksize v pin s) (hinv : Inv time l s)
    {b : Buf} (hdev : s.dev b = 1) (hblockno : s.blockno b < disksize) (hinvalid : s.valid b = false) :
    Mirror disksize v pin { s with
      data := Function.update s.data b (s.disk (s.blockno b))
      valid := Function.update s.valid b true } := by
  have hfresh : s.disk (s.blockno b) = v (s.blockno b) := by
    refine h.disk _ (Bool.eq_false_iff.2 fun hpin => ?_)
    -- otherwise it would be in a dirty buffer, which is this one
    obtain ⟨c, hc, hcn⟩ := h.pinned _ hpin
    have hvalid := h.dirty c hc
    have hcdev := (h.valid c hvalid).1.1
    have hcb : c = b := hinv.unique c b (by rw [hcdev]; decide) (hcdev.trans hdev.symm) hcn
    rw [hcb, hinvalid] at hvalid
    exact nomatch hvalid
  have hle : ∀ c, s.valid c = true → Function.update s.valid b true c = true := fun c hc => by
    by_cases hcb : c = b
    · rw [hcb, Function.update_self]
    · rwa [Function.update_of_ne hcb]
  refine ⟨fun c => ?_, fun c hc => hle c (h.dirty c hc),
    fun u hu hphase => hle u.buf (h.holding u hu hphase), h.disk, h.pinned⟩
  show Function.update s.valid b true c = true → _ ∧ Function.update s.data b _ c = v (s.blockno c)
  by_cases hcb : c = b
  · rw [hcb, Function.update_self, Function.update_self]
    exact fun _ => ⟨⟨hdev, hblockno⟩, hfresh⟩
  · rw [Function.update_of_ne hcb, Function.update_of_ne hcb]
    exact h.valid c

/-- The holder of a buffer changes its data. -/
theorem valid_write {time : Buf → Nat} {l : List Buf} (h : Mirror disksize v pin s)
    (hinv : Inv time l s) {b : Buf} (hb : s.valid b = true) (d : β) (c : Buf)
    (hc : s.valid c = true) : (s.dev c = 1 ∧ s.blockno c < disksize) ∧
      Function.update s.data b d c = Function.update v (s.blockno b) d (s.blockno c) := by
  obtain ⟨hdev, hdata⟩ := h.valid c hc
  refine ⟨hdev, ?_⟩
  by_cases hcb : c = b
  · rw [hcb, Function.update_self, Function.update_self]
  · -- no other buffer stands for the block
    have hne : s.blockno c ≠ s.blockno b := fun heq => hcb <|
      hinv.unique c b (by rw [hdev.1]; decide) (hdev.1.trans (h.valid b hb).1.1.symm) heq
    rw [Function.update_of_ne hcb, Function.update_of_ne hne, hdata]

theorem logged {time : Buf → Nat} {l : List Buf} (h : Mirror disksize v pin s)
    (hinv : Inv time l s) {b : Buf} (hb : s.valid b = true) (d : β) (lh : Log.LogHeader) :
    Mirror disksize (Function.update v (s.blockno b) d) (Function.update pin (s.blockno b) true)
      { s with
        data := Function.update s.data b d
        lh := lh
        dirty := Function.update s.dirty b true } := by
  refine ⟨h.valid_write hinv hb d, fun c => ?_, h.holding, fun n => ?_, fun n => ?_⟩
  · show Function.update s.dirty b true c = true → s.valid c = true
    by_cases hcb : c = b
    · exact fun _ => hcb ▸ hb
    · rw [Function.update_of_ne hcb]
      exact h.dirty c
  · by_cases hn : n = s.blockno b
    · rw [hn, Function.update_self]
      exact fun hpin => nomatch hpin
    · rw [Function.update_of_ne hn, Function.update_of_ne hn]
      exact h.disk n
  · by_cases hn : n = s.blockno b
    · exact fun _ => ⟨b, Function.update_self .., hn.symm⟩
    · rw [Function.update_of_ne hn]
      intro hpin
      obtain ⟨c, hc, hcn⟩ := h.pinned n hpin
      have hcb : c ≠ b := fun heq => hn (by rw [← hcn, heq])
      exact ⟨c, (Function.update_of_ne hcb ..).trans hc, hcn⟩

theorem written {time : Buf → Nat} {l : List Buf} (h : Mirror disksize v pin s)
    (hinv : Inv time l s) {b : Buf} (hb : s.valid b = true) {d : β}
    (hs' : { s with
      data := Function.update s.data b d
      dirty := Function.update s.dirty b true }.iderw disksize b = some s') :
    Mirror disksize (Function.update v (s.blockno b) d) (Function.update pin (s.blockno b) false)
      s' := by
  obtain ⟨-, ⟨-, rfl⟩ | ⟨hclean, -⟩⟩ := State.iderw_cases hs'
  swap
  · exact nomatch (Function.update_self b true s.dirty).symm.trans hclean
  have hvalid : Function.update s.valid b true = s.valid := by
    rw [← hb, Function.update_eq_self]
  refine ⟨?_, fun c => ?_, ?_, fun n => ?_, fun n => ?_⟩
  · show ∀ c, Function.update s.valid b true c = true → _
    rw [hvalid]
    exact h.valid_write hinv hb d
  · show Function.update (Function.update s.dirty b true) b false c = true →
      Function.update s.valid b true c = true
    rw [Function.update_idem, hvalid]
    by_cases hcb : c = b
    · exact fun _ => hcb ▸ hb
    · rw [Function.update_of_ne hcb]
      exact h.dirty c
  · show ∀ u ∈ s.uses, u.phase = .holding → Function.update s.valid b true u.buf = true
    rw [hvalid]
    exact h.holding
  · show _ → Function.update s.disk (s.blockno b) (Function.update s.data b d b) n = _
    by_cases hn : n = s.blockno b
    · intro _
      rw [hn, Function.update_self, Function.update_self, Function.update_self]
    · rw [Function.update_of_ne hn, Function.update_of_ne hn, Function.update_of_ne hn]
      exact h.disk n
  · by_cases hn : n = s.blockno b
    · rw [hn, Function.update_self]
      exact fun hpin => nomatch hpin
    · rw [Function.update_of_ne hn]
      intro hpin
      obtain ⟨c, hc, hcn⟩ := h.pinned n hpin
      have hcb : c ≠ b := fun heq => hn (by rw [← hcn, heq])
      refine ⟨c, ?_, hcn⟩
      show Function.update (Function.update s.dirty b true) b false c = true
      rw [Function.update_idem, Function.update_of_ne hcb]
      exact hc

variable [DecidableEq π]

/-- A use goes on; if it is to hold its buffer, the buffer is valid. -/
theorem setPhase (h : Mirror disksize v pin s) (u : Use π) {phase : Phase} (lock : Buf → Option π)
    (hphase : phase = .holding → s.valid u.buf = true) :
    Mirror disksize v pin ({ s with lock := lock }.setPhase u phase) := by
  refine h.congr rfl rfl rfl rfl rfl rfl fun w hw hholding => ?_
  rcases List.mem_cons.1 hw with rfl | hw
  · exact hphase hholding
  · exact h.holding w (List.mem_of_mem_erase hw) hholding

theorem step {time : Buf → Nat} {l : List Buf} {size : Nat} {e : Event π β}
    (h : Mirror disksize v pin s) (hinv : Inv time l s) (hstep : Step disksize size s e s') :
    Mirror disksize (e.store v) (e.pin pin) s' := by
  cases step_move hstep with
  | hit hb =>
      refine h.congr rfl rfl rfl rfl rfl rfl fun u hu hphase => ?_
      rcases List.mem_cons.1 hu with rfl | hu
      · exact nomatch hphase
      · exact h.holding u hu hphase
  | recycle _ hb => exact h.recycle hinv _ hb
  | @found u _ _ _ hvalid => exact h.setPhase u _ fun _ => hvalid
  | @fetched u s' _ _ _ hinvalid hs' =>
      obtain ⟨⟨hdev, hblockno⟩, ⟨hdirty, -⟩ | ⟨-, -, rfl⟩⟩ := State.iderw_cases hs'
      · rw [h.dirty u.buf hdirty] at hinvalid
        exact nomatch hinvalid
      · exact (h.fetch hinv hdev hblockno hinvalid).setPhase u _ fun _ => Function.update_self ..
  | @logged u d lh hu hphase =>
      have hlogged := h.logged hinv (h.holding u hu hphase) d lh
      rw [(hinv.ident u hu).2] at hlogged
      exact hlogged
  | @written u d s' hu hphase hs' =>
      have hwritten := h.written hinv (h.holding u hu hphase) hs'
      rw [(hinv.ident u hu).2] at hwritten
      exact hwritten
  | @releasesleep u => exact h.setPhase u _ fun heq => nomatch heq
  | brelse =>
      exact h.congr rfl rfl rfl rfl rfl rfl fun w hw => h.holding w (List.mem_of_mem_erase hw)
  | clear => exact h.congr rfl rfl rfl rfl rfl rfl h.holding

/-! ## What `bread` returns -/

omit [DecidableEq π] in
/-- What a process that holds a buffer sees. -/
theorem data_of_holding {time : Buf → Nat} {l : List Buf} (h : Mirror disksize v pin s)
    (hinv : Inv time l s) {u : Use π} (hu : u ∈ s.uses) (hphase : u.phase = .holding) :
    (s.dev u.buf = 1 ∧ s.blockno u.buf = u.blockno) ∧ s.data u.buf = v u.blockno := by
  obtain ⟨⟨hdev, -⟩, hdata⟩ := h.valid u.buf (h.holding u hu hphase)
  rw [(hinv.ident u hu).2] at hdata
  exact ⟨⟨hdev, (hinv.ident u hu).2⟩, hdata⟩

omit [DecidableEq π] in
/-- The buffer of a block that is not on the disk yet. -/
theorem data_of_pinned (h : Mirror disksize v pin s) {n : Nat} (hn : pin n = true) :
    ∃ b, s.dirty b = true ∧ (s.dev b = 1 ∧ s.blockno b = n) ∧ s.data b = v n := by
  obtain ⟨b, hb, rfl⟩ := h.pinned n hn
  obtain ⟨⟨hdev, -⟩, hdata⟩ := h.valid b (h.dirty b hb)
  exact ⟨b, hb, ⟨hdev, rfl⟩, hdata⟩

end Mirror

section Runs

variable [DecidableEq π] {disksize size : Nat} {s s' : State π β}
  {tr : List (State π β × Event π β)} {disk : Nat → β} {data : Buf → β}

theorem run_mirror (hrun : Run (Step disksize size) (State.boot disk data) tr s) :
    Mirror disksize (stored disk tr) (pinned tr) s := by
  induction hrun with
  | nil => exact Mirror.boot disk data
  | snoc hrun hstep ih =>
      obtain ⟨l, hinv⟩ := run_inv hrun
      rw [stored, pinned, List.foldl_concat, List.foldl_concat]
      exact ih.step hinv hstep

/-- `bread` returns with the buffer held. -/
theorem holding_of_bread {u : Use π} (hstep : Step disksize size s (.bread u) s') :
    { u with phase := .holding } ∈ s'.uses := by
  cases step_move hstep with
  | found => exact List.mem_cons_self
  | fetched _ _ _ _ hs' =>
      obtain ⟨-, ⟨-, rfl⟩ | ⟨-, -, rfl⟩⟩ := State.iderw_cases hs' <;> exact List.mem_cons_self

/-- `bget` finds a buffer if one is free. -/
theorem bget_ok {time : Buf → Nat} {l : List Buf} (hinv : Inv time l s) (p : π) (dev blockno : Nat)
    {b : Buf} (hrefcnt : s.refcnt b = 0) (hclean : s.dirty b = false) :
    ∃ s', Step disksize size s (.bget p dev blockno) s' := by
  show ∃ s', s.bget p dev blockno = some s'
  unfold State.bget
  cases s.cached dev blockno with
  | some c => exact ⟨_, rfl⟩
  | none =>
      cases hunused : s.unused with
      | some c => exact ⟨_, rfl⟩
      | none =>
          rw [hinv.unused_eq] at hunused
          have hno := List.find?_eq_none.1 hunused b (List.mem_reverse.2 (hinv.all b))
          exact absurd (decide_eq_true (p := _ ∧ _) ⟨hrefcnt, hclean⟩) hno

omit [DecidableEq π] in
theorem iderw_ok {b : Buf} (hlock : s.lock b ≠ none) (hneeded : ¬ (s.valid b = true ∧ s.dirty b = false))
    (hdev : s.dev b = 1) (hblockno : s.blockno b < disksize) :
    ∃ s', s.iderw disksize b = some s' := by
  unfold State.iderw
  rw [if_neg hlock, if_neg hneeded, if_neg (not_not.2 hdev), if_neg (Nat.not_le.2 hblockno)]
  split_ifs <;> exact ⟨_, rfl⟩

theorem bread_ok {u : Use π} (hu : u ∈ s.uses) (hphase : u.phase = .waiting)
    (hlock : s.lock u.buf = none) (hdev : s.dev u.buf = 1) (hblockno : s.blockno u.buf < disksize) :
    ∃ s', Step disksize size s (.bread u) s' := by
  show ∃ s', (if u ∈ s.uses ∧ u.phase = .waiting ∧ s.lock u.buf = none then s.bread disksize u
    else none) = some s'
  rw [if_pos ⟨hu, hphase, hlock⟩]
  unfold State.bread
  dsimp only
  split_ifs with hvalid
  · exact ⟨_, rfl⟩
  · have hlocked : (s.acquiresleep u).lock u.buf ≠ none := by
      show Function.update s.lock u.buf (some u.proc) u.buf ≠ none
      rw [Function.update_self]
      exact Option.some_ne_none _
    exact iderw_ok hlocked (fun hvalid' => hvalid hvalid'.1) hdev hblockno

/-- The cache seen from outside, after the calls of `tr`. -/
structure Transparent (disksize size : Nat) (disk : Nat → β) (tr : List (State π β × Event π β))
    (s : State π β) : Prop where
  /-- `bread` returns what was written last -/
  bread : ∀ u s', Step disksize size s (.bread u) s' →
    (s'.dev u.buf = 1 ∧ s'.blockno u.buf = u.blockno) ∧ s'.data u.buf = stored disk tr u.blockno
  /-- and it stays so while the buffer is held -/
  holding : ∀ u ∈ s.uses, u.phase = .holding →
    (s.dev u.buf = 1 ∧ s.blockno u.buf = u.blockno) ∧ s.data u.buf = stored disk tr u.blockno
  /-- what is not on the disk is in a dirty buffer -/
  pinned : ∀ n, pinned tr n = true →
    ∃ b, s.dirty b = true ∧ (s.dev b = 1 ∧ s.blockno b = n) ∧ s.data b = stored disk tr n
  disk : ∀ n, Bcache.pinned tr n = false → s.disk n = stored disk tr n
  /-- there is no panic as long as there is a free buffer -/
  bget_ok : ∀ p dev blockno, (∃ b, s.refcnt b = 0 ∧ s.dirty b = false) →
    ∃ s', Step disksize size s (.bget p dev blockno) s'
  bread_ok : ∀ u ∈ s.uses, u.phase = .waiting → s.lock u.buf = none → u.dev = 1 →
    u.blockno < disksize → ∃ s', Step disksize size s (.bread u) s'

theorem bcache_transparent (hrun : Run (Step disksize size) (State.boot disk data) tr s) :
    Transparent disksize size disk tr s := by
  have h := run_mirror hrun
  obtain ⟨l, hinv⟩ := run_inv hrun
  refine ⟨fun u s' hstep => ?_, fun u hu => h.data_of_holding hinv hu, fun n => h.data_of_pinned,
    h.disk, fun p dev blockno ⟨b, hrefcnt, hclean⟩ => bget_ok hinv p dev blockno hrefcnt hclean,
    fun u hu hphase hlock hdev hblockno => ?_⟩
  · obtain ⟨l', hinv'⟩ := hinv.step (released_le tr) hstep
    have hu := holding_of_bread hstep
    exact Mirror.data_of_holding (u := { u with phase := .holding }) (h.step hinv hstep) hinv' hu rfl
  · obtain ⟨hdev', hblockno'⟩ := hinv.ident u hu
    exact bread_ok hu hphase hlock (hdev'.trans hdev) (hblockno'.symm ▸ hblockno)

/-- A block is changed in the cache and written to the disk at the end of a commit. Then the other
    buffers are taken, its buffer is given another block, and it is read again. -/
def rereading : List (Event Nat Nat) :=
  let u (p n : Nat) (phase : Phase) : Use Nat := ⟨p, 1, n, ⟨0, zero_lt_nbuf⟩, phase⟩
  let read (p n : Nat) : List (Event Nat Nat) := [.bget p 1 n, .bread (u p n .waiting)]
  let release (p n : Nat) : List (Event Nat Nat) :=
    [.releasesleep (u p n .holding), .brelse (u p n .releasing)]
  read 1 5 ++ [.write (u 1 5 .holding) 7 true] ++ release 1 5
    ++ read 2 5 ++ [.write (u 2 5 .holding) 7 false] ++ release 2 5 ++ [.clear]
    ++ (List.range 29).map (fun n => .bget 2 1 (100 + n))
    ++ read 1 6 ++ release 1 6 ++ read 1 5

theorem bcache_transparent_rereading : ∃ tr s,
    Run (Step 1000 30) (State.boot (fun _ => 0) fun _ => 0) tr s ∧ tr.map Prod.snd = rereading ∧
      s.data ⟨0, zero_lt_nbuf⟩ = 7 ∧ Transparent 1000 30 (fun _ => 0) tr s := by
  have hplays : (play (State.next 1000 30) (State.boot (fun _ => 0) fun _ => 0) rereading).map
      (fun x => x.2.data ⟨0, zero_lt_nbuf⟩) = some 7 := by decide +kernel
  obtain ⟨⟨tr, s⟩, hplay, hdata⟩ := Option.map_eq_some_iff.1 hplays
  obtain ⟨hrun, hlabels⟩ := play_run hplay
  exact ⟨tr, s, hrun, hlabels, hdata, bcache_transparent hrun⟩

end Runs

/-! ## The cache under the log -/

section Io

variable {disksize size : Nat} {s s' : State π Log.Block}
  {tr : List (State π Log.Block × Event π Log.Block)} {disk : Log.Disk} {data : Buf → Log.Block}

/-- An event as the log sees it: only `bwrite` goes to the disk. -/
def Event.io (io : Log.Io) : Event π Log.Block → Log.Io
  | .write u d false => io.bwrite u.blockno d
  | .write u d true => { io with bread := Function.update io.bread u.blockno d }
  | _ => io

theorem Event.io_bread (io : Log.Io) (e : Event π Log.Block) :
    (e.io io).bread = e.store io.bread := by
  cases e with
  | write u d logged => cases logged <;> rfl
  | _ => rfl

variable [DecidableEq π]

/-- A step writes to the disk what the log sees written. -/
theorem disk_step {time : Buf → Nat} {l : List Buf} {v : Nat → Log.Block} {pin : Nat → Bool}
    {io : Log.Io} {e : Event π Log.Block} (h : Mirror disksize v pin s) (hinv : Inv time l s)
    (hdisk : s.disk = Writes.applyWrites io.writes disk) (hstep : Step disksize size s e s') :
    s'.disk = Writes.applyWrites (e.io io).writes disk := by
  cases step_move hstep with
  | fetched _ _ _ hinvalid hs' =>
      obtain ⟨-, ⟨hdirty, -⟩ | ⟨-, -, rfl⟩⟩ := State.iderw_cases hs'
      · rw [h.dirty _ hdirty] at hinvalid
        exact nomatch hinvalid
      · exact hdisk
  | @written u d s' hu _ hs' =>
      obtain ⟨-, ⟨-, rfl⟩ | ⟨hclean, -⟩⟩ := State.iderw_cases hs'
      · show Function.update s.disk (s.blockno u.buf) (Function.update s.data u.buf d u.buf)
          = Writes.applyWrites (io.writes ++ [(u.blockno, d)]) disk
        rw [Writes.applyWrites_append, ← hdisk, (hinv.ident u hu).2, Function.update_self]
        rfl
      · exact nomatch (Function.update_self u.buf true s.dirty).symm.trans hclean
  | hit | recycle | found | logged | releasesleep | brelse | clear => exact hdisk

/-- A run of the cache is a run of the device that the log is written for. -/
theorem run_io (hrun : Run (Step disksize size) (State.boot disk data) tr s) :
    (tr.foldl (fun io x => x.2.io io) (Log.Io.boot disk)).bread = stored disk tr ∧
      s.disk = Writes.applyWrites (tr.foldl (fun io x => x.2.io io) (Log.Io.boot disk)).writes
        disk := by
  induction hrun with
  | nil => exact ⟨rfl, rfl⟩
  | snoc hrun hstep ih =>
      obtain ⟨hbread, hdisk⟩ := ih
      obtain ⟨l, hinv⟩ := run_inv hrun
      rw [stored, List.foldl_concat, List.foldl_concat]
      exact ⟨by rw [Event.io_bread, hbread, stored], disk_step (run_mirror hrun) hinv hdisk hstep⟩

end Io

end Cs350.Bcache
