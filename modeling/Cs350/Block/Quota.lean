import Cs350.Block.Array
import Cs350.Lib.Agrees
import Cs350.Lib.Emits
import Cs350.Log.Defs

set_option autoImplicit false

/-! # What a write logs

`filewrite` cuts a write into rounds, so that the blocks that `writei` passes to `log_write` in one
of them fit into the share of the log that an operation reserves. Here every call of `log_write`
leaves the number of the block as a mark: the blocks of the file that are written, the blocks that
`balloc` zeroes, the blocks of the free map and of the inodes, and the indirect block. -/

namespace Cs350.Block

open FileSys (IType Ip nInode)
open Prog

/-! ## The program, with marks -/

/-- The fields of `struct superblock` that say where the inodes and the free map are. -/
structure Regions where
  inodestart : Nat
  bmapstart : Nat

namespace Regions

/-- `BBLOCK`: the block of the free map that contains the bit for block `b`. -/
def bblock (r : Regions) (b : Nat) : Nat := b / (bsize * 8) + r.bmapstart

/-- `IBLOCK`: the block that contains inode `i`; an inode takes 64 bytes. -/
def iblock (r : Regions) (i : Nat) : Nat := i / (bsize / 64) + r.inodestart

end Regions

namespace Logged

abbrev LogM := Prog Panic Nat Fs

/-- `log_write` of the buffer of block `b`. -/
def logWrite (b : Nat) : LogM Unit := mark fun _ => b

variable (r : Regions)

def bzero (b : Nat) : LogM Unit := do
  modify (·.setData b fun _ => 0)
  logWrite b

def balloc : LogM Nat := do
  let s ← get
  match (List.range s.sb.size.toNat).find? (fun b => s.bitmap b = false) with
  | some b => do
      modify (·.setBit b true)
      logWrite (r.bblock b)
      bzero b
      pure b
  | none => stop .outOfBlocks

def addrOf (ip : Ip) (k : Fin (nDirect + 1)) : LogM Nat := do
  let s ← get
  if (s.node ip).addrs k = 0 then do
    let addr ← balloc r
    modify (·.setAddr ip k addr)
    pure addr
  else
    pure ((s.node ip).addrs k)

def entryOf (ind j : Nat) : LogM Nat := do
  let s ← get
  if entry (s.data ind) j = 0 then do
    let addr ← balloc r
    modify (·.setData ind ((s.data ind).store (4 * j) 4 addr))
    logWrite ind
    pure addr
  else
    pure (entry (s.data ind) j)

def bmap (ip : Ip) (bn : Nat) : LogM Nat :=
  if h : bn < nDirect then
    addrOf r ip ⟨bn, Nat.lt_succ_of_lt h⟩
  else if bn - nDirect < nIndirect then do
    let ind ← addrOf r ip indirectAddr
    entryOf r ind (bn - nDirect)
  else
    stop .bmapRange

def iupdate (ip : Ip) : LogM Unit := do
  let s ← get
  modify fun s => s.setDinode (s.inum ip) (s.node ip)
  logWrite (r.iblock (s.inum ip))

def writeLoop (ip : Ip) (src : Mem) (n : Nat) : Nat → Nat → Nat → LogM Nat
  | 0, _, off => pure off
  | fuel + 1, tot, off =>
      if tot < n then do
        let b ← bmap r ip (off / bsize)
        let m := min (n - tot) (bsize - off % bsize)
        modify fun s => s.setData b (memmove (s.data b) (off % bsize) src tot m)
        logWrite b
        writeLoop ip src n fuel (tot + m) (off + m)
      else
        pure off

/-- `writei` of a file that is not a device. -/
def writei (ip : Ip) (src : Mem) (off n : UInt32) : LogM Int := do
  let s ← get
  if (s.node ip).type = .dev then
    match (s.driver ip).bind Devsw.write with
    | none => pure (-1)
    | some f => pure (f src n)
  else if off.toNat > (s.node ip).size ∨ off + n < off then
    pure (-1)
  else if (off + n).toNat > maxFile * bsize then
    pure (-1)
  else do
    let off ← writeLoop r ip src n.toNat n.toNat 0 off.toNat
    let s ← get
    if n > 0 ∧ off > (s.node ip).size then do
      modify (·.setNode ip { s.node ip with size := off })
      iupdate r ip
      pure n.toNat
    else
      pure n.toNat

/-! ### The marks change nothing -/

theorem bzero_agrees (b : Nat) : Agrees (bzero b) (Block.bzero b) := fun _ => rfl

theorem balloc_agrees : Agrees (balloc r) Block.balloc := by
  refine Agrees.bind Agrees.get fun s => ?_
  cases (List.range s.sb.size.toNat).find? fun b => s.bitmap b = false with
  | none => exact Agrees.stop _
  | some b =>
      exact Agrees.bind (Agrees.modify _) fun _ => Agrees.mark_bind <|
        Agrees.bind (bzero_agrees b) fun _ => Agrees.pure b

theorem addrOf_agrees (ip : Ip) (k : Fin (nDirect + 1)) :
    Agrees (addrOf r ip k) (Block.addrOf ip k) := by
  refine Agrees.bind Agrees.get fun s => Agrees.ite (fun _ => ?_) fun _ => Agrees.pure _
  exact Agrees.bind (balloc_agrees r) fun _ => Agrees.bind (Agrees.modify _) fun _ => Agrees.pure _

theorem entryOf_agrees (ind j : Nat) : Agrees (entryOf r ind j) (Block.entryOf ind j) := by
  refine Agrees.bind Agrees.get fun s => Agrees.ite (fun _ => ?_) fun _ => Agrees.pure _
  exact Agrees.bind (balloc_agrees r) fun _ => Agrees.bind (Agrees.modify _) fun _ =>
    Agrees.mark_bind (Agrees.pure _)

theorem bmap_agrees (ip : Ip) (bn : Nat) : Agrees (bmap r ip bn) (Block.bmap ip bn) := by
  unfold bmap Block.bmap
  split_ifs
  · exact addrOf_agrees r ip _
  · exact Agrees.bind (addrOf_agrees r ip _) fun _ => entryOf_agrees r _ _
  · exact Agrees.stop _

theorem writeLoop_agrees (ip : Ip) (src : Mem) (n fuel tot off : Nat) :
    Agrees (writeLoop r ip src n fuel tot off) (Block.writeLoop ip src n fuel tot off) := by
  induction fuel generalizing tot off with
  | zero => exact Agrees.pure off
  | succ fuel ih =>
      refine Agrees.ite (fun _ => ?_) fun _ => Agrees.pure off
      exact Agrees.bind (bmap_agrees r ip _) fun _ => Agrees.bind (Agrees.modify _) fun _ =>
        Agrees.mark_bind (ih _ _)

theorem iupdate_agrees (ip : Ip) : Agrees (iupdate r ip) (Block.iupdate ip) := fun _ => rfl

theorem writei_agrees (ip : Ip) (src : Mem) (off n : UInt32) :
    Agrees (writei r ip src off n) (Block.writei ip src off n) := by
  refine Agrees.bind Agrees.get fun s => Agrees.ite (fun _ => ?_) fun _ =>
    Agrees.ite (fun _ => Agrees.pure _) fun _ => Agrees.ite (fun _ => Agrees.pure _) fun _ => ?_
  · cases (s.driver ip).bind Devsw.write <;> exact Agrees.pure _
  · refine Agrees.bind (writeLoop_agrees r ip src _ _ _ _) fun off' => Agrees.bind Agrees.get
      fun s' => Agrees.ite (fun _ => ?_) fun _ => Agrees.pure _
    exact Agrees.bind (Agrees.modify _) fun _ => Agrees.bind (iupdate_agrees r ip) fun _ =>
      Agrees.pure _

end Logged

/-! ## Counting -/

/-- The number of the indirect block. -/
def Fs.indirect (s : Fs) (ip : Ip) : Nat := (s.node ip).addrs indirectAddr

/-- The logged blocks are `d` blocks of the file, `k` blocks of the free map, and the indirect
    block `i`. -/
def Logs (i d k : Nat) (ws : List Nat) : Prop :=
  ∃ D N : Finset Nat, D.card ≤ d ∧ N.card ≤ k ∧ ∀ w ∈ ws, w ∈ D ∨ w ∈ N ∨ w ≠ 0 ∧ w = i

/-- The same, where the indirect block is that of `s` if there is one. -/
def LogsFrom (s : Fs) (ip : Ip) (d k : Nat) (ws : List Nat) : Prop :=
  ∃ i, (s.indirect ip ≠ 0 → i = s.indirect ip) ∧ Logs i d k ws

section Logs

variable {s s₁ : Fs} {ip : Ip} {i d k d' k' : Nat} {ws ws' : List Nat}

theorem Logs.mono (h : Logs i d k ws) (hd : d ≤ d') (hk : k ≤ k') : Logs i d' k' ws := by
  obtain ⟨D, N, hD, hN, hmem⟩ := h
  exact ⟨D, N, hD.trans hd, hN.trans hk, hmem⟩

theorem Logs.card (h : Logs i d k ws) : ws.toFinset.card ≤ d + k + 1 := by
  obtain ⟨D, N, hD, hN, hmem⟩ := h
  have hsub : ws.toFinset ⊆ D ∪ N ∪ {i} := by
    intro w hw
    have hcases := hmem w (List.mem_toFinset.1 hw)
    simp only [Finset.mem_union, Finset.mem_singleton]
    tauto
  calc ws.toFinset.card ≤ (D ∪ N ∪ {i}).card := Finset.card_le_card hsub
    _ ≤ (D ∪ N).card + ({i} : Finset Nat).card := Finset.card_union_le ..
    _ ≤ D.card + N.card + 1 := Nat.add_le_add_right (Finset.card_union_le ..) 1
    _ ≤ d + k + 1 := by omega

theorem LogsFrom.nil (s : Fs) (ip : Ip) (d k : Nat) : LogsFrom s ip d k [] :=
  ⟨s.indirect ip, fun _ => rfl, ∅, ∅, Nat.zero_le d, Nat.zero_le k, fun _ hw => nomatch hw⟩

theorem LogsFrom.mono (h : LogsFrom s ip d k ws) (hd : d ≤ d') (hk : k ≤ k') :
    LogsFrom s ip d' k' ws := by
  obtain ⟨i, hi, hlogs⟩ := h
  exact ⟨i, hi, hlogs.mono hd hk⟩

/-- Another block may stand for the indirect block as long as there is none. -/
theorem Logs.relabel {j : Nat} (h : Logs i d k ws) (hj : i ≠ 0 → j = i) : Logs j d k ws := by
  obtain ⟨D, N, hD, hN, hmem⟩ := h
  refine ⟨D, N, hD, hN, fun w hw => (hmem w hw).imp_right (Or.imp_right ?_)⟩
  rintro ⟨hne, rfl⟩
  exact ⟨hne, (hj hne).symm⟩

theorem Logs.add (h : Logs i d k ws) (h' : Logs i d' k' ws') :
    Logs i (d + d') (k + k') (ws ++ ws') := by
  obtain ⟨D, N, hD, hN, hmem⟩ := h
  obtain ⟨D', N', hD', hN', hmem'⟩ := h'
  refine ⟨D ∪ D', N ∪ N', (Finset.card_union_le ..).trans (Nat.add_le_add hD hD'),
    (Finset.card_union_le ..).trans (Nat.add_le_add hN hN'), fun w hw => ?_⟩
  simp only [Finset.mem_union]
  rcases List.mem_append.1 hw with hw | hw
  · rcases hmem w hw with hD | hN | hind
    · exact Or.inl (Or.inl hD)
    · exact Or.inr (Or.inl (Or.inl hN))
    · exact Or.inr (Or.inr hind)
  · rcases hmem' w hw with hD | hN | hind
    · exact Or.inl (Or.inr hD)
    · exact Or.inr (Or.inl (Or.inr hN))
    · exact Or.inr (Or.inr hind)

/-- One part after another; the indirect block stays once it is there. -/
theorem Logs.append (h : Logs (s₁.indirect ip) d k ws)
    (hkeep : s.indirect ip ≠ 0 → s₁.indirect ip = s.indirect ip)
    (h' : LogsFrom s₁ ip d' k' ws') : LogsFrom s ip (d + d') (k + k') (ws ++ ws') := by
  obtain ⟨i, hi, hlogs⟩ := h'
  refine ⟨i, fun hne => ?_, (h.relabel hi).add hlogs⟩
  have hsame := hkeep hne
  rw [← hsame]
  exact hi (by rwa [hsame])

end Logs

/-! ## `bmap` -/

/-- One, if the block has to be allocated. -/
def vacant (b : Nat) : Nat := if b = 0 then 1 else 0

/-- The logged blocks are `k` blocks of the free map, and blocks in `bs`. -/
def MapLogs (k : Nat) (ws bs : List Nat) : Prop :=
  ∃ N : Finset Nat, N.card ≤ k ∧ ∀ w ∈ ws, w ∈ N ∨ w ∈ bs

theorem vacant_pos {b : Nat} (h : b ≠ 0) : vacant b = 0 := if_neg h

theorem vacant_le (b : Nat) : vacant b ≤ 1 := by
  unfold vacant
  split_ifs <;> omega

section MapLogs

variable {k b ind : Nat} {ws : List Nat}

/-- A direct block, which is written next. -/
theorem MapLogs.direct (h : MapLogs k ws [b]) (i : Nat) : Logs i 1 k (ws ++ [b]) := by
  obtain ⟨N, hN, hmem⟩ := h
  refine ⟨{b}, N, by simp, hN, fun w hw => ?_⟩
  rcases List.mem_append.1 hw with hw | hw
  · rcases hmem w hw with hN | hb
    · exact Or.inr (Or.inl hN)
    · exact Or.inl (by simpa using hb)
  · exact Or.inl (by simpa using hw)

theorem MapLogs.indirect (h : MapLogs k ws [ind]) (hne : ind ≠ 0) : Logs ind 0 k ws := by
  obtain ⟨N, hN, hmem⟩ := h
  refine ⟨∅, N, by simp, hN, fun w hw => ?_⟩
  rcases hmem w hw with hN | hind
  · exact Or.inr (Or.inl hN)
  · obtain rfl : w = ind := by simpa using hind
    exact Or.inr (Or.inr ⟨hne, rfl⟩)

/-- An entry of the indirect block, whose block is written next. -/
theorem MapLogs.entry (h : MapLogs k ws [b, ind]) (hne : ind ≠ 0) : Logs ind 1 k (ws ++ [b]) := by
  obtain ⟨N, hN, hmem⟩ := h
  refine ⟨{b}, N, by simp, hN, fun w hw => ?_⟩
  rcases List.mem_append.1 hw with hw | hw
  · rcases hmem w hw with hN | hcases
    · exact Or.inr (Or.inl hN)
    · obtain rfl | rfl : w = b ∨ w = ind := by simpa using hcases
      · exact Or.inl (Finset.mem_singleton_self w)
      · exact Or.inr (Or.inr ⟨hne, rfl⟩)
  · exact Or.inl (by simpa using hw)

end MapLogs

section Bmap

variable {s : Fs} {ip : Ip} {bn : Nat}

/-- Block 0 is in use, so `balloc` does not return it. -/
theorem balloc_emits (r : Regions) (h0 : s.bitmap 0) :
    emits (Logged.balloc r) s (fun ws b s' => ws = [r.bblock b, b] ∧ b ≠ 0 ∧ s'.bitmap 0 ∧
      s'.icache = s.icache) fun ws => ws = [] := by
  refine emits_get_bind ?_
  cases hfind : (List.range s.sb.size.toNat).find? fun b => s.bitmap b = false with
  | none => exact emits_stop rfl
  | some b =>
      have hbit : s.bitmap b = false := by simpa using List.find?_some hfind
      have hne : b ≠ 0 := by
        rintro rfl
        simp [hbit] at h0
      refine emits_modify_bind (emits_mark_bind ?_)
      exact ⟨rfl, hne, (Function.update_of_ne hne.symm ..).trans h0, rfl⟩

theorem addrOf_emits (r : Regions) (h0 : s.bitmap 0) (ip : Ip) (j : Fin (nDirect + 1)) :
    emits (Logged.addrOf r ip j) s (fun ws b s' => MapLogs (vacant ((s.node ip).addrs j)) ws [b] ∧
        b ≠ 0 ∧ ((s.node ip).addrs j ≠ 0 → b = (s.node ip).addrs j ∧ s' = s) ∧ s'.bitmap 0 ∧
        s'.node ip = (s.node ip).setAddr j b) fun ws => ws = [] := by
  refine emits_get_bind ?_
  split_ifs with hzero
  · refine emits_bind (balloc_emits r h0) fun ws b s₁ hws => emits_modify_bind (emits_pure ?_)
    obtain ⟨rfl, hne, h0', hcache⟩ := hws
    refine ⟨⟨{r.bblock b}, by simp [vacant, hzero], by simp⟩, hne, absurd hzero, h0', ?_⟩
    rw [Fs.setAddr, setNode_node, Fs.node, hcache]
    rfl
  · refine emits_pure ⟨⟨∅, by simp, by simp⟩, hzero, fun _ => ⟨rfl, rfl⟩, h0, ?_⟩
    simp [Dinode.setAddr]

theorem entryOf_emits (r : Regions) (h0 : s.bitmap 0) (ip : Ip) (ind j : Nat) :
    emits (Logged.entryOf r ind j) s (fun ws b s' =>
        MapLogs (vacant (entry (s.data ind) j)) ws [b, ind] ∧ s'.bitmap 0 ∧ s'.node ip = s.node ip)
      fun ws => ws = [] := by
  refine emits_get_bind ?_
  split_ifs with hzero
  · refine emits_bind (balloc_emits r h0) fun ws b s₁ hws =>
      emits_modify_bind (emits_mark_bind (emits_pure ?_))
    obtain ⟨rfl, -, h0', hcache⟩ := hws
    exact ⟨⟨{r.bblock b}, by simp [vacant, hzero], by simp⟩, h0', congrArg (·.node) (congrFun hcache ip)⟩
  · exact emits_pure ⟨⟨∅, by simp, by simp⟩, h0, rfl⟩

/-- A block that has to be allocated takes a place for the free map, and so does the indirect block
    the first time that it is needed. -/
theorem bmap_emits (r : Regions) (h0 : s.bitmap 0) (ip : Ip) (hmax : bn < maxFile) :
    emits (Logged.bmap r ip bn) s (fun ws b s' =>
        s'.bitmap 0 ∧ (s.indirect ip ≠ 0 → s'.indirect ip = s.indirect ip) ∧
        ∃ k, k + vacant (s'.indirect ip) ≤
            vacant (lblock (s.node ip) s.data bn) + vacant (s.indirect ip) ∧
          Logs (s'.indirect ip) 1 k (ws ++ [b]))
      (LogsFrom s ip 0 (vacant (lblock (s.node ip) s.data bn) + vacant (s.indirect ip))) := by
  by_cases hdir : bn < nDirect
  · rw [Logged.bmap, dif_pos hdir, lblock_direct hdir]
    refine emits_mono (addrOf_emits r h0 ip _) ?_ ?_
    · rintro ws b s' ⟨hlogs, -, -, h0', hnode⟩
      have hind : s'.indirect ip = s.indirect ip := by
        rw [Fs.indirect, hnode]
        exact setAddr_of_ne (fun heq => hdir.ne' (congrArg Fin.val heq)) b
      exact ⟨h0', fun _ => hind, _, by rw [hind], hlogs.direct _⟩
    · rintro ws rfl
      exact LogsFrom.nil s ip ..
  · have hrange : bn - nDirect < nIndirect := by
      have : maxFile = nDirect + nIndirect := rfl
      omega
    rw [Logged.bmap, dif_neg hdir, if_pos hrange]
    refine emits_bind (emits_mono (addrOf_emits r h0 ip _) (fun _ _ _ h => h) ?_) ?_
    · rintro ws rfl
      exact LogsFrom.nil s ip ..
    · rintro ws ind s₁ ⟨hlogs, hne, hsame, h0₁, hnode₁⟩
      have hind₁ : s₁.indirect ip = ind := by
        rw [Fs.indirect, hnode₁, setAddr_self]
      -- without an indirect block, both it and the block have to be allocated
      have hcost : vacant (s.indirect ip) + vacant (entry (s₁.data ind) (bn - nDirect)) ≤
          vacant (lblock (s.node ip) s.data bn) + vacant (s.indirect ip) := by
        by_cases hnone : s.indirect ip = 0
        · have hle := vacant_le (entry (s₁.data ind) (bn - nDirect))
          rw [lblock_none (by omega) hnone, hnone]
          exact Nat.add_le_add_left hle 1
        · obtain ⟨rfl, rfl⟩ := hsame hnone
          rw [lblock_entry (by omega) hmax hnone]
          exact (Nat.add_comm ..).le
      refine emits_mono (entryOf_emits r h0₁ ip ind _) ?_ ?_
      · rintro ws' b s' ⟨hlogs', h0', hnode'⟩
        have hind' : s'.indirect ip = ind := by
          rw [Fs.indirect, hnode']
          exact hind₁
        have hall := (hlogs.indirect hne).add (hlogs'.entry hne)
        rw [← List.append_assoc] at hall
        rw [hind', vacant_pos hne]
        exact ⟨h0', fun hno => (hsame hno).1, _, hcost, hall⟩
      · -- the free map is full, after the indirect block has been allocated
        rintro ws' rfl
        rw [List.append_nil]
        exact ⟨ind, fun hno => (hsame hno).1,
          (hlogs.indirect hne).mono le_rfl ((Nat.le_add_right ..).trans hcost)⟩

end Bmap

/-! ## `writei` -/

section Write

variable {s : Fs} {ip : Ip}

/-- The number of rounds of the loop of `writei` for `len` bytes. -/
def rounds (off len : Nat) : Nat := if len = 0 then 0 else nblocks (off % bsize + len)

theorem rounds_next {off len m : Nat} (hlen : 0 < len) (hm : min len (bsize - off % bsize) = m) :
    rounds off len = rounds (off + m) (len - m) + 1 := by
  unfold rounds nblocks bsize at *
  split_ifs <;> omega

/-- How many blocks of the free map the loop may log: if the block of the first round is there, this
    round takes nothing from it. -/
def Fs.mapRounds (s : Fs) (ip : Ip) (off len : Nat) : Nat :=
  rounds off len - (1 - vacant (lblock (s.node ip) s.data (off / bsize))) + vacant (s.indirect ip)

theorem writeLoop_emits (r : Regions) (h0 : s.bitmap 0) (ip : Ip) (src : Mem)
    (n fuel tot off : Nat) (hmax : off + (n - tot) ≤ maxFile * bsize) :
    emits (Logged.writeLoop r ip src n fuel tot off) s
      (fun ws _ _ => LogsFrom s ip (rounds off (n - tot)) (s.mapRounds ip off (n - tot)) ws)
      (LogsFrom s ip (rounds off (n - tot)) (s.mapRounds ip off (n - tot))) := by
  induction fuel generalizing s tot off with
  | zero => exact emits_pure (LogsFrom.nil s ip ..)
  | succ fuel ih =>
      rw [Logged.writeLoop]
      split_ifs with htot
      · have hlt : off / bsize < maxFile := by
          unfold maxFile nDirect nIndirect bsize at *
          omega
        generalize hm : min (n - tot) (bsize - off % bsize) = m
        have hrounds := rounds_next (by omega) hm
        have hrest : n - tot - m = n - (tot + m) := by omega
        have hle := vacant_le (lblock (s.node ip) s.data (off / bsize))
        rw [hrest] at hrounds
        have hcost : s.mapRounds ip off (n - tot) = rounds (off + m) (n - (tot + m)) +
            (vacant (lblock (s.node ip) s.data (off / bsize)) + vacant (s.indirect ip)) := by
          unfold Fs.mapRounds
          omega
        refine emits_bind (emits_mono (bmap_emits r h0 ip hlt) (fun _ _ _ h => h) fun ws hws =>
          hws.mono (Nat.zero_le _) (by omega)) ?_
        rintro ws b s₁ ⟨h0₁, hkeep, k, hk, hlogs⟩
        -- `vacant` of the indirect block pays for it once: in the rest of the loop it is there
        have hloop := ih (s := s₁.setData b (memmove (s₁.data b) (off % bsize) src tot m)) h0₁
          (tot + m) (off + m) (by omega)
        have hwhole : ∀ ws', LogsFrom s₁ ip (rounds (off + m) (n - (tot + m)))
            (rounds (off + m) (n - (tot + m)) + vacant (s₁.indirect ip)) ws' →
            LogsFrom s ip (rounds off (n - tot)) (s.mapRounds ip off (n - tot)) (ws ++ (b :: ws')) := by
          intro ws' hws'
          have happ := hlogs.append hkeep hws'
          rw [List.append_assoc] at happ
          exact happ.mono (by omega) (by omega)
        refine emits_modify_bind (emits_mark_bind (emits_mono hloop ?_ ?_))
        · exact fun ws' _ _ hws' =>
            hwhole ws' (hws'.mono le_rfl (Nat.add_le_add_right (Nat.sub_le ..) _))
        · exact fun ws' hws' =>
            hwhole ws' (hws'.mono le_rfl (Nat.add_le_add_right (Nat.sub_le ..) _))
      · exact emits_pure (LogsFrom.nil s ip ..)

/-- At the start of `writei`: an unaligned write starts in a block that is there. -/
theorem first_rounds {off len : Nat} (hoff : off ≤ (s.node ip).size) (hlen : len ≤ maxChunk)
    (hthere : ∀ k < nblocks (s.node ip).size, lblock (s.node ip) s.data k ≠ 0) :
    rounds off len + s.mapRounds ip off len ≤ 8 := by
  unfold Fs.mapRounds
  have hind := vacant_le (s.indirect ip)
  by_cases halign : off % bsize = 0
  · have hrounds : rounds off len ≤ 3 := by
      unfold rounds nblocks bsize maxChunk at *
      split_ifs <;> omega
    omega
  · have hfirst : vacant (lblock (s.node ip) s.data (off / bsize)) = 0 := by
      refine vacant_pos (hthere _ ?_)
      unfold nblocks bsize at *
      omega
    have hrounds : rounds off len ≤ 4 := by
      unfold rounds nblocks bsize maxChunk at *
      split_ifs <;> omega
    omega

theorem iupdate_emits (r : Regions) (s : Fs) (ip : Ip) {B : List Nat → Prop} :
    emits (Logged.iupdate r ip) s (fun ws _ _ => ws = [r.iblock (s.inum ip)]) B := rfl

/-- **A round of `filewrite` fits into the log**: whatever has to be allocated, and also if the free
    map turns out to be full, the blocks that `writei` logs are `maxOpBlocks` at most. The program
    that says which blocks are logged does what `writei` does. -/
theorem writei_log_quota (r : Regions) (src : Mem) {off n : UInt32} (h0 : s.bitmap 0)
    (hthere : ∀ k < nblocks (s.node ip).size, lblock (s.node ip) s.data k ≠ 0)
    (hoff : off.toNat ≤ (s.node ip).size)
    (hn : n.toNat ≤ (Log.maxOpBlocks - 1 - 1 - 2) / 2 * bsize) :
    Agrees (Logged.writei r ip src off n) (writei ip src off n) ∧
      (Logged.writei r ip src off n s).1.toFinset.card ≤ Log.maxOpBlocks := by
  refine ⟨Logged.writei_agrees r ip src off n, ?_⟩
  have hnone : ([] : List Nat).toFinset.card ≤ Log.maxOpBlocks := by decide
  have hfew := first_rounds hoff hn hthere
  refine emits_marks (B := fun ws => ws.toFinset.card ≤ Log.maxOpBlocks) ?_
  rw [Logged.writei]
  refine emits_get_bind ?_
  split_ifs with hdev hrange hmax
  · cases (s.driver ip).bind Devsw.write <;> exact emits_pure hnone
  · exact emits_pure hnone
  · exact emits_pure hnone
  · rw [not_or] at hrange
    have hsum := add_toNat hrange.2
    have hloop := writeLoop_emits r h0 ip src n.toNat n.toNat 0 off.toNat (by omega)
    have hcard : ∀ ws, LogsFrom s ip (rounds off.toNat n.toNat)
        (s.mapRounds ip off.toNat n.toNat) ws → ws.toFinset.card + 1 ≤ Log.maxOpBlocks := by
      rintro ws ⟨i, -, hlogs⟩
      exact Nat.add_le_add_right (hlogs.card.trans (Nat.add_le_add_right hfew 1)) 1
    refine emits_bind (emits_mono hloop (fun _ _ _ h => h) fun ws hws =>
      (Nat.le_succ _).trans (hcard ws hws)) fun ws off' s' hws => emits_get_bind ?_
    split_ifs
    · -- `iupdate` logs the block of the inode
      refine emits_modify_bind (emits_bind (iupdate_emits r _ ip) ?_)
      rintro - - s'' rfl
      refine emits_pure ?_
      rw [List.append_nil, List.toFinset_append]
      exact (Finset.card_union_le ..).trans (hcard ws hws)
    · refine emits_pure ?_
      rw [List.append_nil]
      exact (Nat.le_succ _).trans (hcard ws hws)

/-- A file of 6000 bytes is written, and then a chunk behind it, which starts within the last block
    and needs the first indirect block. -/
theorem writei_log_quota_lockedFile : ∃ s', (writei firstSlot (fun _ => 1) 0 6000 lockedFile).2 =
      .ok (6000, s') ∧ (s'.node firstSlot).size = 6000 ∧
    Agrees (Logged.writei ⟨5, 7⟩ firstSlot (fun _ => 2) 6000 1536)
      (writei firstSlot (fun _ => 2) 6000 1536) ∧
    (Logged.writei ⟨5, 7⟩ firstSlot (fun _ => 2) 6000 1536 s').1.toFinset.card ≤
      Log.maxOpBlocks := by
  have hacc : ¬ lockedFile.Refuses firstSlot (0 : UInt32).toNat (6000 : UInt32).toNat := by decide
  obtain ⟨r, s', hrun, -, rfl, hspliced⟩ := wp_runs (writei_splices lockedFile_sound
    lockedFile_locked (by decide) (fun _ => 1) hacc) (fun _ _ => trivial)
    fun _ hlt => absurd hlt (by decide +kernel)
  have hsize : (s'.node firstSlot).size = 6000 := by
    rw [hspliced.size lockedFile_sound lockedFile_locked (by decide), length_firstBytes]
    decide
  have htype : (s'.dinode (s'.inum firstSlot)).type ≠ .free := by
    rw [← hspliced.sound.node hspliced.locked, hspliced.type]
    decide
  have hthere : ∀ k < nblocks (s'.node firstSlot).size, lblock (s'.node firstSlot) s'.data k ≠ 0 := by
    rw [hspliced.sound.node hspliced.locked]
    exact fun k hk => ((hspliced.sound.filled _ htype).block k).2 hk
  have h0 := hspliced.sound.layout.reserved 0 hspliced.sound.layout.start
  exact ⟨s', hrun, hsize, writei_log_quota ⟨5, 7⟩ (fun _ => 2) h0 hthere
    (by rw [hsize]; decide) (by decide)⟩

end Write

end Cs350.Block
