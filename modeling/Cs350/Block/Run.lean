import Cs350.Block.Free
import Cs350.Lib.Transition

set_option autoImplicit false

/-! # Blocks over whole runs

Every operation keeps the state sound, so in every run each block has at most one place that
refers to it, the free map tells which blocks of the data area are in use, and no block is freed
that is free. -/

namespace Cs350.Block

open FileSys (IType Ip nInode)
open Prog Transition

/-! ## The inode cache -/

section Cache

variable {s : Fs} {ip : Ip}

theorem iget_spec (h : Sound s) (inum : Nat) :
    Sat (iget inum) s fun ip s' => Sound s' ∧ 0 < (s'.icache ip).ref := by
  refine wp_get_bind ?_
  split
  next ip hfind =>
    have hfound : 0 < (s.icache ip).ref ∧ (s.icache ip).inum = inum := by
      simpa using List.find?_some hfind
    refine wp_modify_bind (wp_pure ⟨h.setRef hfound.1 _, ?_⟩)
    show 0 < (Function.update s.icache ip _ ip).ref
    rw [Function.update_self]
    exact Int.lt_add_one_of_le hfound.1.le
  next hnone =>
    split
    next ip hfind =>
      refine wp_modify_bind (wp_pure ⟨?_, ?_⟩)
      · -- no slot in use holds this inode, and the new one has not been read
        have hfresh : ∀ jp, 0 < (s.icache jp).ref → (s.icache jp).inum ≠ inum := by
          intro jp hjp heq
          have hno := List.find?_eq_none.1 hnone jp (List.mem_finRange jp)
          simp [hjp, heq] at hno
        refine h.cache_only _ ⟨fun jp kp => ?_, fun jp => ?_, fun jp => ?_⟩
        · unfold Fs.inum
          dsimp only
          by_cases hj : jp = ip <;> by_cases hk : kp = ip
          · intros
            rw [hj, hk]
          · subst hj
            rw [Function.update_self, Function.update_of_ne hk]
            exact fun _ hkr heq => absurd heq.symm (hfresh kp hkr)
          · subst hk
            rw [Function.update_self, Function.update_of_ne hj]
            exact fun hjr _ heq => absurd heq (hfresh jp hjr)
          · rw [Function.update_of_ne hj, Function.update_of_ne hk]
            exact h.cache.uniq jp kp
        · unfold Fs.inum Fs.node
          dsimp only
          by_cases hj : jp = ip
          · subst hj
            rw [Function.update_self]
            exact fun _ => nofun
          · rw [Function.update_of_ne hj]
            exact h.cache.copy jp
        · unfold Fs.inum
          dsimp only
          by_cases hj : jp = ip
          · subst hj
            rw [Function.update_self]
            exact fun _ => nofun
          · rw [Function.update_of_ne hj]
            exact h.cache.allocated jp
      · show 0 < (Function.update s.icache ip _ ip).ref
        rw [Function.update_self]
        exact Int.one_pos
    next => exact wp_stop (by decide)

theorem idup_spec (h : Sound s) (href : 0 < (s.icache ip).ref) :
    Sat (idup ip) s fun _ s' => Sound s' :=
  wp_modify_bind (wp_pure (h.setRef href _))

theorem ilock_spec (h : Sound s) (href : 0 < (s.icache ip).ref) :
    Sat (ilock ip) s fun _ s' => Sound s' := by
  refine wp_get_bind (wp_ite (fun _ => wp_stop (by decide)) fun _ =>
    wp_ite (fun _ => wp_pure h) fun _ => wp_modify_bind ?_)
  exact wp_ite (fun _ => wp_stop (by decide)) fun htype =>
    wp_pure (h.setSlot href rfl fun _ _ => ⟨rfl, htype⟩)

theorem held_fresh (type : IType) (data : Nat → Mem) (q : Place) :
    held (Dinode.fresh type) data q = 0 := by
  cases q with
  | indirect => rfl
  | block k =>
      rcases lt_or_ge k nDirect with hlt | hge
      · exact lblock_direct hlt
      · exact lblock_none hge rfl

theorem ialloc_spec (h : Sound s) (type : IType) :
    Sat (ialloc type) s fun _ s' => Sound s' := by
  refine wp_get_bind ?_
  split
  next i hfind =>
    have hfree : (s.dinode i).type = .free := by simpa using List.find?_some hfind
    refine wp_modify_bind (wp_mono (iget_spec ?_ i) fun _ _ h' => h'.1)
    have hne : ∀ jp, 0 < (s.icache jp).ref → (s.icache jp).valid → s.inum jp ≠ i := by
      rintro jp href hvalid rfl
      exact h.cache.allocated jp href hvalid hfree
    refine ⟨h.layout, ?_, fun j hj => ?_, h.cache.uniq, fun jp href hvalid => ?_,
      fun jp href hvalid => ?_⟩
    · -- it referred to nothing before and does not now
      have hrefs : refs (Function.update s.dinode i (Dinode.fresh type)) s.data =
          refs s.dinode s.data := by
        rw [refs_clear s.dinode _ (Or.inr (held_fresh type s.data)),
          ← refs_clear s.dinode (s.dinode i) (Or.inl hfree),
          Function.update_eq_self]
      show Books s.sb s.bitmap (refs (Function.update s.dinode i (Dinode.fresh type)) s.data)
      rw [hrefs]
      exact h.books
    · show Filled (Function.update s.dinode i (Dinode.fresh type) j) s.data
        (nblocks (Function.update s.dinode i (Dinode.fresh type) j).size)
      change (Function.update s.dinode i (Dinode.fresh type) j).type ≠ .free at hj
      by_cases hji : j = i
      · subst hji
        rw [Function.update_self]
        constructor
        · intro k
          have hk : lblock (Dinode.fresh type) s.data k = 0 := held_fresh type s.data (.block k)
          rw [hk]
          simp [Dinode.fresh, nblocks, bsize]
        · simp [Dinode.fresh, nblocks, bsize]
      · rw [Function.update_of_ne hji] at hj ⊢
        exact h.filled j hj
    · exact (h.cache.copy jp href hvalid).trans
        (Function.update_of_ne (hne jp href hvalid) ..).symm
    · show (Function.update s.dinode i _ (s.inum jp)).type ≠ .free
      rw [Function.update_of_ne (hne jp href hvalid)]
      exact h.cache.allocated jp href hvalid
  next => exact wp_stop (by decide)

end Cache

/-! ## Directories -/

section Directories

variable {s : Fs} {dp : Ip}

theorem dirlookupLoop_spec (h : Sound s) (hdp : Locked s dp) (name : List UInt8) (offs : List Nat)
    (de : Mem) :
    Sat (dirlookupLoop dp name offs de) s fun r s' =>
      match r with
      | none => s' = s
      | some (ip, _) => Sound s' ∧ 0 < (s'.icache ip).ref := by
  induction offs generalizing de with
  | nil => exact wp_pure rfl
  | cons off offs ih =>
      refine wp_bind (readi_spec h hdp de _ _) ?_
      rintro ⟨r, de⟩ _ rfl
      refine wp_ite (fun _ => wp_stop (by decide)) fun _ => wp_ite (fun _ => ih de) fun _ =>
        wp_ite (fun _ => ?_) fun _ => ih de
      exact wp_bind (iget_spec h _) fun _ _ h' => wp_pure h'

theorem dirlookup_spec (h : Sound s) (hdp : Locked s dp) (name : List UInt8) (de : Mem) :
    Sat (dirlookup dp name de) s fun r s' =>
      match r with
      | none => s' = s
      | some (ip, _) => Sound s' ∧ 0 < (s'.icache ip).ref :=
  wp_get_bind (wp_ite (fun _ => wp_stop (by decide)) fun _ => dirlookupLoop_spec h hdp name _ de)

theorem dirlinkLoop_spec (h : Sound s) (hdp : Locked s dp) (last : Nat) (offs : List Nat)
    (de : Mem) : Sat (dirlinkLoop dp last offs de) s fun _ s' => s' = s := by
  induction offs generalizing de with
  | nil => exact wp_pure rfl
  | cons off offs ih =>
      refine wp_bind (readi_spec h hdp de _ _) ?_
      rintro ⟨r, de⟩ _ rfl
      exact wp_ite (fun _ => wp_stop (by decide)) fun _ => wp_ite (fun _ => wp_pure rfl) fun _ =>
        ih de

theorem dirlink_spec (h : Sound s) (hdp : Locked s dp) (name : List UInt8) (inum : Nat)
    (de : Mem) : Sat (dirlink dp name inum de) s fun _ s' => Sound s' := by
  refine wp_bind (dirlookup_spec h hdp name de) ?_
  rintro (_ | ⟨ip, _⟩) s' hr
  · obtain rfl : s' = s := hr
    refine wp_get_bind (wp_bind (dirlinkLoop_spec h hdp _ _ de) ?_)
    rintro ⟨off, de⟩ _ rfl
    refine wp_bind (writei_spec h hdp _ _ _) fun _ s' h' => ?_
    exact wp_ite (fun _ => wp_stop (by decide)) fun _ => wp_pure h'
  · exact wp_bind (iput_spec hr.1 hr.2) fun _ _ h' => wp_pure h'

end Directories

/-! ## Runs -/

theorem Op.run_spec {s : Fs} (h : Sound s) {op : Op} (hlegal : op.legal s) :
    Sat op.run s fun _ s' => Sound s' := by
  cases op with
  | ialloc type => exact wp_bind (ialloc_spec h type) fun _ _ h' => wp_pure h'
  | iget inum => exact wp_bind (iget_spec h inum) fun _ _ h' => wp_pure h'.1
  | idup ip =>
      have href : 0 < (s.icache ip).ref := by simpa [Op.legal] using hlegal
      exact wp_bind (idup_spec h href) fun _ _ h' => wp_pure h'
  | ilock ip =>
      have href : 0 < (s.icache ip).ref := by simpa [Op.legal] using hlegal
      exact ilock_spec h href
  | iput ip =>
      have href : 0 < (s.icache ip).ref := by simpa [Op.legal] using hlegal
      exact iput_spec h href
  | readi ip dst off n =>
      have hip : 0 < (s.icache ip).ref ∧ (s.icache ip).valid := by simpa [Op.legal] using hlegal
      refine wp_bind (readi_spec h ⟨hip.1, hip.2⟩ dst off n) ?_
      rintro _ _ rfl
      exact wp_pure h
  | writei ip src off n =>
      have hip : 0 < (s.icache ip).ref ∧ (s.icache ip).valid := by simpa [Op.legal] using hlegal
      exact wp_bind (writei_spec h ⟨hip.1, hip.2⟩ src off n) fun _ _ h' => wp_pure h'
  | dirlink dp name inum de =>
      have hdp : 0 < (s.icache dp).ref ∧ (s.icache dp).valid := by simpa [Op.legal] using hlegal
      exact wp_bind (dirlink_spec h ⟨hdp.1, hdp.2⟩ name inum de) fun _ _ h' => wp_pure h'
  | setLinks ip major minor nlink =>
      have hip : 0 < (s.icache ip).ref ∧ (s.icache ip).valid := by simpa [Op.legal] using hlegal
      exact setLinks_spec h ⟨hip.1, hip.2⟩ major minor nlink

/-- What a sound state is for a machine. -/
def Machine.Sound : Machine → Prop
  | .running s => Block.Sound s
  | .panicked e => e ≠ .freeingFree

theorem Machine.Sound.step {m m' : Machine} {op : Op} (h : m.Sound) (hs : Step m op m') :
    m'.Sound := by
  cases m with
  | panicked e => exact nomatch hs
  | running s =>
      unfold Step next at hs
      dsimp only at hs
      split_ifs at hs with hlegal
      have hpost := wp_elim (Op.run_spec h hlegal) fun _ _ => trivial
      split at hs <;> rename_i heq <;> cases hs <;> rw [heq] at hpost <;> exact hpost

/-- Each block is referred to at most once over all allocated inodes, the free map is right about
    the data area, and every allocated inode has the blocks its size calls for. -/
structure Owned (s : Fs) : Prop where
  once : ∀ x y b, refs s.dinode s.data x = some b → refs s.dinode s.data y = some b → x = y
  bitmap : ∀ b, s.sb.IsData b → (s.bitmap b = true ↔ ∃ x, refs s.dinode s.data x = some b)
  filled : ∀ i, (s.dinode i).type ≠ .free →
    Filled (s.dinode i) s.data (nblocks (s.dinode i).size)

/-- A disk as `mkfs` lays it out, on which the blocks of files lie in the data area, and a cache
    that agrees with it. -/
structure Mounted (s : Fs) : Prop where
  layout : Layout s.sb s.bitmap
  within : ∀ x b, refs s.dinode s.data x = some b → s.sb.IsData b
  cache : Coherent s

theorem sound_iff {s : Fs} : Sound s ↔ Mounted s ∧ Owned s :=
  ⟨fun h => ⟨⟨h.layout, h.books.within, h.cache⟩, h.books.once, h.books.covered, h.filled⟩,
    fun ⟨hm, ho⟩ => ⟨hm.layout, ⟨ho.once, hm.within, ho.bitmap⟩, ho.filled, hm.cache⟩⟩

/-- Blocks are owned as they should be, and "freeing free block" has not come up. -/
def Machine.Owned : Machine → Prop
  | .running s => Block.Owned s
  | .panicked e => e ≠ .freeingFree

/-- **Block ownership.** From a file system in which blocks are owned as they should be, they are so
    in every state of every run, and no run ends with "freeing free block". -/
theorem blocks_owned {s₀ : Fs} {tr : List (Machine × Op)} {m : Machine} (hm : Mounted s₀)
    (ho : Owned s₀) (hrun : Run Step (.running s₀) tr m) : Along Machine.Owned tr m := by
  have hsound : Along Machine.Sound tr m :=
    hrun.invariant (sound_iff.2 ⟨hm, ho⟩) fun _ _ _ h hs => h.step hs
  have howned : ∀ m : Machine, m.Sound → m.Owned := by
    intro m h
    cases m with
    | running s => exact (sound_iff.1 h).2
    | panicked e => exact h
  exact ⟨fun x hx => howned _ (hsound.1 x hx), howned _ hsound.2⟩

/-- An empty file system of 256 blocks, of which the first 8 are reserved. -/
def emptyFs : Fs where
  sb := { size := 256, nblocks := 248, ninodes := 16 }
  devsw := fun _ => { read := none, write := none }
  bitmap := fun b => decide (b < 8)
  data := fun _ _ => 0
  dinode := fun _ => Dinode.fresh .free
  icache := fun _ => { inum := 0, ref := 0, valid := false, node := Dinode.fresh .free }

theorem emptyFs_sound : Mounted emptyFs ∧ Owned emptyFs := by
  have hrefs : ∀ x, refs emptyFs.dinode emptyFs.data x = none := fun _ => rfl
  refine ⟨⟨⟨by decide, fun b hb => ?_⟩, fun x b hx => ?_, ?_⟩, fun x y b hx => ?_, fun b hb => ?_,
    fun i hi => absurd rfl hi⟩
  · exact decide_eq_true hb
  · rw [hrefs] at hx
    exact nomatch hx
  · have hunused : ∀ ip, ¬ 0 < (emptyFs.icache ip).ref := fun _ => lt_irrefl 0
    exact ⟨fun ip _ h => absurd h (hunused ip), fun ip h => absurd h (hunused ip),
      fun ip h => absurd h (hunused ip)⟩
  · rw [hrefs] at hx
    exact nomatch hx
  · constructor
    · intro hbit
      have hlt : b < 8 := of_decide_eq_true hbit
      have hge : 8 ≤ b := hb.1
      omega
    · rintro ⟨x, hx⟩
      rw [hrefs] at hx
      exact nomatch hx

def firstSlot : Ip := ⟨0, FileSys.nInode_pos⟩

/-- A file of 14 blocks is written, overwritten in part, and freed. -/
def fileOps : List Op :=
  [.ialloc .file, .ilock firstSlot, .setLinks firstSlot 0 0 1,
    .writei firstSlot (fun _ => 1) 0 7000, .writei firstSlot (fun _ => 2) 500 100,
    .setLinks firstSlot 0 0 0, .iput firstSlot]

theorem blocks_owned_write_free :
    ∃ tr m, Run Step (.running emptyFs) tr m ∧ tr.map Prod.snd = fileOps ∧
      Along Machine.Owned tr m := by
  have hplay : (play next (.running emptyFs) fileOps).isSome := by decide +kernel
  obtain ⟨⟨tr, m⟩, hrun⟩ := Option.isSome_iff_exists.1 hplay
  obtain ⟨hrun, hops⟩ := play_run hrun
  exact ⟨tr, m, hrun, hops, blocks_owned emptyFs_sound.1 emptyFs_sound.2 hrun⟩

end Cs350.Block
