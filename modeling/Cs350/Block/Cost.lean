import Cs350.Block.Bytes
import Mathlib.Data.Finset.Card

set_option autoImplicit false

/-! # How many free blocks a write takes

A file of `c` logical blocks occupies `blocksFor c` blocks: from the thirteenth on there is the
indirect block too. `bmap` takes the difference from the free map, and stops with "balloc: out of
blocks" exactly if that many are not free. -/

namespace Cs350.Block

open FileSys (IType Ip nInode)
open Prog

/-- The number of free blocks. -/
def Fs.free (s : Fs) : Nat :=
  ((Finset.range s.sb.size.toNat).filter fun b => s.bitmap b = false).card

/-- The number of blocks that a file of `cnt` logical blocks occupies. -/
def blocksFor (cnt : Nat) : Nat := if nDirect < cnt then cnt + 1 else cnt

theorem blocksFor_mono {c c' : Nat} (h : c ≤ c') : blocksFor c ≤ blocksFor c' := by
  unfold blocksFor
  split_ifs <;> omega

/-- The program takes `k` blocks from the free map, and stops only if there are not so many. -/
abbrev Takes {α : Type} (k : Nat) (m : FsM α) (s : Fs) (Q : α → Fs → Prop) : Prop :=
  wp (fun _ => True) (fun _ => s.free < k) m s fun a s' => s'.free + k = s.free ∧ Q a s'

section Takes

variable {α β : Type} {k k' : Nat} {m : FsM α} {f : α → FsM β} {s : Fs} {P : α → Fs → Prop}
  {R : β → Fs → Prop}

theorem Takes.bind (hm : Takes k m s P) (hf : ∀ a s', P a s' → Takes k' (f a) s' R) :
    Takes (k + k') (m >>= f) s R := by
  refine wp_bind (wp_errors hm fun _ hlt => by omega) ?_
  rintro a s' ⟨hfree, hP⟩
  refine wp_mono (wp_errors (hf a s' hP) fun _ hlt => by omega) ?_
  rintro b s'' ⟨hfree', hR⟩
  exact ⟨by omega, hR⟩

/-- The first part takes nothing. -/
theorem Takes.bind_right (hm : Takes 0 m s P) (hf : ∀ a s', P a s' → Takes k (f a) s' R) :
    Takes k (m >>= f) s R :=
  Nat.zero_add k ▸ hm.bind hf

/-- The rest takes nothing. -/
theorem Takes.bind_left (hm : Takes k m s P) (hf : ∀ a s', P a s' → Takes 0 (f a) s' R) :
    Takes k (m >>= f) s R :=
  hm.bind hf

/-- What is known of the program in any case. -/
theorem Takes.and {P Q : α → Fs → Prop} (h : Takes k m s P) (hQ : Sat m s Q) :
    Takes k m s fun a s' => P a s' ∧ Q a s' := by
  refine wp_mono (wp_errors (wp_and_errors h hQ) fun _ hE => hE.1) ?_
  rintro a s' ⟨⟨hfree, hP⟩, hQ⟩
  exact ⟨hfree, hP, hQ⟩

theorem Takes.mono {P Q : α → Fs → Prop} (h : Takes k m s P) (hPQ : ∀ a s', P a s' → Q a s') :
    Takes k m s Q :=
  wp_mono h fun a s' hP => ⟨hP.1, hPQ a s' hP.2⟩

theorem Takes.get_bind {f : Fs → FsM β} (h : Takes k (f s) s R) : Takes k (Prog.get >>= f) s R :=
  wp_get_bind h

theorem Takes.pure {a : α} {Q : α → Fs → Prop} (h : Q a s) : Takes 0 (Pure.pure a : FsM α) s Q :=
  wp_pure ⟨rfl, h⟩

/-- A step that leaves the free map alone. -/
theorem Takes.modify {g : Fs → Fs} {Q : Unit → Fs → Prop} (hfree : (g s).free = s.free)
    (h : Q () (g s)) : Takes 0 (Prog.modify g) s Q :=
  wp_modify ⟨hfree, h⟩

end Takes

theorem free_take {s s' : Fs} {b : Nat} (hb : b < s.sb.size.toNat) (hfree : s.bitmap b = false)
    (hsb : s'.sb = s.sb) (hbit : s'.bitmap = Function.update s.bitmap b true) :
    s'.free + 1 = s.free := by
  unfold Fs.free
  rw [hsb, hbit]
  have hset : (Finset.range s.sb.size.toNat).filter (fun c => Function.update s.bitmap b true c = false)
      = ((Finset.range s.sb.size.toNat).filter fun c => s.bitmap c = false).erase b := by
    ext c
    simp only [Finset.mem_filter, Finset.mem_erase, Finset.mem_range]
    by_cases hcb : c = b
    · simp [hcb]
    · simp [hcb]
  rw [hset]
  exact Finset.card_erase_add_one (Finset.mem_filter.2 ⟨Finset.mem_range.2 hb, hfree⟩)

theorem balloc_takes (s : Fs) : Takes 1 balloc s fun _ _ => True := by
  refine wp_get_bind ?_
  split
  next b hfind =>
    have hbit : s.bitmap b = false := by simpa using List.find?_some hfind
    have hsize : b < s.sb.size.toNat := List.mem_range.1 (List.mem_of_find?_eq_some hfind)
    exact wp_modify_bind (wp_modify_bind (wp_pure ⟨free_take hsize hbit rfl rfl, trivial⟩))
  next hnone =>
    refine wp_stop ?_
    have hempty : (Finset.range s.sb.size.toNat).filter (fun b => s.bitmap b = false) = ∅ := by
      refine Finset.filter_eq_empty_iff.2 fun b hb => ?_
      have hno := List.find?_eq_none.1 hnone b (List.mem_range.2 (Finset.mem_range.1 hb))
      simpa using hno
    rw [Fs.free, hempty]
    exact Nat.one_pos

/-! ## `bmap` -/

section Bmap

variable {s₀ s : Fs} {ip : Ip} {cnt bn : Nat}

theorem addrOf_takes (s : Fs) (ip : Ip) (k : Fin (nDirect + 1)) :
    Takes (if (s.node ip).addrs k = 0 then 1 else 0) (addrOf ip k) s fun _ _ => True := by
  refine Takes.get_bind ?_
  split_ifs with hzero
  · refine (balloc_takes s).bind_left fun b s₁ _ => ?_
    exact Takes.bind_right (Takes.modify (Q := fun _ _ => True) rfl trivial) fun _ s₂ _ =>
      Takes.pure trivial
  · exact Takes.pure trivial

theorem entryOf_takes (s : Fs) (ind j : Nat) :
    Takes (if entry (s.data ind) j = 0 then 1 else 0) (entryOf ind j) s fun _ _ => True := by
  refine Takes.get_bind ?_
  split_ifs with hzero
  · refine (balloc_takes s).bind_left fun b s₁ _ => ?_
    exact Takes.bind_right (Takes.modify (Q := fun _ _ => True) rfl trivial) fun _ s₂ _ =>
      Takes.pure trivial
  · exact Takes.pure trivial

theorem bmap_takes (h : Mid s₀ ip s) (htype : (s₀.node ip).type ≠ .free)
    (hf : Filled (s.node ip) s.data cnt) (hbn : bn ≤ cnt) (hmax : bn < maxFile) :
    Takes (blocksFor (max cnt (bn + 1)) - blocksFor cnt) (bmap ip bn) s fun _ _ => True := by
  have hblock := hf.block bn
  by_cases hdir : bn < nDirect
  · rw [lblock_direct hdir] at hblock
    have hcost : blocksFor (max cnt (bn + 1)) - blocksFor cnt =
        if (s.node ip).addrs ⟨bn, by omega⟩ = 0 then 1 else 0 := by
      unfold blocksFor
      split_ifs <;> omega
    rw [bmap, dif_pos hdir, hcost]
    exact addrOf_takes s ip _
  · have hrange : bn - nDirect < nIndirect := by
      have : maxFile = nDirect + nIndirect := rfl
      omega
    have hind := hf.indirect
    -- the indirect block comes with the first block that has an entry in it
    have hcost : blocksFor (max cnt (bn + 1)) - blocksFor cnt =
        (if (s.node ip).addrs indirectAddr = 0 then 1 else 0) +
          if lblock (s.node ip) s.data bn = 0 then 1 else 0 := by
      unfold blocksFor
      split_ifs <;> omega
    rw [bmap, dif_neg hdir, if_pos hrange, hcost]
    refine Takes.bind ((addrOf_takes s ip _).and (addrOf_indirect h htype)) ?_
    rintro ind s₁ ⟨-, -, hind₁, hne, hkeep, -⟩
    subst hind₁
    rw [← hkeep, lblock_entry (by omega) hmax hne]
    exact entryOf_takes s₁ _ _

end Bmap

/-! ## `writei` -/

section Write

variable {s₀ s : Fs} {ip : Ip}

theorem writeLoop_takes (htype : (s₀.node ip).type ≠ .free) (src : Mem) (n fuel tot off : Nat)
    (h : Writing s₀ ip off s) (hfuel : n - tot ≤ fuel) (hmax : off + (n - tot) ≤ maxFile * bsize) :
    Takes (blocksFor (max (nblocks (s₀.node ip).size) (nblocks (off + (n - tot)))) -
        blocksFor (max (nblocks (s₀.node ip).size) (nblocks off)))
      (writeLoop ip src n fuel tot off) s fun _ _ => True := by
  induction fuel generalizing s tot off with
  | zero =>
      have hno : off + (n - tot) = off := by omega
      rw [hno, Nat.sub_self]
      exact Takes.pure trivial
  | succ fuel ih =>
      rw [writeLoop]
      split_ifs with htot
      · have hlt : off / bsize < maxFile := by
          unfold maxFile nDirect nIndirect bsize at *
          omega
        generalize hm : min (n - tot) (bsize - off % bsize) = m
        have hpos : 0 < m ∧ m ≤ n - tot ∧ off % bsize + m ≤ bsize := by
          unfold bsize at *
          omega
        have hcnt : max (max (nblocks (s₀.node ip).size) (nblocks off)) (off / bsize + 1) =
            max (nblocks (s₀.node ip).size) (nblocks (off + m)) := by
          unfold nblocks bsize at *
          omega
        have hend : off + m + (n - (tot + m)) = off + (n - tot) := by omega
        have hbmap := bmap_takes h.mid htype h.filled (next_block _ off) hlt
        rw [hcnt] at hbmap
        have hmono : nblocks off ≤ nblocks (off + m) ∧
            nblocks (off + m) ≤ nblocks (off + (n - tot)) := by
          unfold nblocks bsize
          omega
        have hmono₁ := blocksFor_mono (max_le_max (le_refl (nblocks (s₀.node ip).size)) hmono.1)
        have hmono₂ := blocksFor_mono (max_le_max (le_refl (nblocks (s₀.node ip).size)) hmono.2)
        -- what this round takes, and what is left for the others
        have hsum := Nat.sub_add_sub_cancel hmono₂ hmono₁
        rw [← hsum, Nat.add_comm]
        refine Takes.bind (hbmap.and (bmap_spec h.mid htype h.filled (next_block _ off) hlt)) ?_
        rintro b s₁ ⟨-, hmapped, hsame⟩
        have hnext := h.round htype hmapped hsame hpos.1 hpos.2.2
          (memmove (s₁.data b) (off % bsize) src tot m)
        refine Takes.bind_right (Takes.modify (Q := fun _ s' => s' = s₁.setData b
          (memmove (s₁.data b) (off % bsize) src tot m)) rfl rfl) ?_
        rintro - s₂ rfl
        have hrest := ih (tot + m) (off + m) hnext (by omega) (by omega)
        rwa [hend] at hrest
      · have hno : off + (n - tot) = off := by omega
        rw [hno, Nat.sub_self]
        exact Takes.pure trivial

/-- The number of blocks that a write of `n` bytes from `off` on takes. -/
def Fs.needed (s : Fs) (ip : Ip) (off n : Nat) : Nat :=
  blocksFor (nblocks (max (s.node ip).size (off + n))) - blocksFor (nblocks (s.node ip).size)

/-- A write that is not refused takes as many blocks as it needs. -/
theorem writei_takes (h : Sound s) (hip : Locked s ip) (hdev : (s.node ip).type ≠ .dev) (src : Mem)
    {off n : UInt32} (hoff : off.toNat ≤ (s.node ip).size)
    (hmax : off.toNat + n.toNat ≤ maxFile * bsize) :
    Takes (s.needed ip off.toNat n.toNat) (writei ip src off n) s fun _ _ => True := by
  have hsum : (off + n).toNat = off.toNat + n.toNat :=
    toNat_add_of_lt (lt_of_le_of_lt hmax (by decide))
  have hwrap : ¬ (off.toNat > (s.node ip).size ∨ off + n < off) := by
    rw [UInt32.lt_iff_toNat_lt, hsum]
    omega
  have hneeded : s.needed ip off.toNat n.toNat =
      blocksFor (max (nblocks (s.node ip).size) (nblocks (off.toNat + (n.toNat - 0)))) -
        blocksFor (max (nblocks (s.node ip).size) (nblocks off.toNat)) := by
    have hle : max (nblocks (s.node ip).size) (nblocks off.toNat) = nblocks (s.node ip).size := by
      unfold nblocks bsize
      omega
    have hmax' : max (nblocks (s.node ip).size) (nblocks (off.toNat + (n.toNat - 0))) =
        nblocks (max (s.node ip).size (off.toNat + n.toNat)) := by
      unfold nblocks bsize
      omega
    rw [Fs.needed, hle, hmax']
  rw [writei]
  refine Takes.get_bind ?_
  rw [if_neg hdev, if_neg hwrap, if_neg (by rw [hsum]; omega), hneeded]
  refine (writeLoop_takes (h.type hip) src n.toNat n.toNat 0 off.toNat
    (h.writing hip hoff) (by omega) (by omega)).bind_left fun off' s₁ _ => Takes.get_bind ?_
  split_ifs
  · refine Takes.bind_right (Takes.modify (Q := fun _ _ => True) rfl trivial) fun _ s₂ _ => ?_
    exact Takes.bind_right (Takes.modify (Q := fun _ _ => True) rfl trivial) fun _ s₃ _ =>
      Takes.pure trivial
  · exact Takes.pure trivial

end Write

end Cs350.Block
