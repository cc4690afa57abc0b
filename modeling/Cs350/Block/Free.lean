import Cs350.Block.Ops

set_option autoImplicit false

/-! # Freeing an inode

`itrunc` frees the direct blocks one by one and clears their addresses, then the blocks listed in
the indirect block, which keeps its contents meanwhile, and at last the indirect block. -/

namespace Cs350.Block

open FileSys (IType Ip nInode)
open Prog

section Direct

variable {s₀ s : Fs} {ip : Ip}

theorem itruncDirect_spec (htype : (s₀.node ip).type ≠ .free) (i : Fin nDirect)
    (is : List (Fin nDirect)) (h : Mid s₀ ip s)
    (hzero : ∀ k, k ∉ i :: is → (s.node ip).addrs k.castSucc = 0) :
    Sat (itruncDirect ip i) s fun _ s' =>
      Mid s₀ ip s' ∧ ∀ k, k ∉ is → (s'.node ip).addrs k.castSucc = 0 := by
  refine wp_get_bind (wp_ite (fun hnone => ?_) fun hsome => ?_)
  · refine wp_pure ⟨h, fun k hk => ?_⟩
    by_cases hki : k = i
    · rw [hki, hnone]
    · exact hzero k (by simp [hki, hk])
  · have hheld : held (s.node ip) s.data (.block i) = (s.node ip).addrs i.castSucc :=
      lblock_direct i.isLt
    have hown : refs (s.view ip) s.data (s₀.inum ip, .block i) =
        some ((s.node ip).addrs i.castSucc) := by
      refine refs_eq_some.2 ⟨?_, ?_, hsome⟩
      · rw [h.view_self, h.type]
        exact htype
      · rw [h.view_self, hheld]
    refine wp_bind (bfree_spec h.books hown) ?_
    rintro _ _ rfl
    refine wp_modify ⟨h.drop htype hheld hsome ⟨_, rfl⟩ (held_setAddr i 0), fun k hk => ?_⟩
    rw [Fs.setAddr, setNode_node]
    by_cases hki : k = i
    · rw [hki, setAddr_self]
    · have hne : k.castSucc ≠ i.castSucc := fun heq => hki (Fin.castSucc_injective _ heq)
      rw [setAddr_of_ne hne]
      exact hzero k (by simp [hki, hk])

theorem itrunc_direct (htype : (s₀.node ip).type ≠ .free) (h : Mid s₀ ip s) :
    Sat (each (itruncDirect ip) (List.finRange nDirect)) s fun _ s' =>
      Mid s₀ ip s' ∧ ∀ k, k < nDirect → lblock (s'.node ip) s'.data k = 0 := by
  refine wp_mono (wp_each (I := fun is t => Mid s₀ ip t ∧
      ∀ k : Fin nDirect, k ∉ is → (t.node ip).addrs k.castSucc = 0)
    (fun i is t ht => itruncDirect_spec htype i is ht.1 ht.2) _
    ⟨h, fun k hk => absurd (List.mem_finRange k) hk⟩) ?_
  rintro _ s' ⟨hmid, hzero⟩
  refine ⟨hmid, fun k hk => ?_⟩
  rw [lblock_direct hk]
  exact hzero ⟨k, hk⟩ List.not_mem_nil

end Direct

/-- What is left of the references `own` when of inode `i` only the entries `js` of its indirect
    block, and that block, are still to be freed. -/
def remaining (own : Nat × Place → Option Nat) (i : Nat) (js : List Nat) (x : Nat × Place) :
    Option Nat :=
  if x.1 = i then
    match x.2 with
    | .indirect => own x
    | .block k => if nDirect ≤ k ∧ k - nDirect ∈ js then own x else none
  else
    own x

section Remaining

variable {own : Nat × Place → Option Nat} {i : Nat}

/-- At first, everything is left. -/
theorem remaining_range (hdirect : ∀ k, k < nDirect → own (i, .block k) = none)
    (hmax : ∀ k, maxFile ≤ k → own (i, .block k) = none) :
    remaining own i (List.range nIndirect) = own := by
  funext ⟨j, q⟩
  unfold remaining
  split_ifs with hj
  · obtain rfl : j = i := hj
    cases q with
    | indirect => rfl
    | block k =>
        dsimp only
        split_ifs with hk
        · rfl
        · rw [List.mem_range] at hk
          have hrange : maxFile = nDirect + nIndirect := rfl
          rcases lt_or_ge k nDirect with hlt | hge
          · exact (hdirect k hlt).symm
          · exact (hmax k (by omega)).symm
  · rfl

theorem remaining_cons {j : Nat} {js : List Nat} (hj : j ∉ js) :
    remaining own i js =
      Function.update (remaining own i (j :: js)) (i, .block (nDirect + j)) none := by
  funext ⟨l, q⟩
  by_cases heq : ((l, q) : Nat × Place) = (i, .block (nDirect + j))
  · obtain ⟨rfl, rfl⟩ := Prod.mk.inj heq
    rw [Function.update_self]
    simp [remaining, hj]
  · rw [Function.update_of_ne heq]
    unfold remaining
    split_ifs with hl
    · obtain rfl : l = i := hl
      cases q with
      | indirect => rfl
      | block k =>
          have hk : k ≠ nDirect + j := fun h => heq (by rw [h])
          have hiff : (nDirect ≤ k ∧ k - nDirect ∈ js) ↔ nDirect ≤ k ∧ k - nDirect ∈ j :: js := by
            rw [List.mem_cons]
            refine and_congr_right fun hle => ?_
            have hne : k - nDirect ≠ j := by omega
            simp [hne]
          simp only [hiff]
    · rfl

/-- At last, the indirect block is freed. -/
theorem remaining_nil :
    Function.update (remaining own i []) (i, .indirect) none =
      fun x => if x.1 = i then none else own x := by
  funext ⟨l, q⟩
  by_cases hl : l = i
  · subst hl
    cases q with
    | indirect => simp
    | block k => simp [remaining]
  · rw [Function.update_of_ne (by simp [hl])]
    simp [remaining, hl]

end Remaining

section Indirect

variable {s₀ s : Fs} {ip : Ip}

theorem itruncEntry_spec {t : Fs} {own : Nat × Place → Option Nat} {i : Nat} {a : Mem} {j : Nat}
    {js : List Nat} (hl : Layout t.sb t.bitmap)
    (hbooks : Books t.sb t.bitmap (remaining own i (j :: js)))
    (hown : own (i, .block (nDirect + j)) = addr? (entry a j)) (hj : j ∉ js) :
    Sat (itruncEntry a j) t fun _ t' => ∃ bitmap, t' = { t with bitmap := bitmap } ∧
      Layout t.sb bitmap ∧ Books t.sb bitmap (remaining own i js) := by
  have hthis : remaining own i (j :: js) (i, .block (nDirect + j)) = addr? (entry a j) := by
    simp [remaining, hown]
  refine wp_ite (fun hzero => wp_pure ⟨t.bitmap, rfl, hl, ?_⟩) fun hne => ?_
  · rw [remaining_cons hj]
    rw [hzero, addr?_eq_none.2 rfl] at hthis
    rw [← hthis, Function.update_eq_self]
    exact hbooks
  · have hsome : remaining own i (j :: js) (i, .block (nDirect + j)) = some (entry a j) := by
      rw [hthis, addr?_eq_some]
      exact ⟨rfl, hne⟩
    refine wp_mono (bfree_spec hbooks hsome) ?_
    rintro _ _ rfl
    refine ⟨_, rfl, hl.give (hbooks.within _ _ hsome), ?_⟩
    rw [remaining_cons hj]
    exact Books.give hbooks hsome

theorem itruncIndirect_spec (htype : (s₀.node ip).type ≠ .free) (h : Mid s₀ ip s)
    (hdirect : ∀ k, k < nDirect → lblock (s.node ip) s.data k = 0) :
    Sat (itruncIndirect ip) s fun _ s' =>
      Mid s₀ ip s' ∧ ∀ q, held (s'.node ip) s'.data q = 0 := by
  have htype_view : (s.view ip (s₀.inum ip)).type ≠ .free := by
    rw [h.view_self, h.type]
    exact htype
  have hrefs : ∀ q, refs (s.view ip) s.data (s₀.inum ip, q) =
      addr? (held (s.node ip) s.data q) := by
    intro q
    rw [refs, if_neg htype_view, h.view_self]
  refine wp_get_bind (wp_ite (fun hnone => ?_) fun hind => ?_)
  · refine wp_pure ⟨h, fun q => ?_⟩
    cases q with
    | indirect => exact hnone
    | block k =>
        rcases lt_or_ge k nDirect with hlt | hge
        · exact hdirect k hlt
        · exact lblock_none hge hnone
  · have hstart : Books s.sb s.bitmap
        (remaining (refs (s.view ip) s.data) (s₀.inum ip) (List.range nIndirect)) := by
      rw [remaining_range]
      · exact h.books
      · intro k hk
        rw [hrefs, addr?_eq_none]
        exact hdirect k hk
      · intro k hk
        have hrange : maxFile = nDirect + nIndirect := rfl
        rw [hrefs, addr?_eq_none, held, lblock, dif_neg (by omega), if_neg (by omega)]
    have hloop := wp_each (C := fun _ => True) (E := fun e => e ≠ Panic.freeingFree)
      (g := itruncEntry (s.data ((s.node ip).addrs indirectAddr)))
      (I := fun js t => js.Nodup ∧ (∀ j ∈ js, j < nIndirect) ∧
        ∃ bitmap, t = { s with bitmap := bitmap } ∧ Layout s.sb bitmap ∧
          Books s.sb bitmap (remaining (refs (s.view ip) s.data) (s₀.inum ip) js))
      (by
        rintro j js t ⟨hnodup, hlt, bitmap, rfl, hl, hbooks⟩
        obtain ⟨hj, hnodup⟩ := List.nodup_cons.1 hnodup
        have hjlt := hlt j List.mem_cons_self
        have hown : refs (s.view ip) s.data (s₀.inum ip, .block (nDirect + j)) =
            addr? (entry (s.data ((s.node ip).addrs indirectAddr)) j) := by
          have hrange : maxFile = nDirect + nIndirect := rfl
          rw [hrefs, held, lblock_entry (by omega) (by omega) hind, Nat.add_sub_cancel_left]
        refine wp_mono (itruncEntry_spec hl hbooks hown hj) ?_
        rintro _ _ ⟨bitmap', rfl, hl', hbooks'⟩
        exact ⟨hnodup, fun k hk => hlt k (List.mem_cons_of_mem _ hk), bitmap', rfl, hl', hbooks'⟩)
      (List.range nIndirect)
      ⟨List.nodup_range, fun j hj => List.mem_range.1 hj, s.bitmap, rfl, h.layout, hstart⟩
    refine wp_bind hloop ?_
    rintro _ _ ⟨-, -, bitmap, rfl, hl, hbooks⟩
    have hown : remaining (refs (s.view ip) s.data) (s₀.inum ip) [] (s₀.inum ip, .indirect) =
        some ((s.node ip).addrs indirectAddr) := by
      rw [remaining, if_pos rfl]
      exact (hrefs .indirect).trans (addr?_eq_some.2 ⟨rfl, hind⟩)
    refine wp_bind (bfree_spec (s := { s with bitmap := bitmap }) hbooks hown) ?_
    rintro _ _ rfl
    have hclear : ∀ q, held ((s.node ip).setAddr indirectAddr 0) s.data q = 0 :=
      held_dropIndirect hdirect
    refine wp_modify ⟨?_, fun q => ?_⟩
    · refine h.change ((s.node ip).setAddr indirectAddr 0) ⟨_, rfl⟩
        (hl.give (hbooks.within _ _ hown)) ?_ fun c hc => absurd rfl hc
      rw [refs_clear _ _ (Or.inr hclear), ← remaining_nil]
      exact Books.give hbooks hown
    · rw [Fs.setAddr, setNode_node]
      exact hclear q

end Indirect

/-! ## `iput` -/

section Put

variable {s₀ s s' : Fs} {ip : Ip}

/-- A change of the cache only. -/
theorem Sound.cache_only (h : Sound s) (icache : Ip → Inode)
    (hc : Coherent { s with icache := icache }) : Sound { s with icache := icache } :=
  ⟨h.layout, h.books, h.filled, hc⟩

/-- A change of a slot in use that does not read its contents. -/
theorem Sound.setSlot (h : Sound s) (href : 0 < (s.icache ip).ref) {slot : Inode}
    (hinum : slot.inum = s.inum ip)
    (hself : 0 < slot.ref → slot.valid →
      slot.node = s.dinode (s.inum ip) ∧ (s.dinode (s.inum ip)).type ≠ .free) :
    Sound (s.setSlot ip slot) := by
  refine h.cache_only _ (h.cache.change (s.dinode (s.inum ip)) href
    (fun jp hjp => Function.update_of_ne hjp ..) ?_ (Function.update_eq_self ..).symm ?_)
  · show (Function.update s.icache ip slot ip).inum = s.inum ip
    rw [Function.update_self, hinum]
  · show 0 < (Function.update s.icache ip slot ip).ref →
      (Function.update s.icache ip slot ip).valid →
      (Function.update s.icache ip slot ip).node = _ ∧ _
    rw [Function.update_self]
    exact hself

/-- A change of the reference count of a slot in use. -/
theorem Sound.setRef (h : Sound s) (href : 0 < (s.icache ip).ref) (r : Int) :
    Sound (s.setSlot ip { s.icache ip with ref := r }) :=
  h.setSlot href rfl fun _ hvalid =>
    ⟨h.cache.copy ip href hvalid, h.cache.allocated ip href hvalid⟩

/-- The inode has no blocks any more and is marked as free on disk. -/
theorem Mid.close_free (n' : Dinode) (slot : Inode) (h₀ : Sound s₀) (hip : Locked s₀ ip)
    (h : Mid s₀ ip s)
    (hclear : ∀ q, held (s.node ip) s.data q = 0) (hfree : n'.type = .free)
    (hinum : slot.inum = s₀.inum ip) (hvalid : slot.valid = false) :
    Sound ((s.setDinode (s₀.inum ip) n').setSlot ip slot) := by
  have hdinode : (s.setDinode (s₀.inum ip) n').dinode =
      Function.update s₀.dinode (s₀.inum ip) n' := by
    rw [← h.dinode]
    rfl
  refine ⟨h.layout, ?_, fun i hi => ?_, ?_⟩
  · have hrefs : refs (Function.update s₀.dinode (s₀.inum ip) n') s.data =
        refs (s.view ip) s.data := by
      have hview : s.view ip = Function.update s₀.dinode (s₀.inum ip) (s.node ip) := by
        rw [Fs.view, h.dinode, h.inum]
      rw [hview, refs_clear _ _ (Or.inl hfree), refs_clear _ _ (Or.inr hclear)]
    show Books s.sb s.bitmap (refs (s.setDinode (s₀.inum ip) n').dinode s.data)
    rw [hdinode, hrefs]
    exact h.books
  · change ((s.setDinode (s₀.inum ip) n').dinode i).type ≠ .free at hi
    show Filled ((s.setDinode (s₀.inum ip) n').dinode i) s.data
      (nblocks ((s.setDinode (s₀.inum ip) n').dinode i).size)
    rw [hdinode] at hi ⊢
    by_cases hj : i = s₀.inum ip
    · subst hj
      rw [Function.update_self] at hi
      exact absurd hfree hi
    · rw [Function.update_of_ne hj] at hi ⊢
      exact h.others i hj hi
  · refine h₀.cache.change n' hip.ref
      (fun jp hjp => (Function.update_of_ne hjp ..).trans (h.slots jp hjp)) ?_ hdinode ?_
    · show (Function.update s.icache ip slot ip).inum = _
      rw [Function.update_self, hinum]
    · show _ → (Function.update s.icache ip slot ip).valid → _
      rw [Function.update_self, hvalid]
      intro _ hval
      cases hval

theorem iputFree_spec (h : Sound s) (href : 0 < (s.icache ip).ref) :
    Sat (iputFree ip) s fun _ s' => Sound s' ∧ (s'.icache ip).ref = (s.icache ip).ref := by
  refine wp_get_bind (wp_ite (fun hcond => ?_) fun _ => wp_pure ⟨h, rfl⟩)
  have hip : Locked s ip := ⟨href, hcond.1⟩
  refine wp_bind (P := fun _ t => ∃ s₂, Mid s ip s₂ ∧ (∀ q, held (s₂.node ip) s₂.data q = 0) ∧
    t = (s₂.setNode ip { s₂.node ip with size := 0 }).setDinode (s₂.inum ip)
      { s₂.node ip with size := 0 }) ?_ ?_
  · refine wp_bind (itrunc_direct (h.type hip) (h.mid hip)) ?_
    rintro _ s₁ ⟨h₁, hdirect⟩
    refine wp_bind (itruncIndirect_spec (h.type hip) h₁ hdirect) ?_
    rintro _ s₂ ⟨h₂, hclear⟩
    refine wp_modify_bind (wp_modify ⟨s₂, h₂, hclear, ?_⟩)
    rw [setNode_inum, setNode_node]
  · rintro _ _ ⟨s₂, h₂, hclear, rfl⟩
    refine wp_modify_bind (wp_modify_bind (wp_modify ?_))
    have hclose := h₂.close_free { s₂.node ip with size := 0, type := .free }
      ({ s₂.icache ip with
        valid := false, node := { s₂.node ip with size := 0, type := .free } })
      h hip hclear rfl h₂.inum rfl
    have href₂ : (s₂.icache ip).ref = (s.icache ip).ref := by
      obtain ⟨a, ha⟩ := h₂.slot
      rw [ha]
    rw [← h₂.inum] at hclose
    simp only [Fs.setNode, Fs.setSlot, Fs.setDinode, Fs.node, Fs.inum, Function.update_self,
      Function.update_idem] at hclose ⊢
    exact ⟨hclose, href₂⟩

theorem iput_spec (h : Sound s) (href : 0 < (s.icache ip).ref) :
    Sat (iput ip) s fun _ s' => Sound s' := by
  refine wp_bind (iputFree_spec h href) ?_
  rintro _ s' ⟨h', href'⟩
  exact wp_modify (h'.setRef (by rw [href']; exact href) _)

end Put

end Cs350.Block
