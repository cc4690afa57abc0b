import Cs350.Mkfs.Lookup

set_option autoImplicit false

/-! # What `mkfs` writes besides data

`mkfs` writes inodes and data blocks only, so the log stays empty; and an inode keeps the link count
that `ialloc` gives it, whatever is appended to the file. -/

namespace Cs350.Mkfs

open Block (bsize nDirect maxFile)
open FileSys (rootIno)
open Prog

/-! ## The inode of a file that grows -/

section Growing

variable {s : State}

/-- Nothing is said. -/
theorem ensures_any {α : Type} (m : MkM α) (s : State) : Ensures False m s fun _ _ => True := by
  unfold Ensures wp
  intro _
  split
  · trivial
  · exact id

theorem fillAddr_nlink (din : Mem) (k : Nat) :
    Ensures False (fillAddr din k) s fun din' _ => (dinode din').nlink = (dinode din).nlink := by
  refine wp_ite (fun _ => wp_bind (ensures_any takeBlock s) fun b _ _ => wp_pure ?_)
    fun _ => wp_pure rfl
  exact congrArg short (Mem.load_store_of_disjoint _ _ _ _ _ _ (by omega))

theorem fileBlock_nlink (din : Mem) (fbn : Nat) :
    Ensures False (fileBlock din fbn) s fun r _ => (dinode r.1).nlink = (dinode din).nlink := by
  refine wp_ite (fun _ => ?_) fun _ => ?_
  · exact wp_bind (fillAddr_nlink din fbn) fun _ _ h => wp_pure h
  · refine wp_bind (fillAddr_nlink din nDirect) fun din' s₁ h => ?_
    refine wp_bind (ensures_any (rsect _) s₁) fun indirect s₂ _ => wp_ite (fun _ => ?_) fun _ => wp_pure h
    refine wp_bind (ensures_any takeBlock s₂) fun b s₃ _ => ?_
    exact wp_bind (ensures_any (wsect _ _) s₃) fun _ _ _ => wp_pure h

theorem iappendLoop_nlink (fuel : Nat) (p : List UInt8) (din : Mem) (off : Nat) :
    Ensures False (iappendLoop fuel p din off) s fun r _ =>
      (dinode r.1).nlink = (dinode din).nlink := by
  induction fuel generalizing s p din off with
  | zero => exact wp_pure rfl
  | succ fuel ih =>
      refine wp_ite (fun _ => wp_ite (fun _ => ?_) fun _ => wp_stop id) fun _ => wp_pure rfl
      refine wp_bind (fileBlock_nlink din _) fun r s₁ h => ?_
      refine wp_bind (ensures_any (rsect r.2) s₁) fun buf s₂ _ => ?_
      refine wp_bind (ensures_any (wsect _ _) s₂) fun _ s₃ _ => ?_
      exact wp_mono (ih _ _ _) fun _ _ h' => h'.trans h

end Growing

/-! ## The blocks before the data -/

/-- No block of the log has been written, and every inode in use has one link. -/
structure Neat (s : State) : Prop where
  log : ∀ b, 2 ≤ b → b < inodestart → s.blocks b = zeroes
  nlink : ∀ i, (nodes s i).type ≠ .free → (nodes s i).nlink = 1

/-- Some files are on the image, and nothing else is. -/
def Clean (s : State) : Prop := Neat s ∧ ∃ content, Image content s

section Clean

variable {s s₁ σ : State} {files : List File} {inum : Nat}

/-- The inodes are in blocks before the data. -/
theorem nodes_congr (h : ∀ b, b < bmapstart → s₁.blocks b = s.blocks b)
    (hsuper : s.blocks 1 = superblock) : nodes s₁ = nodes s := by
  funext i
  rw [nodes, nodes]
  split_ifs with hlt
  · have hhi := (iblock_bounds hlt).2
    rw [inodeAt_eq ((h 1 (by decide)).trans hsuper), inodeAt_eq hsuper, h _ hhi]
  · rfl

theorem Neat.congr (h : Neat s) (hblocks : ∀ b, b < bmapstart → s₁.blocks b = s.blocks b)
    (hsuper : s.blocks 1 = superblock) : Neat s₁ := by
  refine ⟨fun b hlo hhi => ?_, ?_⟩
  · rw [← h.log b hlo hhi]
    exact hblocks b (Nat.lt_trans hhi (by decide))
  · rw [nodes_congr hblocks hsuper]
    exact h.nlink

theorem winode_neat (h : Neat s) (hlen : s.len = fsSize) (hsuper : s.blocks 1 = superblock)
    (hinum : inum < nInodes) {din : Mem} (hlink : (dinode din).nlink = 1) :
    Ensures False (winode inum din) s fun _ s' => Neat s' := by
  obtain ⟨hlo, hhi⟩ := iblock_bounds hinum
  have hfs : bmapstart ≤ fsSize := by decide
  have hlog : Ensures False (winode inum din) s fun _ s' =>
      ∀ b, 2 ≤ b → b < inodestart → s'.blocks b = zeroes := by
    apply wp_bind (rsect_spec (by omega) False.elim)
    rintro buf s ⟨rfl, -, -⟩
    apply wp_mono (wsect_spec (by omega) hlen)
    rintro _ _ rfl b hb hlt
    rw [← h.log b hb hlt]
    exact Function.update_of_ne (by omega) _ _
  refine wp_mono (wp_and hlog (winode_spec hinum hlen hsuper din)) ?_
  rintro _ s' ⟨hlog', hw⟩
  refine ⟨hlog', fun i hi => ?_⟩
  rw [hw.nodes] at hi ⊢
  by_cases hi' : i = inum
  · rw [hi', Function.update_self]
    exact hlink
  · rw [Function.update_of_ne hi'] at hi ⊢
    exact h.nlink i hi

/-- A file grows. -/
theorem iappend_clean (h : Clean s) (hlo : 1 ≤ inum) (hhi : inum < s.freeinode) (p : List UInt8) :
    Ensures False (iappend inum p) s fun _ s' => Clean s' ∧ s'.freeinode = s.freeinode := by
  obtain ⟨hneat, content, himage⟩ := h
  have htype := himage.type_ne hlo hhi
  have hinum := himage.inum_lt htype
  have hkept : Ensures False (iappend inum p) s fun _ s' => Neat s' := by
    apply wp_bind (rinode_spec hinum himage.len himage.super)
    rintro din s ⟨rfl, hdin⟩
    have hsize : size din = (content inum).length := by
      rw [size_eq, hdin]
      exact himage.size inum htype
    have hone : (dinode din).nlink = 1 := by
      rw [hdin]
      exact hneat.nlink inum htype
    have hloop := iappendLoop_spec p.length (Nat.le_refl _) (himage.filling htype hdin) False.elim
      False.elim
    rw [hsize]
    apply wp_bind (wp_and hloop (iappendLoop_nlink p.length p din _))
    rintro ⟨din', off⟩ s₁ ⟨⟨hf, -, -⟩, hsame⟩
    have hblocks : ∀ b, b < bmapstart → s₁.blocks b = s.blocks b := fun b hb =>
      hf.grown.metas b (Nat.lt_trans hb (by decide))
    refine winode_neat (hneat.congr hblocks himage.super) hf.grown.len
      ((hblocks 1 (by decide)).trans himage.super) hinum ?_
    exact (congrArg short (Mem.load_store_of_disjoint _ _ _ _ _ _ (by omega))).trans
      (hsame.trans hone)
  exact wp_mono (wp_and hkept (iappend_spec himage htype False.elim)) fun _ _ h' =>
    ⟨⟨h'.1, _, h'.2.1⟩, h'.2.2⟩

theorem ialloc_neat (h : Neat s) (hlen : s.len = fsSize) (hsuper : s.blocks 1 = superblock)
    (hlt : s.freeinode < nInodes) {type : Nat} (htype : type < 2 ^ 16) :
    Ensures False (ialloc type) s fun _ s' => Neat s' := by
  apply wp_get_bind
  apply wp_modify_bind
  have hneat : Neat { s with freeinode := s.freeinode + 1 } := h.congr (fun _ _ => rfl) hsuper
  refine wp_bind (winode_neat hneat hlen hsuper hlt ?_) fun _ _ h' => wp_pure h'
  rw [dinode_newDinode type htype]

theorem addFile_neat (h : Added files s) (hneat : Neat s) (hn : files.length + 2 < nInodes)
    (f : File) : Ensures False (addFile rootIno f) s fun _ s' => Neat s' := by
  have hfree := h.freeinode
  apply wp_ite
  · exact fun _ => wp_stop id
  · intro _
    rcases f.reads with _ | reads
    · exact wp_stop id
    have halloc := ialloc_spec (R := False) h.image (by omega)
      (by rw [hfree]; exact contentOf_new files) tFile (by decide) (by omega)
      (by rw [if_neg (by unfold rootIno; omega)]; rfl)
    apply wp_bind (wp_and (ialloc_neat hneat h.image.len h.image.super (by omega) (by decide)) halloc)
    rintro inum s₁ ⟨hneat₁, rfl, hfree₁, h₁⟩
    apply wp_bind (iappend_clean ⟨hneat₁, _, h₁⟩ (by decide) (by unfold rootIno; omega) _)
    rintro _ s₂ ⟨h₂, hfree₂⟩
    have hloop := wp_each (C := fun _ => True) (E := fun _ => ¬ False) (s := s₂)
      (g := fun c : Chunk => iappend s.freeinode c.bytes)
      (I := fun _ s' => Clean s' ∧ s'.freeinode = s₁.freeinode) ?_ reads ⟨h₂, hfree₂⟩
    · exact wp_mono hloop fun _ _ h' => h'.1.1
    · rintro c _ s' ⟨h', hfree'⟩
      apply wp_mono (iappend_clean h' (by omega) (by omega) c.bytes)
      exact fun _ _ h'' => ⟨h''.1, h''.2.trans hfree'⟩

theorem finish_neat (h : Added files s) (hneat : Neat s) :
    Ensures False (fixRoot rootIno >>= fun _ => get >>= fun s => balloc s.freeblock) s
      fun _ s' => Neat s' := by
  have hroot : rootIno < nInodes := by decide
  have htype := h.image.type_ne (i := rootIno) (by decide)
    (by rw [h.freeinode]; exact Nat.le_add_left ..)
  apply wp_bind (P := fun _ s' => Neat s' ∧ s'.len = fsSize ∧ s'.blocks 1 = superblock)
  · apply wp_bind (rinode_spec hroot h.image.len h.image.super)
    rintro din s ⟨rfl, hdin⟩
    have hone : (dinode (setSize din ((size din / bsize + 1) * bsize))).nlink = 1 := by
      refine (congrArg short (Mem.load_store_of_disjoint _ _ _ _ _ _ (by omega))).trans ?_
      exact (congrArg Block.Dinode.nlink hdin).trans (hneat.nlink rootIno htype)
    have hwrote := winode_spec (R := False) hroot h.image.len h.image.super
      (setSize din ((size din / bsize + 1) * bsize))
    exact wp_mono (wp_and (winode_neat hneat h.image.len h.image.super hroot hone) hwrote) fun _ _ h' =>
      ⟨h'.1, h'.2.len.trans h.image.len, h'.2.super.trans h.image.super⟩
  · rintro _ s₁ ⟨h₁, hlen₁, hsuper₁⟩
    apply wp_get_bind
    apply wp_ite
    · intro _
      apply wp_mono (wsect_spec (by decide) hlen₁)
      rintro _ _ rfl
      exact h₁.congr (fun b hb => Function.update_of_ne (Nat.ne_of_lt hb) _ _) hsuper₁
    · exact fun _ => wp_stop id

/-- `mkfs` leaves the log alone, and gives every file one link. -/
theorem Exits.neat {image : ImageArg} (h : Exits image files σ) (hn : files.length + 2 ≤ nInodes) :
    Neat σ := by
  have hmain : Ensures False (main image files) start fun _ σ => Neat σ := by
    cases image with
    | missing => exact wp_stop id
    | unopened => exact wp_stop id
    | opened =>
        apply wp_modify_bind
        rw [List.range_eq_range']
        apply wp_bind (zero_spec fsSize 0 (by decide) rfl rfl)
        rintro _ _ rfl
        apply wp_bind (wsect_spec (by decide) rfl)
        rintro _ _ rfl
        have hblank : Neat blank := by
          refine ⟨fun b hlo _ => ?_, fun i hi => absurd ?_ hi⟩
          · have hne : b ≠ 1 := by omega
            exact Function.update_of_ne hne superblock fun _ => zeroes
          · rw [blank_image.type, typeAt, if_pos]
            have hone : blank.freeinode = 1 := rfl
            omega
        have halloc := ialloc_spec (R := False) (s := blank) blank_image (by decide) rfl tDir
          (by decide) (by decide) (by rfl)
        apply wp_bind (wp_and (ialloc_neat hblank rfl blank_image.super (by decide) (by decide)) halloc)
        rintro rootino s₁ ⟨hneat₁, rfl, hfree₁, h₁⟩
        have hfree : blank.freeinode = rootIno := rfl
        rw [hfree]
        apply wp_ite
        · intro _
          have hone : rootIno < s₁.freeinode := by rw [hfree₁]; decide
          apply wp_bind (wp_and (iappend_clean ⟨hneat₁, _, h₁⟩ (by decide) hone _)
            (iappend_spec h₁ (h₁.type_ne (by decide) hone) False.elim))
          rintro _ s₂ ⟨⟨hclean₂, hfree₂⟩, h₂, -⟩
          rw [← hfree₂] at hone
          apply wp_bind (wp_and (iappend_clean hclean₂ (by decide) hone _)
            (iappend_spec h₂ (h₂.type_ne (by decide) hone) False.elim))
          rintro _ s₃ ⟨⟨hclean₃, hfree₃⟩, h₃, -⟩
          have hadded : Added [] s₃ := by
            refine ⟨by rw [hfree₃, hfree₂, hfree₁]; rfl, ?_⟩
            rw [Function.update_idem, Function.update_self, List.nil_append] at h₃
            rw [contentOf_nil]
            exact h₃
          apply wp_bind (wp_each (I := fun rest s => Neat s ∧ ∃ done, files = done ++ rest ∧
            Added done s) ?_ files ⟨hclean₃.1, [], rfl, hadded⟩)
          · rintro _ s₄ ⟨hneat₄, done, hdone, h₄⟩
            exact finish_neat h₄ hneat₄
          · rintro f rest s ⟨hneat, done, hdone, h⟩
            have hlen := congrArg List.length hdone
            rw [List.length_append, List.length_cons] at hlen
            apply wp_mono (wp_and (addFile_neat h hneat (by omega) f)
              (addFile_spec h (by omega) False.elim))
            exact fun _ s' h' => ⟨h'.1, done ++ [f], by rw [hdone, List.append_assoc]; rfl, h'.2⟩
        · exact fun hne => absurd rfl hne
  exact wp_of_run hmain (fun _ _ => trivial) h

end Clean

end Cs350.Mkfs
