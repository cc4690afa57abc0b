import Cs350.Mkfs.Image
import Mathlib.Data.List.Induction

set_option autoImplicit false

/-! # The image that `mkfs` leaves

File `k` of the arguments, counted from 0, becomes inode `k + 2`. The root directory has an entry
for every inode, and at the end its size is raised to a multiple of the block size. -/

namespace Cs350.Mkfs

open Block (bsize nDirect maxFile direntSize Dinode indirectAddr lblock refs)
open FileSys (rootIno)
open Prog

/-! ## The contents -/

/-- The bytes of the root directory. -/
def rootBytes (files : List File) : List UInt8 :=
  dirent rootIno [46] ++ dirent rootIno [46, 46] ++
    (files.zipIdx 2).flatMap fun x => dirent x.2 x.1.name

/-- The bytes of inode `i`. -/
def contentOf (files : List File) (i : Nat) : List UInt8 :=
  if i = rootIno then rootBytes files
  else if i < 2 then [] else ((files[i - 2]?).map File.content).getD []

section Contents

variable {files : List File} {f : File} {inum : Nat}

theorem dirent_length (inum : Nat) (name : List UInt8) : (dirent inum name).length = direntSize := by
  simp only [dirent, strncpy, List.length_cons, List.length_append, List.length_take,
    List.length_replicate, Block.dirsiz, direntSize]
  omega

theorem rootBytes_snoc : rootBytes (files ++ [f]) =
    rootBytes files ++ dirent (files.length + 2) f.name := by
  rw [rootBytes, List.zipIdx_append, List.flatMap_append, ← List.append_assoc, ← rootBytes]
  simp [Nat.add_comm]

theorem rootBytes_length : (rootBytes files).length = (files.length + 2) * direntSize := by
  induction files using List.reverseRecOn with
  | nil => rfl
  | append_singleton files f ih =>
      rw [rootBytes_snoc, List.length_append, ih, dirent_length, List.length_append,
        List.length_singleton]
      unfold direntSize
      omega

theorem contentOf_root : contentOf files rootIno = rootBytes files := if_pos rfl

theorem contentOf_nil : contentOf [] = Function.update (fun _ => []) rootIno (rootBytes []) := by
  funext i
  by_cases hi : i = rootIno
  · rw [hi, Function.update_self, contentOf_root]
  · rw [Function.update_of_ne hi, contentOf, if_neg hi]
    simp

/-- There are no bytes yet for the next file. -/
theorem contentOf_new (files : List File) : contentOf files (files.length + 2) = [] := by
  have hroot : rootIno = 1 := rfl
  rw [contentOf, if_neg (by omega), if_neg (by omega)]
  simp

/-- What `addFile` adds: an entry in the root directory and the bytes of the file. -/
theorem contentOf_snoc (files : List File) (f : File) :
    contentOf (files ++ [f]) = Function.update (Function.update (contentOf files) rootIno
      (rootBytes files ++ dirent (files.length + 2) f.name)) (files.length + 2) f.content := by
  have hroot : rootIno = 1 := rfl
  funext i
  by_cases hnew : i = files.length + 2
  · rw [hnew, Function.update_self, contentOf, if_neg (by omega), if_neg (by omega)]
    simp
  · rw [Function.update_of_ne hnew]
    by_cases hi : i = rootIno
    · rw [hi, Function.update_self, contentOf_root, rootBytes_snoc]
    · rw [Function.update_of_ne hi, contentOf, contentOf, if_neg hi, if_neg hi]
      split_ifs with hlt
      · rfl
      · rcases Nat.lt_or_ge (i - 2) files.length with hin | hout
        · rw [List.getElem?_append_left hin]
        · rw [List.getElem?_eq_none (by rw [List.length_append, List.length_singleton]; omega),
            List.getElem?_eq_none hout]

/-- Files only become longer. -/
theorem contentOf_length_le (files rest : List File) (i : Nat) :
    (contentOf files i).length ≤ (contentOf (files ++ rest) i).length := by
  by_cases hi : i = rootIno
  · rw [hi, contentOf_root, contentOf_root, rootBytes_length, rootBytes_length, List.length_append]
    unfold direntSize
    omega
  · rw [contentOf, contentOf, if_neg hi, if_neg hi]
    split_ifs with hlt
    · exact Nat.le_refl _
    · rcases Nat.lt_or_ge (i - 2) files.length with hin | hout
      · rw [List.getElem?_append_left hin]
      · rw [List.getElem?_eq_none hout]
        exact Nat.zero_le _

end Contents

/-! ## An empty image -/

section Empty

variable {R : Prop} {s : State}

/-- `for(i = 0; i < FSSIZE; i++) wsect(i, zeroes);` -/
theorem zero_spec (n k : Nat) (hn : k + n = fsSize) (hlen : s.len = k)
    (hzero : s.blocks = fun _ => zeroes) :
    Ensures R (each (fun i => wsect i zeroes) (List.range' k n)) s fun _ s' =>
      s' = { s with len := fsSize } := by
  induction n generalizing k s with
  | zero =>
      have hk : s.len = fsSize := by omega
      refine wp_pure ?_
      rw [← hk]
  | succ n ih =>
      rw [List.range'_succ]
      refine wp_bind (P := fun _ s' => s' = { s with len := k + 1 }) (wp_modify ?_) ?_
      · have hmax : max k (k + 1) = k + 1 := by omega
        have hsame : Function.update s.blocks k zeroes = s.blocks := by
          rw [Function.update_eq_self_iff, hzero]
        rw [sector_eq (by omega), hlen, hmax, hsame]
      · rintro _ _ rfl
        exact ih (k + 1) (by omega) rfl hzero

/-- The image before the root directory is made. -/
def blank : State where
  len := fsSize
  blocks := Function.update (fun _ => zeroes) 1 superblock
  freeinode := 1
  freeblock := nmeta

theorem blank_image : Image (fun _ => []) blank := by
  have hsuper : blank.blocks 1 = superblock := by simp [blank]
  have hother : ∀ b, b ≠ 1 → blank.blocks b = zeroes := fun b hb => by simp [blank, hb]
  have hfresh : ∀ i, nodes blank i = Dinode.fresh .free := by
    intro i
    rw [nodes]
    split_ifs with hlt
    · have hlo := (iblock_bounds hlt).1
      have hone : 1 < inodestart := by decide
      rw [inodeAt_eq hsuper, hother _ (by omega), ← dinode_zeroes]
      rfl
    · rfl
  have hnodes : ∀ i, (nodes blank i).type = .free := fun i => by
    rw [hfresh]
    rfl
  have hrefs : ∀ x, refs (nodes blank) blank.blocks x = none := fun x => if_pos (hnodes x.1)
  refine ⟨rfl, hsuper, by decide, fun i => ?_, fun i _ => hfresh i, fun i hi => absurd (hnodes i) hi,
    fun i hi => absurd (hnodes i) hi, ⟨?_, ⟨fun x y b hx => ?_, fun x b hx => ?_, fun b hb => ?_⟩,
    fun i hi => absurd (hnodes i) hi, fun b hb _ => ?_, fun i hi => absurd (hnodes i) hi⟩, ?_⟩
  · have hfree : blank.freeinode = 1 := rfl
    rw [hnodes, typeAt, if_pos (by omega)]
  · decide
  · rw [hrefs] at hx
    cases hx
  · rw [hrefs] at hx
    cases hx
  · have hlo := (isData_iff.1 hb).1
    have hfree : blank.freeblock = nmeta := rfl
    simp only [usedMap, hfree, hrefs, decide_eq_true_eq, reduceCtorEq, exists_false, iff_false]
    omega
  · have hmeta : 1 < blank.freeblock := by decide
    exact hother b (by omega)
  · have hzero : blocksOf [] = 0 := by decide
    have hnone : total (fun _ => []) = 0 := Finset.sum_eq_zero fun _ _ => hzero
    rw [hnone]
    rfl

end Empty

/-! ## Adding the files -/

section Add

variable {R : Prop} {s : State} {files : List File} {f : File}

/-- The image with these files, before the size of the root directory is fixed. -/
structure Added (files : List File) (s : State) : Prop where
  freeinode : s.freeinode = files.length + 2
  image : Image (contentOf files) s

/-- An allocated inode. -/
theorem Image.type_ne {content : Nat → List UInt8} (h : Image content s) {i : Nat} (hi : 1 ≤ i)
    (hlt : i < s.freeinode) : (nodes s i).type ≠ .free := by
  rw [h.type, typeAt_ne]
  exact ⟨hi, hlt⟩

/-- What `mkfs` needs of a file. -/
structure Readable (f : File) : Prop where
  slash : 47 ∉ f.arg
  opens : f.reads ≠ none

theorem addFile_spec (h : Added files s) (hn : files.length + 2 < nInodes)
    (hf : R → Readable f ∧ Fits (contentOf (files ++ [f]))) :
    Ensures R (addFile rootIno f) s fun _ s' => Added (files ++ [f]) s' := by
  have hroot : rootIno = 1 := rfl
  apply wp_ite
  · exact fun hslash => wp_stop fun hR => (hf hR).1.slash hslash
  · intro _
    rcases hreads : f.reads with _ | reads
    · exact wp_stop fun hR => (hf hR).1.opens hreads
    have hfree := h.freeinode
    have hcontent : f.content = reads.flatMap Chunk.bytes := by
      rw [File.content, hreads]
      rfl
    -- the contents when `c` has been appended to the file so far
    have hfits : ∀ c : List UInt8, c.length ≤ f.content.length → R → Fits (Function.update
        (Function.update (contentOf files) rootIno
          (rootBytes files ++ dirent (files.length + 2) f.name)) (files.length + 2) c) := by
      intro c hc hR
      refine (hf hR).2.mono fun i => ?_
      rw [contentOf_snoc]
      by_cases hi : i = files.length + 2
      · rw [hi, Function.update_self, Function.update_self]
        exact hc
      · rw [Function.update_of_ne hi, Function.update_of_ne hi]
    have hnone : ∀ X, Function.update (Function.update (contentOf files) rootIno X)
        (files.length + 2) [] = Function.update (contentOf files) rootIno X := by
      intro X
      rw [Function.update_eq_self_iff, Function.update_of_ne (by omega), contentOf_new]
    dsimp only
    apply wp_bind (ialloc_spec h.image (by omega) (by rw [hfree]; exact contentOf_new files) tFile
      (by decide) (by omega) (by rw [if_neg (by omega)]; rfl))
    rintro inum s₁ ⟨rfl, hfree₁, h₁⟩
    rw [hfree]
    apply wp_bind (iappend_spec h₁ (h₁.type_ne (by decide) (by omega)) fun hR => by
      rw [contentOf_root, ← hnone]
      exact hfits [] (Nat.zero_le _) hR)
    rintro _ s₂ ⟨h₂, hfree₂⟩
    rw [contentOf_root, ← hnone] at h₂
    have hloop := wp_each (C := fun _ => True) (E := fun _ => ¬ R) (s := s₂)
      (g := fun c : Chunk => iappend (files.length + 2) c.bytes)
      (I := fun rest s' => s'.freeinode = files.length + 3 ∧
        ∃ c, c ++ rest.flatMap Chunk.bytes = f.content ∧
          Image (Function.update (Function.update (contentOf files) rootIno
            (rootBytes files ++ dirent (files.length + 2) f.name)) (files.length + 2) c) s') ?_ reads ?_
    · apply wp_mono hloop
      rintro _ s' ⟨hfree', c, hc, h'⟩
      rw [List.flatMap_nil, List.append_nil] at hc
      refine ⟨by rw [hfree', List.length_append, List.length_singleton], ?_⟩
      rw [contentOf_snoc, ← hc]
      exact h'
    · rintro k rest s' ⟨hfree', c, hc, h'⟩
      rw [List.flatMap_cons, ← List.append_assoc] at hc
      apply wp_mono (iappend_spec h' (h'.type_ne (by omega) (by omega)) fun hR => by
        rw [Function.update_self, Function.update_idem]
        refine hfits _ ?_ hR
        rw [← hc]
        exact (List.prefix_append _ _).length_le)
      rintro _ s'' ⟨h'', hfree''⟩
      rw [Function.update_self, Function.update_idem] at h''
      exact ⟨hfree''.trans hfree', c ++ k.bytes, hc, h''⟩
    · exact ⟨by omega, [], by rw [hcontent, List.nil_append], h₂⟩

end Add

/-! ## The run -/

section Made

variable {R : Prop} {s σ : State} {files : List File} {image : ImageArg}

/-- `((off/BSIZE) + 1) * BSIZE` -/
def fixedSize (off : Nat) : Nat := (off / bsize + 1) * bsize

/-- The size that inode `i` has at the end. -/
def sizeAt (files : List File) (i : Nat) : Nat :=
  if i = rootIno then fixedSize (contentOf files i).length else (contentOf files i).length

/-- The finished image. -/
structure Made (files : List File) (σ : State) : Prop where
  len : σ.len = fsSize
  freeinode : σ.freeinode = files.length + 2
  super : σ.blocks 1 = superblock
  type : ∀ i, (nodes σ i).type = typeAt σ.freeinode i
  free : ∀ i, (nodes σ i).type = .free → nodes σ i = Dinode.fresh .free
  size : ∀ i, (nodes σ i).type ≠ .free → (nodes σ i).size = sizeAt files i
  indirect : ∀ i, (nodes σ i).type ≠ .free →
    ((nodes σ i).addrs indirectAddr ≠ 0 ↔ nDirect < Block.nblocks (contentOf files i).length)
  core : Core (nodes σ) σ.blocks σ.freeblock (counts (contentOf files)) (contentOf files)
  map : σ.blocks bmapstart = bitmap σ.freeblock

theorem root_length (files : List File) :
    (contentOf files rootIno).length = (files.length + 2) * direntSize := by
  rw [contentOf_root, rootBytes_length]

/-- From `s` to `s'` the size of the root directory is fixed, and nothing else changes. -/
structure RootFixed (files : List File) (s s' : State) : Prop where
  len : s'.len = s.len
  freeinode : s'.freeinode = s.freeinode
  freeblock : s'.freeblock = s.freeblock
  super : s'.blocks 1 = s.blocks 1
  data : ∀ b, bmapstart ≤ b → s'.blocks b = s.blocks b
  root : nodes s' rootIno =
    { nodes s rootIno with size := fixedSize (contentOf files rootIno).length }
  others : ∀ i, i ≠ rootIno → nodes s' i = nodes s i

theorem fixRoot_spec (h : Added files s) (hn : files.length + 2 ≤ nInodes) :
    Ensures R (fixRoot rootIno) s fun _ s' => RootFixed files s s' := by
  have hroot : rootIno < nInodes := by decide
  have hfree := h.freeinode
  have htype := h.image.type_ne (i := rootIno) (by decide) (by rw [hfree]; exact Nat.le_add_left ..)
  apply wp_bind (rinode_spec hroot h.image.len h.image.super)
  rintro din s ⟨rfl, hdin⟩
  have hsize : size din = (contentOf files rootIno).length := by
    rw [size_eq, hdin]
    exact h.image.size _ htype
  rw [hsize]
  apply wp_mono (winode_spec hroot h.image.len h.image.super _)
  intro _ s' hw
  have hfixed : fixedSize (contentOf files rootIno).length < 2 ^ 32 := by
    rw [root_length, fixedSize]
    unfold nInodes at hn
    unfold direntSize bsize
    omega
  have hnodes : nodes s' = Function.update (nodes s) rootIno
      (dinode (setSize din (fixedSize (contentOf files rootIno).length))) := hw.nodes
  rw [dinode_setSize hfixed, hdin] at hnodes
  refine ⟨hw.len, hw.freeinode, hw.freeblock, hw.super, hw.data, ?_, fun i hi => ?_⟩
  · rw [hnodes, Function.update_self]
  · rw [hnodes, Function.update_of_ne hi]

theorem RootFixed.same {s' : State} (h : RootFixed files s s') (i : Nat) :
    (nodes s' i).type = (nodes s i).type ∧ (nodes s' i).addrs = (nodes s i).addrs := by
  by_cases hi : i = rootIno
  · simp [hi, h.root]
  · simp [h.others i hi]

/-- With the bitmap the image is finished. -/
theorem RootFixed.made {s' : State} (hw : RootFixed files s s') (h : Added files s) :
    Made files { s' with
      blocks := Function.update s'.blocks bmapstart (bitmap s'.freeblock) } := by
  have hfree := h.freeinode
  have hmeta := nmeta_eq
  have htype := h.image.type_ne (i := rootIno) (by decide) (by rw [hfree]; exact Nat.le_add_left ..)
  have hsame := hw.same
  have hcore : Core (nodes s') s'.blocks s'.freeblock (counts (contentOf files))
      (contentOf files) := by
    rw [hw.freeblock]
    exact h.image.core.congr (fun i => (hsame i).1) (fun i => (hsame i).2)
      fun b hb => hw.data b (by omega)
  have hmap : bmapstart ≠ 1 := by decide
  have hsuper : Function.update s'.blocks bmapstart (bitmap s'.freeblock) 1 = superblock := by
    rw [Function.update_of_ne hmap.symm, hw.super]
    exact h.image.super
  -- the bitmap's block is behind those of the inodes
  have hinodes : nodes { s' with
      blocks := Function.update s'.blocks bmapstart (bitmap s'.freeblock) } = nodes s' := by
    funext i
    rw [nodes, nodes]
    split_ifs with hlt
    · have hhi := (iblock_bounds hlt).2
      dsimp only
      rw [inodeAt_eq hsuper, inodeAt_eq (hw.super.trans h.image.super),
        Function.update_of_ne (by omega)]
    · rfl
  refine ⟨hw.len.trans h.image.len, hw.freeinode.trans hfree, hsuper, fun i => ?_, fun i hi => ?_,
    fun i hi => ?_, fun i hi => ?_, ?_, by simp⟩
  · rw [hinodes, (hsame i).1, h.image.type]
    show typeAt s.freeinode i = typeAt s'.freeinode i
    rw [hw.freeinode]
  · rw [hinodes] at hi ⊢
    have hi' : i ≠ rootIno := by
      rintro rfl
      exact htype ((hsame rootIno).1 ▸ hi)
    rw [hw.others i hi'] at hi ⊢
    exact h.image.free i hi
  · rw [hinodes] at hi ⊢
    rw [sizeAt]
    split_ifs with hi'
    · rw [hi', hw.root]
    · rw [hw.others i hi'] at hi ⊢
      exact h.image.size i hi
  · rw [hinodes, (hsame i).1] at hi
    rw [hinodes, (hsame i).2]
    exact h.image.indirect i hi
  · rw [hinodes]
    exact hcore.congr (fun _ => rfl) (fun _ => rfl) fun b hb =>
      Function.update_of_ne (by omega) _ _

/-- `fixRoot` and `balloc` finish the image. -/
theorem Added.finish (h : Added files s) (hn : files.length + 2 ≤ nInodes) :
    Ensures R (fixRoot rootIno >>= fun _ => get >>= fun s => balloc s.freeblock) s
      fun _ σ => Made files σ := by
  apply wp_bind (fixRoot_spec h hn)
  intro _ s' hw
  have hmade := hw.made h
  apply wp_get_bind
  apply wp_ite
  · intro _
    apply wp_mono (wsect_spec (by decide) (hw.len.trans h.image.len))
    rintro _ _ rfl
    exact hmade
  · have hmap : fsSize < bsize * 8 := by decide
    have hle := hmade.core.bounds.2
    dsimp only at hle
    exact fun hlt => absurd (by omega) hlt

/-- What `mkfs` needs of its arguments. -/
structure Acceptable (files : List File) : Prop where
  readable : ∀ f ∈ files, Readable f
  inodes : files.length + 2 ≤ nInodes
  small : ∀ f ∈ files, f.content.length ≤ maxFile * bsize
  room : nmeta + total (contentOf files) ≤ fsSize

theorem Acceptable.fits (h : Acceptable files) : Fits (contentOf files) := by
  refine ⟨h.room, fun i => ?_⟩
  have hn := h.inodes
  unfold nInodes at hn
  by_cases hi : i = rootIno
  · rw [hi, contentOf_root, rootBytes_length]
    unfold direntSize bsize maxFile nDirect Block.nIndirect bsize
    omega
  · rw [contentOf, if_neg hi]
    split_ifs with hlt
    · exact Nat.zero_le _
    · cases hfile : files[i - 2]? with
      | none => exact Nat.zero_le _
      | some f => exact h.small f (List.mem_of_getElem? hfile)

/-- A run of `mkfs` with no more files than there are inodes for. -/
theorem main_spec (image : ImageArg) (hn : files.length + 2 ≤ nInodes) :
    Ensures (image = .opened ∧ Acceptable files) (main image files) start
      fun _ σ => Made files σ := by
  cases image with
  | missing => exact wp_stop fun hR => nomatch hR.1
  | unopened => exact wp_stop fun hR => nomatch hR.1
  | opened =>
      have hfits : ∀ done rest, files = done ++ rest → Acceptable files → Fits (contentOf done) := by
        intro done rest hdone hR
        exact hR.fits.mono fun i => hdone ▸ contentOf_length_le done rest i
      apply wp_modify_bind
      rw [List.range_eq_range']
      apply wp_bind (zero_spec fsSize 0 (by decide) rfl rfl)
      rintro _ _ rfl
      apply wp_bind (wsect_spec (by decide) rfl)
      rintro _ _ rfl
      apply wp_bind (ialloc_spec (s := blank) blank_image (by decide) rfl tDir (by decide)
        (by decide) (by rfl))
      rintro rootino s₁ ⟨rfl, hfree₁, h₁⟩
      have hfree : blank.freeinode = rootIno := rfl
      rw [hfree]
      apply wp_ite
      · intro _
        -- the two entries `.` and `..` fit, being part of what has to fit in the end
        have hempty : ∀ c : List UInt8, c.length ≤ (rootBytes []).length →
            ImageArg.opened = ImageArg.opened ∧ Acceptable files →
              Fits (Function.update (fun _ => []) rootIno c) := by
          intro c hc hR
          refine (hfits [] files rfl hR.2).mono fun i => ?_
          rw [contentOf_nil]
          by_cases hi : i = rootIno
          · rw [hi, Function.update_self, Function.update_self]
            exact hc
          · rw [Function.update_of_ne hi, Function.update_of_ne hi]
        apply wp_bind (iappend_spec h₁ (h₁.type_ne (by decide) (by rw [hfree₁]; decide))
          (hempty _ (by decide)))
        rintro _ s₂ ⟨h₂, hfree₂⟩
        apply wp_bind (iappend_spec h₂ (h₂.type_ne (by decide) (by rw [hfree₂, hfree₁]; decide))
          fun hR => by
            rw [Function.update_self, Function.update_idem]
            exact hempty _ (Nat.le_refl _) hR)
        rintro _ s₃ ⟨h₃, hfree₃⟩
        have hadded : Added [] s₃ := by
          refine ⟨by rw [hfree₃, hfree₂, hfree₁]; rfl, ?_⟩
          rw [Function.update_idem, Function.update_self, List.nil_append] at h₃
          rw [contentOf_nil]
          exact h₃
        apply wp_bind (wp_each (I := fun rest s => ∃ done, files = done ++ rest ∧ Added done s) ?_ files
          ⟨[], rfl, hadded⟩)
        · rintro _ s₄ ⟨done, hdone, h₄⟩
          rw [List.append_nil] at hdone
          exact (hdone ▸ h₄).finish hn
        · rintro f rest s ⟨done, hdone, h⟩
          have hlen := congrArg List.length hdone
          rw [List.length_append, List.length_cons] at hlen
          have hmem : f ∈ files := hdone ▸ List.mem_append_right _ List.mem_cons_self
          have hnext : files = (done ++ [f]) ++ rest := by rw [hdone, List.append_assoc]; rfl
          apply wp_mono (addFile_spec h (by omega) fun hR =>
            ⟨hR.2.readable f hmem, hfits _ rest hnext hR.2⟩)
          exact fun _ s' h' => ⟨done ++ [f], hnext, h'⟩
      · exact fun hne => absurd rfl hne

/-- `mkfs` makes an image for arguments that it accepts. -/
theorem Acceptable.exits (h : Acceptable files) : ∃ σ, Exits .opened files σ ∧ Made files σ := by
  obtain ⟨_, σ, hrun, hmade⟩ := wp_runs (main_spec .opened h.inodes) (fun _ _ => trivial)
    fun _ hstop => hstop ⟨rfl, h⟩
  exact ⟨σ, hrun, hmade⟩

theorem Exits.made (h : Exits image files σ) (hn : files.length + 2 ≤ nInodes) : Made files σ := by
  have hmade := wp_of_run (main_spec image hn) (fun _ _ => trivial) h
  exact hmade

end Made

end Cs350.Mkfs
