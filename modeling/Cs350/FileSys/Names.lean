import Cs350.FileSys.Create

set_option autoImplicit false

/-! # The calls that change names

`sys_link`, `sys_unlink`, `sys_mkdir`, `sys_mknod`, the first part of `sys_open`, and `exec`: each
of them gives back every reference it takes, but for the inode that `open` goes on with, and leaves
no link to spare. -/

namespace Cs350.FileSys

open Prog

section Names

variable {C : Mark → Prop} {E : Panic → Prop} {T : Fs → Multiset Nat → Prop}
  {fs : Fs} {O : Multiset Ip} {ip dp cwd : Ip}

/-- `ilock` of an inode that was found by a walk. -/
theorem ilock_found {P : Multiset Nat} (laws : Laws C E T) (hinv : Inv T fs (ip ::ₘ O) O P) :
    wp C E (ilock ip) fs fun _ fs' =>
      Inv T fs' (ip ::ₘ O) (ip ::ₘ O) P ∧ Same fs fs' (ip ::ₘ O) ∧ (fs'.icache ip).valid :=
  ilock_spec laws hinv (Multiset.mem_cons_self ip O)

/-- The rollback of `sys_link` takes back the link to spare. -/
theorem linkBad_spec (laws : Laws C E T)
    (hinv : Inv T fs (ip ::ₘ O) (ip ::ₘ O) ((fs.icache ip).inum ::ₘ 0)) :
    wp C E (linkBad ip) fs fun _ fs' => Inv T fs' O O 0 := by
  have hip := Multiset.mem_cons_self ip O
  have hrefs := hinv.refs.mono (Multiset.subset_cons O ip)
  unfold linkBad
  apply wp_bind (ilock_found laws ⟨hrefs, hinv.kept⟩)
  rintro _ fs₁ ⟨hinv₁, hsame₁, hvalid₁⟩
  rw [← hsame₁.slot ip hip] at hinv₁
  apply wp_bind (dropLink_spec laws hinv₁ hip hvalid₁)
  rintro _ fs₂ ⟨hinv₂, -⟩
  apply wp_bind (iput_held laws hinv₂)
  rintro _ fs₃ ⟨hinv₃, -⟩
  exact wp_pure hinv₃

theorem sysLink_spec (laws : Laws C E T) (hinv : Inv T fs O O 0) (hcwd : cwd ∈ O)
    (old new : List Char) : wp C E (sysLink cwd old new) fs fun _ fs' => Inv T fs' O O 0 := by
  unfold sysLink
  apply wp_bind (namei_spec laws old hinv hcwd)
  intro r fs₁ hr
  split
  next => exact wp_pure hr.inv
  next ip =>
    have hip := Multiset.mem_cons_self ip O
    apply wp_bind (ilock_found laws hr.inv)
    rintro _ fs₂ ⟨hinv₂, -, hvalid₂⟩
    apply wp_get_bind
    apply wp_ite
    · intro _
      apply wp_bind (iput_held laws hinv₂)
      rintro _ fs₃ ⟨hinv₃, -⟩
      exact wp_pure hinv₃
    · intro hdir
      apply wp_bind (addLink_spec laws hinv₂ hip hvalid₂)
      rintro _ fs₃ ⟨hinv₃, hkeeps₃⟩
      apply wp_bind (nameiparent_spec laws new hinv₃ (Multiset.mem_cons_of_mem hcwd))
      intro r fs₄ hr₄
      -- the inode to be linked is held all along, so it keeps its number and its type
      obtain ⟨hinum₄, htype₄, -⟩ := (hkeeps₃.trans hr₄.keeps) ip hip
      split
      next =>
        have hinv₄ : Inv T fs₄ (ip ::ₘ O) (ip ::ₘ O) ((fs₂.icache ip).inum ::ₘ 0) := hr₄.inv
        rw [← hinum₄] at hinv₄
        exact linkBad_spec laws hinv₄
      next dp name =>
        have hmem : ip ∈ dp ::ₘ ip ::ₘ O := Multiset.mem_cons_of_mem hip
        have hinv₄ : Inv T fs₄ (dp ::ₘ ip ::ₘ O) (ip ::ₘ O) ((fs₂.icache ip).inum ::ₘ 0) :=
          hr₄.inv
        apply wp_bind (ilock_found laws hinv₄)
        rintro _ fs₅ ⟨hinv₅, hsame₅, -⟩
        have hinum₅ := (hsame₅.slot ip hmem).trans hinum₄
        have hdir₅ : (fs₅.node ip).type ≠ .dir := by
          rw [hsame₅.node hmem, htype₄]
          exact hdir
        have hready : Inv T fs₅ (dp ::ₘ ip ::ₘ O) (dp ::ₘ ip ::ₘ O) ((fs₅.icache ip).inum ::ₘ
            if (fs₅.node ip).type = .dir then (fs₅.icache dp).inum ::ₘ 0 else 0) := by
          rw [if_neg hdir₅, hinum₅]
          exact hinv₅
        apply wp_get_bind
        apply wp_bind (dirlink_spec laws hready hmem (Multiset.mem_cons_self dp _) name
          (fun h => absurd h hdir₅))
        rintro r fs₆ ⟨hkeeps₆, ⟨rfl, hinv₆⟩ | ⟨rfl, hinv₆⟩⟩
        · rw [if_neg (by decide)]
          apply wp_bind (iput_held laws hinv₆)
          rintro _ fs₇ ⟨hinv₇, -⟩
          apply wp_bind (iput_held laws hinv₇)
          rintro _ fs₈ ⟨hinv₈, -⟩
          exact wp_pure hinv₈
        · rw [if_pos (by decide)]
          rw [if_neg hdir₅] at hinv₆
          apply wp_bind (iput_held laws hinv₆)
          rintro _ fs₇ ⟨hinv₇, hkeeps₇⟩
          have hinum₇ := (hkeeps₇ ip hip).1.trans (hkeeps₆ ip hmem).1
          rw [← hinum₇] at hinv₇
          exact linkBad_spec laws hinv₇

/-- `sys_unlink` from the erasure on: the links that the entry stood for are taken back. -/
theorem unlinkEntry_spec {off : Nat} {de : Dirent} (laws : Laws C E T)
    (hinv : Inv T fs (ip ::ₘ dp ::ₘ O) (ip ::ₘ dp ::ₘ O) 0) (hvalid : (fs.icache ip).valid)
    (hvalid' : (fs.icache dp).valid) (hdir : (fs.node dp).type = .dir)
    (hget : (fs.node dp).entries[off]? = some de) (hne : de.inum ≠ 0)
    (hdot : ¬ namecmp de.name ['.']) (hdots : ¬ namecmp de.name ['.', '.'])
    (hinum : (fs.icache ip).inum = de.inum)
    (hempty : (fs.node ip).type = .dir → isdirempty (fs.node ip).entries) :
    wp C E (unlinkEntry dp ip off) fs fun _ fs' => Inv T fs' O O 0 := by
  have hip := Multiset.mem_cons_self ip (dp ::ₘ O)
  have hdp : dp ∈ ip ::ₘ dp ::ₘ O := Multiset.mem_cons_of_mem (Multiset.mem_cons_self dp O)
  have hnode : fs.node ip = fs.inode de.inum := by rw [Fs.node, hinum]
  rw [hnode] at hempty
  have hkept := laws.erase hinv.refs hdp hdir hget hne hdot hdots hempty hinv.kept
  -- what is left to do once the parent's link count is right
  have hrest : ∀ fs', Inv T fs' (ip ::ₘ dp ::ₘ O) (ip ::ₘ dp ::ₘ O) ((fs'.icache ip).inum ::ₘ 0) →
      (fs'.icache ip).valid →
      wp C E (do
        iunlockput dp
        dropLink ip
        iunlockput ip
        pure (0 : Int)) fs' fun _ fs' => Inv T fs' O O 0 := by
    intro fs₁ hinv₁ hvalid₁
    rw [Multiset.cons_swap] at hinv₁
    apply wp_bind (iput_held laws hinv₁)
    rintro _ fs₂ ⟨hinv₂, hkeeps₂⟩
    obtain ⟨hinum₂, -, hvalid₂⟩ := hkeeps₂ ip (Multiset.mem_cons_self ip O)
    rw [← hinum₂] at hinv₂
    apply wp_bind (dropLink_spec laws hinv₂ (Multiset.mem_cons_self ip O) (hvalid₂ hvalid₁))
    rintro _ fs₃ ⟨hinv₃, -⟩
    apply wp_bind (iput_held laws hinv₃)
    rintro _ fs₄ ⟨hinv₄, -⟩
    exact wp_pure hinv₄
  unfold unlinkEntry
  apply wp_modify_bind
  have hkeeps₁ : Keeps fs (fs.setEntries dp ((fs.node dp).entries.set off ⟨0, []⟩))
      (ip ::ₘ dp ::ₘ O) := Keeps.setInode fs rfl
  have hrefs₁ : Refs (fs.setEntries dp ((fs.node dp).entries.set off ⟨0, []⟩))
      (ip ::ₘ dp ::ₘ O) (ip ::ₘ dp ::ₘ O) := hinv.refs.setInode rfl
  obtain ⟨hinum₁, htype₁, hvalid₁⟩ := hkeeps₁ ip hip
  apply wp_get_bind
  apply wp_ite
  · intro htype
    rw [htype₁, hnode] at htype
    rw [if_pos htype, Multiset.cons_swap] at hkept
    apply wp_bind (dropLink_spec laws ⟨hrefs₁, hkept⟩ hdp hvalid')
    rintro _ fs₂ ⟨hinv₂, hkeeps₂⟩
    obtain ⟨hinum₂, -, hvalid₂⟩ := hkeeps₂ ip hip
    rw [← hinum, ← hinum₁, ← hinum₂] at hinv₂
    exact hrest fs₂ hinv₂ (hvalid₂ (hvalid₁ hvalid))
  · intro htype
    rw [htype₁, hnode] at htype
    rw [if_neg htype, ← hinum, ← hinum₁] at hkept
    exact hrest _ ⟨hrefs₁, hkept⟩ (hvalid₁ hvalid)

theorem namecmp_iff (s t : Name) : namecmp s t ↔ s.take dirsiz = t.take dirsiz := by
  rw [namecmp, decide_eq_true_eq]

theorem sysUnlink_spec (laws : Laws C E T) (hinv : Inv T fs O O 0) (hcwd : cwd ∈ O)
    (path : List Char) : wp C E (sysUnlink cwd path) fs fun _ fs' => Inv T fs' O O 0 := by
  unfold sysUnlink
  apply wp_bind (nameiparent_spec laws path hinv hcwd)
  intro r fs₁ hr
  split
  next => exact wp_pure hr.inv
  next dp name =>
    have hdp := Multiset.mem_cons_self dp O
    apply wp_bind (ilock_found laws (show Inv T fs₁ (dp ::ₘ O) O 0 from hr.inv))
    rintro _ fs₂ ⟨hinv₂, -, hvalid₂⟩
    apply wp_ite
    · intro _
      apply wp_bind (iput_held laws hinv₂)
      rintro _ fs₃ ⟨hinv₃, -⟩
      exact wp_pure hinv₃
    · intro hname
      rw [not_or] at hname
      apply wp_bind (dirlookup_spec laws hinv₂ hdp name)
      rintro r fs₃ ⟨hdir, hr₃⟩
      split
      next =>
        obtain ⟨rfl, -⟩ := hr₃
        apply wp_bind (iput_held laws hinv₂)
        rintro _ fs₃ ⟨hinv₃, -⟩
        exact wp_pure hinv₃
      next ip off =>
        obtain ⟨hinv₃, hsame₃, de, hget, hne, hcmp, hinum₃⟩ := hr₃
        have hip := Multiset.mem_cons_self ip (dp ::ₘ O)
        have hdp' : dp ∈ ip ::ₘ dp ::ₘ O := Multiset.mem_cons_of_mem hdp
        apply wp_bind (ilock_found laws hinv₃)
        rintro _ fs₄ ⟨hinv₄, hsame₄, hvalid₄⟩
        have hnode : fs₄.node dp = fs₂.node dp := by
          rw [hsame₄.node hdp', hsame₃.node hdp]
        apply wp_get_bind
        apply wp_ite
        · intro _
          exact wp_stop (laws.halts _ nofun nofun)
        · intro _
          apply wp_ite
          · intro _
            apply wp_bind (iput_held laws hinv₄)
            rintro _ fs₅ ⟨hinv₅, -⟩
            apply wp_bind (iput_held laws hinv₅)
            rintro _ fs₆ ⟨hinv₆, -⟩
            exact wp_pure hinv₆
          · intro hempty
            rw [namecmp_iff] at hcmp
            rw [namecmp_iff, namecmp_iff, hcmp, ← namecmp_iff, ← namecmp_iff] at hname
            rw [← hnode] at hget hdir
            refine unlinkEntry_spec laws hinv₄ hvalid₄ ?_ hdir hget hne hname.1 hname.2 ?_ ?_
            · exact hsame₄.valid dp hdp' (hsame₃.valid dp hdp hvalid₂)
            · rw [hsame₄.slot ip hip, hinum₃]
            · intro hdir
              by_contra hnot
              exact hempty ⟨hdir, hnot⟩

/-- A `create` that is given back at once. -/
theorem create_put_spec (laws : Laws C E T) (hinv : Inv T fs O O 0) (hcwd : cwd ∈ O)
    (path : List Char) (type : IType) (htype : type ≠ .free) (major minor : Int) :
    wp C E (do
      match ← create cwd path type major minor with
      | none => pure (-1 : Int)
      | some ip => do
          iunlockput ip
          pure 0) fs fun _ fs' => Inv T fs' O O 0 := by
  apply wp_bind (create_spec laws hinv hcwd path type htype major minor)
  rintro r fs₁ ⟨-, hinv₁⟩
  split
  next => exact wp_pure hinv₁
  next ip =>
    have hinv₁ : Inv T fs₁ (ip ::ₘ O) (ip ::ₘ O) 0 := hinv₁
    apply wp_bind (iput_held laws hinv₁)
    rintro _ fs₂ ⟨hinv₂, -⟩
    exact wp_pure hinv₂

theorem sysMkdir_spec (laws : Laws C E T) (hinv : Inv T fs O O 0) (hcwd : cwd ∈ O)
    (path : List Char) : wp C E (sysMkdir cwd path) fs fun _ fs' => Inv T fs' O O 0 :=
  create_put_spec laws hinv hcwd path .dir nofun 0 0

theorem sysMknod_spec (laws : Laws C E T) (hinv : Inv T fs O O 0) (hcwd : cwd ∈ O)
    (path : List Char) (major minor : Int) :
    wp C E (sysMknod cwd path major minor) fs fun _ fs' => Inv T fs' O O 0 :=
  create_put_spec laws hinv hcwd path .dev nofun (short major) (short minor)

/-- `open` goes on with a locked inode. -/
theorem openInode_spec (laws : Laws C E T) (hinv : Inv T fs O O 0) (hcwd : cwd ∈ O)
    (path : List Char) (omode : BitVec 32) :
    wp C E (openInode cwd path omode) fs fun r fs' =>
      Inv T fs' (r.elim O (· ::ₘ O)) (r.elim O (· ::ₘ O)) 0 := by
  unfold openInode
  apply wp_ite
  · intro _
    apply wp_mono (create_spec laws hinv hcwd path .file nofun 0 0)
    rintro r fs₁ ⟨-, hinv₁⟩
    exact hinv₁
  · intro _
    apply wp_bind (namei_spec laws path hinv hcwd)
    intro r fs₁ hr
    split
    next => exact wp_pure hr.inv
    next ip =>
      apply wp_bind (ilock_found laws hr.inv)
      rintro _ fs₂ ⟨hinv₂, -, -⟩
      apply wp_get_bind
      apply wp_ite
      · intro _
        apply wp_bind (iput_held laws hinv₂)
        rintro _ fs₃ ⟨hinv₃, -⟩
        exact wp_pure hinv₃
      · intro _
        exact wp_pure hinv₂

theorem exec_spec (laws : Laws C E T) (hinv : Inv T fs O O 0) (hcwd : cwd ∈ O) (path : List Char)
    (ok : Bool) : wp C E (exec cwd path ok) fs fun _ fs' => Inv T fs' O O 0 := by
  unfold exec
  apply wp_bind (namei_spec laws path hinv hcwd)
  intro r fs₁ hr
  split
  next => exact wp_pure hr.inv
  next ip =>
    apply wp_bind (ilock_found laws hr.inv)
    rintro _ fs₂ ⟨hinv₂, -, -⟩
    apply wp_bind (iput_held laws hinv₂)
    rintro _ fs₃ ⟨hinv₃, -⟩
    exact wp_pure hinv₃

end Names

end Cs350.FileSys
