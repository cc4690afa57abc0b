import Cs350.Block.Bytes
import Mathlib.Data.List.TakeWhile

set_option autoImplicit false

/-! # Finding a file and reading it

`dirlookup`, `ilock` and `readi` on a disk that no one changes: if the blocks are there that they
read, they find the first entry with the name and return the bytes of the file. -/

namespace Cs350.Block

open FileSys (IType Ip nInode)
open Prog

/-- What a program does that does not panic. -/
abbrev Total {α : Type} (m : FsM α) (s : Fs) (Q : α → Fs → Prop) : Prop :=
  Prog.wp (fun _ => True) (fun _ => False) m s Q

/-! ## Names -/

section Names

variable {s t t' : Mem} {i j n : Nat} {de de' : Mem}

theorem strncmp_congr (h : ∀ k, k < n → t' (j + k) = t (j + k)) :
    strncmp s t' i j n = strncmp s t i j n := by
  induction n generalizing i j with
  | zero => rfl
  | succ n ih =>
      have h0 : t' j = t j := h 0 (by omega)
      have hrest : strncmp s t' (i + 1) (j + 1) n = strncmp s t (i + 1) (j + 1) n := by
        apply ih
        intro k hk
        have hk' := h (k + 1) (by omega)
        rwa [← Nat.add_assoc, Nat.add_right_comm] at hk'
      rw [strncmp, strncmp, h0, hrest]

/-- Two strings of at most `n` characters. -/
theorem strncmp_iff (a b : List UInt8) (ha : 0 ∉ a) (hb : 0 ∉ b) (hla : a.length ≤ n)
    (hlb : b.length ≤ n) (hs : ∀ k, k < n → s (i + k) = a.getD k 0)
    (ht : ∀ k, k < n → t (j + k) = b.getD k 0) : strncmp s t i j n = true ↔ a = b := by
  induction n generalizing a b i j with
  | zero =>
      have hnil : a = [] ∧ b = [] :=
        ⟨List.length_eq_zero_iff.1 (by omega), List.length_eq_zero_iff.1 (by omega)⟩
      simp [strncmp, hnil]
  | succ n ih =>
      have hs0 : s i = a.getD 0 0 := hs 0 (by omega)
      have ht0 : t j = b.getD 0 0 := ht 0 (by omega)
      rw [strncmp]
      cases a with
      | nil =>
          cases b with
          | nil =>
              rw [List.getD_nil] at hs0 ht0
              simp [hs0, ht0]
          | cons y b =>
              have hy : 0 ≠ y := fun h => hb (h ▸ List.mem_cons_self)
              rw [List.getD_nil] at hs0
              rw [List.getD_cons_zero] at ht0
              simp [hs0, ht0, hy]
      | cons x a =>
          cases b with
          | nil =>
              have hx : x ≠ 0 := fun h => ha (h ▸ List.mem_cons_self)
              rw [List.getD_cons_zero] at hs0
              rw [List.getD_nil] at ht0
              simp [hs0, ht0, hx]
          | cons y b =>
              rw [List.mem_cons, not_or] at ha hb
              have hrest := ih (i := i + 1) (j := j + 1) a b ha.2 hb.2
                (by simpa using hla) (by simpa using hlb)
                (fun k hk => by
                  have hk' := hs (k + 1) (by omega)
                  rw [List.getD_cons_succ] at hk'
                  rw [← hk', Nat.add_assoc, Nat.add_comm 1 k])
                fun k hk => by
                  have hk' := ht (k + 1) (by omega)
                  rw [List.getD_cons_succ] at hk'
                  rw [← hk', Nat.add_assoc, Nat.add_comm 1 k]
              rw [List.getD_cons_zero] at hs0 ht0
              rw [hs0, ht0]
              by_cases hxy : x = y
              · subst hxy
                have hx : x ≠ 0 := fun h => ha.1 h.symm
                simp [hx, hrest]
              · simp [hxy]

/-- Only the bytes of the entry count. -/
theorem namecmp_congr (name : List UInt8) (h : ∀ a, a < direntSize → de' a = de a) :
    namecmp name de' = namecmp name de :=
  strncmp_congr fun k hk => h (2 + k) (by unfold dirsiz at hk; unfold direntSize; omega)

theorem direntInum_congr (h : ∀ a, a < direntSize → de' a = de a) :
    direntInum de' = direntInum de :=
  Mem.load_congr fun k hk => h (0 + k) (by unfold direntSize; omega)

theorem cstr_apply {name : List UInt8} (h : 0 ∉ name) (k : Nat) : cstr name k = name.getD k 0 := by
  have hall : name.takeWhile (· ≠ 0) = name := by
    rw [List.takeWhile_eq_self_iff]
    intro c hc
    have hne : c ≠ 0 := by
      rintro rfl
      exact h hc
    simpa using hne
  rw [cstr, hall]

/-- A name and the name in an entry. -/
theorem namecmp_iff {name entry : List UInt8} (hname : 0 ∉ name) (hentry : 0 ∉ entry)
    (hlen : name.length ≤ dirsiz) (hlen' : entry.length ≤ dirsiz)
    (hde : ∀ k, k < dirsiz → de (2 + k) = entry.getD k 0) : namecmp name de = true ↔ name = entry :=
  strncmp_iff name entry hname hentry hlen hlen'
    (fun k _ => by rw [Nat.zero_add, cstr_apply hname]) hde

end Names

/-! ## Inodes in the cache -/

section Cache

variable {E : Panic → Prop} {s : Fs} {ip : Ip} {inum : Nat}

/-- Slot `ip` is in use for inode `inum`. -/
structure Cached (inum : Nat) (s : Fs) (ip : Ip) : Prop where
  ref : 0 < (s.icache ip).ref
  number : s.inum ip = inum
  copy : (s.icache ip).valid → s.node ip = s.dinode inum

/-- With a free slot, `iget` finds one for the inode. -/
theorem iget_there (hcopy : ∀ ip, 0 < (s.icache ip).ref → (s.icache ip).valid →
      s.node ip = s.dinode (s.inum ip)) (hfree : ∃ ip, (s.icache ip).ref = 0) (inum : Nat) :
    Total (iget inum) s fun ip s' => Cached inum s' ip ∧ s'.data = s.data ∧ s'.dinode = s.dinode := by
  apply wp_get_bind
  split
  next ip hfind =>
    have hfound : 0 < (s.icache ip).ref ∧ (s.icache ip).inum = inum := by
      simpa using List.find?_some hfind
    refine wp_modify_bind (wp_pure ⟨⟨?_, ?_, ?_⟩, rfl, rfl⟩)
    · show 0 < (Function.update s.icache ip _ ip).ref
      rw [Function.update_self]
      exact Int.lt_add_one_of_le hfound.1.le
    · show (Function.update s.icache ip _ ip).inum = inum
      rw [Function.update_self]
      exact hfound.2
    · show (Function.update s.icache ip _ ip).valid = true →
        (Function.update s.icache ip _ ip).node = s.dinode inum
      rw [Function.update_self]
      intro hvalid
      have hnode := hcopy ip hfound.1 hvalid
      rwa [Fs.inum, hfound.2] at hnode
  next =>
    split
    next ip hfind =>
      refine wp_modify_bind (wp_pure ⟨⟨?_, ?_, ?_⟩, rfl, rfl⟩)
      · show 0 < (Function.update s.icache ip _ ip).ref
        rw [Function.update_self]
        exact Int.one_pos
      · show (Function.update s.icache ip _ ip).inum = inum
        rw [Function.update_self]
      · show (Function.update s.icache ip _ ip).valid = true → _
        rw [Function.update_self]
        intro hvalid
        cases hvalid
    next hnone =>
      obtain ⟨ip, hip⟩ := hfree
      have hno := List.find?_eq_none.1 hnone ip (List.mem_finRange ip)
      simp [hip] at hno

/-- `ilock` of an allocated inode. -/
theorem ilock_there (h : Cached inum s ip) (htype : (s.dinode inum).type ≠ .free) :
    Total (ilock ip) s fun _ s' => s'.node ip = s.dinode inum ∧ s'.data = s.data := by
  apply wp_get_bind
  apply wp_ite
  · intro href
    have hpos := h.ref
    omega
  · intro _
    apply wp_ite
    · exact fun hvalid => wp_pure ⟨h.copy hvalid, rfl⟩
    · intro _
      apply wp_modify_bind
      rw [h.number]
      apply wp_ite
      · exact fun hfree => absurd hfree htype
      · refine fun _ => wp_pure ⟨?_, rfl⟩
        show (Function.update s.icache ip _ ip).node = _
        rw [Function.update_self]

end Cache

/-! ## Directories -/

section Directory

variable {s : Fs} {dp : Ip} {m : Nat}

/-- Entry `j` of a directory. -/
def Fs.direntAt (s : Fs) (dp : Ip) (j : Nat) : Mem := fun a => s.byteAt dp (j * direntSize + a)

/-- The directory has the blocks of its entries up to `m`. -/
structure HasEntries (s : Fs) (dp : Ip) (m : Nat) : Prop where
  dir : (s.node dp).type = .dir
  size : (s.node dp).size < 2 ^ 32
  le : (m + 1) * direntSize ≤ (s.node dp).size
  there : ∀ x, x < (m + 1) * direntSize → lblock (s.node dp) s.data (x / bsize) ≠ 0

theorem HasEntries.readi (h : HasEntries s dp m) {j : Nat} (hj : j ≤ m) (de : Mem) :
    Total (readi dp de (UInt32.ofNat (j * direntSize)) (UInt32.ofNat direntSize)) s fun r s' =>
      s' = s ∧ r.1 = direntSize ∧ ∀ a, a < direntSize → r.2 a = s.direntAt dp j a := by
  have hsize := h.size
  have hle := h.le
  have hmul : (j + 1) * direntSize ≤ (m + 1) * direntSize := Nat.mul_le_mul_right _ (by omega)
  have hnext : (j + 1) * direntSize = j * direntSize + direntSize := Nat.succ_mul ..
  have hdirent : direntSize = 16 := rfl
  have hoff : (UInt32.ofNat (j * direntSize)).toNat = j * direntSize :=
    UInt32.toNat_ofNat_of_lt' (by unfold UInt32.size; omega)
  have hn : (UInt32.ofNat direntSize).toNat = direntSize := rfl
  have hdev : (s.node dp).type ≠ .dev := by
    rw [h.dir]
    decide
  have hcnt : min (UInt32.ofNat direntSize).toNat
      ((s.node dp).size - (UInt32.ofNat (j * direntSize)).toNat) = direntSize := by
    rw [hoff, hn]
    omega
  apply wp_mono (readi_there hdev de (by rw [hoff]; omega) (by rw [hoff, hn]; omega) ?_)
  · rintro ⟨r, de'⟩ s' ⟨rfl, hr, hde⟩
    rw [hcnt] at hr hde
    refine ⟨rfl, hr, fun a ha => ?_⟩
    rw [hde, if_pos ha, hoff]
    rfl
  · intro x _ hx
    rw [hcnt, hoff] at hx
    exact h.there x (by omega)

/-- The entries before entry `m` are skipped, and it is the one that is looked for. -/
theorem dirlookupLoop_first (h : HasEntries s dp m) (name : List UInt8)
    (hbefore : ∀ j, j < m → direntInum (s.direntAt dp j) = 0 ∨ namecmp name (s.direntAt dp j) = false)
    (hinum : direntInum (s.direntAt dp m) ≠ 0) (hname : namecmp name (s.direntAt dp m) = true)
    {Q : Option (Ip × Nat) → Fs → Prop}
    (hget : Total (iget (direntInum (s.direntAt dp m))) s fun ip => Q (some (ip, m * direntSize)))
    (n j : Nat) (hj : j + n = m) (rest : Nat) (de : Mem) :
    Total (dirlookupLoop dp name ((List.range' j (n + 1 + rest)).map (· * direntSize)) de) s Q := by
  induction n generalizing j de with
  | zero =>
      obtain rfl : j = m := hj
      rw [Nat.zero_add, Nat.add_comm, List.range'_succ, List.map_cons, dirlookupLoop]
      apply wp_bind (h.readi (Nat.le_refl _) de)
      rintro ⟨r, de'⟩ s' ⟨rfl, hr, hde⟩
      have hinum' := direntInum_congr hde
      have hname' := namecmp_congr name hde
      dsimp only at hr hinum' hname' ⊢
      rw [if_neg (by simp [hr]), hinum', if_neg hinum, hname', if_pos hname]
      exact wp_bind hget fun ip s' hQ => wp_pure hQ
  | succ n ih =>
      have hcount : n + 1 + 1 + rest = n + 1 + rest + 1 := by omega
      rw [hcount, List.range'_succ, List.map_cons, dirlookupLoop]
      apply wp_bind (h.readi (by omega : j ≤ m) de)
      rintro ⟨r, de'⟩ s' ⟨rfl, hr, hde⟩
      have hinum' := direntInum_congr hde
      have hname' := namecmp_congr name hde
      dsimp only at hr hinum' hname' ⊢
      rw [if_neg (by simp [hr]), hinum', hname']
      apply wp_ite
      · exact fun _ => ih (j + 1) (by omega) _
      · intro hne
        rw [if_neg]
        · exact ih (j + 1) (by omega) _
        · rcases hbefore j (by omega) with hzero | hno
          · exact absurd hzero hne
          · simp [hno]

/-- `dirlookup` finds the first entry with the name. -/
theorem dirlookup_first (h : HasEntries s dp m) (name : List UInt8)
    (hbefore : ∀ j, j < m → direntInum (s.direntAt dp j) = 0 ∨ namecmp name (s.direntAt dp j) = false)
    (hinum : direntInum (s.direntAt dp m) ≠ 0) (hname : namecmp name (s.direntAt dp m) = true)
    {Q : Option (Ip × Nat) → Fs → Prop}
    (hget : Total (iget (direntInum (s.direntAt dp m))) s fun ip => Q (some (ip, m * direntSize)))
    (de : Mem) : Total (dirlookup dp name de) s Q := by
  apply wp_get_bind
  apply wp_ite
  · exact fun hdir => absurd h.dir hdir
  · intro _
    obtain ⟨rest, hrest⟩ : ∃ rest, ((s.node dp).size + direntSize - 1) / direntSize = m + 1 + rest := by
      have hle := h.le
      refine ⟨_, (Nat.add_sub_cancel' ?_).symm⟩
      unfold direntSize at *
      omega
    rw [direntOffs, hrest, List.range_eq_range']
    exact dirlookupLoop_first h name hbefore hinum hname hget m 0 (Nat.zero_add _) rest de

end Directory

end Cs350.Block
