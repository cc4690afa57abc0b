import Cs350.Block.Defs
import Cs350.Lib.Ledger

set_option autoImplicit false

/-! # Which inode refers to which block

A place of an inode is one of its logical blocks, found in `addrs` or in the indirect block, or the
indirect block itself. `refs` reads off the inodes and the bytes of the blocks what every place of
every allocated inode refers to; the lemmas say how it changes when an address is entered or
removed, or when bytes of a file change. -/

namespace Cs350.Block

inductive Place
  | block (k : Nat)
  | indirect
deriving DecidableEq

/-- The address recorded for logical block `k`, zero if there is none. -/
def lblock (n : Dinode) (data : Nat → Mem) (k : Nat) : Nat :=
  if h : k < nDirect then
    n.addrs ⟨k, Nat.lt_succ_of_lt h⟩
  else if k < maxFile ∧ n.addrs indirectAddr ≠ 0 then
    entry (data (n.addrs indirectAddr)) (k - nDirect)
  else
    0

/-- The address recorded at a place. -/
def held (n : Dinode) (data : Nat → Mem) : Place → Nat
  | .block k => lblock n data k
  | .indirect => n.addrs indirectAddr

/-- An address, where zero stands for none. -/
def addr? (b : Nat) : Option Nat := if b = 0 then none else some b

theorem addr?_eq_some {b c : Nat} : addr? b = some c ↔ b = c ∧ c ≠ 0 := by
  unfold addr?
  split_ifs with h <;> grind

theorem addr?_eq_none {b : Nat} : addr? b = none ↔ b = 0 := by
  unfold addr?
  split_ifs with h <;> simp [h]

/-- What the places of allocated inodes refer to. -/
def refs (node : Nat → Dinode) (data : Nat → Mem) (x : Nat × Place) : Option Nat :=
  if (node x.1).type = .free then none else addr? (held (node x.1) data x.2)

/-- Block number `b` lies in the data area. -/
def Superblock.IsData (sb : Superblock) (b : Nat) : Prop := sb.dataStart ≤ b ∧ b < sb.size.toNat

/-- The references and the free map agree. -/
abbrev Books (sb : Superblock) (bitmap : Nat → Bool) (own : Nat × Place → Option Nat) : Prop :=
  Ledger sb.IsData (fun b => bitmap b = true) own

/-- The first `cnt` logical blocks are there and no others, and the indirect block is there if it
    is needed for them. -/
structure Filled (n : Dinode) (data : Nat → Mem) (cnt : Nat) : Prop where
  block : ∀ k, lblock n data k ≠ 0 ↔ k < cnt
  indirect : n.addrs indirectAddr ≠ 0 ↔ nDirect < cnt

/-! ## What a place holds -/

section Held

variable {n n' : Dinode} {data data' : Nat → Mem} {p : Place} {cnt : Nat}

theorem held_congr (h : n.addrs indirectAddr ≠ 0 →
      data' (n.addrs indirectAddr) = data (n.addrs indirectAddr)) (p : Place) :
    held n data' p = held n data p := by
  cases p with
  | indirect => rfl
  | block k =>
      show lblock n data' k = lblock n data k
      unfold lblock
      split_ifs with hk hind
      · rfl
      · rw [h hind.2]
      · rfl

theorem held_addrs (h : n'.addrs = n.addrs) (p : Place) : held n' data p = held n data p := by
  cases p with
  | indirect => exact congrFun h _
  | block k => rw [held, held, lblock, lblock, h]

theorem Filled.congr (hf : Filled n data cnt) (h : ∀ p, held n' data' p = held n data p) :
    Filled n' data' cnt where
  block k := by
    have hk : lblock n' data' k = lblock n data k := h (.block k)
    rw [hk]
    exact hf.block k
  indirect := by
    have hi : n'.addrs indirectAddr = n.addrs indirectAddr := h .indirect
    rw [hi]
    exact hf.indirect

/-- A file has at most `MAXFILE` blocks. -/
theorem Filled.cnt_le (hf : Filled n data cnt) : cnt ≤ maxFile := by
  by_contra hlt
  refine (hf.block maxFile).2 (by omega) ?_
  rw [lblock, dif_neg (by decide), if_neg (by omega)]

theorem lblock_direct {k : Nat} (hk : k < nDirect) :
    lblock n data k = n.addrs ⟨k, by omega⟩ := dif_pos hk

theorem lblock_entry {k : Nat} (hk : nDirect ≤ k) (hmax : k < maxFile)
    (hind : n.addrs indirectAddr ≠ 0) :
    lblock n data k = entry (data (n.addrs indirectAddr)) (k - nDirect) := by
  rw [lblock, dif_neg (by omega), if_pos ⟨hmax, hind⟩]

theorem lblock_none {k : Nat} (hk : nDirect ≤ k) (hind : n.addrs indirectAddr = 0) :
    lblock n data k = 0 := by
  rw [lblock, dif_neg (by omega), if_neg (fun h => h.2 hind)]

@[simp] theorem setAddr_self (k : Fin (nDirect + 1)) (b : Nat) : (n.setAddr k b).addrs k = b :=
  Function.update_self (f := n.addrs) ..

theorem setAddr_of_ne {k l : Fin (nDirect + 1)} (h : l ≠ k) (b : Nat) :
    (n.setAddr k b).addrs l = n.addrs l :=
  Function.update_of_ne (f := n.addrs) h ..

/-- A new direct address. -/
theorem held_setAddr (k : Fin nDirect) (b : Nat) (p : Place) :
    held (n.setAddr k.castSucc b) data p = if p = .block k then b else held n data p := by
  have hind : (n.setAddr k.castSucc b).addrs indirectAddr = n.addrs indirectAddr :=
    setAddr_of_ne (Fin.castSucc_lt_last k).ne' b
  cases p with
  | indirect => rw [if_neg (by simp), held, held, hind]
  | block j =>
      by_cases hj : j < nDirect
      · rw [held, lblock_direct hj]
        by_cases hjk : j = k
        · subst hjk
          rw [if_pos rfl]
          exact setAddr_self k.castSucc b
        · rw [if_neg (by simpa using hjk), held, lblock_direct hj]
          exact setAddr_of_ne (fun h => hjk (congrArg Fin.val h)) b
      · have hjk : j ≠ k := by omega
        rw [if_neg (by simpa using hjk), held, held, lblock, lblock, dif_neg hj, dif_neg hj, hind]

/-- A change of the indirect address leaves the direct blocks. -/
theorem lblock_setIndirect {j : Nat} (hj : j < nDirect) (b : Nat) :
    lblock (n.setAddr indirectAddr b) data j = lblock n data j := by
  rw [lblock_direct hj, lblock_direct hj]
  refine setAddr_of_ne (fun h => ?_) b
  have hlast : j = nDirect := congrArg Fin.val h
  omega

/-- A new indirect block, full of zeros. -/
theorem held_setIndirect {b : Nat} (hnone : n.addrs indirectAddr = 0)
    (hzero : ∀ j, entry (data b) j = 0) (p : Place) :
    held (n.setAddr indirectAddr b) data p = if p = .indirect then b else held n data p := by
  cases p with
  | indirect => rw [if_pos rfl, held, setAddr_self]
  | block j =>
      rw [if_neg (by simp), held, held]
      by_cases hj : j < nDirect
      · exact lblock_setIndirect hj b
      · rw [lblock_none (by omega) hnone, lblock, dif_neg hj, setAddr_self, hzero, ite_self]

/-- A file without direct blocks has no blocks without its indirect block. -/
theorem held_dropIndirect (hdirect : ∀ k, k < nDirect → lblock n data k = 0) (p : Place) :
    held (n.setAddr indirectAddr 0) data p = 0 := by
  cases p with
  | indirect => rw [held, setAddr_self]
  | block j =>
      rw [held]
      by_cases hj : j < nDirect
      · rw [lblock_setIndirect hj, hdirect j hj]
      · exact lblock_none (by omega) (setAddr_self indirectAddr 0)

theorem entry_store_self (m : Mem) (j b : Nat) (hb : b < 2 ^ 32) :
    entry (m.store (4 * j) 4 b) j = b := by
  rw [entry, Mem.load_store]
  exact Nat.mod_eq_of_lt hb

theorem entry_store_of_ne (m : Mem) {i j : Nat} (b : Nat) (h : i ≠ j) :
    entry (m.store (4 * j) 4 b) i = entry m i :=
  Mem.load_store_of_disjoint _ _ _ _ _ _ (by omega)

/-- A new entry of the indirect block. -/
theorem held_store {k b : Nat} (hk : nDirect ≤ k) (hmax : k < maxFile) (hb : b < 2 ^ 32)
    (hind : n.addrs indirectAddr ≠ 0)
    (hdata : data' (n.addrs indirectAddr) =
      (data (n.addrs indirectAddr)).store (4 * (k - nDirect)) 4 b) (p : Place) :
    held n data' p = if p = .block k then b else held n data p := by
  cases p with
  | indirect => rw [if_neg (by simp), held, held]
  | block j =>
      rw [held, held]
      by_cases hjk : j = k
      · subst hjk
        rw [if_pos rfl, lblock_entry hk hmax hind, hdata, entry_store_self _ _ _ hb]
      · rw [if_neg (by simpa using hjk), lblock, lblock, hdata]
        split_ifs with hj hrange
        · rfl
        · exact entry_store_of_ne _ _ (by omega)
        · rfl

theorem entry_zero (j : Nat) : entry (fun _ => 0) j = 0 := by
  have hload : ∀ w a, Mem.load (fun _ => 0) a w = 0 := by
    intro w
    induction w with
    | zero => exact fun _ => rfl
    | succ w ih => exact fun a => by rw [Mem.load, ih]; rfl
  exact hload 4 (4 * j)

end Held

/-! ## How the references change -/

section Refs

variable {node : Nat → Dinode} {data data' : Nat → Mem} {i : Nat} {n' : Dinode} {p : Place}
  {b : Nat}

theorem refs_eq_some {x : Nat × Place} :
    refs node data x = some b ↔
      (node x.1).type ≠ .free ∧ held (node x.1) data x.2 = b ∧ b ≠ 0 := by
  unfold refs
  split_ifs with h
  · simp [h]
  · rw [addr?_eq_some]
    simp [h]

theorem refs_of_held (htype : (node i).type ≠ .free) (hb : held (node i) data p ≠ 0) :
    refs node data (i, p) = some (held (node i) data p) :=
  refs_eq_some.2 ⟨htype, rfl, hb⟩

/-- Nothing an allocated inode refers to has changed. -/
theorem refs_congr {node' : Nat → Dinode} (htype : ∀ j, (node' j).type = (node j).type)
    (hheld : ∀ j, (node j).type ≠ .free → ∀ q, held (node' j) data' q = held (node j) data q) :
    refs node' data' = refs node data := by
  funext x
  unfold refs
  rw [htype]
  split_ifs with h
  · rfl
  · rw [hheld x.1 h x.2]

/-- One place of an inode has changed. -/
theorem refs_update (n' : Dinode) (htype : (node i).type ≠ .free) (htype' : n'.type = (node i).type)
    (hself : ∀ q, held n' data' q = if q = p then b else held (node i) data q)
    (hothers : ∀ j, j ≠ i → (node j).type ≠ .free →
      ∀ q, held (node j) data' q = held (node j) data q) :
    refs (Function.update node i n') data' =
      Function.update (refs node data) (i, p) (addr? b) := by
  funext ⟨j, q⟩
  by_cases hji : j = i
  · subst hji
    by_cases hqp : q = p
    · subst hqp
      rw [Function.update_self]
      simp only [refs, Function.update_self]
      rw [htype', if_neg htype, hself, if_pos rfl]
    · rw [Function.update_of_ne (by simpa using hqp)]
      simp only [refs, Function.update_self]
      rw [htype', hself, if_neg hqp]
  · rw [Function.update_of_ne (by simp [hji])]
    simp only [refs, Function.update_of_ne hji]
    split_ifs with h
    · rfl
    · rw [hothers j hji h]

/-- The inode is no longer allocated, or refers to nothing. -/
theorem refs_clear (node : Nat → Dinode) (n' : Dinode)
    (hclear : n'.type = .free ∨ ∀ q, held n' data q = 0) :
    refs (Function.update node i n') data = fun x => if x.1 = i then none else refs node data x := by
  funext ⟨j, q⟩
  by_cases hji : j = i
  · subst hji
    simp only [refs, Function.update_self, if_true]
    rcases hclear with hfree | hzero
    · rw [if_pos hfree]
    · rw [hzero, addr?_eq_none.2 rfl, ite_self]
  · simp only [refs, Function.update_of_ne hji, if_neg hji]

end Refs

section Frame

variable {sb : Superblock} {bitmap : Nat → Bool} {node : Nat → Dinode} {data data' : Nat → Mem}
  {i j : Nat} {p : Place} {b : Nat}

/-- If only blocks that are not in use, or that inode `i` refers to, have changed, then all others
    refer to what they did. -/
theorem Books.held_others (h : Books sb bitmap (refs node data))
    (hdata : ∀ c, data' c ≠ data c → bitmap c = false ∨ ∃ q, refs node data (i, q) = some c)
    (hji : j ≠ i) (hj : (node j).type ≠ .free) (q : Place) :
    held (node j) data' q = held (node j) data q := by
  refine held_congr (fun hind => ?_) q
  by_contra hne
  have hown : refs node data (j, .indirect) = some ((node j).addrs indirectAddr) :=
    refs_of_held hj hind
  rcases hdata _ hne with hfree | ⟨q, hq⟩
  · have hused := h.used_of_own hown
    rw [hfree] at hused
    exact nomatch hused
  · have heq := h.once _ _ _ hown hq
    exact hji (congrArg Prod.fst heq)

/-- Writing to a logical block of a file changes no reference. -/
theorem Books.refs_write (h : Books sb bitmap (refs node data)) {k : Nat}
    (hk : refs node data (i, .block k) = some b) (m : Mem) (j : Nat) (hj : (node j).type ≠ .free)
    (q : Place) : held (node j) (Function.update data b m) q = held (node j) data q := by
  refine held_congr (fun hind => Function.update_of_ne (fun heq => ?_) ..) q
  have hown : refs node data (j, .indirect) = some b := heq ▸ refs_of_held hj hind
  have hplace := h.once _ _ _ hown hk
  exact nomatch congrArg Prod.snd hplace

end Frame

end Cs350.Block
