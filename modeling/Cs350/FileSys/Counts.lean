import Cs350.FileSys.Calls
import Mathlib.Data.Fintype.BigOperators

set_option autoImplicit false

/-! # Reference counts

The reference counts of `ftable` and of the inode cache say exactly how many pointers there are,
after every run of calls and whatever the directories look like; no property of the file system is
needed beyond them. -/

namespace Cs350.FileSys

open Prog Transition

/-- The counts of a state, in terms of the tables: `ref` of a file is the number of descriptors of all
    processes that point to it, a file with no reference has no type, `ref` of a slot of the inode
    cache is the number of `FD_INODE` files and current directories that point to it, no inode is in
    two slots, and a page is in use as a pipe exactly as long as a file of the pipe is open. -/
structure RefsExact (st : St) : Prop where
  file : ∀ f, (st.file f).ref
    = (Finset.univ.filter fun x : Pid × Fd => st.ofile x.1 x.2 = some f).card
  closed : ∀ f, (st.file f).ref = 0 → (st.file f).kind = .none
  inode : ∀ ip, (st.fs.icache ip).ref
    = (Finset.univ.filter fun f => (st.file f).kind = .inode ip).card
      + (Finset.univ.filter fun p => st.cwd p = some ip).card
  uniq : ∀ ip jp, 0 < (st.fs.icache ip).ref → 0 < (st.fs.icache jp).ref →
    (st.fs.icache ip).inum = (st.fs.icache jp).inum → ip = jp
  pipe : ∀ page, st.pipe page = none ↔ ∀ f, 0 < (st.file f).ref → (st.file f).kind ≠ .pipe page

/-- A state between calls in which the invariant holds, with nothing asked of the directories. -/
def Consistent (st : St) : Prop := Boundary (fun _ _ => True) st

/-- Every predicate that says nothing satisfies the laws. -/
theorem laws_trivial : Laws (fun _ => True) (fun e => e ≠ .stuck) (fun _ _ => True) where
  halts _ _ hne := hne
  typed _ _ _ _ := nofun
  slot _ _ _ _ := trivial
  decref _ _ _ := trivial
  free _ _ _ _ _ _ := trivial
  bump _ _ _ _ _ := trivial
  lower _ _ _ _ := trivial
  enter _ _ _ _ _ _ _ _ := trivial
  erase _ _ _ _ _ _ _ _ _ := trivial
  alloc _ _ _ _ _ _ _ _ _ _ _ := trivial

theorem count_pointer {α : Type} [DecidableEq α] (r : Option α) (a : α) :
    (pointer r).count a = if r = some a then 1 else 0 := by
  cases r with
  | none => simp [pointer]
  | some b => simp [pointer, Multiset.count_singleton, eq_comm]

theorem count_held (kind : FileKind) (ip : Ip) :
    kind.held.count ip = if kind = .inode ip then 1 else 0 := by
  cases kind with
  | none => simp [FileKind.held]
  | pipe page => simp [FileKind.held]
  | inode jp => simp [FileKind.held, Multiset.count_singleton, eq_comm]

theorem count_fds (st : St) (f : FileId) :
    st.fds.count f = (Finset.univ.filter fun x : Pid × Fd => st.ofile x.1 x.2 = some f).card := by
  rw [St.fds, Multiset.count_sum', Finset.card_filter, Fintype.sum_prod_type]
  apply Finset.sum_congr rfl
  intro p _
  rw [Multiset.count_sum']
  exact Finset.sum_congr rfl fun fd _ => count_pointer _ f

theorem count_holders (st : St) (ip : Ip) :
    st.holders.count ip = (Finset.univ.filter fun f => (st.file f).kind = .inode ip).card
      + (Finset.univ.filter fun p => st.cwd p = some ip).card := by
  rw [St.holders, Multiset.count_add, Multiset.count_sum', Multiset.count_sum', Finset.card_filter,
    Finset.card_filter, add_comm]
  exact congrArg₂ (· + ·) (Finset.sum_congr rfl fun f _ => count_held _ ip)
    (Finset.sum_congr rfl fun p _ => count_pointer _ ip)

/-- What the invariant says about the counts. -/
theorem Boundary.refsExact {T : Fs → Multiset Nat → Prop} {st : St} (h : Boundary T st) :
    RefsExact st where
  file f := by rw [h.ok.files.ref, count_fds]
  closed := h.ok.files.none
  inode ip := by rw [h.inv.refs.ref, count_holders]
  uniq := h.inv.refs.uniq
  pipe page := by
    constructor
    · intro hnone f _ hkind
      obtain ⟨p, hp, -⟩ := (h.ok.files.pipes.ends page (st.file f).writable).1 ⟨f, hkind, rfl⟩
      rw [hnone] at hp
      cases hp
    · intro hclosed
      by_contra hne
      obtain ⟨p, hp⟩ := Option.ne_none_iff_exists'.1 hne
      obtain ⟨w, hw⟩ := h.ok.files.pipes.used page p hp
      obtain ⟨f, hf⟩ := (h.ok.files.pipes.ends page w).2 ⟨p, hp, hw⟩
      have hpos : 0 < (st.file f).ref := by
        by_contra hzero
        have hkind := h.ok.files.none f (by omega)
        rw [hf.1] at hkind
        cases hkind
      exact hclosed f hpos hf.1

/-- The counts are exact as long as the machine runs; it does not get stuck on a pipe that is no
    more. -/
def CountsExact : Machine → Prop
  | .running st => RefsExact st
  | .panicked e => e ≠ .stuck

/-- **Reference counts are exact.** After every run of calls from a consistent state, with every
    outcome of each of them, the counts are those of the tables. -/
theorem refs_exact {st : St} {tr : List (Machine × (Pid × Call))} {s : Machine}
    (hst : Consistent st) (hrun : Run Step (.running st) tr s) : Along CountsExact tr s := by
  have hkept : ∀ s : Machine, Kept (fun e => e ≠ .stuck) (fun _ _ => True) s → CountsExact s := by
    intro s hs
    cases s with
    | running st => exact Boundary.refsExact hs
    | panicked e => exact hs
  have hmeets : ∀ x ∈ tr, Call.Meets (fun _ => True) x.1 x.2 := by
    intro x _
    unfold Call.Meets
    split
    next => exact fun _ _ _ _ => trivial
    next => trivial
  obtain ⟨hall, hlast⟩ := run_keeps laws_trivial hst hrun hmeets
  exact ⟨fun x hx => hkept _ (hall x hx), hkept _ hlast⟩

/-- A child inherits a pipe, both close it, and the child exits. -/
def forkPipe : List (Pid × Call) :=
  [(0, .open ['f'] oCreate), (0, .pipe (some 7)), (0, .fork (some 1)), (0, .close 1), (1, .dup 1),
    (0, .close 2), (1, .exit), (0, .exec ['f'] false)]

theorem refs_exact_fork_pipe :
    ∃ tr s, tr.map Prod.snd = forkPipe ∧ Run Step (.running boot) tr s ∧ Along CountsExact tr s := by
  have hsome : (play next (.running boot) forkPipe).isSome := by decide +kernel
  obtain ⟨⟨tr, s⟩, hplay⟩ := Option.isSome_iff_exists.1 hsome
  obtain ⟨hrun, hlabels⟩ := play_run hplay
  exact ⟨tr, s, hlabels, hrun, refs_exact (boot_boundary trivial) hrun⟩

end Cs350.FileSys
