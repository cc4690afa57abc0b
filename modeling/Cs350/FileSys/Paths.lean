import Cs350.FileSys.Walk
import Cs350.Lib.CString
import Mathlib.Data.List.TakeWhile

set_option autoImplicit false

/-! # The components of a path

`skipelem` on the bytes of a path, as one step of the split of the path at its slashes, and the walks
of `namex` along what the split gives. `skipelem` also skips the slashes after an element, so nothing
is left of the path exactly if no component is, and `nameiparent` sees in time that it has taken the
last one. -/

namespace Cs350.FileSys

open Mem

/-- The nonempty components of a path, each cut to the length of a name. -/
def components (path : List Char) : List Name :=
  ((path.splitOn '/').filter (· ≠ [])).map (·.take dirsiz)

/-! ## One component -/

@[simp] theorem components_nil : components [] = [] := rfl

@[simp] theorem components_slash (path : List Char) :
    components ('/' :: path) = components path := by
  have hsplit : ('/' :: path).splitOn '/' = [] :: path.splitOn '/' := by
    simp [List.splitOn_cons_eq_if_modifyHead]
  simp [components, hsplit]

/-- Leading slashes are no component. -/
theorem components_dropWhile (path : List Char) :
    components (path.dropWhile (· = '/')) = components path := by
  induction path with
  | nil => rfl
  | cons c path ih =>
      by_cases hc : c = '/'
      · simp [hc, ih]
      · simp [hc]

/-- The first component goes up to a slash or the end. -/
theorem components_append {w rest : List Char} (hw : '/' ∉ w) (hne : w ≠ [])
    (hrest : ∀ c ∈ rest.head?, c = '/') : components (w ++ rest) = w.take dirsiz :: components rest := by
  cases rest with
  | nil => simp [components, List.splitOn_eq_singleton hw, hne]
  | cons c rest =>
      obtain rfl : c = '/' := hrest c rfl
      rw [components_slash]
      simp [components, List.splitOn_append_cons_self_of_not_mem hw, hne]

/-- A path that does not begin with a slash has a component, unless it is empty. -/
theorem components_eq_nil {path : List Char} (h : ∀ c ∈ path.head?, c ≠ '/') :
    components path = [] ↔ path = [] := by
  cases path with
  | nil => simp
  | cons c path =>
      have hc : c ≠ '/' := h c rfl
      have hsplit : (c :: path).splitOn '/' = (path.splitOn '/').modifyHead (c :: ·) := by
        simp [List.splitOn_cons_eq_if_modifyHead, hc]
      cases hs : path.splitOn '/' with
      | nil => exact absurd hs (List.splitOn_ne_nil _ _)
      | cons w ws => simp [components, hsplit, hs]

theorem head?_dropWhile {p : Char → Bool} (s : List Char) :
    ∀ c ∈ (s.dropWhile p).head?, p c = false := by
  intro c hc
  have hstop := List.head?_dropWhile_not p s
  rw [Option.mem_def.1 hc] at hstop
  exact hstop

/-- `skipelem` finds nothing if there is no component. -/
theorem skipelem_none {path : List Char} : skipelem path = none ↔ components path = [] := by
  have hfirst : ∀ c ∈ (path.dropWhile (· = '/')).head?, c ≠ '/' := by
    intro c hc
    simpa using head?_dropWhile path c hc
  rw [← components_dropWhile, components_eq_nil hfirst, skipelem]
  simp

/-- `skipelem` takes the first component, and nothing is left if there are no others. -/
theorem skipelem_some {path rest : List Char} {name : Name} (h : skipelem path = some (name, rest)) :
    components path = name :: components rest ∧ (rest = [] ↔ components rest = []) := by
  unfold skipelem at h
  simp only at h
  split_ifs at h with hnil
  obtain ⟨rfl, rfl⟩ := Prod.mk.inj (Option.some.inj h)
  have hpath := components_dropWhile path
  have hfirst := head?_dropWhile (p := (· = '/')) path
  generalize path.dropWhile (· = '/') = s at hnil hfirst hpath ⊢
  constructor
  · have hword : '/' ∉ s.takeWhile (· ≠ '/') := by
      intro hmem
      simpa using List.mem_takeWhile_imp hmem
    have hne : s.takeWhile (· ≠ '/') ≠ [] := by
      cases s with
      | nil => exact absurd rfl hnil
      | cons c s =>
          have hc : c ≠ '/' := by simpa using hfirst c rfl
          simp [hc]
    have hend : ∀ c ∈ (s.dropWhile (· ≠ '/')).head?, c = '/' := by
      intro c hc
      simpa using head?_dropWhile s c hc
    rw [← hpath, components_dropWhile, ← components_append hword hne hend,
      List.takeWhile_append_dropWhile]
  · rw [components_eq_nil]
    intro c hc
    simpa using head?_dropWhile _ c hc

/-! ## The walk of `namex` -/

/-- From the inode `ip` along the names: each is looked up in the directory the last one led to. -/
def walk : List Name → Ip → FsM (Option Ip)
  | [], ip => pure (some ip)
  | name :: names, ip => do
      ilock ip
      let fs ← Prog.get
      if (fs.node ip).type ≠ .dir then do
        iunlockput ip
        pure none
      else do
        match ← dirlookup ip name with
        | none => do
            iunlockput ip
            pure none
        | some (next, _) => do
            iunlockput ip
            walk names next

/-- Where a walk begins. -/
def walkFrom (cwd : Ip) (path : List Char) : FsM Ip :=
  if path.head? = some '/' then iget rootIno else idup cwd

/-- The end of a walk that stops one level early: it has come to the directory for `name`, if it is
    a directory. -/
def parentFor (name : Name) : Option Ip → FsM (Option (Ip × Name))
  | none => pure none
  | some ip => do
      ilock ip
      let fs ← Prog.get
      if (fs.node ip).type ≠ .dir then do
        iunlockput ip
        pure none
      else
        pure (some (ip, name))

/-- The walk to the parent: along all the names but the last. -/
def parentWalk (names : List Name) (ip : Ip) : FsM (Option (Ip × Name)) :=
  match names.getLast? with
  | none => do
      iput ip
      pure none
  | some name => do
      let r ← walk names.dropLast ip
      parentFor name r

theorem parentWalk_nil (ip : Ip) : parentWalk [] ip = (do iput ip; pure none) := rfl

theorem parentWalk_singleton (name : Name) (ip : Ip) :
    parentWalk [name] ip = parentFor name (some ip) := rfl

theorem parentWalk_cons (name : Name) {names : List Name} (hne : names ≠ []) (ip : Ip) :
    parentWalk (name :: names) ip = (do
      ilock ip
      let fs ← Prog.get
      if (fs.node ip).type ≠ .dir then do
        iunlockput ip
        pure none
      else do
        match ← dirlookup ip name with
        | none => do
            iunlockput ip
            pure none
        | some (next, _) => do
            iunlockput ip
            parentWalk names next) := by
  have hlast := List.getLast?_eq_some_getLast hne
  have hlast' : (name :: names).getLast? = some (names.getLast hne) := by
    rw [List.getLast?_cons, hlast]
    rfl
  simp only [parentWalk, hlast, hlast', List.dropLast_cons_of_ne_nil hne, walk, Prog.bind_assoc]
  refine bind_congr fun _ => bind_congr fun fs => ?_
  split_ifs with hdir
  · simp only [Prog.bind_assoc]
    rfl
  · simp only [Prog.bind_assoc]
    refine bind_congr fun r => ?_
    cases r with
    | none =>
        simp only [Prog.bind_assoc]
        rfl
    | some r => simp only [Prog.bind_assoc]

/-- With `nameiparent` the loop walks to the parent. -/
theorem namexLoop_parent (n : Nat) (path : List Char) (name : Name) (ip : Ip)
    (hn : path.length < n) : namexLoop true n path name ip = parentWalk (components path) ip := by
  induction n generalizing path name ip with
  | zero => omega
  | succ n ih =>
      rw [namexLoop]
      cases hskip : skipelem path with
      | none =>
          rw [skipelem_none.1 hskip, parentWalk_nil]
          rfl
      | some r =>
          obtain ⟨name', rest⟩ := r
          obtain ⟨hcomp, hend⟩ := skipelem_some hskip
          have hshort := skipelem_length hskip
          simp only [hcomp]
          by_cases hlast : rest = []
          · -- the rest is empty exactly if this is the last component
            rw [hend.1 hlast, parentWalk_singleton]
            simp only [hlast, parentFor]
            simp
          · rw [parentWalk_cons _ (fun h => hlast (hend.2 h))]
            simp only [hlast, and_false, if_false]
            refine bind_congr fun _ => bind_congr fun fs => ?_
            split_ifs with hdir
            · rfl
            · refine bind_congr fun r => ?_
              cases r with
              | none => rfl
              | some r => simp only [ih rest name' r.1 (by omega)]

/-- Without it the loop walks along all components. -/
theorem namexLoop_all (n : Nat) (path : List Char) (name : Name) (ip : Ip)
    (hn : path.length < n) :
    (do let r ← namexLoop false n path name ip; pure (r.map Prod.fst)) =
      walk (components path) ip := by
  induction n generalizing path name ip with
  | zero => omega
  | succ n ih =>
      rw [namexLoop]
      cases hskip : skipelem path with
      | none =>
          rw [skipelem_none.1 hskip]
          rfl
      | some r =>
          obtain ⟨name', rest⟩ := r
          have hcomp := (skipelem_some hskip).1
          have hshort := skipelem_length hskip
          simp only [hcomp, walk, Prog.bind_assoc, Bool.false_eq_true, false_and, if_false]
          refine bind_congr fun _ => bind_congr fun fs => ?_
          split_ifs with hdir
          · simp only [Prog.bind_assoc]
            rfl
          · simp only [Prog.bind_assoc]
            refine bind_congr fun r => ?_
            cases r with
            | none =>
                simp only [Prog.bind_assoc]
                rfl
            | some r => simp only [Prog.bind_assoc, ← ih rest name' r.1 (by omega)]

theorem nameiparent_eq (cwd : Ip) (path : List Char) :
    nameiparent cwd path = (do let ip ← walkFrom cwd path; parentWalk (components path) ip) := by
  have hloop := fun ip => namexLoop_parent (path.length + 1) path [] ip (Nat.lt_succ_self _)
  simp only [nameiparent, namex, hloop, walkFrom]
  split_ifs <;> rfl

theorem namei_eq (cwd : Ip) (path : List Char) :
    namei cwd path = (do let ip ← walkFrom cwd path; walk (components path) ip) := by
  have hloop := fun ip => namexLoop_all (path.length + 1) path [] ip (Nat.lt_succ_self _)
  simp only [namei, namex, walkFrom]
  split_ifs <;> simp only [Prog.bind_assoc, hloop]

/-! ## The bytes of the path -/

/-- `'/'`. -/
def slash : UInt8 := 47

/-- The copy of the element at `s` to `name`, cut to `DIRSIZ` bytes. The difference of the pointers
    is an `int`. -/
def Pointer.copyName (m : Mem) (name s path : Nat) : Mem :=
  let len : Int := Int.bmod ((path : Int) - s) (2 ^ 32)
  if len ≥ dirsiz then m.copy name s dirsiz
  else Function.update (m.copy name s (len % 2 ^ 32).toNat) (name + len).toNat 0

/-- `skipelem` on a path in memory: the memory after it, and the pointer it returns. Each loop goes
    on for at most `n` rounds. -/
def Pointer.skipelem (n : Nat) (m : Mem) (path name : Nat) : Option (Mem × Nat) := do
  let path ← scan (· = slash) n m path
  if m path = 0 then
    pure (m, 0)
  else do
    let s := path
    let path ← scan (fun c => c ≠ slash ∧ c ≠ 0) n m path
    let m := copyName m name s path
    let path ← scan (· = slash) n m path
    pure (m, path)

/-- `while((path = skipelem(path, name)) != 0)`: what each call but the last leaves and returns. -/
def Pointer.elements (n : Nat) : Nat → Mem → Nat → Nat → Option (List (Mem × Nat))
  | 0, _, _, _ => none
  | k + 1, m, path, name => do
      let (m, path) ← skipelem n m path name
      if path = 0 then
        pure []
      else do
        let calls ← elements n k m path name
        pure ((m, path) :: calls)

/-- The bytes at `a` are the name, with a NUL after it if it is shorter than `DIRSIZ`. -/
def NameAt (m : Mem) (a : Nat) (name : Name) : Prop :=
  (∀ i (hi : i < name.length), charOf (m (a + i)) = name[i]) ∧
    (name.length < dirsiz → m (a + name.length) = 0)

/-- The calls of `skipelem` go through the names: each leaves its name in the buffer, and the path
    that it returns is empty exactly if no name is left. -/
inductive Splits (buf : Nat) : List (Mem × Nat) → List Name → Prop
  | nil : Splits buf [] []
  | cons {m : Mem} {path : Nat} {calls : List (Mem × Nat)} {name : Name} {names : List Name}
      (hname : NameAt m buf name) (hend : m path = 0 ↔ names = []) (h : Splits buf calls names) :
      Splits buf ((m, path) :: calls) (name :: names)

theorem charOf_eq_slash {c : UInt8} : charOf c = '/' ↔ c = slash :=
  charOf_inj (c := slash)

theorem dropWhile_map_slash (cs : List UInt8) :
    (cs.map charOf).dropWhile (· = '/') = (cs.dropWhile (· = slash)).map charOf := by
  rw [List.dropWhile_map]
  simp only [Function.comp_def, charOf_eq_slash]

theorem map_ne_slash (cs : List UInt8) :
    (cs.map charOf).takeWhile (· ≠ '/') = (cs.takeWhile (· ≠ slash)).map charOf ∧
      (cs.map charOf).dropWhile (· ≠ '/') = (cs.dropWhile (· ≠ slash)).map charOf := by
  rw [List.takeWhile_map, List.dropWhile_map]
  simp only [Function.comp_def, ne_eq, charOf_eq_slash, and_self]

/-- In a string the scan of a component needs no test for its end. -/
theorem takeWhile_of_string {cs : List UInt8} (hzero : 0 ∉ cs) :
    cs.takeWhile (fun c => c ≠ slash ∧ c ≠ 0) = cs.takeWhile (· ≠ slash) ∧
      cs.dropWhile (fun c => c ≠ slash ∧ c ≠ 0) = cs.dropWhile (· ≠ slash) := by
  induction cs with
  | nil => exact ⟨rfl, rfl⟩
  | cons c cs ih =>
      rw [List.mem_cons, not_or] at hzero
      obtain ⟨htake, hdrop⟩ := ih hzero.2
      by_cases hc : c = slash
      · simp [hc]
      · have hne : c ≠ 0 := Ne.symm hzero.1
        simpa [hc, hne] using And.intro htake hdrop

section Split

variable {m : Mem} {path name n : Nat} {cs : List UInt8}

/-- The element `w` at `s` gets into the buffer. -/
theorem Pointer.copyName_spec (m : Mem) (name : Nat) {s : Nat} {w : List UInt8}
    (hw : ∀ i (hi : i < w.length), m (s + i) = w[i]) (hint : w.length < 2 ^ 31) :
    NameAt (copyName m name s (s + w.length)) name ((w.map charOf).take dirsiz) ∧
      ∀ a, a < name ∨ name + dirsiz ≤ a → copyName m name s (s + w.length) a = m a := by
  have hlen : Int.bmod (((s + w.length : Nat) : Int) - s) (2 ^ 32) = w.length := by
    rw [Int.bmod_eq_of_le (by omega) (by omega)]
    omega
  have hcopy : copyName m name s (s + w.length) =
      if w.length ≥ dirsiz then m.copy name s dirsiz
      else Function.update (m.copy name s w.length) (name + w.length) 0 := by
    have hcount : ((w.length : Int) % 2 ^ 32).toNat = w.length := by omega
    have hplace : ((name : Int) + w.length).toNat = name + w.length := by omega
    simp only [copyName, hlen, hcount, hplace, ge_iff_le, Int.ofNat_le]
  rw [hcopy]
  split_ifs with hlong
  · refine ⟨⟨fun i hi => ?_, fun hshort => ?_⟩, fun a ha => ?_⟩
    · rw [List.length_take, List.length_map] at hi
      rw [copy_add _ _ _ _ _ (by omega), hw i (by omega)]
      simp
    · rw [List.length_take, List.length_map] at hshort
      omega
    · exact copy_apply _ _ _ _ _ ha
  · have hall : (w.map charOf).take dirsiz = w.map charOf :=
      List.take_of_length_le (by rw [List.length_map]; omega)
    rw [hall]
    refine ⟨⟨fun i hi => ?_, fun _ => ?_⟩, fun a ha => ?_⟩
    · rw [List.length_map] at hi
      rw [Function.update_of_ne (by omega), copy_add _ _ _ _ _ hi, hw i hi]
      simp
    · rw [List.length_map, Function.update_self]
    · rw [Function.update_of_ne (by omega)]
      exact copy_apply _ _ _ _ _ (by omega)

/-- What the list of characters is split into, by its bytes. -/
theorem skipelem_map (cs : List UInt8) :
    skipelem (cs.map charOf) =
      if cs.dropWhile (· = slash) = [] then none
      else some ((((cs.dropWhile (· = slash)).takeWhile (· ≠ slash)).map charOf).take dirsiz,
        (((cs.dropWhile (· = slash)).dropWhile (· ≠ slash)).dropWhile (· = slash)).map charOf) := by
  simp only [skipelem, dropWhile_map_slash, (map_ne_slash _).1, (map_ne_slash _).2,
    List.map_eq_nil_iff]

theorem Pointer.skipelem_of_none (hline : IsString m path cs) (hn : cs.length < n)
    (h : FileSys.skipelem (cs.map charOf) = none) :
    skipelem n m path name = some (m, 0) := by
  rw [skipelem_map] at h
  split_ifs at h with hnil
  have hstart := hline.scanned (· = slash)
  rw [hnil] at hstart
  rw [skipelem, scan_eq hline (by decide) hn]
  simp [hstart.eq_zero]

/-- The bytes of the path are split as its characters are, if the buffer is somewhere else. -/
theorem Pointer.skipelem_of_some {rest : List Char} {nm : Name} (hline : IsString m path cs)
    (hn : cs.length < n) (hint : cs.length < 2 ^ 31)
    (hbuf : name + dirsiz ≤ path ∨ path + cs.length < name)
    (h : FileSys.skipelem (cs.map charOf) = some (nm, rest)) :
    ∃ m' path' cs', skipelem n m path name = some (m', path') ∧ IsString m' path' cs' ∧
      cs'.map charOf = rest ∧ NameAt m' name nm ∧ path < path' ∧
      path' + cs'.length = path + cs.length := by
  have hshort := skipelem_length h
  rw [skipelem_map] at h
  split_ifs at h with hnil
  obtain ⟨rfl, rfl⟩ := Prod.mk.inj (Option.some.inj h)
  rw [List.length_map, List.length_map] at hshort
  -- the slashes before the element
  have hstart := hline.scanned (· = slash)
  have hlead := congrArg List.length (List.takeWhile_append_dropWhile (p := (· = slash)) (l := cs))
  rw [List.length_append] at hlead
  rw [skipelem, scan_eq hline (by decide) hn]
  generalize cs.takeWhile (· = slash) = lead at hstart hlead ⊢
  generalize cs.dropWhile (· = slash) = t at hnil hstart hlead hshort ⊢
  have hmore : m (path + lead.length) ≠ 0 := fun hzero => hnil (hstart.zero_iff.1 hzero)
  -- the element
  have hstop := hstart.scanned (fun c => c ≠ slash ∧ c ≠ 0)
  have hword := congrArg List.length (List.takeWhile_append_dropWhile (p := (· ≠ slash)) (l := t))
  have hget : ∀ i (hi : i < (t.takeWhile (· ≠ slash)).length),
      m (path + lead.length + i) = (t.takeWhile (· ≠ slash))[i] := by
    intro i hi
    have hpart := List.takeWhile_prefix (l := t) (· ≠ slash)
    rw [hpart.getElem hi]
    exact hstart.get (Nat.lt_of_lt_of_le hi hpart.length_le)
  obtain ⟨htake, hdrop⟩ := takeWhile_of_string hstart.zero_notMem
  rw [htake, hdrop] at hstop
  rw [List.length_append] at hword
  have hscan : scan (fun c => c ≠ slash ∧ c ≠ 0) n m (path + lead.length) = _ :=
    scan_eq hstart (by decide) (by omega)
  rw [htake] at hscan
  generalize t.takeWhile (· ≠ slash) = w at hget hstop hword hscan ⊢
  generalize t.dropWhile (· ≠ slash) = r at hstop hword hshort ⊢
  obtain ⟨hname, hframe⟩ := Pointer.copyName_spec m name hget (by omega)
  -- the slashes after it, which the copy has not changed
  have hkept : IsString (copyName m name (path + lead.length) (path + lead.length + w.length))
      (path + lead.length + w.length) r :=
    hstop.congr fun i hi => hframe _ (by omega)
  have hrest := hkept.scanned (· = slash)
  have htrail := congrArg List.length (List.takeWhile_append_dropWhile (p := (· = slash)) (l := r))
  rw [List.length_append] at htrail
  refine ⟨_, _, r.dropWhile (· = slash), ?_, hrest, rfl, hname, by omega, by omega⟩
  have hscan' : scan (· = slash) n _ (path + lead.length + w.length) = _ :=
    scan_eq hkept (by decide) (by omega)
  simp only [Option.bind_eq_bind, Option.bind_some, hmore, if_false, hscan, hscan', Option.pure_def]

/-- Every call takes bytes of the path, so there is a last one. -/
theorem Pointer.elements_spec (k : Nat) (hline : IsString m path cs) (hk : cs.length < k)
    (hn : cs.length < n) (hint : cs.length < 2 ^ 31)
    (hbuf : name + dirsiz ≤ path ∨ path + cs.length < name) :
    ∃ calls, elements n k m path name = some calls ∧
      Splits name calls (components (cs.map charOf)) := by
  induction k generalizing m path cs with
  | zero => omega
  | succ k ih =>
      rw [elements]
      cases hskip : FileSys.skipelem (cs.map charOf) with
      | none =>
          rw [Pointer.skipelem_of_none hline hn hskip, skipelem_none.1 hskip]
          exact ⟨[], rfl, .nil⟩
      | some r =>
          obtain ⟨nm, rest⟩ := r
          obtain ⟨m', path', cs', hrun, hline', rfl, hname, hlt, hlen⟩ :=
            Pointer.skipelem_of_some hline hn hint hbuf hskip
          obtain ⟨hcomp, hlast⟩ := skipelem_some hskip
          obtain ⟨calls, hcalls, hsplits⟩ := ih hline' (by omega) (by omega) (by omega) (by omega)
          have hne : path' ≠ 0 := by omega
          refine ⟨(m', path') :: calls, ?_, ?_⟩
          · simp [hrun, hne, hcalls]
          · rw [hcomp]
            refine .cons hname ?_ hsplits
            rw [hline'.zero_iff, ← hlast, List.map_eq_nil_iff]

/-- **The split of a path.** For a path in memory, calling `skipelem` until it returns 0 ends, having
    put the nonempty components into the buffer one after the other; what it returns is an empty path
    exactly after the last of them. So `namei` walks along all the components, and `nameiparent` along
    all but the last, which it returns. The string has a length that is an `int`, as those below
    `KERNBASE` have, and the buffer is not in it. -/
theorem namex_splits {line : List UInt8} (hline : IsString m path line)
    (hint : line.length < 2 ^ 31) (hbuf : name + dirsiz ≤ path ∨ path + line.length < name) :
    (∀ n, line.length < n → ∃ calls, Pointer.elements n n m path name = some calls ∧
      Splits name calls (components (line.map charOf))) ∧
    ∀ cwd,
      namei cwd (line.map charOf) = (do
        let ip ← walkFrom cwd (line.map charOf)
        walk (components (line.map charOf)) ip) ∧
      nameiparent cwd (line.map charOf) = (do
        let ip ← walkFrom cwd (line.map charOf)
        parentWalk (components (line.map charOf)) ip) := by
  constructor
  · intro n hn
    exact Pointer.elements_spec n hline hn hn hint hbuf
  · intro cwd
    exact ⟨namei_eq cwd _, nameiparent_eq cwd _⟩

end Split

example : components "//a/bb/".toList = ["a".toList, "bb".toList] := by decide

/-- The path `//a/b/` at an address, with the buffer in front of it. -/
theorem namex_splits_ab :
    let m : Mem := fun a => [47, 47, 97, 47, 98, 47].getD (a - 64) 0
    IsString m 64 [47, 47, 97, 47, 98, 47] ∧
    (∀ n, 6 < n → ∃ calls, Pointer.elements n n m 64 32 = some calls ∧
      Splits 32 calls (components ([47, 47, 97, 47, 98, 47].map charOf))) ∧
    ∀ cwd,
      namei cwd ([47, 47, 97, 47, 98, 47].map charOf) = (do
        let ip ← walkFrom cwd ([47, 47, 97, 47, 98, 47].map charOf)
        walk (components ([47, 47, 97, 47, 98, 47].map charOf)) ip) ∧
      nameiparent cwd ([47, 47, 97, 47, 98, 47].map charOf) = (do
        let ip ← walkFrom cwd ([47, 47, 97, 47, 98, 47].map charOf)
        parentWalk (components ([47, 47, 97, 47, 98, 47].map charOf)) ip) := by
  have hline : IsString (fun a => [47, 47, 97, 47, 98, 47].getD (a - 64) 0) 64
      [47, 47, 97, 47, 98, 47] := by
    decide
  exact ⟨hline, namex_splits hline (by decide) (Or.inl (by decide))⟩

end Cs350.FileSys
