import Xv6.Fs.Dir

/-!
# Path names

`skipelem` copies the next element of a path into the `DIRSIZ`-byte buffer `name` and returns
what follows it; `namex` starts at the root or at the cwd and looks each element up in the
directory reached so far, and `nameiparent` stops one element early. A path is abstractly its
list of `components`, the nonempty runs between slashes of the C string, and `walk` follows them
through the directories' maps (`dirMap`): in a file system whose inodes and directories are well
formed (`FsOk`) `namei` computes `walk` and `nameiparent` the walk of all but the last component.

The inode cache is outside this model: `iget` and `idup` give the inode number, `ilock` loads
the dinode through the log's view of the disk, and `iunlockput` and `iput` leave the disk as it
is.
-/

namespace Xv6.Fs

open FsLog CLoop CStr

/-! ## The code -/

/-- A byte of a path element: `*path != '/' && *path != 0`. -/
def elemByte (c : UInt8) : Bool := c != 47 && c != 0

/-- What `skipelem` copies into `name` for the element `elem`: its first `DIRSIZ` bytes, or all
of it and a NUL. -/
def elemName (elem : List UInt8) : List UInt8 :=
  if elem.length ≥ DIRSIZ then elem.take DIRSIZ else elem ++ [0]

/-- `skipelem(path, name)`: the rest of the path after the element and the slashes that follow
it, and the bytes written to `name`; `none` for the null return. -/
def skipelem (path : List UInt8) : Option (List UInt8 × List UInt8) :=
  let path := path.dropWhile (· == 47)
  if path.headD 0 = 0 then none
  else some (((path.dropWhile elemByte).dropWhile (· == 47)), elemName (path.takeWhile elemByte))

/-- `ROOTDEV`. -/
abbrev ROOTDEV : UInt32 := 1

/-- The inode `iget(ROOTDEV, inum)` once `ilock` has read its dinode. -/
def iload (sb : Superblock) (s : FsState) (inum : UInt32) : Inode :=
  Inode.load ⟨ROOTDEV, inum, 0, 0, 0, 0, 0, fun _ => 0⟩ (bread s (IBLOCK inum sb))

/-- `ilock` of the inode `inum`: `panic("ilock: no type")` on a free dinode. -/
def ilock (sb : Superblock) (s : FsState) (inum : UInt32) : Except String Inode :=
  if (iload sb s inum).type = 0 then .error "ilock: no type" else .ok (iload sb s inum)

/-- The loop of `namex` from the inode `ip`, with at most `fuel` runs; `name` is the caller's
buffer. It returns the inode number reached (`none` for a null return) and the buffer. -/
def namexFrom (sb : Superblock) (nameiparent : Bool) :
    Nat → List UInt8 → UInt32 → List UInt8 → FsState →
      Except String (Option UInt32 × List UInt8 × FsState)
  | 0, _, _, name, s => .ok (none, name, s)
  | fuel + 1, path, ip, name, s =>
    match skipelem path with
    | none => .ok (if nameiparent then none else some ip, name, s)
    | some (path, elem) => do
      let name := elem ++ name.drop elem.length
      let dp ← ilock sb s ip
      if dp.type ≠ T_DIR then .ok (none, name, s)
      else if nameiparent ∧ path.headD 0 = 0 then .ok (some ip, name, s)
      else do
        let (next, _, s) ← dirlookup sb dp name s
        match next with
        | none => .ok (none, name, s)
        | some (inum, _) => namexFrom sb nameiparent fuel path inum name s

/-- `namex(path, nameiparent, name)` in a process whose cwd is the inode `cwd`. The loop runs at
most once for each byte of the path and once more. -/
def namex (sb : Superblock) (cwd : UInt32) (path : List UInt8) (nameiparent : Bool)
    (name : List UInt8) (s : FsState) : Except String (Option UInt32 × List UInt8 × FsState) :=
  namexFrom sb nameiparent (path.length + 1) path (if path.headD 0 = 47 then ROOTINO else cwd) name s

/-- `namei(path)`. Its `char name[DIRSIZ]` starts with bytes the result does not depend on. -/
def namei (sb : Superblock) (cwd : UInt32) (path : List UInt8) (s : FsState) :
    Except String (Option UInt32 × FsState) :=
  (namex sb cwd path false (List.replicate DIRSIZ 0) s).map fun r => (r.1, r.2.2)

/-- `nameiparent(path, name)`. -/
def nameiparent (sb : Superblock) (cwd : UInt32) (path name : List UInt8) (s : FsState) :
    Except String (Option UInt32 × List UInt8 × FsState) :=
  namex sb cwd path true name s

/-! ## Components -/

/-- The path's elements: the nonempty runs between slashes before its NUL. -/
def components (path : List UInt8) : List (List UInt8) :=
  ((path.takeWhile (· != 0)).splitOn 47).filter (!·.isEmpty)

example : components [47, 97, 47, 47, 98, 99, 0, 100] = [[97], [98, 99]] := by decide

theorem components_nil : components [] = [] := by decide

theorem components_slash (p : List UInt8) : components (47 :: p) = components p := by
  rw [components, List.takeWhile_cons_of_pos (by decide), List.splitOn_cons_eq_if_modifyHead,
    if_pos (by decide), List.filter_cons_of_neg (by simp)]
  rfl

theorem components_of_headD {p : List UInt8} (h : p.headD 0 = 0) : components p = [] := by
  cases p with
  | nil => exact components_nil
  | cons a p =>
    simp only [List.headD_cons] at h
    subst h
    rw [components, List.takeWhile_cons_of_neg (by decide)]
    rfl

theorem components_dropWhile_slash (p : List UInt8) :
    components (p.dropWhile (· == 47)) = components p := by
  induction p with
  | nil => rfl
  | cons a p ih =>
    rw [List.dropWhile_cons]
    by_cases ha : a = 47
    · subst ha
      rw [if_pos (by decide), ih, components_slash]
    · rw [if_neg (by simpa using ha)]

theorem elemByte_iff {c : UInt8} : elemByte c ↔ c ≠ 47 ∧ c ≠ 0 := by
  rw [elemByte, Bool.and_eq_true, bne_iff_ne, bne_iff_ne]

/-- An element followed by the end of the string or by a slash is the first component. -/
theorem components_append {e t : List UInt8} (he : ∀ x ∈ e, elemByte x) (hne : e ≠ [])
    (ht : ∀ b ∈ t.head?, elemByte b = false) : components (e ++ t) = e :: components t := by
  have h0 : ∀ x ∈ e, (x != 0) = true := fun x hx => bne_iff_ne.mpr (elemByte_iff.mp (he x hx)).2
  have h47 : (47 : UInt8) ∉ e := fun h => (elemByte_iff.mp (he 47 h)).1 rfl
  rw [components, List.takeWhile_append_of_pos h0]
  -- the byte after the element is a NUL, a slash, or there is none
  rcases t with _ | ⟨b, t⟩
  · rw [List.takeWhile_nil, List.append_nil, List.splitOn_eq_singleton h47,
      List.filter_cons_of_pos (by simpa using hne), components_nil]
    rfl
  · have hb : b = 47 ∨ b = 0 := or_iff_not_imp_left.mpr (by simpa [elemByte] using ht b rfl)
    rcases hb with rfl | rfl
    · rw [List.takeWhile_cons_of_pos (by decide), List.splitOn_append_cons_self_of_not_mem h47,
        List.filter_cons_of_pos (by simpa using hne), components_slash]
      rfl
    · rw [List.takeWhile_cons_of_neg (by decide), List.append_nil, List.splitOn_eq_singleton h47,
        List.filter_cons_of_pos (by simpa using hne), components_of_headD rfl]
      rfl

/-- A path whose next byte starts an element: the element is its first component. -/
theorem components_elem {q : List UInt8} (h : elemByte (q.headD 0)) :
    components q = q.takeWhile elemByte :: components (q.dropWhile elemByte) := by
  have hne : q.takeWhile elemByte ≠ [] := by
    cases q with
    | nil => simp [elemByte] at h
    | cons a q =>
      rw [List.takeWhile_cons_of_pos (show elemByte a from h)]
      exact List.cons_ne_nil _ _
  have hstop : ∀ b ∈ (q.dropWhile elemByte).head?, elemByte b = false := fun b hb => by
    have := List.head?_dropWhile_not elemByte q
    rwa [Option.mem_def.mp hb] at this
  rw [← components_append (fun x hx => List.mem_takeWhile_imp hx) hne hstop,
    List.takeWhile_append_dropWhile]

theorem ne_zero_of_mem_elem {q : List UInt8} {x : UInt8} (hx : x ∈ q.takeWhile elemByte) :
    x ≠ 0 :=
  (elemByte_iff.mp (List.mem_takeWhile_imp hx)).2

theorem components_of_skipelem_none {path : List UInt8} (h : skipelem path = none) :
    components path = [] := by
  rw [skipelem] at h
  split at h
  · rw [← components_dropWhile_slash, components_of_headD ‹_›]
  · cases h

/-- **`skipelem`.** A call that returns takes the first component off the path: it writes that
component's `elemName` and returns a shorter path with no slash in front. -/
theorem skipelem_some {path rest name : List UInt8} (h : skipelem path = some (rest, name)) :
    ∃ c, components path = c :: components rest ∧ name = elemName c ∧ (∀ x ∈ c, x ≠ 0) ∧
      rest.length < path.length ∧ rest.headD 0 ≠ 47 := by
  rw [skipelem] at h
  split at h
  · cases h
  rename_i h0
  obtain ⟨rfl, rfl⟩ := Prod.mk.inj (Option.some.inj h.symm)
  -- `q` is the path past its leading slashes; its first byte starts the element
  generalize hq : path.dropWhile (· == 47) = q at h0
  have h47 : q.headD 0 ≠ 47 := by
    cases q with
    | nil => decide
    | cons a q =>
      have := List.head?_dropWhile_not (· == 47) path
      rw [hq] at this
      simpa using this
  have hq' : elemByte (q.headD 0) := elemByte_iff.mpr ⟨h47, h0⟩
  have hlt : (q.dropWhile elemByte).length < q.length := by
    cases q with
    | nil => simp at h0
    | cons a q =>
      rw [List.dropWhile_cons_of_pos (show elemByte a from hq')]
      exact Nat.lt_succ_of_le (List.length_dropWhile_le _ _)
  refine ⟨q.takeWhile elemByte, ?_, rfl, fun x hx => ne_zero_of_mem_elem hx, ?_, ?_⟩
  · rw [← components_dropWhile_slash, hq, components_elem hq', components_dropWhile_slash]
  · have h1 := List.length_dropWhile_le (· == 47) (q.dropWhile elemByte)
    have h2 := List.length_dropWhile_le (· == 47) path
    rw [hq] at h2
    omega
  · have := List.head?_dropWhile_not (· == 47) (q.dropWhile elemByte)
    revert this
    cases (q.dropWhile elemByte).dropWhile (· == 47) with
    | nil => intro; decide
    | cons a r => simp

/-- What `namecmp` sees of the buffer `skipelem` wrote: the element's first `DIRSIZ` bytes,
whatever the buffer held after them. -/
theorem key_elemName {c : List UInt8} (hc : ∀ x ∈ c, x ≠ 0) (junk : List UInt8) :
    key (elemName c ++ junk) = c.take DIRSIZ := by
  rw [key, elemName]
  split
  · exact (cname_append_of_le (fun x hx => hc x (List.mem_of_mem_take hx)) (by simp; omega) junk).trans
      (List.take_take.trans (by simp))
  · rw [List.append_assoc, List.singleton_append]
    exact cname_append_nul hc junk DIRSIZ

/-- The components hold no NUL. -/
theorem ne_zero_of_mem_components {path c : List UInt8} (hc : c ∈ components path) :
    ∀ x ∈ c, x ≠ 0 := by
  -- by `skipelem`, on the length of the path
  induction hn : path.length using Nat.strong_induction_on generalizing path with
  | _ n ih =>
    cases hsk : skipelem path with
    | none => rw [components_of_skipelem_none hsk] at hc; cases hc
    | some p =>
      obtain ⟨rest, nm⟩ := p
      obtain ⟨c', hcomp, -, hc', hlen, -⟩ := skipelem_some hsk
      rw [hcomp] at hc
      rcases List.mem_cons.mp hc with rfl | hc
      · exact hc'
      · exact ih rest.length (hn ▸ hlen) hc rfl

/-- The names written by `fuel` successive `skipelem` calls, the first on `path`. -/
def skipelems : Nat → List UInt8 → List (List UInt8)
  | 0, _ => []
  | fuel + 1, path =>
    match skipelem path with
    | none => []
    | some (path, name) => name :: skipelems fuel path

/-- Repeated `skipelem` writes the path's components one after the other. -/
theorem skipelems_eq {fuel : Nat} {path : List UInt8} (h : path.length < fuel) :
    skipelems fuel path = (components path).map elemName := by
  induction fuel generalizing path with
  | zero => omega
  | succ fuel ih =>
    rw [skipelems]
    cases hs : skipelem path with
    | none => rw [components_of_skipelem_none hs]; rfl
    | some p =>
      obtain ⟨rest, name⟩ := p
      obtain ⟨c, hc, rfl, -, hlen, -⟩ := skipelem_some hs
      rw [hc, List.map_cons]
      exact congrArg (elemName c :: ·) (ih (by omega))

/-! ## Resolution -/

/-- The inode reached from `ip` by looking the names `cs` up one after the other, each in the
directory reached before it: `none` when one is missing or is looked up in an inode that is not
a directory. -/
def walk (sb : Superblock) (s : FsState) : UInt32 → List (List UInt8) → Option UInt32
  | ip, [] => some ip
  | ip, c :: cs =>
    if (iload sb s ip).type = T_DIR then
      (dirMap (entries (content s (iload sb s ip))) c).bind fun i => walk sb s i cs
    else none

/-- The directory reached by all but the last of `cs`; `none` when `cs` is empty. -/
def walkParent (sb : Superblock) (s : FsState) (ip : UInt32) (cs : List (List UInt8)) :
    Option UInt32 :=
  if cs = [] then none else (walk sb s ip cs.dropLast).filter fun d => (iload sb s d).type == T_DIR

/-- The inode `inum` is in use: in the table, and its dinode has a type. -/
def Live (sb : Superblock) (s : FsState) (inum : UInt32) : Prop :=
  inum.toNat < sb.ninodes.toNat ∧ (iload sb s inum).type ≠ 0

/-- A file system `namex` can walk: the root is in use, every inode in use is well formed, every
directory is made of whole entries, and every used entry names an inode in use. -/
structure FsOk (sb : Superblock) (s : FsState) : Prop where
  root : Live sb s ROOTINO
  inode : ∀ i, Live sb s i → (iload sb s i).Ok sb s
  whole : ∀ i, Live sb s i → (iload sb s i).type = T_DIR → (iload sb s i).size.toNat % 16 = 0
  entry : ∀ i, Live sb s i → (iload sb s i).type = T_DIR →
    ∀ de ∈ entries (content s (iload sb s i)), de.inum ≠ 0 → Live sb s de.inum.toUInt32

section Walk

variable {sb : Superblock} {s : FsState} {ip : UInt32}

theorem walkParent_single (c : List UInt8) :
    walkParent sb s ip [c] = if (iload sb s ip).type = T_DIR then some ip else none := by
  rw [walkParent, if_neg (List.cons_ne_nil _ _), List.dropLast_singleton, walk]
  by_cases hdir : (iload sb s ip).type = T_DIR <;> simp [Option.filter, hdir]

/-- Past the first of at least two names, `walkParent` is the walk one directory down. -/
theorem walkParent_cons (c : List UInt8) {cs : List (List UInt8)} (hcs : cs ≠ []) :
    walkParent sb s ip (c :: cs) =
      if (iload sb s ip).type = T_DIR then
        (dirMap (entries (content s (iload sb s ip))) c).bind fun i => walkParent sb s i cs
      else none := by
  rw [walkParent, if_neg (List.cons_ne_nil _ _), List.dropLast_cons_of_ne_nil hcs, walk]
  split
  · cases dirMap (entries (content s (iload sb s ip))) c with
    | none => rfl
    | some i => rw [Option.bind_some, Option.bind_some, walkParent, if_neg hcs]
  · rfl

/-- A walk that starts at an inode that is not a directory finds no parent. -/
theorem walkParent_of_not_dir (hdir : ¬(iload sb s ip).type = T_DIR) (c : List UInt8)
    (cs : List (List UInt8)) : walkParent sb s ip (c :: cs) = none := by
  by_cases hcs : cs = []
  · rw [hcs, walkParent_single, if_neg hdir]
  · rw [walkParent_cons c hcs, if_neg hdir]

theorem ilock_live (hip : Live sb s ip) : ilock sb s ip = .ok (iload sb s ip) := if_neg hip.2

theorem FsOk.dirOk (hfs : FsOk sb s) (hip : Live sb s ip) (hdir : (iload sb s ip).type = T_DIR) :
    DirOk sb s (iload sb s ip) :=
  ⟨hfs.inode ip hip, hdir, hfs.whole ip hip hdir⟩

/-- The lookup `namex` makes in a directory in use: the directory's map at the element, and an
inode in use. -/
theorem dirlookup_elem (hfs : FsOk sb s) (hip : Live sb s ip) (hdir : (iload sb s ip).type = T_DIR)
    {c : List UInt8} (hc : ∀ x ∈ c, x ≠ 0) (junk : List UInt8) :
    ∃ r, dirlookup sb (iload sb s ip) (elemName c ++ junk) s = .ok (r, iload sb s ip, s) ∧
      r.map Prod.fst = dirMap (entries (content s (iload sb s ip))) c ∧
      ∀ i off, r = some (i, off) → Live sb s i := by
  refine ⟨_, dirlookup_eq (hfs.dirOk hip hdir) _, ?_, ?_⟩
  · rw [map_fst_lookup]
    exact dirMap_congr _ ((key_elemName hc junk).trans (cname_of_forall_ne hc DIRSIZ).symm)
  · intro i off h
    obtain ⟨j, de, hj, hb, rfl, -⟩ := lookup_spec h
    exact hfs.entry ip hip hdir de (List.mem_of_getElem? hj) ((de.binds_iff _).mp hb).1

/-- **`namei`'s loop.** From an inode in use, `namex` without `nameiparent` returns the walk of
the path's components, and changes nothing. -/
theorem namexFrom_walk (hfs : FsOk sb s) {fuel : Nat} {path : List UInt8} (hfuel : path.length < fuel)
    (hip : Live sb s ip) (name : List UInt8) :
    ∃ name', namexFrom sb false fuel path ip name s = .ok (walk sb s ip (components path), name', s) := by
  induction fuel generalizing path ip name with
  | zero => omega
  | succ fuel ih =>
    rw [namexFrom]
    cases hsk : skipelem path with
    | none => exact ⟨name, by rw [components_of_skipelem_none hsk]; rfl⟩
    | some p =>
      obtain ⟨rest, nm⟩ := p
      obtain ⟨c, hcomp, rfl, hc, hlen, -⟩ := skipelem_some hsk
      dsimp only
      rw [ilock_live hip, ok_bind, hcomp, walk]
      by_cases hdir : (iload sb s ip).type = T_DIR
      · obtain ⟨r, hr, hmap, hlive⟩ := dirlookup_elem hfs hip hdir hc (name.drop (elemName c).length)
        rw [if_neg (not_not.mpr hdir), if_neg (fun h => Bool.false_ne_true h.1), hr, ok_bind,
          if_pos hdir, ← hmap]
        rcases r with _ | ⟨i, off⟩
        · exact ⟨_, rfl⟩
        · exact ih (by omega) (hlive i off rfl) _
      · -- an inode that is not a directory ends the walk
        rw [if_pos hdir, if_neg hdir]
        exact ⟨_, rfl⟩

/-- **`nameiparent`'s loop.** From an inode in use, `namex` with `nameiparent` returns the
directory reached by all but the last component; when it returns one, the buffer starts with the
last component's name, and a path with no component leaves the buffer as it was. -/
theorem namexFrom_parent (hfs : FsOk sb s) {fuel : Nat} {path : List UInt8}
    (hfuel : path.length < fuel) (hip : Live sb s ip) (name : List UInt8) :
    ∃ name', namexFrom sb true fuel path ip name s =
        .ok (walkParent sb s ip (components path), name', s) ∧
      (components path = [] → name' = name) ∧
      ∀ d, walkParent sb s ip (components path) = some d →
        ∀ c ∈ (components path).getLast?, elemName c <+: name' := by
  induction fuel generalizing path ip name with
  | zero => omega
  | succ fuel ih =>
    rw [namexFrom]
    cases hsk : skipelem path with
    | none =>
      rw [components_of_skipelem_none hsk]
      exact ⟨name, rfl, fun _ => rfl, fun _ _ c hc => by cases hc⟩
    | some p =>
      obtain ⟨rest, nm⟩ := p
      obtain ⟨c, hcomp, rfl, hc, hlen, h47⟩ := skipelem_some hsk
      dsimp only
      rw [ilock_live hip, ok_bind, hcomp]
      have hcons : c :: components rest ≠ [] := List.cons_ne_nil _ _
      by_cases hdir : (iload sb s ip).type = T_DIR
      · rw [if_neg (not_not.mpr hdir)]
        by_cases hend : rest.headD 0 = 0
        · -- the last component: `namex` stops one level early
          rw [if_pos ⟨rfl, hend⟩, components_of_headD hend, walkParent_single, if_pos hdir]
          exact ⟨_, rfl, fun h => absurd h (List.cons_ne_nil _ _), fun _ _ c' hc' => by
            cases hc'
            exact List.prefix_append _ _⟩
        · have hrest : components rest ≠ [] := by
            rw [components_elem (elemByte_iff.mpr ⟨h47, hend⟩)]
            exact List.cons_ne_nil _ _
          obtain ⟨r, hr, hmap, hlive⟩ :=
            dirlookup_elem hfs hip hdir hc (name.drop (elemName c).length)
          rw [if_neg (fun h => hend h.2), hr, ok_bind, walkParent_cons c hrest, if_pos hdir, ← hmap]
          rcases r with _ | ⟨i, off⟩
          · exact ⟨_, rfl, fun h => absurd h hcons, fun _ h => by cases h⟩
          · obtain ⟨name', h, -, hlast⟩ :=
              ih (show rest.length < fuel by omega) (hlive i off rfl) (elemName c ++ name.drop (elemName c).length)
            refine ⟨name', h, fun h => absurd h hcons, fun d hd c' hc' => hlast d hd c' ?_⟩
            rwa [List.getLast?_cons_of_ne_nil hrest] at hc'
      · rw [if_pos hdir, walkParent_of_not_dir hdir]
        exact ⟨_, rfl, fun h => absurd h hcons, fun _ h => by cases h⟩

/-- A walk fails exactly at a component missing from the directory reached before it, or looked
up in an inode that is not a directory. -/
theorem walk_eq_none_iff (cs : List (List UInt8)) :
    walk sb s ip cs = none ↔ ∃ (k : Nat) (d : UInt32) (c : List UInt8), cs[k]? = some c ∧
      walk sb s ip (cs.take k) = some d ∧
      ((iload sb s d).type ≠ T_DIR ∨ dirMap (entries (content s (iload sb s d))) c = none) := by
  induction cs generalizing ip with
  | nil => simp [walk]
  | cons c cs ih =>
    rw [walk]
    by_cases hdir : (iload sb s ip).type = T_DIR
    · rw [if_pos hdir]
      cases hm : dirMap (entries (content s (iload sb s ip))) c with
      | none =>
        exact ⟨fun _ => ⟨0, ip, c, rfl, rfl, Or.inr hm⟩, fun _ => rfl⟩
      | some i =>
        -- the walk goes on from `i`: the failure lies past the first component
        rw [Option.bind_some, ih]
        constructor
        · rintro ⟨k, d, c', hk, hw, hd⟩
          exact ⟨k + 1, d, c', hk, by rw [List.take_succ_cons, walk, if_pos hdir, hm]; exact hw, hd⟩
        · rintro ⟨k, d, c', hk, hw, hd⟩
          cases k with
          | zero =>
            obtain rfl : c = c' := Option.some.inj hk
            obtain rfl : ip = d := Option.some.inj hw
            rcases hd with hd | hd
            · exact absurd hdir hd
            · rw [hm] at hd; cases hd
          | succ k =>
            rw [List.take_succ_cons, walk, if_pos hdir, hm, Option.bind_some] at hw
            exact ⟨k, d, c', hk, hw, hd⟩
    · rw [if_neg hdir]
      exact ⟨fun _ => ⟨0, ip, c, rfl, rfl, Or.inl hdir⟩, fun _ => rfl⟩

end Walk

/-- **Path names.** Repeated `skipelem` writes the path's nonempty components one after the
other, each as its first `DIRSIZ` bytes to `namecmp`. In a well-formed file system, from the root
for a path that starts with `/` and from the cwd otherwise, `namei` returns the walk of the
components through the directories, which fails exactly at a missing component or at a lookup
in an inode that is not a directory; `nameiparent` returns the directory reached by all but the
last component, `0` for a path with no component, and leaves the last component's name in
`name` when it returns a directory. Neither changes the file system. -/
theorem namei_walk {sb : Superblock} {s : FsState} (hfs : FsOk sb s) {cwd : UInt32}
    (hcwd : Live sb s cwd) (path name : List UInt8) :
    skipelems (path.length + 1) path = (components path).map elemName ∧
    (∀ c ∈ components path, key (elemName c) = c.take DIRSIZ) ∧
    namei sb cwd path s =
      .ok (walk sb s (if path.headD 0 = 47 then ROOTINO else cwd) (components path), s) ∧
    (namei sb cwd path s = .ok (none, s) ↔
      ∃ (k : Nat) (d : UInt32) (c : List UInt8), (components path)[k]? = some c ∧
        walk sb s (if path.headD 0 = 47 then ROOTINO else cwd) ((components path).take k) = some d ∧
        ((iload sb s d).type ≠ T_DIR ∨ dirMap (entries (content s (iload sb s d))) c = none)) ∧
    ∃ name', nameiparent sb cwd path name s =
        .ok (walkParent sb s (if path.headD 0 = 47 then ROOTINO else cwd) (components path), name', s) ∧
      (components path = [] →
        walkParent sb s (if path.headD 0 = 47 then ROOTINO else cwd) (components path) = none ∧
          name' = name) ∧
      ∀ d, walkParent sb s (if path.headD 0 = 47 then ROOTINO else cwd) (components path) = some d →
        ∀ c ∈ (components path).getLast?, elemName c <+: name' := by
  have hstart : Live sb s (if path.headD 0 = 47 then ROOTINO else cwd) := by
    split
    · exact hfs.root
    · exact hcwd
  obtain ⟨nm, hwalk⟩ := namexFrom_walk hfs (Nat.lt_succ_self _) hstart (List.replicate DIRSIZ 0)
  have hnamei : namei sb cwd path s =
      .ok (walk sb s (if path.headD 0 = 47 then ROOTINO else cwd) (components path), s) := by
    rw [namei, namex, hwalk]
    rfl
  obtain ⟨name', hpar, hnil, hlast⟩ := namexFrom_parent hfs (Nat.lt_succ_self _) hstart name
  have hkey : ∀ c ∈ components path, key (elemName c) = c.take DIRSIZ := fun c hc => by
    have := key_elemName (ne_zero_of_mem_components hc) []
    rwa [List.append_nil] at this
  refine ⟨skipelems_eq (Nat.lt_succ_self _), hkey, hnamei, ?_, name', hpar,
    fun h => ⟨by rw [h]; rfl, hnil h⟩, hlast⟩
  rw [hnamei, ← walk_eq_none_iff]
  exact ⟨fun h => (Prod.mk.inj (Except.ok.inj h)).1, fun h => by rw [h]⟩

/-- `tinySb`'s disk with inode 1 an empty directory and every other inode free. -/
def rootDisk : FsState :=
  ⟨fun b => if b = 33 then fun i => if i.val = 64 then 1 else 0 else fun _ => 0,
    fun _ => none, ⟨2, 31, 1, false, []⟩⟩

theorem eq_root_of_live {i : UInt32} (hi : Live tinySb rootDisk i) : i = ROOTINO := by
  have hfree : ∀ k < 8, (iload tinySb rootDisk k.toUInt32).type ≠ 0 → k = 1 := by decide
  have hround : i.toNat.toUInt32 = i := UInt32.ofNat_toNat
  have := hfree i.toNat hi.1 (by rw [hround]; exact hi.2)
  rw [← hround, this]
  rfl

theorem rootDisk_ok : FsOk tinySb rootDisk where
  root := ⟨by decide, by decide⟩
  inode i hi := by
    obtain rfl := eq_root_of_live hi
    exact Inode.Ok.of_empty (by decide) (by decide) (by decide)
  whole i hi _ := by
    obtain rfl := eq_root_of_live hi
    decide
  entry i hi _ de hde := by
    obtain rfl := eq_root_of_live hi
    have hnil : entries (content rootDisk (iload tinySb rootDisk ROOTINO)) = [] := by decide
    rw [hnil] at hde
    cases hde

theorem namei_walk_root :
    FsOk tinySb rootDisk ∧ Live tinySb rootDisk ROOTINO ∧
      namei tinySb ROOTINO [47, 97] rootDisk = .ok (none, rootDisk) := by
  obtain ⟨-, -, h, -⟩ := namei_walk rootDisk_ok rootDisk_ok.root [47, 97] []
  have hw : walk tinySb rootDisk (if ([47, 97] : List UInt8).headD 0 = 47 then ROOTINO else ROOTINO)
      (components [47, 97]) = none := by decide
  exact ⟨rootDisk_ok, rootDisk_ok.root, by rw [h, hw]⟩

end Xv6.Fs
