import Xv6.Fs.Content
import Xv6.Lib.CStr

/-!
# Directories

A directory's content is a run of 16-byte `struct dirent` records (`entries`); an entry whose
inode number is `0` is free. `dirlookup` scans them for the first used entry whose name
`namecmp` finds equal; `dirlink` refuses a name already there and writes the new entry into the
first free slot, or appends it at `dp->size`. The directory as a map (`dirMap`) sends a name to
the inode number of the first used entry holding it, names compared as `strncmp` over `DIRSIZ`
bytes compares them (`key`).

`dirlookup` returns the inode number and the offset where the kernel returns
`iget(dp->dev, inum)`: the inode cache, and `dirlink`'s `iput` of the inode it found, are
outside this model.
-/

namespace Xv6.Fs

open FsLog Bytes CLoop CInt CStr

/-- `namecmp(s, t)`. -/
def namecmp (s t : List UInt8) : Int := strncmp s t DIRSIZ

/-- The loop of `dirlookup` from `off`, `for(; off < dp->size; off += sizeof(de))`, with at most
`fuel` runs. -/
def dirlookupFrom (sb : Superblock) (name : List UInt8) :
    Nat → UInt32 → Inode → FsState → Except String (Option (UInt32 × UInt32) × Inode × FsState)
  | 0, _, dp, s => .ok (none, dp, s)
  | fuel + 1, off, dp, s =>
    if off < dp.size then do
      let (r, de, dp, s) ← readi sb dp off 16 s
      if r ≠ 16 then .error "dirlookup read"
      else
        let de := Dirent.ofBytes de
        if de.inum = 0 then dirlookupFrom sb name fuel (off + 16) dp s
        else if namecmp name de.name = 0 then .ok (some (de.inum.toUInt32, off), dp, s)
        else dirlookupFrom sb name fuel (off + 16) dp s
    else .ok (none, dp, s)

/-- `dirlookup(dp, name, &off)`: the inode number and offset of the entry holding `name`, `none`
for a null return. The loop runs at most `dp->size / 16 + 1` times. -/
def dirlookup (sb : Superblock) (dp : Inode) (name : List UInt8) (s : FsState) :
    Except String (Option (UInt32 × UInt32) × Inode × FsState) :=
  if dp.type ≠ T_DIR then .error "dirlookup not DIR"
  else dirlookupFrom sb name (dp.size.toNat / 16 + 1) 0 dp s

/-- The 16-byte entries of a directory whose content is `c`. -/
def entries (c : List UInt8) : List Dirent :=
  (List.range (c.length / 16)).map fun j => Dirent.ofBytes ((c.drop (16 * j)).take 16)

/-- What `namecmp` compares of a name: its bytes before the NUL, at most `DIRSIZ` of them. -/
def key (name : List UInt8) : List UInt8 := cname name DIRSIZ

/-- The entry is in use and holds `name`. -/
def Dirent.Binds (de : Dirent) (name : List UInt8) : Bool := de.inum != 0 && key de.name == key name

/-- The directory as a map: the inode number of the first used entry that holds `name`. -/
def dirMap (es : List Dirent) (name : List UInt8) : Option UInt32 :=
  (es.find? (·.Binds name)).map (·.inum.toUInt32)

/-- The entry `dirlookup` looks for: the inode number and offset of the first used entry that
holds `name`. -/
def lookup (es : List Dirent) (name : List UInt8) : Option (UInt32 × UInt32) :=
  (es.zipIdx.find? (·.1.Binds name)).map fun p => (p.1.inum.toUInt32, (16 * p.2).toUInt32)

/-- The names bound in the directory are pairwise distinct, as `namecmp` compares them. -/
def Distinct (es : List Dirent) : Prop :=
  es.Pairwise fun x y => x.inum ≠ 0 → y.inum ≠ 0 → key x.name ≠ key y.name

/-- A directory `dirlookup` can scan: a well-formed inode of type `T_DIR` made of whole
entries. -/
structure DirOk (sb : Superblock) (s : FsState) (dp : Inode) : Prop where
  ok : dp.Ok sb s
  dir : dp.type = T_DIR
  whole : dp.size.toNat % 16 = 0

theorem namecmp_eq_zero_iff (s t : List UInt8) : namecmp s t = 0 ↔ key s = key t :=
  strncmp_eq_zero_iff s t DIRSIZ

theorem Dirent.binds_iff (de : Dirent) (n : List UInt8) :
    de.Binds n = true ↔ de.inum ≠ 0 ∧ key de.name = key n := by
  simp [Dirent.Binds]

theorem Binds_congr (de : Dirent) {n n' : List UInt8} (h : key n = key n') : de.Binds n = de.Binds n' := by
  simp [Dirent.Binds, h]

theorem dirMap_congr (es : List Dirent) {n n' : List UInt8} (h : key n = key n') : dirMap es n = dirMap es n' := by
  simp only [dirMap, Binds_congr _ h]

@[simp] theorem length_entries (c : List UInt8) : (entries c).length = c.length / 16 := by
  simp [entries]

theorem getElem_entries (c : List UInt8) {j : Nat} (hj : j < (entries c).length) :
    (entries c)[j] = Dirent.ofBytes ((c.drop (16 * j)).take 16) := by
  simp [entries]

section Entries

variable {es : List Dirent}

theorem lookup_zipIdx {name : List UInt8} (n : Nat) :
    ((es.zipIdx n).find? (·.1.Binds name)).map (fun p => p.1.inum.toUInt32) = dirMap es name := by
  induction es generalizing n with
  | nil => rfl
  | cons de es ih =>
    rw [List.zipIdx_cons, List.find?_cons, dirMap, List.find?_cons]
    cases de.Binds name with
    | true => rfl
    | false => exact ih (n + 1)

/-- `dirlookup`'s result names the entry `dirMap` reads. -/
theorem map_fst_lookup (name : List UInt8) : (lookup es name).map Prod.fst = dirMap es name := by
  rw [lookup, Option.map_map]
  exact lookup_zipIdx 0

theorem lookup_spec {name : List UInt8} {i off : UInt32} (h : lookup es name = some (i, off)) :
    ∃ (j : Nat) (de : Dirent), es[j]? = some de ∧ de.Binds name = true ∧ i = de.inum.toUInt32 ∧ off = (16 * j).toUInt32 := by
  obtain ⟨⟨de, j⟩, hf, hp⟩ := Option.map_eq_some_iff.mp h
  obtain ⟨-, hj, hde⟩ := List.mem_zipIdx (List.mem_of_find?_eq_some hf)
  simp only [Nat.sub_zero, Nat.zero_add] at hj hde
  obtain ⟨rfl, rfl⟩ := Prod.mk.inj hp
  have hb := List.find?_some hf
  exact ⟨j, de, by rw [List.getElem?_eq_getElem hj, hde], hb, rfl, rfl⟩

/-- A used entry that binds no name bound before keeps the names distinct. -/
theorem Distinct.of_new {de : Dirent} (hnew : dirMap es de.name = none) :
    ∀ x ∈ es, x.inum ≠ 0 → de.inum ≠ 0 → key x.name ≠ key de.name := by
  intro x hx hx0 _ hk
  have hs : (es.find? (·.Binds de.name)).isSome = true :=
    List.find?_isSome.mpr ⟨x, hx, (x.binds_iff de.name).mpr ⟨hx0, hk⟩⟩
  have hnone : es.find? (·.Binds de.name) = none := by simpa [dirMap] using hnew
  rw [hnone] at hs
  cases hs

theorem Distinct.append (hd : Distinct es) {de : Dirent} (hnew : dirMap es de.name = none) :
    Distinct (es ++ [de]) := by
  rw [Distinct, List.pairwise_append]
  exact ⟨hd, List.pairwise_singleton _ _, fun x hx y hy => by
    rw [List.mem_singleton] at hy
    exact hy ▸ Distinct.of_new hnew x hx⟩

theorem Distinct.set (hd : Distinct es) {j : Nat} (hj : j < es.length) {de : Dirent} (hnew : dirMap es de.name = none) : Distinct (es.set j de) := by
  have hsplit : es = es.take j ++ es[j] :: es.drop (j + 1) := by
    rw [← List.drop_eq_getElem_cons hj, List.take_append_drop]
  have hd' := hd
  rw [Distinct, hsplit, List.pairwise_append, List.pairwise_cons] at hd'
  rw [Distinct, List.set_eq_take_append_cons_drop, if_pos hj, List.pairwise_append, List.pairwise_cons]
  have hmem : ∀ x, x ∈ es.take j ∨ x ∈ es.drop (j + 1) → x ∈ es := fun x hx =>
    hx.elim List.mem_of_mem_take List.mem_of_mem_drop
  refine ⟨hd'.1, ⟨fun y hy => ?_, hd'.2.1.2⟩, fun x hx y hy => ?_⟩
  · intro h0 hy0 hk
    exact Distinct.of_new hnew y (hmem y (.inr hy)) hy0 h0 hk.symm
  · rcases List.mem_cons.mp hy with rfl | hy
    · exact Distinct.of_new hnew x (hmem x (.inl hx))
    · exact hd'.2.2 x hx y (List.mem_cons_of_mem _ hy)

end Entries

/-! ## The loops -/

section Loops

variable {sb : Superblock} {s : FsState} {dp : Inode}

theorem toNat_entryOff {j : Nat} (h : 16 * j ≤ MAXFILE * BSIZE) : (16 * j).toUInt32.toNat = 16 * j := by
  have : 16 * j ≤ 71680 := h
  rw [Nat.toUInt32_eq, UInt32.toNat_ofNat', Nat.mod_eq_of_lt (by omega)]

theorem entryOff_add (j : Nat) : (16 * j).toUInt32 + 16 = (16 * (j + 1)).toUInt32 := by
  apply UInt32.toNat_inj.mp
  simp only [UInt32.toNat_add, Nat.toUInt32_eq, UInt32.toNat_ofNat', UInt32.reduceToNat]
  omega

theorem DirOk.length_entries (hd : DirOk sb s dp) :
    16 * (entries (content s dp)).length = dp.size.toNat := by
  rw [Xv6.Fs.length_entries, length_content]
  have := hd.whole
  omega

/-- `readi` of entry `j` of a directory returns its 16 bytes. -/
theorem readi_entry (hd : DirOk sb s dp) {j : Nat} (hj : j < (entries (content s dp)).length) :
    readi sb dp (16 * j).toUInt32 16 s = .ok (16, ((content s dp).drop (16 * j)).take 16, dp, s) := by
  have hsize : dp.size.toNat ≤ 71680 := hd.ok.map.size_le
  have hlen := hd.length_entries
  have hoff := toNat_entryOff (show 16 * j ≤ MAXFILE * BSIZE by show 16 * j ≤ 71680; omega)
  have h16 : (16 : UInt32).toNat = 16 := rfl
  rw [readi_eq hd.ok, hoff, h16, if_neg (by omega), Nat.min_eq_left (by omega)]
  rfl

/-- **`dirlookup`'s loop** from entry `j`: the first used entry from `j` on that holds `name`. -/
theorem dirlookupFrom_eq (hd : DirOk sb s dp) (name : List UInt8) {fuel j : Nat}
    (hj : j ≤ (entries (content s dp)).length) (hfuel : (entries (content s dp)).length - j < fuel) :
    dirlookupFrom sb name fuel (16 * j).toUInt32 dp s =
      .ok (((((entries (content s dp)).drop j).zipIdx j).find? (·.1.Binds name)).map
        (fun p => (p.1.inum.toUInt32, (16 * p.2).toUInt32)), dp, s) := by
  induction fuel generalizing j with
  | zero => omega
  | succ fuel ih =>
    have hsize : dp.size.toNat ≤ 71680 := hd.ok.map.size_le
    have hlen := hd.length_entries
    have hoff := toNat_entryOff (show 16 * j ≤ MAXFILE * BSIZE by show 16 * j ≤ 71680; omega)
    rw [dirlookupFrom]
    by_cases hlt : j < (entries (content s dp)).length
    · rw [if_pos (by rw [UInt32.lt_iff_toNat_lt, hoff]; omega), readi_entry hd hlt, ok_bind]
      dsimp only
      rw [if_neg (by decide), ← getElem_entries _ hlt, entryOff_add, List.drop_eq_getElem_cons hlt,
        List.zipIdx_cons, List.find?_cons]
      -- a free entry and a used one with another name are skipped
      by_cases h0 : (entries (content s dp))[j].inum = 0
      · have hb : (entries (content s dp))[j].Binds name = false := by simp [Dirent.Binds, h0]
        rw [if_pos h0, ih (by omega) (by omega)]
        simp only [hb]
      · by_cases hk : key name = key (entries (content s dp))[j].name
        · have hb : (entries (content s dp))[j].Binds name = true :=
            ((entries (content s dp))[j].binds_iff name).mpr ⟨h0, hk.symm⟩
          rw [if_neg h0, if_pos ((namecmp_eq_zero_iff _ _).mpr hk)]
          simp only [hb]
          rfl
        · have hb : (entries (content s dp))[j].Binds name = false :=
            Bool.eq_false_iff.mpr fun h => hk (((entries (content s dp))[j].binds_iff name).mp h).2.symm
          rw [if_neg h0, if_neg (fun h => hk ((namecmp_eq_zero_iff _ _).mp h)), ih (by omega) (by omega)]
          simp only [hb]
    · rw [if_neg (by rw [UInt32.lt_iff_toNat_lt, hoff]; omega), List.drop_of_length_le (by omega)]
      rfl

/-- **`dirlookup`.** In a well-formed directory, `dirlookup` returns the first used entry that
holds `name` and changes nothing. -/
theorem dirlookup_eq (hd : DirOk sb s dp) (name : List UInt8) :
    dirlookup sb dp name s = .ok (lookup (entries (content s dp)) name, dp, s) := by
  have hlen := hd.length_entries
  rw [dirlookup, if_neg (by rw [hd.dir]; decide)]
  exact dirlookupFrom_eq hd name (Nat.zero_le _) (by omega)

end Loops

/-! ## `dirlink` -/

section Dirlink

variable {sb : Superblock} {s : FsState} {dp : Inode}

@[simp] theorem length_bytes (de : Dirent) : de.bytes.length = 2 + de.name.length := by
  simp [Dirent.bytes]

end Dirlink

end Xv6.Fs
