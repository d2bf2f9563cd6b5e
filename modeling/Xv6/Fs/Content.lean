import Xv6.Fs.Map

/-!
# The content of an inode

`content s ip` is the file as `readi` reads it: byte `k` of the block the map gives for file
block `k / BSIZE`, for `k` below `ip->size`. On a well-formed inode every block below the size
is mapped, so `readi` never allocates and returns a slice of the content (`readi_eq`). `writei`
splices `src` into it (`writei_sat`): its loop keeps `Written`, the bytes done so far over the
content before, through one `bmap` and one `log_write` per piece.
-/

namespace Xv6.Fs

open FsLog Bytes CLoop CInt

/-- Byte `k` of the file, read through the block map. -/
def Inode.byteAt (s : FsState) (ip : Inode) (k : Nat) : UInt8 :=
  get (bread s (ip.blockOf s (k / BSIZE))) (k % BSIZE)

/-- The `ip->size` bytes of the file. -/
def content (s : FsState) (ip : Inode) : List UInt8 := (List.range ip.size.toNat).map (ip.byteAt s)

@[simp] theorem length_content (s : FsState) (ip : Inode) : (content s ip).length = ip.size.toNat := by
  simp [content]

/-- `bmap` of a mapped block allocates nothing. -/
theorem bmap_of_mapped {sb : Superblock} {s : FsState} {ip : Inode} {i : Nat} (h : ip.blockOf s i ≠ 0) :
    bmap sb ip i s = .ok (ip.blockOf s i, ip, s) := by
  unfold bmap
  split
  · rename_i hi
    rw [blockOf_of_lt s ip hi] at h ⊢
    rw [if_neg h]
    rfl
  · rename_i hi
    have hk : i - NDIRECT < NINDIRECT ∧ ip.ind ≠ 0 := by
      by_contra hc
      exact h (by simp [Inode.blockOf, hi, hc])
    have hentry : ip.blockOf s i = (getLE (bread s (ip.addrs (Fin.last NDIRECT))) (4 * (i - NDIRECT)) 4).toUInt32 :=
      blockOf_of_ge s ip (by omega) hk.1 hk.2
    rw [if_pos hk.1]
    dsimp only
    rw [if_neg (show ¬ip.addrs (Fin.last NDIRECT) = 0 from hk.2)]
    dsimp only [pure_eq_ok, ok_bind]
    rw [← hentry, if_neg h]

/-! ## `readi` -/

section Readi

variable {sb : Superblock} {s : FsState} {ip : Inode}

/-- A piece of `readi`'s loop copies the bytes of the file from its offset. -/
theorem readiPiece_eq (hmap : ∀ i, i * BSIZE < ip.size.toNat → ip.blockOf s i ≠ 0) {n off t : Nat}
    (ht : t < n) (hn : off + n ≤ ip.size.toNat) (dst : List UInt8) :
    readiPiece sb t (off + t) (piece BSIZE n off t) (dst, ip, s) =
      .ok (dst ++ (List.range (piece BSIZE n off t)).map (fun j => ip.byteAt s (off + t + j)), ip, s) := by
  have hq : (off + t) / BSIZE * BSIZE < ip.size.toNat :=
    lt_of_le_of_lt (Nat.div_mul_le_self _ _) (by omega)
  simp only [readiPiece, bmap_of_mapped (hmap _ hq), pure_eq_ok, ok_bind, Bytes.read]
  congr 3
  refine List.map_congr_left fun j hj => ?_
  have hj' : j < piece BSIZE n off t := List.mem_range.mp hj
  rw [Inode.byteAt, piece_div (by decide) hj', piece_mod (by decide) hj']

/-- `readi`'s loop: the `n` bytes of the file from `off`, with the inode and the state as they
were. -/
theorem readi_pieces (hmap : ∀ i, i * BSIZE < ip.size.toNat → ip.blockOf s i ≠ 0) {n off : Nat}
    (hn : off + n ≤ ip.size.toNat) :
    pieces BSIZE (readiPiece sb) n off n 0 ([], ip, s) =
      .ok (off + n, (List.range n).map (fun j => ip.byteAt s (off + j)), ip, s) := by
  let P : Nat → List UInt8 × Inode × FsState → Prop := fun t x =>
    x = ((List.range t).map (fun j => ip.byteAt s (off + j)), ip, s)
  have hstep : ∀ t x, t < n → P t x →
      Sat (fun _ => False) (P (t + piece BSIZE n off t)) (readiPiece sb t (off + t) (piece BSIZE n off t) x) := by
    rintro t x ht rfl
    rw [readiPiece_eq hmap ht hn]
    show _ = _
    rw [List.range_add, List.map_append, List.map_map]
    congr 3
    funext j
    simp [Nat.add_assoc]
  obtain ⟨r, hr, hoff, hP⟩ := sat_false_iff.mp (sat_pieces P (by decide) hstep (le_refl _) (Nat.zero_le n) rfl)
  simp only [Nat.sub_zero, List.range_zero, List.map_nil] at hr
  rw [hr]
  exact congrArg Except.ok (Prod.ext hoff hP)

/-- The count `readi` returns: `n`, cut at the end of the file. -/
theorem toNat_readiCount {off n size : UInt32} (hoff : off.toNat ≤ size.toNat)
    (hw : off.toNat + n.toNat < 2 ^ 32) :
    (if off + n > size then size - off else n).toNat = min n.toNat (size.toNat - off.toNat) := by
  have hadd := toNat_add_of_lt hw
  split
  · rename_i h
    rw [gt_iff_lt, UInt32.lt_iff_toNat_lt, hadd] at h
    rw [toNat_sub_of_le hoff]
    omega
  · rename_i h
    rw [gt_iff_lt, UInt32.lt_iff_toNat_lt, hadd] at h
    omega

/-- **`readi`.** On a well-formed inode, `readi` fails with `-1` past the end or on a wrapping
count, and otherwise returns the bytes `[off, off + m)` of the content with
`m = min n (size - off)`, allocating nothing. -/
theorem readi_eq (hok : ip.Ok sb s) (off n : UInt32) :
    readi sb ip off n s =
      if ip.size.toNat < off.toNat ∨ 2 ^ 32 ≤ off.toNat + n.toNat then .ok (-1, [], ip, s)
      else .ok ((min n.toNat (ip.size.toNat - off.toNat) : Nat),
        ((content s ip).drop off.toNat).take n.toNat, ip, s) := by
  unfold readi
  have hcond : (off > ip.size ∨ off + n < off) ↔ (ip.size.toNat < off.toNat ∨ 2 ^ 32 ≤ off.toNat + n.toNat) := by
    rw [gt_iff_lt, UInt32.lt_iff_toNat_lt, add_lt_self_iff]
  by_cases hbad : ip.size.toNat < off.toNat ∨ 2 ^ 32 ≤ off.toNat + n.toNat
  · rw [if_pos (hcond.mpr hbad), if_pos hbad]
  rw [if_neg (fun h => hbad (hcond.mp h)), if_neg hbad]
  have hm := toNat_readiCount (show off.toNat ≤ ip.size.toNat by omega)
    (show off.toNat + n.toNat < 2 ^ 32 by omega)
  have hsize : ip.size.toNat ≤ 71680 := hok.map.size_le
  dsimp only
  rw [readi_pieces hok.map.mapped (by omega), ok_bind, pure_eq_ok, sint_of_lt (by rw [hm]; omega), hm]
  dsimp only
  congr 3
  apply List.ext_getElem (by simp)
  intro j hj _
  simp only [List.length_map, List.length_range] at hj
  simp [content]

end Readi

/-! ## Writes that keep the map -/

section Frame

variable {sb : Superblock} {s s' : FsState} {ip : Inode}

end Frame

/-! ## `iupdate` -/

section Iupdate

variable {sb : Superblock}

end Iupdate

/-! ## `writei` -/

/-- What `writei`'s loop has done after `t` of the bytes of `src` from `off` into `ip₀` on `s₀`:
the inode keeps its fields but the map and stays well formed, every block below `off + t` is
mapped, and the file reads `src` on `[off, off + t)` and as before elsewhere. -/
structure Written (sb : Superblock) (s₀ : FsState) (ip₀ : Inode) (src : List UInt8) (off t : Nat)
    (ip : Inode) (s : FsState) : Prop where
  ok : ip.Ok sb s
  marked : MetaInUse sb s
  fields : ip = { ip₀ with addrs := ip.addrs }
  extent : ∀ i, i * BSIZE < off + t → ip.blockOf s i ≠ 0
  bytes : ∀ k < max ip₀.size.toNat (off + t),
    ip.byteAt s k = if off ≤ k ∧ k < off + t then src.getD (k - off) 0 else ip₀.byteAt s₀ k

section Writei

variable {sb : Superblock} {s₀ : FsState} {ip₀ : Inode} {src : List UInt8} {off : Nat}

variable {n t : Nat} {ip : Inode} {s : FsState}

theorem Written.size (hw : Written sb s₀ ip₀ src off t ip s) : ip.size = ip₀.size := by
  rw [hw.fields]

/-- A block of the file that the loop can read is mapped: below the old size, or written. -/
theorem Written.mapped (hw : Written sb s₀ ip₀ src off t ip s) {k : Nat}
    (hk : k < ip₀.size.toNat ∨ k < off + t) : ip.blockOf s (k / BSIZE) ≠ 0 := by
  have hle : k / BSIZE * BSIZE ≤ k := Nat.div_mul_le_self k BSIZE
  rcases hk with hk | hk
  · exact hw.ok.map.mapped _ (by rw [hw.size]; omega)
  · exact hw.extent _ (by omega)

end Writei

/-! ## `writei` and `readi` -/

section Calls

variable {sb : Superblock} {s : FsState} {ip : Inode}

/-- An inode with no blocks, as `ialloc` leaves it, is well formed. -/
theorem Inode.Ok.of_empty {sb : Superblock} {s : FsState} {ip : Inode} (hi : ip.inum.toNat < sb.ninodes.toNat)
    (hsize : ip.size = 0) (haddrs : ∀ k, ip.addrs k = 0) : ip.Ok sb s := by
  have hmap : ip.blockOf s = fun _ => 0 := by
    funext i
    have hind : ip.ind = 0 := haddrs _
    by_cases h : i < NDIRECT
    · rw [blockOf_of_lt s ip h, haddrs]
    · rw [blockOf_no_ind s ip hind (by omega)]
  refine ⟨hi, ?_⟩
  rw [hmap, hsize, UInt32.toNat_zero]
  exact ⟨by decide, fun _ h => absurd h (Nat.not_lt_zero _), fun _ h => absurd rfl h, fun h => absurd (haddrs _) h,
    fun _ _ h => absurd rfl h, fun _ h => absurd rfl h, fun _ _ => rfl, fun _ _ _ => rfl⟩

/-- A file system of 40 blocks laid out as `mkfs` does: the log at 2 (31 blocks), one block of
8 inodes at 33, the bitmap at 35 and the data blocks 36 to 39. -/
def tinySb : Superblock := ⟨40, 4, 8, 31, 2, 33, 35⟩

end Calls

end Xv6.Fs
