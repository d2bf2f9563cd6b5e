import Xv6.Fs.Alloc

/-!
# The block map of an inode

`Inode.blockOf` is the map `bmap` reads without allocating: file block `i` lives in
`ip->addrs[i]` below `NDIRECT`, in entry `i - NDIRECT` of the indirect block above, and
nowhere (`0`) past `MAXFILE` or while there is no indirect block. `MapOk` is what a well-formed
inode keeps of it: every block below the size is mapped, the mapped blocks and the indirect
block are distinct data blocks marked in the bitmap. Its lemmas are about the map as a function,
so that `bmap_sat` only has to say how `bmap` changes the map: at most one entry, to a block
`balloc` has just handed out.
-/

namespace Xv6.Fs

open FsLog Bytes CLoop

/-- `ip->addrs[NDIRECT]`, the indirect block. -/
def Inode.ind (ip : Inode) : UInt32 := ip.addrs (Fin.last NDIRECT)

/-- The block `bmap` finds for file block `i` without allocating, `0` if there is none. -/
def Inode.blockOf (s : FsState) (ip : Inode) (i : Nat) : UInt32 :=
  if h : i < NDIRECT then ip.addrs ⟨i, Nat.lt_succ_of_lt h⟩
  else if i - NDIRECT < NINDIRECT ∧ ip.ind ≠ 0 then
    (getLE (bread s ip.ind) (4 * (i - NDIRECT)) 4).toUInt32
  else 0

/-- The invariant of a block map `f` with indirect block `ind`, for a file of `size` bytes,
where `used` is the set of blocks the bitmap marks. -/
structure MapOk (sb : Superblock) (used : Nat → Prop) (size : Nat) (f : Nat → UInt32)
    (ind : UInt32) : Prop where
  size_le : size ≤ MAXFILE * BSIZE
  mapped : ∀ i, i * BSIZE < size → f i ≠ 0
  block : ∀ i, f i ≠ 0 → sb.dataStart ≤ (f i).toNat ∧ (f i).toNat < sb.size.toNat ∧ used (f i).toNat
  ind_block : ind ≠ 0 → sb.dataStart ≤ ind.toNat ∧ ind.toNat < sb.size.toNat ∧ used ind.toNat
  inj : ∀ i j, f i ≠ 0 → f i = f j → i = j
  ind_ne : ∀ i, f i ≠ 0 → f i ≠ ind
  beyond : ∀ i, MAXFILE ≤ i → f i = 0
  no_ind : ind = 0 → ∀ i, NDIRECT ≤ i → f i = 0

/-- A well-formed in-memory inode: its number names a dinode, and its block map is `MapOk`. -/
structure Inode.Ok (sb : Superblock) (s : FsState) (ip : Inode) : Prop where
  inum_lt : ip.inum.toNat < sb.ninodes.toNat
  map : MapOk sb (inUse sb s) ip.size.toNat (ip.blockOf s) ip.ind

/-! ## The map as `bmap` reads it -/

section BlockOf

variable (s : FsState) (ip : Inode)

theorem blockOf_of_lt {i : Nat} (hi : i < NDIRECT) :
    ip.blockOf s i = ip.addrs ⟨i, Nat.lt_succ_of_lt hi⟩ := by
  simp [Inode.blockOf, hi]

theorem blockOf_of_ge {i : Nat} (hi : NDIRECT ≤ i) (hk : i - NDIRECT < NINDIRECT) (hind : ip.ind ≠ 0) :
    ip.blockOf s i = (getLE (bread s ip.ind) (4 * (i - NDIRECT)) 4).toUInt32 := by
  simp [Inode.blockOf, hk, hind, show ¬i < NDIRECT by omega]

theorem blockOf_no_ind (hind : ip.ind = 0) {i : Nat} (hi : NDIRECT ≤ i) : ip.blockOf s i = 0 := by
  simp [Inode.blockOf, hind, show ¬i < NDIRECT by omega]

end BlockOf

/-! ## The invariant as a property of the map -/

section MapOk

variable {sb : Superblock} {used used' : Nat → Prop} {size : Nat} {f : Nat → UInt32} {ind : UInt32}

theorem MapOk.mono (h : MapOk sb used size f ind) (hu : ∀ x < sb.size.toNat, used x → used' x) :
    MapOk sb used' size f ind where
  size_le := h.size_le
  mapped := h.mapped
  block i hi := let ⟨h1, h2, h3⟩ := h.block i hi; ⟨h1, h2, hu _ h2 h3⟩
  ind_block hi := let ⟨h1, h2, h3⟩ := h.ind_block hi; ⟨h1, h2, hu _ h2 h3⟩
  inj := h.inj
  ind_ne := h.ind_ne
  beyond := h.beyond
  no_ind := h.no_ind

/-- A fresh block is none of the map's blocks. -/
theorem MapOk.ne_of_fresh (h : MapOk sb used size f ind) {a : UInt32} (ha : ¬used a.toNat)
    (ha0 : a ≠ 0) (i : Nat) : f i ≠ a := fun he => by
  by_cases hi : f i = 0
  · exact ha0 (he ▸ hi)
  · exact ha (he ▸ (h.block i hi).2.2)

theorem MapOk.ind_ne_of_fresh (h : MapOk sb used size f ind) {a : UInt32} (ha : ¬used a.toNat)
    (ha0 : a ≠ 0) : ind ≠ a := fun he => by
  by_cases hi : ind = 0
  · exact ha0 (he ▸ hi)
  · exact ha (he ▸ (h.ind_block hi).2.2)

/-- Mapping the unmapped file block `i` to a fresh block `a` that is now marked. -/
theorem MapOk.update (h : MapOk sb used size f ind) {i : Nat} {a : UInt32} (hi : i < MAXFILE)
    (hfi : f i = 0) (hind : NDIRECT ≤ i → ind ≠ 0) (ha0 : a ≠ 0)
    (ha : sb.dataStart ≤ a.toNat ∧ a.toNat < sb.size.toNat) (hfresh : ¬used a.toNat)
    (hu : ∀ x < sb.size.toNat, used x → used' x) (hu' : used' a.toNat) :
    MapOk sb used' size (Function.update f i a) ind := by
  have hne := h.ne_of_fresh hfresh ha0
  have h' := h.mono hu
  refine ⟨h.size_le, fun j hj => ?_, fun j hj => ?_, h'.ind_block, fun j k hj hjk => ?_, fun j hj => ?_,
    fun j hj => ?_, fun hz j hj => ?_⟩
  · by_cases hji : j = i
    · simp [hji, ha0]
    · simp [Function.update_of_ne hji, h.mapped j hj]
  · by_cases hji : j = i
    · subst hji
      simpa using ⟨ha.1, ha.2, hu'⟩
    · rw [Function.update_of_ne hji] at hj ⊢
      exact h'.block j hj
  · by_cases hji : j = i <;> by_cases hki : k = i
    · rw [hji, hki]
    · subst hji
      rw [Function.update_self, Function.update_of_ne hki] at hjk
      exact absurd hjk.symm (hne k)
    · subst hki
      rw [Function.update_self, Function.update_of_ne hji] at hjk
      exact absurd hjk (hne j)
    · rw [Function.update_of_ne hji, Function.update_of_ne hki] at hjk
      rw [Function.update_of_ne hji] at hj
      exact h.inj j k hj hjk
  · by_cases hji : j = i
    · subst hji
      rw [Function.update_self]
      exact (h.ind_ne_of_fresh hfresh ha0).symm
    · rw [Function.update_of_ne hji] at hj ⊢
      exact h.ind_ne j hj
  · have := fs_consts
    rw [Function.update_of_ne (by omega)]
    exact h.beyond j hj
  · have : j ≠ i := fun hji => hind (hji ▸ hj) hz
    rw [Function.update_of_ne this]
    exact h.no_ind hz j hj

end MapOk

/-! ## What `balloc` and `log_write` do to the bitmap and the map -/

section Effects

variable {sb : Superblock} {s s' : FsState} {a : UInt32} (hsb : sb.Ok)
include hsb

theorem Allocated.ne_zero (ha : Allocated sb s s' a) : a ≠ 0 := fun h => by
  have hdata := ha.data
  have : 1 ≤ sb.dataStart := le_trans (Nat.le_add_left 1 _) hsb.bitmap
  rw [h, UInt32.toNat_zero] at hdata
  omega

omit hsb in
theorem Allocated.inUse_mono (ha : Allocated sb s s' a) :
    ∀ x < sb.size.toNat, inUse sb s x → inUse sb s' x :=
  fun x hx h => (ha.inUse_iff x hx).mpr (.inl h)

theorem Allocated.marked (ha : Allocated sb s s' a) (hm : MetaInUse sb s) : MetaInUse sb s' :=
  fun b hb => ha.inUse_mono b (by have := hsb.dataStart_le; omega) (hm b hb)

end Effects

/-! ## `bmap` -/

section Bmap

variable {sb : Superblock} {s : FsState} {ip : Inode}

variable (hsb : sb.Ok) (hm : MetaInUse sb s) (hok : ip.Ok sb s)
include hsb hm hok

end Bmap

end Xv6.Fs
