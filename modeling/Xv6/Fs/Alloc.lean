import Xv6.Fs.Inode
import Xv6.Log.Crash

/-!
# The block allocator

What `balloc` does on a file system whose superblock is well formed (`Superblock.Ok`: the
inode blocks, then the bitmap, then the data blocks) and whose bitmap marks every block below
the data area (`MetaInUse`). It either panics (out of blocks, or `log_write` on a full log) or
hands out a data block that was free, zeroed and now marked (`Allocated`), leaving every other
block but the bitmap block as it was.
-/

namespace Xv6.Fs

open FsLog Bytes CLoop

/-- The first data block: below it lie the boot block, the superblock, the log, the inode
blocks and the bitmap. -/
def Superblock.dataStart (sb : Superblock) : Nat := sb.size.toNat - sb.nblocks.toNat

/-- The layout `mkfs` writes: the inode blocks below the bitmap, the bitmap below the data
blocks, all of it far from the `uint` limit. -/
structure Superblock.Ok (sb : Superblock) : Prop where
  size_lt : sb.size.toNat < 2 ^ 31
  nblocks_le : sb.nblocks.toNat ≤ sb.size.toNat
  inodes : sb.inodestart.toNat + sb.ninodes.toNat / IPB + 1 ≤ sb.bmapstart.toNat
  bitmap : sb.bmapstart.toNat + sb.size.toNat / BPB + 1 ≤ sb.dataStart

/-- Block `b` is marked in use in the bitmap. -/
def inUse (sb : Superblock) (s : FsState) (b : Nat) : Prop := bit (bread s (BBLOCK b sb)) (b % BPB) = true

instance (sb : Superblock) (s : FsState) (b : Nat) : Decidable (inUse sb s b) :=
  inferInstanceAs (Decidable (_ = true))

/-- Every block below the data area is marked, so that `balloc` never hands one out. -/
def MetaInUse (sb : Superblock) (s : FsState) : Prop := ∀ b < sb.dataStart, inUse sb s b

theorem Superblock.Ok.dataStart_le {sb : Superblock} (hsb : sb.Ok) : sb.dataStart ≤ sb.size.toNat := by
  have := hsb.nblocks_le
  simp only [Superblock.dataStart]
  omega

section Layout

variable {sb : Superblock} (hsb : sb.Ok)
include hsb

end Layout

/-- What `balloc` leaves: a data block that was free, now zeroed and marked, and every other
block as it was but for the bitmap block. -/
structure Allocated (sb : Superblock) (s s' : FsState) (a : UInt32) : Prop where
  data : sb.dataStart ≤ a.toNat
  lt_size : a.toNat < sb.size.toNat
  free : ¬inUse sb s a.toNat
  zero : bread s' a = fun _ => 0
  frame : ∀ c : UInt32, c ≠ a → c ≠ BBLOCK a.toNat sb → bread s' c = bread s c
  inUse_iff : ∀ x < sb.size.toNat, inUse sb s' x ↔ inUse sb s x ∨ x = a.toNat

section Balloc

variable {sb : Superblock} {s : FsState} (hsb : sb.Ok) (hm : MetaInUse sb s)
include hsb hm

end Balloc

end Xv6.Fs
