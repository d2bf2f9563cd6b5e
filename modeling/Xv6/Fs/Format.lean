import Xv6.Lib.Bytes
import Xv6.Log.Basic

/-!
# The on-disk format

`fs.h`: blocks of `BSIZE` bytes, the superblock, `struct dinode` (64 bytes, `IPB` to a block)
and `struct dirent` (16 bytes). The kernel reads and writes blocks through the buffer cache
inside a log transaction, so a block reads as the transaction sees it: the buffer the log has
pinned, or the disk (`bread`, over `FsLog.LogSys`), and a write is a `log_write`.

`Inode` is the in-memory copy of a dinode (`struct inode` without the cache's `ref`, `lock`
and `valid`). `Inode.dinode` is the byte image `iupdate` copies into its slot and
`Inode.load` the copy `ilock` makes back.
-/

namespace Xv6.Fs

open FsLog Bytes

/-- `BSIZE`. -/
abbrev BSIZE : Nat := 512

/-- `NDIRECT`. -/
abbrev NDIRECT : Nat := 12

/-- `NINDIRECT`, `BSIZE / sizeof(uint)`. -/
abbrev NINDIRECT : Nat := BSIZE / 4

/-- `MAXFILE`. -/
abbrev MAXFILE : Nat := NDIRECT + NINDIRECT

/-- `IPB`, `BSIZE / sizeof(struct dinode)`. -/
abbrev IPB : Nat := BSIZE / 64

/-- `BPB`. -/
abbrev BPB : Nat := BSIZE * 8

/-- `DIRSIZ`. -/
abbrev DIRSIZ : Nat := 14

/-- `ROOTINO`. -/
abbrev ROOTINO : UInt32 := 1

/-- `T_DIR`. -/
abbrev T_DIR : Int16 := 1

/-- `T_DEV`. -/
abbrev T_DEV : Int16 := 3

/-- The values of the constants, for `omega`. -/
theorem fs_consts : BSIZE = 512 ∧ NDIRECT = 12 ∧ NINDIRECT = 128 ∧ MAXFILE = 140 ∧ IPB = 8 ∧
    BPB = 4096 ∧ DIRSIZ = 14 :=
  ⟨rfl, rfl, rfl, rfl, rfl, rfl, rfl⟩

/-- A disk block. -/
abbrev Block := Fin BSIZE → UInt8

/-- The disk with the log's pinned buffers, as a transaction sees it. -/
abbrev FsState := LogSys Block

/-- `bread(dev, b)->data`. -/
def bread (s : FsState) (b : UInt32) : Block := s.read s.disk b.toNat

/-- `struct superblock`. -/
structure Superblock where
  size : UInt32
  nblocks : UInt32
  ninodes : UInt32
  nlog : UInt32
  logstart : UInt32
  inodestart : UInt32
  bmapstart : UInt32
  deriving DecidableEq, Repr

/-- `IBLOCK(i, sb)`. -/
def IBLOCK (i : UInt32) (sb : Superblock) : UInt32 := i / IPB.toUInt32 + sb.inodestart

/-- `BBLOCK(b, sb)`, for the `int` block number `b` of `balloc`'s loop. -/
def BBLOCK (b : Nat) (sb : Superblock) : UInt32 := (b / BPB).toUInt32 + sb.bmapstart

/-- `struct inode` without the cache's bookkeeping: the copy of the dinode fields. -/
structure Inode where
  dev : UInt32
  inum : UInt32
  type : Int16
  major : Int16
  minor : Int16
  nlink : Int16
  size : UInt32
  addrs : Fin (NDIRECT + 1) → UInt32

/-- `ip->addrs[k] = a`. -/
def Inode.setAddr (ip : Inode) (k : Fin (NDIRECT + 1)) (a : UInt32) : Inode :=
  { ip with addrs := Function.update ip.addrs k a }

@[simp] theorem Inode.setAddr_size (ip : Inode) (k : Fin (NDIRECT + 1)) (a : UInt32) :
    (ip.setAddr k a).size = ip.size := rfl

@[simp] theorem Inode.setAddr_inum (ip : Inode) (k : Fin (NDIRECT + 1)) (a : UInt32) :
    (ip.setAddr k a).inum = ip.inum := rfl

@[simp] theorem Inode.setAddr_type (ip : Inode) (k : Fin (NDIRECT + 1)) (a : UInt32) :
    (ip.setAddr k a).type = ip.type := rfl

/-- The offset of dinode `inum % IPB` in its block. -/
def Inode.slot (ip : Inode) : Nat := ip.inum.toNat % IPB * 64

/-- The 64 bytes of `struct dinode`: `type`, `major`, `minor`, `nlink`, `size`, `addrs`. -/
def Inode.dinode (ip : Inode) : List UInt8 :=
  le 2 ip.type.toUInt16.toNat ++ le 2 ip.major.toUInt16.toNat ++ le 2 ip.minor.toUInt16.toNat ++
    le 2 ip.nlink.toUInt16.toNat ++ le 4 ip.size.toNat ++
      (List.ofFn ip.addrs).flatMap fun a => le 4 a.toNat

/-- A `short` field of a dinode. -/
def short (blk : Block) (o : Nat) : Int16 := (getLE blk o 2).toUInt16.toInt16

/-- `ilock`'s copy of the dinode in `ip`'s slot of `blk` into the in-memory fields. -/
def Inode.load (ip : Inode) (blk : Block) : Inode :=
  let o := ip.slot
  { ip with
    type := short blk o
    major := short blk (o + 2)
    minor := short blk (o + 4)
    nlink := short blk (o + 6)
    size := (getLE blk (o + 8) 4).toUInt32
    addrs := fun k => (getLE blk (o + 12 + 4 * k.val) 4).toUInt32 }

/-- `struct dirent`: `name` holds the `DIRSIZ` bytes of the field. -/
structure Dirent where
  inum : UInt16
  name : List UInt8
  deriving DecidableEq, Repr

/-- The `struct dirent` in 16 bytes read by `readi`. -/
def Dirent.ofBytes (bs : List UInt8) : Dirent := ⟨(readLE (bs.take 2)).toUInt16, (bs.drop 2).take DIRSIZ⟩

/-- The 16 bytes of a `struct dirent` whose name has `DIRSIZ` bytes. -/
def Dirent.bytes (de : Dirent) : List UInt8 := le 2 de.inum.toNat ++ de.name

@[simp] theorem length_dinode (ip : Inode) : ip.dinode.length = 64 := by
  simp [Inode.dinode]

theorem slot_add_le (ip : Inode) : ip.slot + 64 ≤ BSIZE := by
  have := Nat.mod_lt ip.inum.toNat (show 0 < 8 by decide)
  show ip.inum.toNat % 8 * 64 + 64 ≤ 512
  omega

end Xv6.Fs
