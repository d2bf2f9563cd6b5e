import Xv6.Fs.Format
import Xv6.Lib.Pieces
import Xv6.Lib.CInt

/-!
# Blocks and inode content

`fs.c`'s block allocator and the content functions of an inode: `balloc` and `bzero`,
`bmap`, `iupdate`, `readi` and `writei`. All run inside a transaction: a block is read with
`bread` and written back with `log_write`, which can panic when the transaction outgrows the
log.

`readi` and `writei` are modelled for inodes that are not `T_DEV`: for a device both hand the
call to `devsw[ip->major]`, the console driver, which is outside this model. Their byte loops
are `CLoop.pieces`; past the checks that open both functions, `off + n` does not wrap, so the
`uint` counters of the loops are exact and are `Nat` here. `readi` returns the bytes it copies
to `dst`; `writei` reads `src` as a list.
-/

namespace Xv6.Fs

open FsLog Bytes CLoop CInt

/-- `bzero(dev, bno)`. -/
def bzero (bno : UInt32) (s : FsState) : Except String FsState := logWrite bno.toNat (fun _ => 0) s

/-- The inner loop of `balloc` over the bitmap block `data` of the blocks from `b`:
`for(; bi < BPB && b + bi < sb.size; bi++) if((data[bi/8] & m) == 0) …`, with at most `fuel`
runs: the first `bi` whose bit is clear. -/
def freeBit (data : Block) (b : Nat) (size : UInt32) : Nat → Nat → Option Nat
  | 0, _ => none
  | fuel + 1, bi =>
    if bi < BPB ∧ b + bi < size.toNat then
      if bitClear (get data (bi / 8)) (bi % 8) then some bi else freeBit data b size fuel (bi + 1)
    else none

/-- The outer loop of `balloc`, `for(; b < sb.size; b += BPB)`, with at most `fuel` runs. -/
def ballocFrom (sb : Superblock) : Nat → Nat → FsState → Except String (UInt32 × FsState)
  | 0, _, _ => .error "balloc: out of blocks"
  | fuel + 1, b, s =>
    if b < sb.size.toNat then
      let bp := BBLOCK b sb
      let data := bread s bp
      match freeBit data b sb.size BPB 0 with
      | some bi => do
        -- `bp->data[bi/8] |= m; log_write(bp); brelse(bp); bzero(dev, b + bi);`
        let s ← logWrite bp.toNat (write data (bi / 8) [setBit (get data (bi / 8)) (bi % 8)]) s
        let s ← bzero (b + bi).toUInt32 s
        pure ((b + bi).toUInt32, s)
      | none => ballocFrom sb fuel (b + BPB) s
    else .error "balloc: out of blocks"

/-- `balloc(dev)`: the outer loop runs at most `sb.size / BPB + 1` times. -/
def balloc (sb : Superblock) (s : FsState) : Except String (UInt32 × FsState) :=
  ballocFrom sb (sb.size.toNat / BPB + 1) 0 s

/-- `bmap(ip, bn)`: the block holding file block `bn`, allocated if there is none. -/
def bmap (sb : Superblock) (ip : Inode) (bn : Nat) (s : FsState) :
    Except String (UInt32 × Inode × FsState) :=
  if h : bn < NDIRECT then
    let k : Fin (NDIRECT + 1) := ⟨bn, by omega⟩
    if ip.addrs k = 0 then do
      let (addr, s) ← balloc sb s
      pure (addr, ip.setAddr k addr, s)
    else pure (ip.addrs k, ip, s)
  else if bn - NDIRECT < NINDIRECT then do
    -- load the indirect block, allocating it if necessary
    let (ind, ip, s) ← if ip.addrs (Fin.last NDIRECT) = 0 then do
        let (addr, s) ← balloc sb s
        pure (addr, ip.setAddr (Fin.last NDIRECT) addr, s)
      else pure (ip.addrs (Fin.last NDIRECT), ip, s)
    let k := bn - NDIRECT
    let addr := (getLE (bread s ind) (4 * k) 4).toUInt32
    if addr = 0 then do
      let (addr, s) ← balloc sb s
      -- `a[bn] = addr` in the indirect block's buffer as it is now, then `log_write(bp)`
      let s ← logWrite ind.toNat (setLE (bread s ind) (4 * k) 4 addr.toNat) s
      pure (addr, ip, s)
    else pure (addr, ip, s)
  else .error "bmap: out of range"

/-- One run of `readi`'s loop: `bp = bread(ip->dev, bmap(ip, off/BSIZE));
memmove(dst, bp->data + off%BSIZE, m);`, with `dst` the bytes copied so far. -/
def readiPiece (sb : Superblock) (_tot off m : Nat) (x : List UInt8 × Inode × FsState) :
    Except String (List UInt8 × Inode × FsState) := do
  let (dst, ip, s) := x
  let (addr, ip, s) ← bmap sb ip (off / BSIZE) s
  pure (dst ++ read (bread s addr) (off % BSIZE) m, ip, s)

/-- `readi(ip, dst, off, n)`: the result and the bytes copied to `dst`. -/
def readi (sb : Superblock) (ip : Inode) (off n : UInt32) (s : FsState) :
    Except String (Int × List UInt8 × Inode × FsState) :=
  if off > ip.size ∨ off + n < off then .ok (-1, [], ip, s)
  else
    let n := if off + n > ip.size then ip.size - off else n
    do
      let (_, dst, ip, s) ← pieces BSIZE (readiPiece sb) n.toNat off.toNat n.toNat 0 ([], ip, s)
      pure (sint n, dst, ip, s)

end Xv6.Fs
