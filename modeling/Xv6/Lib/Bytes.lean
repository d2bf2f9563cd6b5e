import Mathlib

/-!
# Blocks of bytes

A block of `N` bytes is a function `Fin N → UInt8`. `read` copies a run of bytes out of it
and `write` copies a list into it, the two directions of `memmove`; offsets past the end read
as `0` and are not written. A little-endian word is a run of bytes: `le k n` encodes `n` in
`k` bytes and `readLE` decodes them, so `getLE`/`setLE` inherit the frame lemmas of
`read`/`write`. Bit `i` of a byte is tested and set the way C does it, with the mask
`1 << i`.
-/

namespace Bytes

variable {N : Nat}

/-- The byte at offset `k`, `0` past the end. -/
def get (d : Fin N → UInt8) (k : Nat) : UInt8 := if h : k < N then d ⟨k, h⟩ else 0

/-- The `n` bytes from offset `o` on. -/
def read (d : Fin N → UInt8) (o n : Nat) : List UInt8 := (List.range n).map fun j => get d (o + j)

/-- `bs` copied in at offset `o`; what falls past the end is dropped. -/
def write (d : Fin N → UInt8) (o : Nat) (bs : List UInt8) : Fin N → UInt8 :=
  fun i => if o ≤ i.val ∧ i.val < o + bs.length then bs.getD (i.val - o) 0 else d i

/-- The `k` little-endian bytes of `n`, cut to `k` bytes. -/
def le : Nat → Nat → List UInt8
  | 0, _ => []
  | k + 1, n => UInt8.ofNat n :: le k (n / 256)

/-- The number whose little-endian bytes are `bs`. -/
def readLE : List UInt8 → Nat
  | [] => 0
  | b :: bs => b.toNat + 256 * readLE bs

/-- The `k`-byte little-endian word at offset `o`. -/
def getLE (d : Fin N → UInt8) (o k : Nat) : Nat := readLE (read d o k)

/-- The `k`-byte little-endian word `n` stored at offset `o`. -/
def setLE (d : Fin N → UInt8) (o k n : Nat) : Fin N → UInt8 := write d o (le k n)

/-! ## Runs of bytes -/

section Runs

variable (d : Fin N → UInt8)

@[simp] theorem length_read (o n : Nat) : (read d o n).length = n := by simp [read]

theorem read_add (o m n : Nat) : read d o (m + n) = read d o m ++ read d (o + m) n := by
  simp only [read, List.range_add, List.map_append, List.map_map]
  congr 1
  exact List.map_congr_left fun j _ => by simp [Nat.add_assoc]

theorem read_congr {d' : Fin N → UInt8} {o n : Nat} (h : ∀ j < n, get d (o + j) = get d' (o + j)) :
    read d o n = read d' o n :=
  List.map_congr_left fun j hj => h j (List.mem_range.mp hj)

theorem get_write (o : Nat) (bs : List UInt8) {k : Nat} (hk : k < N) :
    get (write d o bs) k = if o ≤ k ∧ k < o + bs.length then bs.getD (k - o) 0 else get d k := by
  simp [get, write, hk]

/-- Outside the run written, the block reads as before (past the end both read `0`). -/
theorem get_write_of_not_mem (o : Nat) (bs : List UInt8) {k : Nat}
    (h : ¬(o ≤ k ∧ k < o + bs.length)) : get (write d o bs) k = get d k := by
  by_cases hk : k < N
  · rw [get_write d o bs hk, if_neg h]
  · simp [get, hk]

theorem read_write_of_disjoint {o o' n : Nat} {bs : List UInt8}
    (h : o' + n ≤ o ∨ o + bs.length ≤ o') : read (write d o bs) o' n = read d o' n :=
  read_congr _ fun j hj => get_write_of_not_mem d o bs (by omega)

end Runs

@[simp] theorem length_le (k n : Nat) : (le k n).length = k := by
  induction k generalizing n <;> simp [le, *]

theorem readLE_lt (bs : List UInt8) : readLE bs < 256 ^ bs.length := by
  induction bs with
  | nil => simp [readLE]
  | cons b bs ih =>
    have := b.toNat_lt
    simp only [readLE, List.length_cons, Nat.pow_succ]
    omega

section Words

variable (d : Fin N → UInt8)

theorem getLE_lt (o k : Nat) : getLE d o k < 256 ^ k := by
  have := readLE_lt (read d o k)
  rwa [length_read] at this

/-- A word stored elsewhere leaves a run of bytes as it was. -/
theorem read_setLE_of_disjoint {o o' k n m : Nat} (h : o' + m ≤ o ∨ o + k ≤ o') :
    read (setLE d o k n) o' m = read d o' m :=
  read_write_of_disjoint d (by simpa using h)

end Words

/-! ## Bits of a byte -/

/-- `(x & (1 << i)) == 0`. -/
def bitClear (x : UInt8) (i : Nat) : Bool := x &&& (1 <<< i.toUInt8) == 0

/-- `x | (1 << i)`. -/
def setBit (x : UInt8) (i : Nat) : UInt8 := x ||| (1 <<< i.toUInt8)

section Bitmap

variable (d : Fin N → UInt8)

/-- Bit `j` of a block read as a bitmap: bit `j % 8` of byte `j / 8`. -/
def bit (j : Nat) : Bool := (get d (j / 8)).toNat.testBit (j % 8)

end Bitmap

end Bytes
