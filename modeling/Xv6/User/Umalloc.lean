import Mathlib

/-!
# The user allocator

`umalloc.c` is Kernighan and Ritchie's allocator: a circular free list of blocks, each starting
with a `Header` (the next free block and the size in units of `sizeof(Header)` = 8 bytes),
threaded through the heap from the static `base`. `malloc` takes the first block that fits from
`freep` on and cuts the request from its tail, calling `morecore` to grow the heap with `sbrk`
when it has gone round once; `free` puts a block back in address order and joins it with both
neighbours.

`malloc(nbytes)` asks for `(nbytes + sizeof(Header) - 1)/sizeof(Header) + 1` units in 32-bit
arithmetic. Below `2^32 - 7` bytes that is enough (`nunitsOf_sufficient`), but from there the sum
wraps to a single unit, a header with no room at all: `malloc(0xFFFFFFF9)` returns a non-null
pointer to a block of 0 usable bytes (`malloc_huge_request_gets_header_only`).

The heap is a map from addresses to headers; the process size and the effect of `sbrk` on it are
a parameter, the kernel's answer to each request.
-/

namespace Xv6.Umalloc

/-- `union header`: the next block of the free list and the size of this one, in units. -/
structure Header where
  ptr : Nat
  size : UInt32

/-- `sizeof(Header)`. -/
abbrev HDR : Nat := 8

/-- What the allocator reads and writes: the header at each address, `freep` (`0` before the first
call), and the process size that `sbrk` moves. -/
structure Heap where
  hdr : Nat → Header
  freep : Nat
  sz : Nat

/-- A header written at `a`. -/
def Heap.set (h : Heap) (a : Nat) (x : Header) : Heap :=
  { h with hdr := fun b => if b = a then x else h.hdr b }

@[simp] theorem Heap.set_hdr (h : Heap) (a b : Nat) (x : Header) :
    (h.set a x).hdr b = if b = a then x else h.hdr b := rfl

@[simp] theorem Heap.set_freep (h : Heap) (a : Nat) (x : Header) : (h.set a x).freep = h.freep :=
  rfl

@[simp] theorem Heap.set_sz (h : Heap) (a : Nat) (x : Header) : (h.set a x).sz = h.sz := rfl

section Allocator

-- The kernel's answer to `sbrk(n)` at process size `sz`: the new size, or `none` for `-1`;
-- `sbrk` returns the old size on success. And the address of the static `base`.
variable (sbrk : Int32 → Nat → Option Nat) (base : Nat)

/-- `free`'s search, from `p` with `fuel` steps left: the free block after which `bp` goes, the
last one below it, or the one at the wrap of the list when `bp` lies beyond either end. -/
def freeFind (h : Heap) (bp : Nat) : Nat → Nat → Nat
  | 0, p => p
  | fuel + 1, p =>
    let q := (h.hdr p).ptr
    if bp > p ∧ bp < q then p
    else if p ≥ q ∧ (bp > p ∨ bp < q) then p
    else freeFind h bp fuel q

/-- `free(ap)`. -/
def free (fuel : Nat) (h : Heap) (ap : Nat) : Heap :=
  let bp := ap - HDR
  let p := freeFind h bp fuel h.freep
  let q := (h.hdr p).ptr
  -- join the block above
  let h :=
    if bp + HDR * (h.hdr bp).size.toNat = q then
      h.set bp ⟨(h.hdr q).ptr, (h.hdr bp).size + (h.hdr q).size⟩
    else h.set bp ⟨q, (h.hdr bp).size⟩
  -- join the block below
  let h :=
    if p + HDR * (h.hdr p).size.toNat = bp then
      h.set p ⟨(h.hdr bp).ptr, (h.hdr p).size + (h.hdr bp).size⟩
    else h.set p ⟨bp, (h.hdr p).size⟩
  { h with freep := p }

/-- `morecore(nu)`: `freep` after the new memory is freed into the list, or `0`. The byte count
`nu * sizeof(Header)` is a `uint`, passed to `sbrk` as an `int`. -/
def morecore (fuel : Nat) (h : Heap) (nu : UInt32) : Nat × Heap :=
  let nu := if nu < 4096 then 4096 else nu
  match sbrk (nu * 8).toInt32 h.sz with
  | none => (0, h)
  | some sz =>
    let p := h.sz
    let h := { h with sz := sz }
    let h := h.set p ⟨(h.hdr p).ptr, nu⟩
    let h := free fuel h (p + HDR)
    (h.freep, h)

/-- The `for` loop of `malloc`, at `prevp` and `p`, with `rounds` left (and `fuel` steps for each
search of `free`): the pointer returned (`0` when `morecore` fails) and the heap, or `none` when
the rounds run out. -/
def mallocLoop (fuel : Nat) (nunits : UInt32) : Nat → Nat → Nat → Heap → Option (Nat × Heap)
  | 0, _, _, _ => none
  | rounds + 1, prevp, p, h =>
    if (h.hdr p).size ≥ nunits then
      if (h.hdr p).size = nunits then
        let h := h.set prevp ⟨(h.hdr p).ptr, (h.hdr prevp).size⟩
        some (p + HDR, { h with freep := prevp })
      else
        -- cut the request from the tail of the block
        let h := h.set p ⟨(h.hdr p).ptr, (h.hdr p).size - nunits⟩
        let p := p + HDR * (h.hdr p).size.toNat
        let h := h.set p ⟨(h.hdr p).ptr, nunits⟩
        some (p + HDR, { h with freep := prevp })
    else if p = h.freep then
      match morecore sbrk fuel h nunits with
      | (0, h) => some (0, h)
      | (p, h) => mallocLoop fuel nunits rounds p (h.hdr p).ptr h
    else mallocLoop fuel nunits rounds p (h.hdr p).ptr h

/-- `(nbytes + sizeof(Header) - 1)/sizeof(Header) + 1`, in `uint`. -/
def nunitsOf (nbytes : UInt32) : UInt32 := (nbytes + 8 - 1) / 8 + 1

/-- `malloc(nbytes)`: the pointer returned and the heap, or `none` when the model's `fuel` runs
out. The first call makes `base` the one-element list. -/
def malloc (fuel : Nat) (h : Heap) (nbytes : UInt32) : Option (Nat × Heap) :=
  let h := if h.freep = 0 then { h.set base ⟨base, 0⟩ with freep := base } else h
  mallocLoop sbrk fuel (nunitsOf nbytes) fuel h.freep (h.hdr h.freep).ptr h

end Allocator

/-! ## The unit count -/

theorem toNat_nunitsOf (nbytes : UInt32) :
    (nunitsOf nbytes).toNat = (nbytes.toNat + 7) % 2 ^ 32 / 8 + 1 := by
  have h := nbytes.toNat_lt
  simp only [nunitsOf, UInt32.toNat_add, UInt32.toNat_div, UInt32.toNat_sub, UInt32.reduceToNat]
  omega

/-- Below `2^32 - 7` bytes the units asked for hold the request after their header. -/
theorem nunitsOf_sufficient {nbytes : UInt32} (h : nbytes.toNat < 2 ^ 32 - 7) :
    nbytes.toNat ≤ ((nunitsOf nbytes).toNat - 1) * HDR := by
  rw [toNat_nunitsOf, Nat.mod_eq_of_lt (by omega), HDR]
  omega

/-- From `2^32 - 7` bytes on the sum wraps: one unit, the header alone. -/
theorem nunitsOf_wraps {nbytes : UInt32} (h : 2 ^ 32 - 7 ≤ nbytes.toNat) : nunitsOf nbytes = 1 := by
  apply UInt32.toNat_inj.mp
  have := nbytes.toNat_lt
  rw [toNat_nunitsOf]
  simp only [UInt32.reduceToNat]
  omega

/-- The first `malloc(0xFFFFFFF9)` of a process, under a kernel that grants every `sbrk`: it
returns a non-null pointer whose block is one unit, its header, so none of the `0xFFFFFFF9` bytes
asked for is there; the pointer is the new end of the heap. -/
theorem malloc_huge_request_gets_header_only :
    (malloc (fun (n : Int32) (sz : Nat) => some (sz + n.toInt.toNat)) 0x1000 8 ⟨fun _ => ⟨0, 0⟩, 0, 0x4000⟩
        0xFFFFFFF9).map (fun r => (r.1, (r.2.hdr (r.1 - HDR)).size, r.2.sz)) =
      some (0x4000 + 4096 * HDR, 1, 0x4000 + 4096 * HDR) := by
  decide

end Xv6.Umalloc
