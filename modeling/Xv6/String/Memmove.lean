import Mathlib

/-!
# memmove

The kernel's `memmove` (`string.c`) copies backwards when the destination starts inside the
source, `s < d && s + n > d`, and forwards otherwise; the user library's (`ulib.c`) always
copies forwards. `moved m dst src n` is what a `memmove` is for: `dst[0, n)` holds the original
`src[0, n)` and every other byte is kept.

The forward loop stores `src[i]` at `dst + i` after the earlier stores, so once `src + i`
reaches `dst` it reads back bytes it wrote itself: it leaves `dst[i] = src[i % (dst - src)]`
(`copyUp_apply`, where `% 0` is the identity when `dst ≤ src`). The backward loop reads each
source byte before any store reaches it when `src ≤ dst` (`copyDown_eq_moved`). Hence the
kernel's `memmove` is `moved` on every input (`memmove_moved`), and the two functions agree
exactly when the source repeats with period `dst - src` over the move (`memmove_agree_iff`);
on `memmove(p + 1, p, 2)` they do not (`ulib_memmove_overlap_smears`).

Addresses are unbounded naturals: the regions a call names lie in the address space, so
`s + n` does not wrap.
-/

namespace Xv6.String

/-- Memory, byte by address. -/
abbrev Mem : Type := Nat → UInt8

/-- `*a = b`. -/
def Mem.store (m : Mem) (a : Nat) (b : UInt8) : Mem := fun x => if x = a then b else m x

@[simp] theorem Mem.store_apply (m : Mem) (a x : Nat) (b : UInt8) :
    m.store a b x = if x = a then b else m x := rfl

/-- `while(n-- > 0) *d++ = *s++;` -/
def copyUp (m : Mem) (s d : Nat) : Nat → Mem
  | 0 => m
  | n + 1 => copyUp (m.store d (m s)) (s + 1) (d + 1) n

/-- `s += n; d += n; while(n-- > 0) *--d = *--s;` -/
def copyDown (m : Mem) (s d : Nat) : Nat → Mem
  | 0 => m
  | n + 1 => copyDown (m.store (d + n) (m (s + n))) s d n

/-- `memmove(dst, src, n)` of `string.c`: the memory after it, and the pointer it returns. -/
def memmove (m : Mem) (dst src : Nat) (n : UInt32) : Mem × Nat :=
  if src < dst ∧ src + n.toNat > dst then (copyDown m src dst n.toNat, dst)
  else (copyUp m src dst n.toNat, dst)

/-- `memmove(vdst, vsrc, n)` of `ulib.c`. Its `n` is an `int`; nothing is copied for `n ≤ 0`. -/
def Ulib.memmove (m : Mem) (vdst vsrc : Nat) (n : Int32) : Mem × Nat :=
  (copyUp m vsrc vdst n.toInt.toNat, vdst)

/-- What `memmove(dst, src, n)` is for: `dst[0, n)` holds the original `src[0, n)`, and every
other byte is as it was. -/
def moved (m : Mem) (dst src n : Nat) : Mem :=
  fun a => if dst ≤ a ∧ a < dst + n then m (src + (a - dst)) else m a

/-! ## The two loops -/

/-- The forward loop's last store, at `d + n`, copies what the first `n` stores left at
`s + n`. -/
theorem copyUp_succ (m : Mem) (s d n : Nat) :
    copyUp m s d (n + 1) = (copyUp m s d n).store (d + n) (copyUp m s d n (s + n)) := by
  induction n generalizing m s d with
  | zero => rfl
  | succ n ih =>
    rw [copyUp, ih, copyUp, show d + 1 + n = d + (n + 1) by omega,
      show s + 1 + n = s + (n + 1) by omega]

/-- What the forward loop leaves: `dst[i]` is `src[i % (d - s)]`, the source's first `d - s`
bytes repeated when the destination starts inside the source, and `src[i]` otherwise. -/
theorem copyUp_apply (m : Mem) (s d n a : Nat) :
    copyUp m s d n a = if d ≤ a ∧ a < d + n then m (s + (a - d) % (d - s)) else m a := by
  induction n generalizing a with
  | zero => simp [copyUp]
  | succ n ih =>
    rw [copyUp_succ, Mem.store_apply]
    by_cases ha : a = d + n
    · subst ha
      -- the byte read at `s + n` is an earlier store exactly when `d ≤ s + n < d + n`
      rw [if_pos rfl, if_pos (by omega), Nat.add_sub_cancel_left, ih]
      by_cases hin : d ≤ s + n ∧ s + n < d + n
      · rw [if_pos hin, Nat.mod_eq_sub_mod (show n ≥ d - s by omega),
          show s + n - d = n - (d - s) by omega]
      · rw [if_neg hin]
        rcases Nat.eq_zero_or_pos (d - s) with hk | hk
        · rw [hk, Nat.mod_zero]
        · rw [Nat.mod_eq_of_lt (by omega)]
    · rw [if_neg ha, ih]
      by_cases hin : d ≤ a ∧ a < d + n
      · rw [if_pos hin, if_pos (by omega)]
      · rw [if_neg hin, if_neg (by omega)]

/-- The forward loop is a `memmove` unless the destination starts inside the source. -/
theorem copyUp_eq_moved {m : Mem} {s d n : Nat} (h : d ≤ s ∨ s + n ≤ d) :
    copyUp m s d n = moved m d s n := by
  funext a
  rw [copyUp_apply, moved]
  by_cases hin : d ≤ a ∧ a < d + n
  · rw [if_pos hin, if_pos hin]
    rcases h with h | h
    · rw [Nat.sub_eq_zero_of_le h, Nat.mod_zero]
    · rw [Nat.mod_eq_of_lt (by omega)]
  · rw [if_neg hin, if_neg hin]

/-- One more backward store, at `d + n`, extends a move of `n` bytes to `n + 1`: with `s ≤ d`
the source bytes still to be read lie below it. -/
theorem moved_store {m : Mem} {s d : Nat} (n : Nat) (h : s ≤ d) :
    moved (m.store (d + n) (m (s + n))) d s n = moved m d s (n + 1) := by
  funext a
  simp only [moved, Mem.store_apply]
  by_cases ha : a = d + n
  · subst ha
    rw [if_neg (by omega), if_pos rfl, if_pos (by omega), Nat.add_sub_cancel_left]
  · by_cases hin : d ≤ a ∧ a < d + n
    · rw [if_pos hin, if_neg (by omega), if_pos (by omega)]
    · rw [if_neg hin, if_neg ha, if_neg (by omega)]

/-- The backward loop is a `memmove` whenever the destination does not start below the
source. -/
theorem copyDown_eq_moved (m : Mem) {s d : Nat} (h : s ≤ d) (n : Nat) :
    copyDown m s d n = moved m d s n := by
  induction n generalizing m with
  | zero =>
    funext a
    simp [copyDown, moved]
  | succ n ih => rw [copyDown, ih, moved_store n h]

/-! ## The two `memmove`s -/

/-- The kernel's `memmove` moves `src[0, n)` to `dst` on every input, the two regions
overlapping in either direction or not at all, and returns `dst`. -/
theorem memmove_moved (m : Mem) (dst src : Nat) (n : UInt32) :
    memmove m dst src n = (moved m dst src n.toNat, dst) := by
  unfold memmove
  split
  · rename_i h
    rw [copyDown_eq_moved m (Nat.le_of_lt h.1)]
  · rename_i h
    rw [copyUp_eq_moved (by omega)]

/-- The user `memmove` is a move when the destination does not start inside the source, as in
`grep`'s carry-over of a partial line to the start of its buffer. -/
theorem Ulib.memmove_eq_moved (m : Mem) {dst src : Nat} (n : Int32)
    (h : dst ≤ src ∨ src + n.toInt.toNat ≤ dst) :
    Ulib.memmove m dst src n = (moved m dst src n.toInt.toNat, dst) := by
  rw [Ulib.memmove, copyUp_eq_moved h]

theorem toNat_toInt_ofNat {n : Nat} (hn : n < 2 ^ 31) : (Int32.ofNat n).toInt.toNat = n := by
  rw [Int32.toInt_ofNat_of_lt hn, Int.toNat_natCast]

/-- For a length `n` that both `memmove`s read as `n`, they leave the same memory exactly when
the source repeats with period `dst - src` over the move; in particular whenever the
destination does not start inside the source. -/
theorem memmove_agree_iff (m : Mem) (dst src : Nat) {n : Nat} (hn : n < 2 ^ 31) :
    (Ulib.memmove m dst src (Int32.ofNat n)).1 = (memmove m dst src (UInt32.ofNat n)).1 ↔
      ∀ i < n, m (src + i % (dst - src)) = m (src + i) := by
  have hu : (UInt32.ofNat n).toNat = n := by
    rw [UInt32.toNat_ofNat', Nat.mod_eq_of_lt (by omega)]
  simp only [Ulib.memmove, memmove_moved, toNat_toInt_ofNat hn, hu]
  constructor
  · intro h i hi
    have hi' := congrFun h (dst + i)
    rwa [copyUp_apply, moved, if_pos (by omega), if_pos (by omega), Nat.add_sub_cancel_left]
      at hi'
  · intro h
    funext a
    rw [copyUp_apply, moved]
    by_cases hin : dst ≤ a ∧ a < dst + n
    · rw [if_pos hin, if_pos hin, h (a - dst) (by omega)]
    · rw [if_neg hin, if_neg hin]

theorem memmove_agree_iff_two :
    2 < 2 ^ 31 ∧
      ((Ulib.memmove (fun a => [1, 2, 3].getD a 0) 1 0 (Int32.ofNat 2)).1 =
          (memmove (fun a => [1, 2, 3].getD a 0) 1 0 (UInt32.ofNat 2)).1 ↔
        ∀ i < 2, [1, 2, 3].getD (0 + i % (1 - 0)) 0 = [1, 2, 3].getD (0 + i) (0 : UInt8)) :=
  ⟨by decide, memmove_agree_iff _ 1 0 (by decide)⟩

/-- `memmove(p + 1, p, 2)` over the bytes `1, 2, 3` at `p = 0`: the kernel leaves `1, 1, 2`,
as a move should, but the user library's forward copy reads back its own store and leaves
`1, 1, 1`. -/
theorem ulib_memmove_overlap_smears :
    (Ulib.memmove (fun a => [1, 2, 3].getD a 0) 1 0 2).1 2 = 1 ∧
      (memmove (fun a => [1, 2, 3].getD a 0) 1 0 2).1 2 = 2 ∧
      moved (fun a => [1, 2, 3].getD a 0) 1 0 2 2 = 2 :=
  ⟨by decide, by decide, by decide⟩

end Xv6.String
