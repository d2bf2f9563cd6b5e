import Mathlib

/-!
# Ring buffers addressed by free-running positions

A ring of `N` slots is addressed by positions that only grow: position `p`
lives in slot `p % N` (`slot`), so the `N` positions of a span `[b, b + N)`
occupy every slot exactly once. A queue held in the ring is the `window` of the
positions `[a, a + n)`.

A line editor edits such a window in place by moving a run of positions `d`
slots up or down, one slot at a time, in the order that never reads a slot it
has already overwritten: `moveUp` works from the top down (to open a gap),
`moveDown` from the bottom up (to close one). `get_moveUp` and `get_moveDown`
give their effect position by position, for positions of one span, where
positions and slots correspond one to one.
-/

namespace RingBuf

variable {α : Type} {N : Nat} [NeZero N]

/-- The slot of position `p`. -/
def slot (N : Nat) [NeZero N] (p : Nat) : Fin N := ⟨p % N, Nat.mod_lt p (NeZero.pos N)⟩

/-- The value at position `p`. -/
def get (buf : Fin N → α) (p : Nat) : α := buf (slot N p)

/-- The ring with position `p` overwritten by `a`. -/
def set (buf : Fin N → α) (p : Nat) (a : α) : Fin N → α := Function.update buf (slot N p) a

/-- Two positions of one span share a slot only if they are equal. -/
theorem slot_inj {b p q : Nat} (hp : b ≤ p) (hp' : p < b + N) (hq : b ≤ q) (hq' : q < b + N)
    (h : slot N p = slot N q) : p = q := by
  have hm : p % N = q % N := congrArg Fin.val h
  rcases Nat.le_total p q with hpq | hqp
  · have h1 := Nat.sub_mod_eq_zero_of_mod_eq hm.symm
    have := Nat.eq_zero_of_dvd_of_lt (Nat.dvd_of_mod_eq_zero h1) (by omega)
    omega
  · have h1 := Nat.sub_mod_eq_zero_of_mod_eq hm
    have := Nat.eq_zero_of_dvd_of_lt (Nat.dvd_of_mod_eq_zero h1) (by omega)
    omega

@[simp] theorem get_set_self (buf : Fin N → α) (p : Nat) (a : α) : get (set buf p a) p = a := by
  simp [get, set]

theorem get_set (buf : Fin N → α) (p q : Nat) (a : α) :
    get (set buf p a) q = if slot N q = slot N p then a else get buf q := by
  simp only [get, set, Function.update]
  split <;> simp_all

/-- Writing one position of a span leaves the other positions of the span alone. -/
theorem get_set_of_ne {b p q : Nat} (buf : Fin N → α) (a : α) (hp : b ≤ p) (hp' : p < b + N)
    (hq : b ≤ q) (hq' : q < b + N) (hne : q ≠ p) : get (set buf p a) q = get buf q := by
  rw [get_set, if_neg fun h => hne (slot_inj hq hq' hp hp' h)]

/-- Writing a position of a span: the written value there, the old value elsewhere. -/
theorem get_set_span {b p q : Nat} (buf : Fin N → α) (a : α) (hp : b ≤ p) (hp' : p < b + N)
    (hq : b ≤ q) (hq' : q < b + N) : get (set buf p a) q = if q = p then a else get buf q := by
  split
  · subst q; exact get_set_self buf p a
  · exact get_set_of_ne buf a hp hp' hq hq' ‹_›

/-! ## Windows -/

/-- The values at positions `a, a + 1, …, a + n - 1`. -/
def window (buf : Fin N → α) (a n : Nat) : List α := (List.range n).map fun j => get buf (a + j)

@[simp] theorem length_window (buf : Fin N → α) (a n : Nat) : (window buf a n).length = n := by
  simp [window]

@[simp] theorem getElem_window (buf : Fin N → α) (a n j : Nat) (h : j < (window buf a n).length) :
    (window buf a n)[j] = get buf (a + j) := by
  simp [window]

@[simp] theorem window_zero (buf : Fin N → α) (a : Nat) : window buf a 0 = [] := rfl

theorem window_add (buf : Fin N → α) (a m n : Nat) :
    window buf a (m + n) = window buf a m ++ window buf (a + m) n := by
  apply List.ext_getElem (by simp)
  intro j h1 h2
  simp only [getElem_window, List.getElem_append, length_window]
  split
  · rfl
  · congr 1; omega

theorem window_succ (buf : Fin N → α) (a n : Nat) :
    window buf a (n + 1) = get buf a :: window buf (a + 1) n := by
  rw [Nat.add_comm n 1, window_add]
  simp [window]

theorem take_window (buf : Fin N → α) (a : Nat) {k n : Nat} (h : k ≤ n) :
    (window buf a n).take k = window buf a k := by
  obtain ⟨m, rfl⟩ := Nat.exists_eq_add_of_le h
  rw [window_add, List.take_left' (by simp)]

theorem drop_window (buf : Fin N → α) (a k n : Nat) :
    (window buf a n).drop k = window buf (a + k) (n - k) := by
  rcases Nat.le_total k n with h | h
  · obtain ⟨m, rfl⟩ := Nat.exists_eq_add_of_le h
    rw [window_add, List.drop_left' (by simp), Nat.add_sub_cancel_left]
  · rw [List.drop_eq_nil_of_le (by simpa using h), Nat.sub_eq_zero_of_le h, window_zero]

/-- Starts congruent modulo `N` give the same window. -/
theorem window_congr_mod (buf : Fin N → α) {a a' : Nat} (h : a % N = a' % N) (n : Nat) :
    window buf a n = window buf a' n := by
  apply List.ext_getElem (by simp)
  intro j _ _
  simp only [getElem_window, get]
  congr 1
  exact Fin.ext (by simp only [slot]; rw [Nat.add_mod, h, ← Nat.add_mod])

/-- Writing the position just past a window of fewer than `N` positions appends to it. -/
theorem window_set_last (buf : Fin N → α) (x : α) {a n p : Nat} (hn : n < N)
    (hp : p % N = (a + n) % N) : window (set buf p x) a (n + 1) = window buf a n ++ [x] := by
  have hslot : slot N p = slot N (a + n) := Fin.ext hp
  rw [window_add]
  congr 1
  · apply List.ext_getElem (by simp)
    intro j hj _
    have hj' : j < n := by simpa using hj
    rw [getElem_window, getElem_window, get_set, if_neg]
    intro he
    have := slot_inj (b := a) (by omega) (by omega) (by omega) (by omega) (he.trans hslot)
    omega
  · simp [window, get_set, hslot]

/-! ## Moving a run of positions -/

/-- `for (p = hi; p > hi - n; p--) buf[(p - 1 + d) % N] = buf[(p - 1) % N];`: the values
at `hi - n, …, hi - 1` moved up by `d`, the top one first. -/
def moveUp (buf : Fin N → α) (d : Nat) : Nat → Nat → Fin N → α
  | _, 0 => buf
  | hi, n + 1 => moveUp (set buf (hi - 1 + d) (get buf (hi - 1))) d (hi - 1) n

/-- `for (p = lo; p < lo + n; p++) buf[(p - d) % N] = buf[p % N];`: the values at
`lo, …, lo + n - 1` moved down by `d`, the bottom one first. -/
def moveDown (buf : Fin N → α) (d : Nat) : Nat → Nat → Fin N → α
  | _, 0 => buf
  | lo, n + 1 => moveDown (set buf (lo - d) (get buf lo)) d (lo + 1) n

/-- After `moveUp`, the positions `[hi - n + d, hi + d)` of the span hold the values from `d`
below; every other position of the span is unchanged. -/
theorem get_moveUp {b d : Nat} (buf : Fin N → α) :
    ∀ (hi n : Nat), n ≤ hi → b ≤ hi - n → hi + d ≤ b + N → ∀ q, b ≤ q → q < b + N →
      get (moveUp buf d hi n) q =
        if hi - n + d ≤ q ∧ q < hi + d then get buf (q - d) else get buf q := by
  intro hi n
  induction n generalizing buf hi with
  | zero => intro _ _ _ q _ _; simp only [moveUp]; rw [if_neg (by omega)]
  | succ n ih =>
    intro hn hb htop q hq hq'
    rw [moveUp, ih _ (hi - 1) (by omega) (by omega) (by omega) q hq hq']
    have hw : b ≤ hi - 1 + d ∧ hi - 1 + d < b + N := by omega
    by_cases hin : hi - 1 - n + d ≤ q ∧ q < hi - 1 + d
    · rw [if_pos hin, if_pos (by omega),
        get_set_of_ne buf _ hw.1 hw.2 (by omega) (by omega) (by omega)]
    · rw [if_neg hin, get_set_span buf _ hw.1 hw.2 hq hq']
      by_cases he : q = hi - 1 + d
      · rw [if_pos he, if_pos (by omega), show q - d = hi - 1 by omega]
      · rw [if_neg he, if_neg (by omega)]

/-- After `moveDown`, the positions `[lo - d, lo + n - d)` of the span hold the values from
`d` above; every other position of the span is unchanged. -/
theorem get_moveDown {b d : Nat} (buf : Fin N → α) :
    ∀ (lo n : Nat), b + d ≤ lo → lo + n ≤ b + N → ∀ q, b ≤ q → q < b + N →
      get (moveDown buf d lo n) q =
        if lo - d ≤ q ∧ q < lo + n - d then get buf (q + d) else get buf q := by
  intro lo n
  induction n generalizing buf lo with
  | zero => intro _ _ q _ _; simp only [moveDown]; rw [if_neg (by omega)]
  | succ n ih =>
    intro hb htop q hq hq'
    rw [moveDown, ih _ (lo + 1) (by omega) (by omega) q hq hq']
    have hw : b ≤ lo - d ∧ lo - d < b + N := by omega
    by_cases hin : lo + 1 - d ≤ q ∧ q < lo + 1 + n - d
    · rw [if_pos hin, if_pos (by omega),
        get_set_of_ne buf _ hw.1 hw.2 (by omega) (by omega) (by omega)]
    · rw [if_neg hin, get_set_span buf _ hw.1 hw.2 hq hq']
      by_cases he : q = lo - d
      · rw [if_pos he, if_pos (by omega), show q + d = lo by omega]
      · rw [if_neg he, if_neg (by omega)]

/-! ## Editing a window in place -/

/-- Opening a gap at `p` in the window `[a, hi)` (`moveUp` by one) and storing `x` there
inserts `x` into the window. -/
theorem window_insert {a p hi : Nat} (buf : Fin N → α) (x : α) (hap : a ≤ p) (hph : p ≤ hi)
    (hN : hi + 1 ≤ a + N) :
    window (set (moveUp buf 1 hi (hi - p)) p x) a (hi + 1 - a) =
      window buf a (p - a) ++ x :: window buf p (hi - p) := by
  apply List.ext_getElem (by simp; omega)
  intro j h1 h2
  have hj : j < hi + 1 - a := by simpa using h1
  rw [getElem_window, get_set_span _ x hap (by omega) (by omega) (by omega),
    @get_moveUp _ _ _ a 1 buf hi (hi - p) (by omega) (by omega) (by omega) (a + j) (by omega) (by omega)]
  rcases lt_trichotomy j (p - a) with hlt | heq | hgt
  · rw [List.getElem_append_left (by simpa using hlt), getElem_window,
      if_neg (by omega), if_neg (by omega)]
  · rw [List.getElem_append_right (by simp; omega)]
    simp only [length_window, heq, Nat.sub_self, List.getElem_cons_zero]
    rw [if_pos (by omega)]
  · rw [List.getElem_append_right (by simp; omega)]
    obtain ⟨m, hm⟩ : ∃ m, j - (window buf a (p - a)).length = m + 1 := ⟨j - (p - a) - 1, by simp; omega⟩
    simp only [hm, List.getElem_cons_succ, getElem_window]
    rw [if_neg (by omega), if_pos (by omega)]
    congr 1; simp at hm; omega

/-- Closing the gap `[s, t)` of the window `[a, hi)` by moving `[t, hi)` down to `s` erases
`[s, t)` from the window. -/
theorem window_erase {a s t hi : Nat} (buf : Fin N → α) (has : a ≤ s) (hst : s ≤ t)
    (hth : t ≤ hi) (hN : hi ≤ a + N) :
    window (moveDown buf (t - s) t (hi - t)) a (hi - (t - s) - a) =
      window buf a (s - a) ++ window buf t (hi - t) := by
  apply List.ext_getElem (by simp; omega)
  intro j h1 h2
  have hj : j < hi - (t - s) - a := by simpa using h1
  rw [getElem_window, @get_moveDown _ _ _ a (t - s) buf t (hi - t) (by omega) (by omega) (a + j) (by omega)
    (by omega)]
  by_cases hlt : j < s - a
  · rw [List.getElem_append_left (by simpa using hlt), getElem_window, if_neg (by omega)]
  · rw [List.getElem_append_right (by simp; omega), getElem_window, if_pos (by omega)]
    congr 1; simp; omega

end RingBuf
