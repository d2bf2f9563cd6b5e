import Mathlib

/-!
# C strings

A C string is read from a byte list, as NUL past the list's end. `strncmp` and `strncpy` are
the `ulib`/kernel functions over at most `n` bytes; `cname s n`, the bytes of `s` before its
first NUL cut to `n`, is what they see of a string: `strncmp s t n = 0` exactly when the two
agree on it, and `strncpy` writes it padded with NULs to `n` bytes.
-/

namespace CStr

/-- `strncmp(p, q, n)`: `while(n > 0 && *p && *p == *q) n--, p++, q++;` then `0` if `n` ran
out, else `(uchar)*p - (uchar)*q`. -/
def strncmp : List UInt8 → List UInt8 → Nat → Int
  | _, _, 0 => 0
  | p, q, n + 1 =>
    if p.headD 0 ≠ 0 ∧ p.headD 0 = q.headD 0 then strncmp p.tail q.tail n
    else (p.headD 0).toNat - (q.headD 0).toNat

/-- The string `s` as `strncmp` over `n` bytes sees it: the bytes before the first NUL, at most
`n` of them. -/
def cname (s : List UInt8) (n : Nat) : List UInt8 := (s.takeWhile (· ≠ 0)).take n

@[simp] theorem cname_zero (s : List UInt8) : cname s 0 = [] := by simp [cname]

@[simp] theorem cname_nil (n : Nat) : cname [] n = [] := by simp [cname]

theorem cname_cons_succ {a : UInt8} (s : List UInt8) (n : Nat) :
    cname (a :: s) (n + 1) = if a = 0 then [] else a :: cname s n := by
  by_cases ha : a = 0 <;> simp [cname, ha]

/-- `cname` over the head and tail a C loop walks. -/
theorem cname_succ (s : List UInt8) (n : Nat) :
    cname s (n + 1) = if s.headD 0 = 0 then [] else s.headD 0 :: cname s.tail n := by
  cases s with
  | nil => simp
  | cons a s => simp [cname_cons_succ]

theorem length_cname_le (s : List UInt8) (n : Nat) : (cname s n).length ≤ n := by
  simp [cname]

/-- **`strncmp`.** Two strings compare equal over `n` bytes exactly when they agree before
their first NUL, up to `n` bytes. -/
theorem strncmp_eq_zero_iff (p q : List UInt8) (n : Nat) : strncmp p q n = 0 ↔ cname p n = cname q n := by
  induction n generalizing p q with
  | zero => simp [strncmp]
  | succ n ih =>
    rw [strncmp, cname_succ p, cname_succ q]
    by_cases hstep : p.headD 0 ≠ 0 ∧ p.headD 0 = q.headD 0
    · rw [if_pos hstep, ih, if_neg hstep.1, if_neg (hstep.2 ▸ hstep.1), hstep.2]
      simp
    · -- the loop stops at a NUL of `p` or at the first difference
      rw [if_neg hstep]
      by_cases hp : p.headD 0 = 0 <;> by_cases hq : q.headD 0 = 0
      · rw [if_pos hp, if_pos hq, hp, hq]
        simp
      · have : (q.headD 0).toNat ≠ 0 := fun h => hq (UInt8.toNat_inj.mp h)
        rw [if_pos hp, if_neg hq, hp, UInt8.toNat_zero]
        exact ⟨fun h => absurd h (by omega), fun h => absurd h.symm (List.cons_ne_nil _ _)⟩
      · have : (p.headD 0).toNat ≠ 0 := fun h => hp (UInt8.toNat_inj.mp h)
        rw [if_neg hp, if_pos hq, hq, UInt8.toNat_zero]
        exact ⟨fun h => absurd h (by omega), fun h => absurd h (List.cons_ne_nil _ _)⟩
      · have hne : p.headD 0 ≠ q.headD 0 := fun h => hstep ⟨hp, h⟩
        have : (p.headD 0).toNat ≠ (q.headD 0).toNat := fun h => hne (UInt8.toNat_inj.mp h)
        rw [if_neg hp, if_neg hq]
        exact ⟨fun h => absurd h (by omega), fun h => absurd (List.cons.inj h).1 hne⟩

/-- A string with no NUL is seen as its first `n` bytes. -/
theorem cname_of_forall_ne {s : List UInt8} (hs : ∀ x ∈ s, x ≠ 0) (n : Nat) : cname s n = s.take n := by
  rw [cname, List.takeWhile_eq_self_iff.mpr (by simpa using hs)]

/-- A NUL-free string of at least `n` bytes is seen as its first `n`, whatever follows it. -/
theorem cname_append_of_le {s : List UInt8} (hs : ∀ x ∈ s, x ≠ 0) {n : Nat} (hn : n ≤ s.length)
    (t : List UInt8) : cname (s ++ t) n = s.take n := by
  rw [cname, List.takeWhile_append_of_pos (by simpa using hs)]
  exact List.take_append_of_le_length hn

/-- A string ended by a NUL is seen as its bytes before it. -/
theorem cname_append_nul {s : List UInt8} (hs : ∀ x ∈ s, x ≠ 0) (t : List UInt8) (n : Nat) :
    cname (s ++ 0 :: t) n = s.take n := by
  rw [cname, List.takeWhile_append_of_pos (by simpa using hs), List.takeWhile_cons_of_neg (by simp),
    List.append_nil]

/-- Two strings agree on their first `l` bytes, none of them NUL, exactly when the first `l`
bytes of `s`'s content are a prefix of `t`'s. -/
theorem agree_iff_prefix_takeWhile (s t : List UInt8) (l : Nat) :
    (∀ j < l, s.getD j 0 ≠ 0 ∧ t.getD j 0 = s.getD j 0) ↔
      l ≤ (s.takeWhile (· ≠ 0)).length ∧ cname s l <+: t.takeWhile (· ≠ 0) := by
  induction l generalizing s t with
  | zero => simp [cname]
  | succ l ih =>
    -- a first byte of NUL, or none, fails both sides at `j = 0`
    have hfirst : s.getD 0 0 = 0 → ((∀ j < l + 1, s.getD j 0 ≠ 0 ∧ t.getD j 0 = s.getD j 0) ↔
        l + 1 ≤ (s.takeWhile (· ≠ 0)).length ∧ cname s (l + 1) <+: t.takeWhile (· ≠ 0)) := by
      intro h0
      have hnil : s.takeWhile (· ≠ 0) = [] := by
        cases s with
        | nil => rfl
        | cons a s => simp only [List.getD_cons_zero] at h0; simp [h0]
      rw [hnil]
      exact ⟨fun h => absurd h0 (h 0 (by omega)).1, fun h => absurd h.1 (by simp)⟩
    cases s with
    | nil => exact hfirst rfl
    | cons a s =>
      by_cases ha : a = 0
      · exact hfirst ha
      · have hshift : (∀ j < l + 1, (a :: s).getD j 0 ≠ 0 ∧ t.getD j 0 = (a :: s).getD j 0) ↔
            t.getD 0 0 = a ∧ ∀ j < l, s.getD j 0 ≠ 0 ∧ t.tail.getD j 0 = s.getD j 0 := by
          constructor
          · intro h
            refine ⟨(h 0 (by omega)).2, fun j hj => ?_⟩
            have := h (j + 1) (by omega)
            cases t <;> simpa using this
          · rintro ⟨h0, h⟩ j hj
            cases j with
            | zero => exact ⟨ha, h0⟩
            | succ j =>
              have := h j (by omega)
              cases t <;> simpa using this
        rw [hshift, List.takeWhile_cons_of_pos (by simpa using ha), List.length_cons, cname_cons_succ,
          if_neg ha]
        cases t with
        | nil => simp [Ne.symm ha]
        | cons b t =>
          by_cases hb : b = 0
          · subst hb
            simp [Ne.symm ha]
          · rw [List.takeWhile_cons_of_pos (by simpa using hb), List.cons_prefix_cons, List.getD_cons_zero,
              List.tail_cons, ih]
            constructor
            · rintro ⟨rfl, h1, h2⟩; exact ⟨by omega, rfl, h2⟩
            · rintro ⟨h1, rfl, h2⟩; exact ⟨rfl, by omega, h2⟩

/-- The string at `q` is its next `n` bytes when none of them is NUL and a NUL follows. -/
theorem takeWhile_drop_eq_take {b : List UInt8} {q n : Nat} (hne : ∀ k < n, b.getD (q + k) 0 ≠ 0)
    (hend : b.getD (q + n) 0 = 0) : (b.drop q).takeWhile (· ≠ 0) = (b.drop q).take n := by
  induction n generalizing q with
  | zero =>
    rcases Nat.lt_or_ge q b.length with hq | hq
    · rw [Nat.add_zero, List.getD_eq_getElem _ _ hq] at hend
      rw [List.drop_eq_getElem_cons hq, List.takeWhile_cons_of_neg (by simpa using hend)]
      rfl
    · rw [List.drop_eq_nil_of_le hq]
      rfl
  | succ n ih =>
    -- the first byte is there and not NUL; the rest is the string at `q + 1`
    have h0 := hne 0 (Nat.succ_pos n)
    have hq : q < b.length := by
      by_contra hq
      exact h0 (List.getD_eq_default _ _ (by omega))
    rw [Nat.add_zero, List.getD_eq_getElem _ _ hq] at h0
    rw [List.drop_eq_getElem_cons hq, List.takeWhile_cons_of_pos (by simpa using h0),
      List.take_succ_cons,
      ih (fun k hk => by simpa [Nat.add_assoc, Nat.add_comm 1] using hne (k + 1) (by omega))
        (by simpa [Nat.add_assoc, Nat.add_comm 1] using hend)]

/-- Two lists that agree on `n` bytes from `q`, none of them NUL, have the same `n` bytes there. -/
theorem take_drop_eq_of_agree {b s : List UInt8} {q n : Nat}
    (h : ∀ k < n, b.getD (q + k) 0 = s.getD (q + k) 0 ∧ s.getD (q + k) 0 ≠ 0) :
    (b.drop q).take n = (s.drop q).take n := by
  apply List.ext_getElem?
  intro k
  rw [List.getElem?_take, List.getElem?_take, List.getElem?_drop, List.getElem?_drop]
  split
  · rename_i hk
    obtain ⟨heq, hne⟩ := h k hk
    simp only [List.getD_eq_getElem?_getD] at heq hne
    -- a byte that is not NUL is there in `s`, so also in `b`
    cases hs : s[q + k]? with
    | none => simp [hs] at hne
    | some x =>
      cases hb : b[q + k]? with
      | none => simp [hs, hb] at heq hne; exact absurd heq.symm hne
      | some y => simp_all
  · rfl

end CStr
