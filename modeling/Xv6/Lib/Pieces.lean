import Xv6.Lib.Sat

/-!
# A range cut at block boundaries

Code that copies the bytes `[off, off + n)` of a store made of blocks of `B` bytes runs
`for (tot = 0; tot < n; tot += m, off += m) { m = min(n - tot, B - off % B); … }`: each
run handles the `m` bytes from the current offset up to the end of its block or of the
range. `pieces` is that loop over a fallible body, with the current offset written
`off + tot`; `sat_pieces` carries an invariant indexed by the bytes done, and
`piece_div`/`piece_mod` say that a piece lies in one block.
-/

namespace CLoop

variable {ε σ : Type} {E : ε → Prop}

/-- The length `m` of the piece after `t` of the `n` bytes from `off`. -/
def piece (B n off t : Nat) : Nat := min (n - t) (B - (off + t) % B)

/-- `for (tot = t; tot < n; tot += m) { m = piece; body(tot, off + tot, m) }` with at most
`fuel` runs, returning the final offset. -/
def pieces (B : Nat) (body : Nat → Nat → Nat → σ → Except ε σ) (n off : Nat) :
    Nat → Nat → σ → Except ε (Nat × σ)
  | 0, t, x => .ok (off + t, x)
  | fuel + 1, t, x =>
    if t < n then body t (off + t) (piece B n off t) x >>= pieces B body n off fuel (t + piece B n off t)
    else .ok (off + t, x)

section Piece

variable {B n off t : Nat}

theorem piece_pos (hB : 0 < B) (ht : t < n) : 0 < piece B n off t := by
  have := Nat.mod_lt (off + t) hB
  simp only [piece]
  omega

theorem piece_le (ht : t ≤ n) : t + piece B n off t ≤ n := by
  simp only [piece]
  omega

/-- A piece does not cross the end of its block. -/
theorem piece_le_block (hB : 0 < B) : (off + t) % B + piece B n off t ≤ B := by
  have := Nat.mod_lt (off + t) hB
  simp only [piece]
  omega

theorem piece_div {j : Nat} (hB : 0 < B) (hj : j < piece B n off t) :
    (off + t + j) / B = (off + t) / B := by
  have h : (off + t) % B + piece B n off t ≤ B := piece_le_block hB
  rw [Nat.add_div hB, Nat.div_eq_of_lt (show j < B by omega), Nat.mod_eq_of_lt (show j < B by omega),
    if_neg (by omega), Nat.add_zero]

theorem piece_mod {j : Nat} (hB : 0 < B) (hj : j < piece B n off t) :
    (off + t + j) % B = (off + t) % B + j := by
  have h : (off + t) % B + piece B n off t ≤ B := piece_le_block hB
  rw [Nat.add_mod, Nat.mod_eq_of_lt (show j < B by omega)]
  exact Nat.mod_eq_of_lt (by omega)

end Piece

/-- **Piece rule.** An invariant indexed by the bytes done, kept by every piece. -/
theorem sat_pieces {B n off : Nat} {body : Nat → Nat → Nat → σ → Except ε σ} (P : Nat → σ → Prop)
    (hB : 0 < B)
    (hstep : ∀ t x, t < n → P t x →
      Sat E (P (t + piece B n off t)) (body t (off + t) (piece B n off t) x))
    {fuel t : Nat} {x : σ} (hfuel : n - t ≤ fuel) (ht : t ≤ n) (h0 : P t x) :
    Sat E (fun r => r.1 = off + n ∧ P n r.2) (pieces B body n off fuel t x) := by
  -- induction on the fuel; each run does at least one byte
  induction fuel generalizing t x with
  | zero =>
    have htn : t = n := by omega
    subst htn
    exact ⟨rfl, h0⟩
  | succ fuel ih =>
    rw [pieces]
    split
    · rename_i htn
      have : 0 < piece B n off t := piece_pos hB htn
      exact sat_bind (hstep t x htn h0) fun x' hx' => ih (by omega) (piece_le ht) hx'
    · have htn : t = n := by omega
      subst htn
      exact ⟨rfl, h0⟩

end CLoop
