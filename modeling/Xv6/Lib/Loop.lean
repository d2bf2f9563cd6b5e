import Mathlib

/-!
# Loops of C code over fallible steps

A C function that can stop the machine (a `panic`) or run into undefined
behaviour (an array index out of range) is a function into `Except ε`: the
first failure aborts everything after it. This module has the two loop shapes
such code uses and the rules to reason about them.

* `loop step body n i s`: a counted loop, the body run `n` times on the
  counters `i, step i, step (step i), …`. A C `for` loop whose counter cannot
  overflow before its guard fails is this loop with its exact trip count.
* `scan step cond n i`: `while (cond(i)) i = step(i);` with at most `n` runs,
  returning the final counter. `cond` is fallible since it may read an array.

`bind_eq_ok` peels one successful bind apart; `loop_inv` carries an invariant
through a successful loop and `loop_ok` proves that a loop succeeds.
-/

namespace CLoop

variable {ε σ ι α β : Type}

@[simp] theorem ok_bind (a : α) (f : α → Except ε β) : (Except.ok a >>= f) = f a := rfl

@[simp] theorem error_bind (e : ε) (f : α → Except ε β) : (Except.error e >>= f) = .error e := rfl

/-- A successful bind is a successful first step followed by a successful rest. -/
theorem bind_eq_ok {x : Except ε α} {f : α → Except ε β} {b : β} :
    (x >>= f) = .ok b ↔ ∃ a, x = .ok a ∧ f a = .ok b := by
  cases x with
  | error e =>
    simp only [error_bind, reduceCtorEq, false_and, exists_false]
  | ok a =>
    simp only [ok_bind, Except.ok.injEq, exists_eq_left']

@[simp] theorem pure_eq_ok (a : α) : (pure a : Except ε α) = .ok a := rfl

/-! ## Counted loops -/

/-- The body run `n` times, on the counters `i, step i, …, step^[n-1] i`. -/
def loop (step : ι → ι) (body : ι → σ → Except ε σ) : Nat → ι → σ → Except ε σ
  | 0, _, s => .ok s
  | n + 1, i, s => body i s >>= loop step body n (step i)

section Loop

variable {step : ι → ι} {body : ι → σ → Except ε σ}

@[simp] theorem loop_zero (i : ι) (s : σ) : loop step body 0 i s = .ok s := rfl

theorem loop_succ (n : Nat) (i : ι) (s : σ) :
    loop step body (n + 1) i s = body i s >>= loop step body n (step i) := rfl

/-- Peeling the last run off a loop. -/
theorem loop_succ' (n : Nat) (i : ι) (s : σ) :
    loop step body (n + 1) i s = loop step body n i s >>= body (step^[n] i) := by
  induction n generalizing i s with
  | zero => cases h : body i s <;> simp [loop, h]
  | succ n ih =>
    rw [loop_succ, loop_succ n, Function.iterate_succ_apply]
    cases body i s with
    | error e => rfl
    | ok t => exact ih (step i) t

/-- **Loop invariant.** An invariant indexed by the number of runs done, kept by every
successful run, holds after a successful loop. -/
theorem loop_inv (P : Nat → σ → Prop) {n : Nat} {i : ι} {s s' : σ}
    (hbody : ∀ k s₁ s₂, k < n → P k s₁ → body (step^[k] i) s₁ = .ok s₂ → P (k + 1) s₂)
    (h0 : P 0 s) (h : loop step body n i s = .ok s') : P n s' := by
  induction n generalizing i s P with
  | zero => cases h; exact h0
  | succ n ih =>
    rw [loop_succ] at h
    obtain ⟨t, ht, hrest⟩ := bind_eq_ok.mp h
    have h1 : P 1 t := hbody 0 s t (by omega) h0 (by simpa using ht)
    refine ih (fun k => P (k + 1)) (fun k s₁ s₂ hk h₁ h₂ => ?_) h1 hrest
    exact hbody (k + 1) s₁ s₂ (by omega) h₁ (by rwa [Function.iterate_succ_apply])

/-- **Loop success.** If every run from an invariant state succeeds into the invariant, so
does the loop. -/
theorem loop_ok (P : Nat → σ → Prop) {n : Nat} {i : ι} {s : σ}
    (hbody : ∀ k s₁, k < n → P k s₁ → ∃ s₂, body (step^[k] i) s₁ = .ok s₂ ∧ P (k + 1) s₂)
    (h0 : P 0 s) : ∃ s', loop step body n i s = .ok s' ∧ P n s' := by
  induction n generalizing i s P with
  | zero => exact ⟨s, rfl, h0⟩
  | succ n ih =>
    obtain ⟨t, ht, h1⟩ := hbody 0 s (by omega) h0
    obtain ⟨s', hs', hP⟩ := @ih (fun k => P (k + 1)) (step i) t
      (fun k s₁ hk h₁ => by
        simpa [Function.iterate_succ_apply] using hbody (k + 1) s₁ (by omega) h₁) h1
    simp only [Function.iterate_zero, id] at ht
    exact ⟨s', by rw [loop_succ, ht, ok_bind]; exact hs', hP⟩

end Loop

/-! ## Scans -/

/-- `while (cond(i)) i = step(i);`, run at most `n` times. -/
def scan (step : ι → ι) (cond : ι → Except ε Bool) : Nat → ι → Except ε ι
  | 0, i => .ok i
  | n + 1, i => cond i >>= fun b => if b then scan step cond n (step i) else .ok i

section Scan

variable {step : ι → ι} {cond : ι → Except ε Bool}

@[simp] theorem scan_zero (i : ι) : scan step cond 0 i = .ok i := rfl

/-- **Scan exit.** If every step the scan takes keeps `P` and lowers the measure `μ`, and the
fuel covers `μ`, the scan stops at an index where its condition is false. -/
theorem scan_exit (P : ι → Prop) (μ : ι → Nat) {n : Nat} {i : ι}
    (hstep : ∀ j, P j → ∃ b, cond j = .ok b ∧ (b = true → P (step j) ∧ μ (step j) < μ j))
    (hn : μ i ≤ n) (h0 : P i) : ∃ j, scan step cond n i = .ok j ∧ P j ∧ cond j = .ok false := by
  induction n generalizing i with
  | zero =>
    obtain ⟨b, hb, hP⟩ := hstep i h0
    cases b with
    | true => exact absurd (hP rfl).2 (by omega)
    | false => exact ⟨i, rfl, h0, hb⟩
  | succ n ih =>
    obtain ⟨b, hb, hP⟩ := hstep i h0
    cases b with
    | true =>
      obtain ⟨hP', hμ⟩ := hP rfl
      obtain ⟨j, hj, hPj, hcj⟩ := ih (by omega) hP'
      exact ⟨j, by rw [scan, hb, ok_bind, if_pos rfl]; exact hj, hPj, hcj⟩
    | false => exact ⟨i, by rw [scan, hb, ok_bind, if_neg Bool.false_ne_true], h0, hb⟩

end Scan

end CLoop
