import Xv6.Lib.Loop

/-!
# Specifications of fallible code

`Sat E P x`: the computation `x : Except ε α` either succeeds with a value
satisfying `P`, or fails with an error allowed by `E`. With `E` the failures a
caller is prepared to see (a `panic` it cannot rule out) and `P` the
postcondition, this is the total-correctness triple of a terminating C
function modulo those failures; `E := fun _ => False` asks for success.

The rules follow the shape of the code: `sat_bind` for sequencing,
`sat_ite` for a branch, `sat_loop` and `sat_foldlM_range` for counted loops
with an invariant indexed by the number of runs done.
-/

namespace CLoop

variable {ε α β σ ι : Type} {E : ε → Prop}

/-- `x` succeeds into `P` or fails with an error allowed by `E`. -/
def Sat (E : ε → Prop) (P : α → Prop) : Except ε α → Prop
  | .ok a => P a
  | .error e => E e

@[simp] theorem sat_ok {P : α → Prop} {a : α} : Sat E P (.ok a) ↔ P a := Iff.rfl

@[simp] theorem sat_error {P : α → Prop} {e : ε} : Sat E P (.error e) ↔ E e := Iff.rfl

theorem sat_mono {P Q : α → Prop} {x : Except ε α} (h : Sat E P x) (hPQ : ∀ a, P a → Q a) :
    Sat E Q x := by
  cases x with
  | error e => exact h
  | ok a => exact hPQ a h

theorem sat_bind {P : α → Prop} {Q : β → Prop} {x : Except ε α} {f : α → Except ε β}
    (hx : Sat E P x) (hf : ∀ a, P a → Sat E Q (f a)) : Sat E Q (x >>= f) := by
  cases x with
  | error e => exact hx
  | ok a => exact hf a hx

theorem sat_ite {P : α → Prop} {c : Prop} [Decidable c] {x y : Except ε α}
    (hx : c → Sat E P x) (hy : ¬c → Sat E P y) : Sat E P (if c then x else y) := by
  split
  · exact hx ‹_›
  · exact hy ‹_›

/-- A branch whose arms continue alike, as `do` notation compiles `let x ← if c then a else b`
followed by more code. -/
theorem sat_ite_bind {P : α → Prop} {Q : β → Prop} {c : Prop} [Decidable c] {x y : Except ε α}
    {f : α → Except ε β} (hx : c → Sat E P x) (hy : ¬c → Sat E P y)
    (hf : ∀ a, P a → Sat E Q (f a)) : Sat E Q (if c then x >>= f else y >>= f) := by
  split
  · exact sat_bind (hx ‹_›) hf
  · exact sat_bind (hy ‹_›) hf

/-- **Loop rule.** An invariant indexed by the number of runs done, kept by every run. -/
theorem sat_loop {step : ι → ι} {body : ι → σ → Except ε σ} (P : Nat → σ → Prop) {n : Nat}
    {i : ι} {s : σ} (hbody : ∀ k s₁, k < n → P k s₁ → Sat E (P (k + 1)) (body (step^[k] i) s₁))
    (h0 : P 0 s) : Sat E (P n) (loop step body n i s) := by
  induction n generalizing i s P with
  | zero => exact h0
  | succ n ih =>
    rw [loop_succ]
    refine sat_bind (hbody 0 s (by omega) h0) fun t ht => ?_
    refine ih (fun k => P (k + 1)) (fun k s₁ hk h₁ => ?_) ht
    simpa [Function.iterate_succ_apply] using hbody (k + 1) s₁ (by omega) h₁

/-- **Loop rule** for `for (i = 0; i < n; i++)` written as a fold over `List.range n`. -/
theorem sat_foldlM_range {f : β → Nat → Except ε β} (P : Nat → β → Prop) {n : Nat} {b : β}
    (hstep : ∀ k b₁, k < n → P k b₁ → Sat E (P (k + 1)) (f b₁ k)) (h0 : P 0 b) :
    Sat E (P n) ((List.range n).foldlM f b) := by
  induction n generalizing P with
  | zero => exact h0
  | succ n ih =>
    rw [List.range_succ, List.foldlM_append]
    refine sat_bind (ih P (fun k b₁ hk h₁ => hstep k b₁ (by omega) h₁) h0) fun b₁ h₁ => ?_
    simp only [List.foldlM_cons, List.foldlM_nil, bind_pure]
    exact hstep n b₁ (by omega) h₁

/-- The fold over a list of pure steps, each kept by `P`. -/
theorem sat_foldlM {f : β → α → Except ε β} (P : β → Prop) {l : List α} {b : β}
    (hstep : ∀ x ∈ l, ∀ b₁, P b₁ → Sat E P (f b₁ x)) (h0 : P b) : Sat E P (l.foldlM f b) := by
  induction l generalizing b with
  | nil => exact h0
  | cons x xs ih =>
    rw [List.foldlM_cons]
    exact sat_bind (hstep x (by simp) b h0) fun b₁ h₁ =>
      ih (fun y hy => hstep y (by simp [hy])) h₁

/-- **Loop rule** for a fold whose invariant also names the elements still to come. -/
theorem sat_foldlM_rest {f : β → α → Except ε β} (P : List α → β → Prop) {l : List α} {b : β}
    (hstep : ∀ x xs b₁, P (x :: xs) b₁ → Sat E (P xs) (f b₁ x)) (h0 : P l b) :
    Sat E (P []) (l.foldlM f b) := by
  induction l generalizing b with
  | nil => exact h0
  | cons x xs ih =>
    rw [List.foldlM_cons]
    exact sat_bind (hstep x xs b h0) fun b₁ h₁ => ih h₁

/-- With no failure allowed, `Sat` is success. -/
theorem sat_false_iff {P : α → Prop} {x : Except ε α} :
    Sat (fun _ => False) P x ↔ ∃ a, x = .ok a ∧ P a := by
  cases x <;> simp

end CLoop
