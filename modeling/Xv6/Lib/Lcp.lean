import Mathlib

/-!
# Longest common prefixes

`commonPrefix a b` is the longest list that is a prefix of both `a` and `b`, and `lcp s ss` the
longest that is a prefix of `s` and of every list of `ss`. Each is characterised by its
prefixes: a list is a prefix of it exactly when it is a prefix of all the lists.
-/

namespace Lcp

variable {α : Type*} [DecidableEq α]

/-- The longest common prefix of two lists. -/
def commonPrefix : List α → List α → List α
  | a :: as, b :: bs => if a = b then a :: commonPrefix as bs else []
  | _, _ => []

theorem prefix_commonPrefix_iff {p : List α} (a b : List α) :
    p <+: commonPrefix a b ↔ p <+: a ∧ p <+: b := by
  induction a generalizing b p with
  | nil =>
    simp only [commonPrefix, List.prefix_nil, iff_self_and]
    rintro rfl
    exact List.nil_prefix
  | cons x as ih =>
    cases b with
    | nil =>
      simp only [commonPrefix, List.prefix_nil, iff_and_self]
      rintro rfl
      exact List.nil_prefix
    | cons y bs =>
      rw [commonPrefix]
      cases p with
      | nil => simp
      | cons z p =>
        split
        · rename_i hxy
          subst hxy
          rw [List.cons_prefix_cons, List.cons_prefix_cons, List.cons_prefix_cons, ih]
          tauto
        · rename_i hxy
          simp only [List.prefix_nil, reduceCtorEq, false_iff, List.cons_prefix_cons, not_and]
          rintro ⟨rfl, -⟩ rfl
          exact absurd rfl hxy

/-- The longest common prefix of `s` and every list of `ss`. -/
def lcp (s : List α) (ss : List (List α)) : List α := ss.foldl commonPrefix s

theorem prefix_lcp_iff {p : List α} (s : List α) (ss : List (List α)) :
    p <+: lcp s ss ↔ p <+: s ∧ ∀ t ∈ ss, p <+: t := by
  induction ss generalizing s with
  | nil => simp [lcp]
  | cons t ss ih =>
    rw [lcp, List.foldl_cons, ← lcp, ih, prefix_commonPrefix_iff]
    simp only [List.mem_cons, forall_eq_or_imp]
    tauto

theorem lcp_prefix_self (s : List α) (ss : List (List α)) : lcp s ss <+: s :=
  ((prefix_lcp_iff s ss).mp (List.prefix_refl _)).1

/-- A prefix of `s` of length `l` is common to all the lists exactly when `l` is at most the
length of their longest common prefix. -/
theorem take_prefix_lcp_iff {s : List α} (ss : List (List α)) {l : Nat} (hl : l ≤ s.length) :
    (∀ t ∈ ss, s.take l <+: t) ↔ l ≤ (lcp s ss).length := by
  have hlcp : lcp s ss = s.take (lcp s ss).length := List.prefix_iff_eq_take.mp (lcp_prefix_self s ss)
  constructor
  · intro h
    have hp := (prefix_lcp_iff s ss).mpr ⟨List.take_prefix l s, h⟩
    rw [hlcp, List.prefix_take_iff, List.length_take, Nat.min_eq_left hl] at hp
    exact hp.2
  · intro h
    have hp : s.take l <+: lcp s ss := by
      rw [hlcp]
      exact List.take_prefix_take_left h
    exact ((prefix_lcp_iff s ss).mp hp).2

end Lcp
