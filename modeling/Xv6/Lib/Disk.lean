import Mathlib

/-!
# Disks written one block at a time

A disk maps block numbers to contents, and a write replaces one whole block
atomically. A program of block writes (`run`) writes one block per step, with a
value computed from the disk as it is at that step: a read-modify-write of the
same block, or a copy from another one. A crash can fall between any two
writes, so what it leaves is the run of a prefix of the program.

`Agree R d d'` compares two disks off the blocks of `R`. `run_agree` is the
frame rule (writes inside `R` keep the disk off `R`), and `run_eq_of_copies`
describes a program whose every write stores the same value for a block,
whatever it copies that value from.
-/

namespace Disk

variable {α : Type}

/-- One block write: the block, and its new contents from the disk at that moment. -/
abbrev Write (α : Type) := Nat × ((Nat → α) → α)

/-- The disk after the writes, in order. -/
def run (d : Nat → α) : List (Write α) → Nat → α
  | [] => d
  | w :: ws => run (Function.update d w.1 (w.2 d)) ws

@[simp] theorem run_nil (d : Nat → α) : run d [] = d := rfl

@[simp] theorem run_cons (d : Nat → α) (w : Write α) (ws : List (Write α)) :
    run d (w :: ws) = run (Function.update d w.1 (w.2 d)) ws := rfl

theorem run_append (d : Nat → α) (ws ws' : List (Write α)) :
    run d (ws ++ ws') = run (run d ws) ws' := by
  induction ws generalizing d with
  | nil => rfl
  | cons w ws ih => exact ih _

/-- A block no write names keeps its contents. -/
theorem run_of_not_mem {ws : List (Write α)} {a : Nat} (h : ∀ w ∈ ws, w.1 ≠ a) (d : Nat → α) :
    run d ws a = d a := by
  induction ws generalizing d with
  | nil => rfl
  | cons w ws ih =>
    rw [run_cons, ih fun w' hw' => h w' (List.mem_cons_of_mem _ hw'),
      Function.update_of_ne (h w List.mem_cons_self).symm]

/-- A prefix of a program followed by its other writes. -/
theorem run_take_append (d : Nat → α) (ws ws' : List (Write α)) (k : Nat) :
    run d ((ws ++ ws').take k) = run (run d (ws.take k)) (ws'.take (k - ws.length)) := by
  rw [List.take_append, run_append]

/-- A crash within the first part of a program. -/
theorem run_take_append_of_le {ws ws' : List (Write α)} {k : Nat} (hk : k ≤ ws.length)
    (d : Nat → α) : run d ((ws ++ ws').take k) = run d (ws.take k) := by
  rw [List.take_append_of_le_length hk]

/-- A crash after the first part of a program. -/
theorem run_take_append_of_ge {ws ws' : List (Write α)} {k : Nat} (hk : ws.length ≤ k)
    (d : Nat → α) : run d ((ws ++ ws').take k) = run (run d ws) (ws'.take (k - ws.length)) := by
  rw [run_take_append, List.take_of_length_le hk]

/-- Writes of given contents, as a transaction lists them. -/
def puts (ws : List (Nat × α)) : List (Write α) := ws.map fun w => (w.1, fun _ => w.2)

@[simp] theorem puts_nil : puts ([] : List (Nat × α)) = [] := rfl

@[simp] theorem run_puts_cons (d : Nat → α) (w : Nat × α) (ws : List (Nat × α)) :
    run d (puts (w :: ws)) = run (Function.update d w.1 w.2) (puts ws) := rfl

/-! ## Agreement off a set of blocks -/

/-- The disks hold the same contents at every block outside `R`. -/
def Agree (R : Nat → Prop) (d d' : Nat → α) : Prop := ∀ a, ¬R a → d a = d' a

section Agree

variable {R : Nat → Prop} {d d' d'' : Nat → α}

@[refl] theorem Agree.refl (R : Nat → Prop) (d : Nat → α) : Agree R d d := fun _ _ => rfl

theorem Agree.symm (h : Agree R d d') : Agree R d' d := fun a ha => (h a ha).symm

theorem Agree.trans (h : Agree R d d') (h' : Agree R d' d'') : Agree R d d'' :=
  fun a ha => (h a ha).trans (h' a ha)

/-- The frame rule: writes inside `R` change nothing off `R`. -/
theorem run_agree {ws : List (Write α)} (h : ∀ w ∈ ws, R w.1) (d : Nat → α) :
    Agree R (run d ws) d :=
  fun a ha => run_of_not_mem (fun w hw he => ha (by rw [← he]; exact h w hw)) d

end Agree

/-! ## Copying programs -/

/-- A program whose every write stores `t` of its block, as long as the blocks of `S` (where
it reads, and which it never writes) are as in `d`, sets the blocks it names to `t` and leaves
the rest. -/
theorem run_eq_of_copies {S : Nat → Prop} {t d : Nat → α} {ws : List (Write α)}
    (hS : ∀ w ∈ ws, ¬S w.1)
    (hv : ∀ w ∈ ws, ∀ d', (∀ a, S a → d' a = d a) → w.2 d' = t w.1) (a : Nat) :
    run d ws a = if a ∈ ws.map Prod.fst then t a else d a := by
  induction ws generalizing d with
  | nil => simp
  | cons w ws ih =>
    have hS' : ∀ a, S a → Function.update d w.1 (w.2 d) a = d a := fun a ha =>
      Function.update_of_ne (fun he => hS w List.mem_cons_self (by rw [← he]; exact ha)) _ _
    rw [run_cons, ih (fun w' hw' => hS w' (List.mem_cons_of_mem _ hw'))
      (fun w' hw' d' hd' => hv w' (List.mem_cons_of_mem _ hw') d'
        fun a ha => (hd' a ha).trans (hS' a ha))]
    by_cases hw : a = w.1
    · subst hw
      simp only [List.map_cons, List.mem_cons, true_or, if_true, Function.update_self]
      split <;> simp [hv w List.mem_cons_self d fun _ _ => rfl]
    · simp only [List.map_cons, List.mem_cons, hw, false_or, Function.update_of_ne hw]

end Disk
