import Mathlib

/-!
# A line editor

The abstract view of a line being edited: its text and a cursor that is never
past its end (`Line`). The edits are those of a terminal line discipline:
insert at the cursor, erase a range (a selection) leaving the cursor at its
start, erase before the cursor, clear the line, and insert a list (a paste).

`step` is one key of such an editor on a line with room for `cap` elements,
where a key first replaces the current selection: a character is inserted, or
ends the line (it is `nl`, or the line is full); a paste inserts what fits.
-/

namespace LineEdit

variable {α : Type}

/-- A line and its cursor. -/
structure Line (α : Type) where
  text : List α
  cur : Nat
  cur_le : cur ≤ text.length

namespace Line

/-- The empty line. -/
def empty : Line α := ⟨[], 0, le_rfl⟩

/-- `x` inserted at the cursor, the cursor after it. -/
def insert (x : α) (l : Line α) : Line α :=
  ⟨l.text.take l.cur ++ x :: l.text.drop l.cur, l.cur + 1, by
    have := l.cur_le
    simp only [List.length_append, List.length_take, List.length_cons, List.length_drop]
    omega⟩

/-- `[s, t)` erased and the cursor left at `s`; an empty range, or one past the end, erases
nothing. -/
def erase (s t : Nat) (l : Line α) : Line α :=
  if h : s < t ∧ t ≤ l.text.length then
    ⟨l.text.take s ++ l.text.drop t, s, by
      simp only [List.length_append, List.length_take, List.length_drop]
      omega⟩
  else l

/-- The element before the cursor erased. -/
def backspace (l : Line α) : Line α :=
  if 0 < l.cur then l.erase (l.cur - 1) l.cur else l

/-- `xs` inserted at the cursor, one element after another. -/
def insertAll (xs : List α) (l : Line α) : Line α := xs.foldl (fun l x => l.insert x) l

/-- The selection `[s, t)`, if there is one, erased. -/
def replace (sel : Option (Nat × Nat)) (l : Line α) : Line α :=
  match sel with
  | none => l
  | some (s, t) => l.erase s t

@[simp] theorem empty_text : (empty : Line α).text = [] := rfl

@[simp] theorem empty_cur : (empty : Line α).cur = 0 := rfl

@[simp] theorem insert_text (x : α) (l : Line α) :
    (l.insert x).text = l.text.take l.cur ++ x :: l.text.drop l.cur := rfl

@[simp] theorem insert_cur (x : α) (l : Line α) : (l.insert x).cur = l.cur + 1 := rfl

@[simp] theorem replace_some (s t : Nat) (l : Line α) : l.replace (some (s, t)) = l.erase s t :=
  rfl

theorem length_insert (x : α) (l : Line α) : (l.insert x).text.length = l.text.length + 1 := by
  have := l.cur_le
  simp only [insert_text, List.length_append, List.length_take, List.length_cons,
    List.length_drop]
  omega

theorem ext_iff' {l m : Line α} : l = m ↔ l.text = m.text ∧ l.cur = m.cur := by
  cases l; cases m; simp

theorem insertAll_nil (l : Line α) : l.insertAll [] = l := rfl

theorem insertAll_append (xs ys : List α) (l : Line α) :
    l.insertAll (xs ++ ys) = (l.insertAll xs).insertAll ys := by
  simp [insertAll, List.foldl_append]

theorem insertAll_singleton (x : α) (l : Line α) : l.insertAll [x] = l.insert x := rfl

/-- A paste puts the whole list at the cursor and the cursor after it. -/
theorem insertAll_spec (xs : List α) (l : Line α) :
    (l.insertAll xs).text = l.text.take l.cur ++ xs ++ l.text.drop l.cur ∧
      (l.insertAll xs).cur = l.cur + xs.length := by
  induction xs using List.reverseRecOn with
  | nil => simp [insertAll_nil]
  | append_singleton xs x ih =>
    obtain ⟨ht, hc⟩ := ih
    have hle := l.cur_le
    rw [insertAll_append, insertAll_singleton, insert_text, insert_cur, ht, hc]
    refine ⟨?_, by simp; omega⟩
    have hk : l.cur + xs.length = (List.take l.cur l.text ++ xs).length := by
      simp; omega
    rw [hk, List.take_left, List.drop_left]
    simp

theorem length_insertAll (xs : List α) (l : Line α) :
    (l.insertAll xs).text.length = l.text.length + xs.length := by
  have := l.cur_le
  rw [(insertAll_spec xs l).1]
  simp only [List.length_append, List.length_take, List.length_drop]
  omega

theorem erase_text {s t : Nat} {l : Line α} (h : s < t ∧ t ≤ l.text.length) :
    (l.erase s t).text = l.text.take s ++ l.text.drop t := by
  simp [erase, h]

theorem erase_cur {s t : Nat} {l : Line α} (h : s < t ∧ t ≤ l.text.length) :
    (l.erase s t).cur = s := by
  simp [erase, h]

/-- Erasing `[s, t)` and inserting what it held gives back the text, with the cursor at `t`. -/
theorem insertAll_erase {s t : Nat} {l : Line α} (h : s < t ∧ t ≤ l.text.length) :
    ((l.erase s t).insertAll ((l.text.drop s).take (t - s))).text = l.text ∧
      ((l.erase s t).insertAll ((l.text.drop s).take (t - s))).cur = t := by
  obtain ⟨ht, hc⟩ := insertAll_spec ((l.text.drop s).take (t - s)) (l.erase s t)
  have hs : (l.text.take s).length = s := by simp; omega
  refine ⟨?_, ?_⟩
  · rw [ht, erase_text h, erase_cur h, List.take_left' hs, List.drop_left' hs, List.append_assoc]
    conv_rhs => rw [← List.take_append_drop s l.text, ← List.take_append_drop (t - s) (l.text.drop s)]
    rw [List.drop_drop]
    congr 3
    omega
  · rw [hc, erase_cur h]
    simp only [List.length_take, List.length_drop]
    omega

end Line

/-! ## Words

A separator test `ws` splits a text into words: a word starts at an element that is not a
separator and is the first one or follows a separator. `wordLeft` is the greatest word start
below an offset, or `0` when there is none; `wordRight` is the least one above it, or the offset
itself when there is none. -/

section Words

variable (ws : α → Bool) (text : List α)

/-- `p` starts a word of `text`. -/
def WordStart (p : Nat) : Prop :=
  text[p]?.map ws = some false ∧ (p = 0 ∨ text[p - 1]?.map ws = some true)

instance : DecidablePred (WordStart ws text) := fun _ => inferInstanceAs (Decidable (_ ∧ _))

/-- The greatest word start below `q`, or `0`. -/
def wordLeft (q : Nat) : Nat := Nat.findGreatest (fun p => p < q ∧ WordStart ws text p) q

/-- The least word start above `q`, or `q`. -/
def wordRight (q : Nat) : Nat :=
  ((List.range text.length).find? fun p => decide (q < p ∧ WordStart ws text p)).getD q

variable {ws text}

theorem WordStart.lt_length {p : Nat} (h : WordStart ws text p) : p < text.length := by
  by_contra hp
  have h1 := h.1
  rw [List.getElem?_eq_none (by omega)] at h1
  cases h1

theorem not_wordStart_of_sep {p : Nat} (h : text[p]?.map ws = some true) :
    ¬WordStart ws text p := fun hs => by
  rw [hs.1] at h
  cases h

theorem not_wordStart_of_prev {p : Nat} (hp : 0 < p) (h : text[p - 1]?.map ws = some false) :
    ¬WordStart ws text p := fun hs => by
  rcases hs.2 with h0 | h1
  · omega
  · rw [h1] at h
    cases h

theorem wordLeft_eq {q p : Nat} (hp : WordStart ws text p) (hpq : p < q)
    (hmax : ∀ p', p < p' → p' < q → ¬WordStart ws text p') : wordLeft ws text q = p := by
  rw [wordLeft, Nat.findGreatest_eq_iff]
  exact ⟨by omega, fun _ => ⟨hpq, hp⟩, fun p' hp' _ h => hmax p' hp' h.1 h.2⟩

theorem wordLeft_eq_zero {q : Nat} (hnone : ∀ p, 0 < p → p < q → ¬WordStart ws text p) :
    wordLeft ws text q = 0 := by
  rw [wordLeft, Nat.findGreatest_eq_iff]
  exact ⟨by omega, fun h => absurd rfl h, fun p hp _ h => hnone p hp h.1 h.2⟩

theorem wordRight_eq {q p : Nat} (hp : WordStart ws text p) (hqp : q < p)
    (hmin : ∀ p', q < p' → p' < p → ¬WordStart ws text p') : wordRight ws text q = p := by
  have hfind : (List.range text.length).find? (fun p => decide (q < p ∧ WordStart ws text p)) =
      some p := by
    rw [List.find?_range_eq_some]
    refine ⟨by simp [hqp, hp], List.mem_range.mpr hp.lt_length, fun j hj => ?_⟩
    by_cases hq : q < j
    · simp [hq, hmin j hq hj]
    · simp [hq]
  rw [wordRight, hfind, Option.getD_some]

theorem wordRight_eq_self {q : Nat} (hnone : ∀ p, q < p → ¬WordStart ws text p) :
    wordRight ws text q = q := by
  have hfind : (List.range text.length).find? (fun p => decide (q < p ∧ WordStart ws text p)) =
      none := by
    rw [List.find?_eq_none]
    intro p _ h
    simp only [decide_eq_true_eq] at h
    exact hnone p h.1 h.2
  rw [wordRight, hfind, Option.getD_none]

end Words

/-- The keys of the editor. -/
inductive Key (α : Type) where
  | char (x : α)
  | erase
  | kill
  | paste (q : List α)
  deriving DecidableEq

open Line in
/-- One key on a line with room for `cap` elements and the selection `sel`; `nl` ends the
line. -/
def step [DecidableEq α] (nl : α) (cap : Nat) (sel : Option (Nat × Nat)) :
    Key α → Line α → Line α
  | .char x, l =>
    let l := l.replace sel
    if x = nl ∨ cap ≤ l.text.length then empty else l.insert x
  | .erase, l =>
    match sel with
    | some (s, t) => l.erase s t
    | none => l.backspace
  | .kill, _ => empty
  | .paste q, l =>
    if q = [] then l
    else
      let l := l.replace sel
      l.insertAll (q.take (cap - l.text.length))

end LineEdit
