import Xv6.Console.Refine

/-!
# The shapes of the selection

`sel_start` and `sel_end` hold positions of the ring, with `-1` for "not set",
and `selecting` says whether ^S has opened a selection. The handlers keep the
selection in one of three shapes (`Input.SelShape`): none, open (^S pressed
once), or completed (^S pressed twice at different positions, ordered, and
overlapping the line). `clear_selection` makes it none, and ^S moves from one
shape to the next (`keySelect_shape`).

`consoleinit` sets none of the three: the globals are zero, so the boot state
has `sel_start = sel_end = 0`, a completed selection `[0, 0)` as far as
`sel_start != -1 && sel_end != -1` is concerned.
-/

namespace Xv6.Console

open CInt CLoop

/-- No selection. -/
def Input.SelNone (inp : Input) : Prop :=
  inp.selecting = 0 ∧ inp.selStart = -1 ∧ inp.selEnd = -1

/-- A selection opened by ^S and not yet closed. -/
def Input.SelOpen (inp : Input) : Prop :=
  inp.selecting = 1 ∧ inp.selStart ≠ -1 ∧ inp.selEnd = -1

/-- A completed selection: ordered, and overlapping the line `[w, e]`. -/
def Input.SelDone (inp : Input) : Prop :=
  inp.selecting = 0 ∧ inp.selStart < inp.selEnd ∧
    max inp.selStart.toInt inp.w.toNat ≤ min inp.selEnd.toInt inp.e.toNat

/-- The three shapes. -/
def Input.SelShape (inp : Input) : Prop := inp.SelNone ∨ inp.SelOpen ∨ inp.SelDone

instance (inp : Input) : Decidable inp.SelShape := by
  unfold Input.SelShape Input.SelNone Input.SelOpen Input.SelDone; infer_instance

/-- `clear_selection` leaves no selection when `sel_start == -1` only with `sel_end == -1`. -/
theorem clearSelection_none {st : State} (h : st.input.selStart = -1 → st.input.selEnd = -1) :
    (clearSelection st).input.SelNone := by
  rw [clearSelection_input]
  refine ⟨rfl, rfl, ?_⟩
  simp only [Input.dropSel]
  split
  · exact h ‹_›
  · rfl

/-- ^S opens a selection at the cursor, or closes the open one at the cursor: either way the
selection keeps one of the shapes, for a cursor inside the line and below `2^31`. -/
theorem keySelect_shape {st : State} (hwc : st.input.w.toNat ≤ st.input.c.toNat) (hce : st.input.c.toNat ≤ st.input.e.toNat)
    (hc : st.input.c.toNat < 2 ^ 31) : (keySelect st).input.SelShape := by
  have hc32 : st.input.c.toInt32.toInt = st.input.c.toNat := toInt_toInt32_of_lt hc
  unfold keySelect
  split
  case isTrue h0 =>
    -- opening: `sel_start = c`, which is not `-1`
    refine Or.inr (Or.inl ⟨rfl, fun he => ?_, rfl⟩)
    dsimp only at he
    have := congrArg Int32.toInt he
    simp only [clearSelection_input, Input.dropSel, hc32, show (-1 : Int32).toInt = -1 from rfl]
      at this
    omega
  case isFalse h0 =>
    -- closing at the cursor: order the ends, and drop an empty selection
    dsimp only
    by_cases hsw : st.input.selStart > st.input.c.toInt32
    case pos =>
      have hlt := Int32.lt_iff_toInt_lt.mp hsw
      rw [if_pos hsw, if_neg (fun he => by dsimp only at he; rw [he] at hlt; omega),
        updateHighlight_input]
      refine Or.inr (Or.inr ⟨rfl, hsw, ?_⟩)
      dsimp only
      omega
    case neg =>
      have hle : st.input.selStart.toInt ≤ st.input.c.toInt32.toInt := by
        rw [gt_iff_lt, Int32.lt_iff_toInt_lt] at hsw; omega
      rw [if_neg hsw]
      split
      case isTrue heq => exact Or.inl ⟨rfl, rfl, rfl⟩
      case isFalse hne =>
        rw [updateHighlight_input]
        dsimp only at hne ⊢
        have hne' : st.input.selStart.toInt ≠ st.input.c.toInt32.toInt :=
          fun he => hne (Int32.toInt_inj.mp he)
        refine Or.inr (Or.inr ⟨rfl, Int32.lt_iff_toInt_lt.mpr (by dsimp only; omega), ?_⟩)
        dsimp only
        omega

/-- `consoleinit` leaves the selection in none of the three shapes. -/
theorem consoleinit_selection_unshaped (g : Cga) : ¬(consoleinit g).input.SelShape := by
  show ¬Input.SelShape ⟨fun _ => 0, 0, 0, 0, 0, 0, 0, 0⟩
  decide

end Xv6.Console
