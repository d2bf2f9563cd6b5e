import Xv6.Console.Refine

/-!
# The line's place on the screen

The editor never stores where the line starts on the screen. Every handler
recomputes it as `cga_get_cursor_pos() - (input.c - input.w)`, the anchor,
and moves the hardware cursor by deltas, so the anchor is only right while
each key moves `c` and the cursor together. The arrow keys do
(`keyLeft_anchor`, `keyRight_anchor`). A Tab completing the first word with
the cursor inside it sets `c = e` but moves the hardware cursor only over the
bytes it echoes, so the anchor slides left by `e - c`; the next backspace
then computes a position before the screen and `cgaputc` panics.
-/

namespace Xv6.Console

open CInt CLoop

/-- The anchor: the screen position the handlers take the line's start to be. -/
def State.anchor (st : State) : Int :=
  cgaGetCursorPos st.cga - ((st.input.c.toNat : Int) - st.input.w.toNat)

/-! ## Highlighting leaves the cursor -/

theorem highlightCell_cursor (attr : UInt16) (g : Cga) (pos : Int32) :
    (highlightCell attr g pos).cursor = g.cursor := by
  unfold highlightCell
  split <;> rfl

theorem foldl_highlightCell_cursor (attr : UInt16) (f : Nat → Int32) (l : List Nat) (g : Cga) :
    (l.foldl (fun g k => highlightCell attr g (f k)) g).cursor = g.cursor := by
  induction l generalizing g with
  | nil => rfl
  | cons k l ih => rw [List.foldl_cons, ih, highlightCell_cursor]

theorem updateHighlight_cursor (a b : Int32) (on : Bool) (st : State) :
    (updateHighlight a b on st).cga.cursor = st.cga.cursor := by
  unfold updateHighlight
  dsimp only
  split_ifs <;> first | rfl | exact foldl_highlightCell_cursor _ _ _ _

theorem clearSelection_cursor (st : State) : (clearSelection st).cga.cursor = st.cga.cursor := by
  unfold clearSelection
  split
  · exact updateHighlight_cursor _ _ _ _
  · rfl

theorem deselectIfAny_cursor (st : State) : (deselectIfAny st).cga.cursor = st.cga.cursor := by
  rw [deselectIfAny_eq]
  split
  · exact clearSelection_cursor st
  · rfl

theorem deselectIfAny_c (st : State) : (deselectIfAny st).input.c = st.input.c := by
  rw [deselectIfAny_eq]
  split
  · rw [clearSelection_input]; rfl
  · rfl

theorem deselectIfAny_w (st : State) : (deselectIfAny st).input.w = st.input.w := by
  rw [deselectIfAny_eq]
  split
  · rw [clearSelection_input]; rfl
  · rfl

/-! ## The arrow keys keep the anchor -/

/-- KEY_LF moves the cursor and `c` back together. -/
theorem keyLeft_anchor (st : State) (hc : st.input.w.toNat < st.input.c.toNat)
    (hcur : 0 < cgaGetCursorPos st.cga) : (keyLeft st).anchor = st.anchor := by
  have h1 := deselectIfAny_cursor st
  unfold keyLeft State.anchor
  dsimp only
  rw [if_pos (by rw [deselectIfAny_c, deselectIfAny_w]; exact UInt32.lt_iff_toNat_lt.mpr hc)]
  simp only [cgaGetCursorPos_set, deselectIfAny_c, deselectIfAny_w,
    toNat_sub_one (show 0 < st.input.c.toNat by omega)]
  simp only [cgaGetCursorPos] at hcur ⊢
  rw [h1]
  have := st.cga.cursor.toNat_lt
  omega

/-- KEY_RT moves the cursor and `c` forward together, below the top of the register. -/
theorem keyRight_anchor (st : State) (hc : st.input.c.toNat < st.input.e.toNat)
    (hcur : cgaGetCursorPos st.cga + 1 < 65536) : (keyRight st).anchor = st.anchor := by
  have h1 := deselectIfAny_cursor st
  have := st.input.e.toNat_lt
  have he : (deselectIfAny st).input.e = st.input.e := by
    rw [deselectIfAny_eq]; split
    · rw [clearSelection_input]; rfl
    · rfl
  unfold keyRight State.anchor
  dsimp only
  rw [if_pos (by rw [deselectIfAny_c, he]; exact UInt32.lt_iff_toNat_lt.mpr hc)]
  simp only [cgaGetCursorPos_set, deselectIfAny_c, deselectIfAny_w,
    toNat_add_one (show st.input.c.toNat + 1 < 2 ^ 32 by omega)]
  simp only [cgaGetCursorPos] at hcur ⊢
  rw [h1]
  have := st.cga.cursor.toNat_lt
  omega

/-! ## A Tab completion moves the anchor -/

set_option maxRecDepth 100000 in
/-- From `consoleinit` with the cursor at the line's start `0`: `ca`, KEY_LF and a Tab that
completes `cat` leave `c - w = 3` with the hardware cursor at `2`; the anchor is now `-1`. -/
theorem completion_moves_anchor :
    (match consoleKeys [99, 97, 0xE4, 9] (consoleinit ⟨fun _ => 0x0720, 0⟩) with
      | .ok st => st.input.c - st.input.w == 3 && st.cga.cursor == 2 && st.input.e == 3 &&
          st.lastKeyWasTab == 0
      | .error _ => false) = true := by
  decide

set_option maxRecDepth 100000 in
/-- The same keys and a backspace: `cgaputc` panics. -/
theorem completion_then_backspace_panics :
    (match consoleKeys [99, 97, 0xE4, 9, 8] (consoleinit ⟨fun _ => 0x0720, 0⟩) with
      | .error m => m == posOverflow
      | .ok _ => false) = true := by
  decide

end Xv6.Console
