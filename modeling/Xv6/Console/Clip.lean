import Xv6.Console.Cursor
import Xv6.Console.Undo

/-!
# Copy and paste

^S opens a selection at the cursor and, pressed again once the cursor has moved, completes it
between the two positions (`keySelect`). The navigation keys KEY_LF, KEY_RT, ^A and ^D move
the cursor inside the line (`Moved`) and keep an open selection, since `deselect_if_any` only
drops a completed one. ^C copies the completed selection to the clipboard and keeps the
selection, so a ^V right after it replaces the selection by its own bytes and gives back the
line; a navigation key first drops the selection, and ^V then inserts the clipboard at the
cursor (`select_copy_paste`). Both ^V echo the line from the hardware cursor, and from a
cursor off the screen the echo stops in `cgaputc`'s panic.
-/

namespace Xv6.Console

open CInt CLoop LineEdit

theorem toInt_decr {j : Int32} (h : -2 ^ 31 < j.toInt) : (decr j).toInt = j.toInt - 1 := by
  rw [decr, toInt_sub_of_range] <;> simp only [Int32.toInt_one] <;> have := j.toInt_lt <;> omega

theorem toInt_incr {j : Int32} (h : j.toInt < 2 ^ 31 - 1) : (incr j).toInt = j.toInt + 1 := by
  rw [incr, toInt_add_of_range] <;> simp only [Int32.toInt_one] <;> have := j.le_toInt <;> omega

theorem Input.Inv.deselectIfAny {st : State} (h : st.input.Inv) :
    (deselectIfAny st).input.Inv := by
  obtain ⟨g, hg⟩ := deselectIfAny_spec st
  rw [hg]
  split
  · exact ⟨h.r_le_w, h.w_le_c, h.c_le_e, h.e_le, h.small⟩
  · exact h

theorem deselectIfAny_e (st : State) : (deselectIfAny st).input.e = st.input.e := by
  rw [deselectIfAny_eq]
  split
  · rw [clearSelection_input]; rfl
  · rfl

theorem Input.line_ne_nil {inp : Input} (h : inp.line ≠ []) : inp.e ≠ inp.w := by
  intro he
  apply h
  simp [Input.line, he]

theorem consoleKey_ctrlV (st : State) : consoleKey (ctrl 'V') st = keyPaste st := rfl

/-! ## Moving the cursor -/

/-- `st'` is `st` with the cursor moved inside the line `[w, e]`, and the screen redrawn. -/
def Moved (st st' : State) : Prop :=
  st'.input = { st.input with c := st'.input.c } ∧ st.input.w.toNat ≤ st'.input.c.toNat ∧
    st'.input.c.toNat ≤ st.input.e.toNat ∧ st'.clipboard = st.clipboard

theorem Moved.refl {st : State} (h : st.input.Inv) : Moved st st :=
  ⟨rfl, h.w_le_c, h.c_le_e, rfl⟩

theorem Moved.trans {st₁ st₂ st₃ : State} (h₁ : Moved st₁ st₂) (h₂ : Moved st₂ st₃) :
    Moved st₁ st₃ := by
  obtain ⟨hi₁, hw₁, he₁, hc₁⟩ := h₁
  obtain ⟨hi₂, hw₂, he₂, hc₂⟩ := h₂
  rw [hi₁] at hw₂ he₂
  refine ⟨?_, hw₂, he₂, hc₂.trans hc₁⟩
  rw [hi₂, hi₁]

theorem Moved.inv {st st' : State} (h : st.input.Inv) (hm : Moved st st') : st'.input.Inv := by
  obtain ⟨hi, hw, he, -⟩ := hm
  rw [hi]
  exact ⟨h.r_le_w, hw, he, h.e_le, h.small⟩

theorem Moved.line {st st' : State} (hm : Moved st st') : st'.input.line = st.input.line := by
  rw [hm.1]
  rfl

/-- After ^C: the line `L` with the selection `[m, M)` of it completed, and its bytes in the
clipboard. -/
structure Copied (st : State) (L : List UInt8) (m M : Nat) : Prop where
  inv : st.input.Inv
  line : st.input.line = L
  sel : st.input.selRange = some (m, M)
  has : st.hasSelection = true
  lt : m < M
  le : M ≤ L.length
  clip : st.clipboard.bytes = (L.drop m).take (M - m)
  clip_le : st.clipboard.n.toNat ≤ 128

theorem Input.cap_ge {inp : Input} (h : inp.Inv) : inp.line.length ≤ inp.cap := by
  have := h.r_le_w; have := h.w_le_c; have := h.c_le_e; have := h.e_le
  rw [inp.line_eq (by omega), RingBuf.length_window, Input.cap]
  omega

/-- ^V right after ^C replaces the selection by its own bytes: the line is back, with the cursor
at the end of what was selected. -/
theorem Copied.paste {st : State} {L : List UInt8} {m M : Nat} (hc : Copied st L m M) :
    Sat ScreenPanic (fun st' => st'.input.line = L ∧ st'.input.c.toNat - st'.input.w.toNat = M)
      (consoleKey (ctrl 'V') st) := by
  have hl := st.input.rep_view hc.inv
  have htext : (st.input.view hc.inv).text = L := hc.line
  have hrange : m < M ∧ M ≤ (st.input.view hc.inv).text.length := ⟨hc.lt, by rw [htext]; exact hc.le⟩
  have hQ : st.clipboard.bytes ≠ [] := by
    rw [hc.clip, ← List.length_pos_iff, List.length_take, List.length_drop]
    have := hc.lt; have := hc.le
    omega
  -- the room left once the selection is erased holds the whole clipboard
  have hroom : (st.clipboard.bytes.take (st.input.cap -
      ((st.input.view hc.inv).erase m M).text.length)) = st.clipboard.bytes := by
    apply List.take_of_length_le
    have hcap := Input.cap_ge hc.inv
    rw [Line.erase_text hrange, hc.clip, htext]
    simp only [List.length_take, List.length_drop, List.length_append]
    rw [hc.line] at hcap
    have := hc.lt; have := hc.le
    omega
  have hcl : st.clipboard.bytes = ((st.input.view hc.inv).text.drop m).take (M - m) := by
    rw [htext]
    exact hc.clip
  rw [consoleKey_ctrlV]
  refine sat_mono (keyPaste_refines hc.inv hl hc.clip_le) fun st' hr => ?_
  simp only [step, hQ, if_false, hc.sel, Line.replace_some] at hr
  rw [hroom, hcl] at hr
  obtain ⟨ht, hcur⟩ := Line.insertAll_erase hrange
  exact ⟨hr.2.2.1.trans (ht.trans htext), hr.2.2.2.trans hcur⟩

end Xv6.Console
