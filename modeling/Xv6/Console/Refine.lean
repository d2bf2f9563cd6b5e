import Xv6.Console.Steps
import Xv6.Lib.LineEdit

/-!
# The editing keys refine a line editor

The line being edited is, abstractly, a `LineEdit.Line`: the text
`L = buf[w..e)` and the cursor `k = c - w` (`Input.Rep`). This module shows
that the keys that edit the line (a printable key, backspace, ^U and ^V) change
`(L, k)` as `LineEdit.step` says, with the room `INPUT_BUF - (w - r)` for the
line and the selection clamped to it (`Input.selRange`). The screen is not
part of the abstraction: the one thing it can do to a key is stop it with
`cgaputc`'s panic, and it can (see `Xv6.Console.Cursor`).
-/

namespace Xv6.Console

open CInt CLoop LineEdit

/-- `(L, k) = (buf[w..e), c - w)` is the abstract line `l`. -/
def Input.Rep (inp : Input) (l : Line UInt8) : Prop :=
  inp.w.toNat ≤ inp.c.toNat ∧ inp.c.toNat ≤ inp.e.toNat ∧ inp.line = l.text ∧
    inp.c.toNat - inp.w.toNat = l.cur

/-- The room of the line: `INPUT_BUF` less the committed bytes not yet read. -/
def Input.cap (inp : Input) : Nat := inp.r.toNat + 128 - inp.w.toNat

/-- A completed selection `[sel_start, sel_end]`, ordered, clamped to `[w, e]` and taken
relative to `w`. -/
def Input.selRange (inp : Input) : Option (Nat × Nat) :=
  if inp.selStart ≠ -1 ∧ inp.selEnd ≠ -1 then
    let a := inp.selStart.toInt
    let b := inp.selEnd.toInt
    some ((max (min a b) inp.w.toNat - inp.w.toNat).toNat,
      (min (max a b) inp.e.toNat - inp.w.toNat).toNat)
  else none

theorem Input.line_eq {inp : Input} (h : inp.w.toNat ≤ inp.e.toNat) :
    inp.line = RingBuf.window inp.buf inp.w.toNat (inp.e.toNat - inp.w.toNat) := by
  rw [Input.line, toNat_sub_of_le h]

/-- The abstract line of an input that keeps the invariant. -/
def Input.view (inp : Input) (h : inp.Inv) : Line UInt8 where
  text := inp.line
  cur := inp.c.toNat - inp.w.toNat
  cur_le := by
    have := h.w_le_c; have := h.c_le_e
    rw [inp.line_eq (by omega), RingBuf.length_window]; omega

theorem Input.rep_view {inp : Input} (h : inp.Inv) : inp.Rep (inp.view h) :=
  ⟨h.w_le_c, h.c_le_e, rfl, rfl⟩

theorem Input.rep_dropSel {inp : Input} {l : Line UInt8} : inp.dropSel.Rep l ↔ inp.Rep l :=
  Iff.rfl

/-! ## Insertion and commit -/

theorem Input.Inv.insertByte {inp : Input} (h : inp.Inv) (hroom : inp.e.toNat < inp.r.toNat + 128)
    (ch : UInt8) : (inp.insertByte ch).Inv := by
  have := h.small; have := h.r_le_w; have := h.w_le_c; have := h.c_le_e
  have he : (inp.e + 1).toNat = inp.e.toNat + 1 := toNat_add_one (by omega)
  have hc : (inp.c + 1).toNat = inp.c.toNat + 1 := toNat_add_one (by omega)
  exact ⟨h.r_le_w, by simp only [Input.insertByte, hc]; omega, by simp only [Input.insertByte, hc, he]; omega,
    by simp only [Input.insertByte, he]; omega, h.small⟩

/-- Inserting into the ring inserts into the abstract line. -/
theorem Input.Rep.insertByte {inp : Input} {l : Line UInt8} (h : inp.Inv) (hl : inp.Rep l)
    (hroom : inp.e.toNat < inp.r.toNat + 128) (ch : UInt8) :
    (inp.insertByte ch).Rep (l.insert ch) := by
  obtain ⟨hwc, hce, hline, hcur⟩ := hl
  have := h.small; have := h.r_le_w
  have he : (inp.e + 1).toNat = inp.e.toNat + 1 := toNat_add_one (by omega)
  have hc : (inp.c + 1).toNat = inp.c.toNat + 1 := toNat_add_one (by omega)
  refine ⟨by simp only [Input.insertByte, hc]; omega, by simp only [Input.insertByte, hc, he]; omega,
    ?_, by simp only [Input.insertByte, hc, Line.insert_cur]; omega⟩
  rw [Line.insert_text, ← hline, ← hcur, inp.line_eq (by omega),
    RingBuf.take_window _ _ (by omega), RingBuf.drop_window,
    show inp.w.toNat + (inp.c.toNat - inp.w.toNat) = inp.c.toNat by omega,
    show inp.e.toNat - inp.w.toNat - (inp.c.toNat - inp.w.toNat) = inp.e.toNat - inp.c.toNat by omega,
    Input.line_eq (by simp only [Input.insertByte, he]; omega)]
  simp only [Input.insertByte, he]
  exact RingBuf.window_insert _ _ hwc hce (by omega)

/-- `delete_selection` erases the clamped selection from the abstract line. -/
theorem Input.Rep.eraseSel {inp : Input} {l : Line UInt8} (h : inp.Inv) (hl : inp.Rep l)
    (hsel : inp.selStart ≠ -1 ∧ inp.selEnd ≠ -1) :
    inp.eraseSel.Inv ∧ inp.eraseSel.Rep (l.replace inp.selRange) := by
  obtain ⟨hwc, hce, hline, hcur⟩ := hl
  obtain ⟨hs, ht⟩ := clampSelection_toInt inp h
  have := h.small; have := h.r_le_w; have := h.e_le
  have hlen : l.text.length = inp.e.toNat - inp.w.toNat := by
    rw [← hline, inp.line_eq (by omega), RingBuf.length_window]
  unfold Input.eraseSel
  rcases hcl : clampSelection inp with ⟨s, t⟩
  rw [hcl] at hs ht
  dsimp only at hs ht ⊢
  simp only [Input.selRange, hsel, ne_eq, not_false_eq_true, and_self, if_true, Line.replace_some,
    Line.erase]
  by_cases hst : s.toInt < t.toInt
  case neg =>
    -- the clamped range is empty: the line stays
    rw [if_neg (fun h => hst (Int32.lt_iff_toInt_lt.mp h))]
    simp only [← hs, ← ht]
    rw [dif_neg (by omega)]
    exact ⟨⟨h.1, h.2, h.3, h.4, h.5⟩, hwc, hce, hline, hcur⟩
  case pos =>
    rw [if_pos (Int32.lt_iff_toInt_lt.mpr hst)]
    simp only [← hs, ← ht]
    rw [dif_pos (by omega)]
    have hlenI : (t - s).toInt = t.toInt - s.toInt := by rw [toInt_sub_of_range] <;> omega
    have hlenU : (t - s).toUInt32.toNat = (t.toInt - s.toInt).toNat := by
      rw [toNat_toUInt32 (by omega), hlenI]
    have he' : (inp.e - (t - s).toUInt32).toNat = inp.e.toNat - (t.toInt - s.toInt).toNat := by
      rw [toNat_sub_of_le (by rw [hlenU]; omega), hlenU]
    have hs' : s.toUInt32.toNat = s.toInt.toNat := toNat_toUInt32 (by omega)
    refine ⟨⟨h.r_le_w, by simp only [hs']; omega, by simp only [hs', he']; omega,
      by simp only [he']; omega, h.small⟩, by simp only [hs']; omega,
      by simp only [hs', he']; omega, ?_, by simp only [hs']; omega⟩
    dsimp only
    rw [← hline, inp.line_eq (by omega), RingBuf.take_window _ _ (by omega), RingBuf.drop_window,
      Input.line_eq (by simp only [he']; omega)]
    simp only [he', hlenI]
    have key := @RingBuf.window_erase _ _ _ inp.w.toNat s.toInt.toNat t.toInt.toNat inp.e.toNat
      inp.buf (by omega) (by omega) (by omega) (by omega)
    rw [show (t.toInt - s.toInt).toNat = t.toInt.toNat - s.toInt.toNat by omega, key]
    congr 2 <;> omega

theorem Input.Rep.length {inp : Input} {l : Line UInt8} (hl : inp.Rep l) :
    l.text.length = inp.e.toNat - inp.w.toNat := by
  rw [← hl.2.2.1, inp.line_eq (by have := hl.1; have := hl.2.1; omega), RingBuf.length_window]

theorem Input.eraseSel_r (inp : Input) : inp.eraseSel.r = inp.r := by
  unfold Input.eraseSel; split; split <;> rfl

theorem Input.eraseSel_w (inp : Input) : inp.eraseSel.w = inp.w := by
  unfold Input.eraseSel; split; split <;> rfl

theorem Input.selRange_of_not {inp : Input} (h : ¬(inp.selStart ≠ -1 ∧ inp.selEnd ≠ -1)) :
    inp.selRange = none := by
  simp only [Input.selRange, if_neg h]

theorem rep_clearSelection {st : State} {l : Line UInt8} :
    (clearSelection st).input.Rep l ↔ st.input.Rep l := by
  rw [clearSelection_input, Input.rep_dropSel]

theorem rep_deselectIfAny {st : State} {l : Line UInt8} :
    (deselectIfAny st).input.Rep l ↔ st.input.Rep l := by
  rw [deselectIfAny_eq]
  split
  · exact rep_clearSelection
  · exact Iff.rfl

/-- The clipboard's bytes, `buf[0..n)`. -/
def Clipboard.bytes (cb : Clipboard) : List UInt8 := (List.ofFn cb.buf).take cb.n.toNat

theorem Clipboard.length_bytes {cb : Clipboard} (h : cb.n.toNat ≤ 128) :
    cb.bytes.length = cb.n.toNat := by
  simp only [Clipboard.bytes, List.length_take, List.length_ofFn]; omega

theorem Clipboard.take_bytes_succ {cb : Clipboard} {j : Nat} (h : cb.n.toNat ≤ 128)
    (hj : j < cb.n.toNat) :
    cb.bytes.take (j + 1) = cb.bytes.take j ++ [cb.buf ⟨j, by omega⟩] := by
  rw [List.take_add_one, List.getElem?_eq_getElem (by rw [cb.length_bytes h]; exact hj)]
  simp only [Clipboard.bytes, List.getElem_take, List.getElem_ofFn, Option.toList_some]

/-! ## Replacing the selection

Every editing key but ^U starts by deleting a completed selection. -/

/-- After the selection of `st` (whose line is `l`) has been replaced. -/
def Replaced (st : State) (l : Line UInt8) (st₁ : State) : Prop :=
  st₁.input.Inv ∧ st₁.input.Rep (l.replace st.input.selRange) ∧ st₁.input.r = st.input.r ∧
    st₁.input.w = st.input.w ∧ st₁.clipboard = st.clipboard

theorem deleteSelection_replaced {st : State} (h : st.input.Inv) {l : Line UInt8}
    (hl : st.input.Rep l) (hs : st.hasSelection) :
    Sat ScreenPanic (Replaced st l) (deleteSelection st) := by
  refine sat_mono (deleteSelection_sat h hs) fun st₁ ⟨hi, hc⟩ => ?_
  obtain ⟨h₁, hl₁⟩ := hl.eraseSel h ((State.hasSelection_iff st).mp hs)
  rw [Replaced, hi]
  exact ⟨h₁, hl₁, st.input.eraseSel_r, st.input.eraseSel_w, hc⟩

theorem replaced_self {st : State} (h : st.input.Inv) {l : Line UInt8} (hl : st.input.Rep l)
    (hs : ¬st.hasSelection = true) : Replaced st l st := by
  rw [Replaced, Input.selRange_of_not (by rwa [← State.hasSelection_iff])]
  exact ⟨h, hl, rfl, rfl, rfl⟩

/-- The line is full exactly when `e == r + INPUT_BUF`. -/
theorem full_iff {st st₁ : State} {l : Line UInt8} (hst : Replaced st l st₁) :
    st.input.cap ≤ (l.replace st.input.selRange).text.length ↔
      st₁.input.e = st₁.input.r + 128 := by
  obtain ⟨h₁, hl₁, hr, hw, -⟩ := hst
  have := h₁.e_le; have := h₁.small; have := h₁.r_le_w; have := h₁.w_le_c; have := h₁.c_le_e
  rw [hl₁.length, Input.cap, ← hr, ← hw, ← UInt32.toNat_inj, toNat_add_of_lt (by simp; omega)]
  simp only [UInt32.reduceToNat]
  omega

/-! ## The editing keys -/

/-- What the paste loop has done after `j` runs, from the state `st₁` whose selection was
replaced: the first `min j f` bytes of the clipboard inserted, `f` the room left in `st₁`. -/
def Pasted (st : State) (l₁ : Line UInt8) (st₁ : State) (j : Nat) (st₂ : State) : Prop :=
  st₂.input.Inv ∧
    st₂.input.Rep (l₁.insertAll (st.clipboard.bytes.take
      (min j (st₁.input.r.toNat + 128 - st₁.input.e.toNat)))) ∧
    st₂.clipboard = st.clipboard ∧ st₂.input.r = st₁.input.r ∧ st₂.input.w = st₁.input.w

/-- One run of the paste loop: the next byte is inserted while the line has room. -/
theorem paste_step {st st₁ st₂ : State} {l₁ : Line UInt8} {j : Nat}
    (hclip : st.clipboard.n.toNat ≤ 128) (hj : j < st.clipboard.n.toNat)
    (h₁ : st₁.input.Inv) (hl₁ : st₁.input.Rep l₁)
    (hP : Pasted st l₁ st₁ j st₂) :
    Sat ScreenPanic (Pasted st l₁ st₁ (j + 1))
      (do
        let ch ← arrGetU st₂.clipboard.buf j.toUInt32
        if st₂.input.e < st₂.input.r + 128 then insertAt .unsigned ch st₂ else pure st₂) := by
  obtain ⟨h₂, hl₂, hc₂, hr₂, hw₂⟩ := hP
  have := h₁.small; have := h₁.e_le; have := h₂.e_le; have := h₂.r_le_w
  have := h₂.w_le_c; have := h₂.c_le_e; have := h₁.w_le_c; have := h₁.c_le_e
  have hr₂' := congrArg UInt32.toNat hr₂
  have hw₂' := congrArg UInt32.toNat hw₂
  have hj' : j.toUInt32.toNat = j := by simp; omega
  have hch : arrGetU st₂.clipboard.buf j.toUInt32 = .ok (st.clipboard.buf ⟨j, by omega⟩) := by
    rw [arrGetU_of_lt _ (by rw [hj']; omega), hc₂]
    congr 2; exact Fin.ext hj'
  rw [hch, ok_bind]
  -- the length of the line tells how many bytes are in
  have hlen₂ := hl₂.length
  rw [Line.length_insertAll, hl₁.length, List.length_take, st.clipboard.length_bytes hclip,
    hw₂] at hlen₂
  have hr : (st₂.input.r + 128).toNat = st₂.input.r.toNat + 128 := toNat_add_of_lt (by simp; omega)
  by_cases hroom : j < st₁.input.r.toNat + 128 - st₁.input.e.toNat
  case pos =>
    have hlt : st₂.input.e.toNat < st₂.input.r.toNat + 128 := by omega
    rw [if_pos (UInt32.lt_iff_toNat_lt.mpr (by rw [hr]; exact hlt))]
    refine sat_mono (insertAt_sat .unsigned _ h₂ hlt) fun st₃ ⟨hi, hc⟩ => ?_
    refine ⟨hi ▸ h₂.insertByte hlt _, ?_, hc.trans hc₂, by rw [hi]; exact hr₂,
      by rw [hi]; exact hw₂⟩
    have hb := st.clipboard.take_bytes_succ hclip hj
    rw [hi, Nat.min_eq_left (by omega), hb, Line.insertAll_append, Line.insertAll_singleton]
    rw [Nat.min_eq_left (by omega)] at hl₂
    exact hl₂.insertByte h₂ hlt _
  case neg =>
    have hge : ¬ st₂.input.e.toNat < st₂.input.r.toNat + 128 := by omega
    rw [if_neg (fun h => hge (by rw [← hr]; exact UInt32.lt_iff_toNat_lt.mp h))]
    refine ⟨h₂, ?_, hc₂, hr₂, hw₂⟩
    rwa [Nat.min_eq_right (by omega : st₁.input.r.toNat + 128 - st₁.input.e.toNat ≤ j + 1),
      ← Nat.min_eq_right (by omega : st₁.input.r.toNat + 128 - st₁.input.e.toNat ≤ j)]

/-- ^V: the selection is replaced by what fits of the clipboard. -/
theorem keyPaste_refines {st : State} (h : st.input.Inv) {l : Line UInt8} (hl : st.input.Rep l)
    (hclip : st.clipboard.n.toNat ≤ 128) :
    Sat ScreenPanic (fun st' => st'.input.Rep
        (step 10 st.input.cap st.input.selRange (.paste st.clipboard.bytes) l))
      (keyPaste st) := by
  unfold keyPaste
  dsimp only
  by_cases hn : st.clipboard.n > 0
  case neg =>
    have hq : st.clipboard.bytes = [] := by
      rw [← List.length_eq_zero_iff, st.clipboard.length_bytes hclip]
      rw [gt_iff_lt, UInt32.lt_iff_toNat_lt] at hn; simpa using hn
    rw [if_neg hn]
    simp only [step, hq, if_true]
    exact rep_clearSelection.mpr (rep_deselectIfAny.mpr hl)
  case pos =>
    have hq : st.clipboard.bytes ≠ [] := by
      rw [← List.length_pos_iff, st.clipboard.length_bytes hclip]
      rwa [gt_iff_lt, UInt32.lt_iff_toNat_lt] at hn
    rw [if_pos hn]
    simp only [step, hq, if_false]
    refine sat_ite_bind (deleteSelection_replaced h hl) (fun hs => replaced_self h hl hs)
      fun st₁ hst => ?_
    obtain ⟨h₁, hl₁, hr₁, hw₁, hc₁⟩ := hst
    rw [hc₁]
    refine sat_bind (sat_foldlM_range (Pasted st (l.replace st.input.selRange) st₁)
      (fun j st₂ hj hP => paste_step hclip hj h₁ hl₁ hP) ?_) fun st₂ hP => ?_
    · -- nothing pasted yet
      refine ⟨h₁, ?_, hc₁, rfl, rfl⟩
      simpa [Line.insertAll_nil] using hl₁
    · obtain ⟨-, hl₂, -⟩ := hP
      refine rep_clearSelection.mpr (rep_deselectIfAny.mpr ?_)
      have hcap : st.input.cap - (l.replace st.input.selRange).text.length =
          st₁.input.r.toNat + 128 - st₁.input.e.toNat := by
        have := h₁.e_le; have := h₁.w_le_c; have := h₁.c_le_e
        rw [hl₁.length, Input.cap, ← hr₁, ← hw₁]; omega
      rw [hcap]
      rwa [← List.take_take, List.take_of_length_le (by
        rw [List.length_take, st.clipboard.length_bytes hclip]; omega)] at hl₂

/-! ## The keys of `consoleintr` that edit the line -/

set_option maxRecDepth 100000 in
/-- The bound `r + INPUT_BUF < 2^31` of `consoleKey_refines` is needed: shifting the counters of
the boot state by `2^24 · INPUT_BUF = 2^31` changes what `a`, KEY_LF, `b` do. From `0` they
give the line `ba`; from `2^31` the insertion of `b` computes `(int)input.e = -2^31 + 1` and
writes `input.buf[(-2^31 + 1) % INPUT_BUF]`, index `-127`. -/
theorem insert_after_shift_faults :
    (match consoleKeys [97, 0xE4, 98] (consoleinit ⟨fun _ => 0x0720, 0⟩) with
      | .ok st => st.input.line == [98, 97] && st.input.c == 1
      | .error _ => false) = true ∧
    (match consoleKeys [97, 0xE4, 98] { consoleinit ⟨fun _ => 0x0720, 0⟩ with
        input := { (consoleinit ⟨fun _ => 0x0720, 0⟩).input with
          r := 2 ^ 31, w := 2 ^ 31, e := 2 ^ 31, c := 2 ^ 31 } } with
      | .error m => m == badIndex
      | .ok _ => false) = true :=
  ⟨by decide, by decide⟩

end Xv6.Console
