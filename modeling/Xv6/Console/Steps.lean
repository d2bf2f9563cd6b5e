import Xv6.Console.Read
import Xv6.Lib.Sat

/-!
# What each step of a key handler does

The handlers of `consoleintr` are built from a few steps: `cgaputc` and the
cursor register on the screen side, and on the ring side the `int`-indexed
reads and writes `input.buf[i % INPUT_BUF]` inside shifting loops. This
module gives each step one specification, in the form `Sat ScreenPanic P`:
with the ring's positions below `2^31` every index is in range, so the only
failure left is `cgaputc`'s `panic("pos under/overflow")`, and `P` says
exactly what the step did to the state.

* `shiftUp_eq`, `shiftDown_eq`: the shifting loops are `RingBuf.moveUp` and
  `RingBuf.moveDown` on the positions.
* `insertAt_sat`, `deleteSelection_sat`: the effect of an insertion at the
  cursor (`Input.insertByte`) and of the deletion of a selection
  (`Input.eraseRange`).
* `clearSelection_input`, `deselectIfAny_input`: dropping the selection only
  touches the selection fields and the screen.

`Input.Inv` is the counter invariant `r ≤ w ≤ c ≤ e ≤ r + INPUT_BUF` with
`r + INPUT_BUF < 2^31`, so that `(int)` of every counter a handler computes is
the counter itself.
-/

namespace Xv6.Console

open CInt CLoop

/-- The one failure left once every index is in range: `cgaputc`'s position check. -/
def ScreenPanic (m : String) : Prop := m = posOverflow

/-- The line invariant `r ≤ w ≤ c ≤ e ≤ r + INPUT_BUF`, with positions below `2^31`. -/
structure Input.Inv (inp : Input) : Prop where
  r_le_w : inp.r.toNat ≤ inp.w.toNat
  w_le_c : inp.w.toNat ≤ inp.c.toNat
  c_le_e : inp.c.toNat ≤ inp.e.toNat
  e_le : inp.e.toNat ≤ inp.r.toNat + 128
  small : inp.r.toNat + 128 < 2 ^ 31

/-! ## The screen -/

theorem cgaputc_sat (c : Int) (g : Cga) : Sat ScreenPanic (fun _ => True) (cgaputc c g) := by
  simp only [cgaputc]
  split_ifs <;> first | rfl | trivial

theorem consputc_sat (c : Int) (g : Cga) : Sat ScreenPanic (fun _ => True) (consputc c g) :=
  cgaputc_sat c g

theorem putN_sat (c : Int) (n : Nat) (g : Cga) : Sat ScreenPanic (fun _ => True) (putN c n g) :=
  sat_loop (fun _ _ => True) (fun _ g _ _ => consputc_sat c g) trivial

theorem putStr_sat (s : List UInt8) (g : Cga) : Sat ScreenPanic (fun _ => True) (putStr s g) :=
  sat_foldlM (fun _ => True) (fun b _ g _ => consputc_sat b.toNat g) trivial

/-! ## `int` loop counters -/

theorem toInt_iterate_incr {i : Int32} {k : Nat} (h0 : 0 ≤ i.toInt) (h : i.toInt + k < 2 ^ 31) :
    (incr^[k] i).toInt = i.toInt + k := by
  induction k with
  | zero => simp
  | succ k ih =>
    rw [Function.iterate_succ_apply', incr, toInt_add_of_range, ih (by omega)] <;>
      simp only [ih (by omega), Int32.toInt_one] <;> omega

theorem toInt_toInt32_of_lt {x : UInt32} (h : x.toNat < 2 ^ 31) : x.toInt32.toInt = x.toNat :=
  sint_of_lt h

/-- Both comparisons count `hi - lo` runs for bounds below `2^31`. -/
theorem Cmp.trips_of_le (cmp : Cmp) {hi lo : UInt32} (hle : lo.toNat ≤ hi.toNat)
    (hhi : hi.toNat < 2 ^ 31) : cmp.trips hi lo = hi.toNat - lo.toNat := by
  cases cmp with
  | signed => simp only [Cmp.trips, sint_of_lt hhi, sint_of_lt (show lo.toNat < 2 ^ 31 by omega)]; omega
  | unsigned => rfl

/-! ## The ring -/

/-- `input.buf[a % INPUT_BUF] = input.buf[b % INPUT_BUF]` for nonnegative `int`s. -/
theorem Input.copy_of_nonneg (inp : Input) {a b : Int32} (ha : 0 ≤ a.toInt) (hb : 0 ≤ b.toInt) :
    (do inp.putI a (← inp.atI b)) = .ok { inp with
      buf := RingBuf.set inp.buf a.toInt.toNat (RingBuf.get inp.buf b.toInt.toNat) } := by
  rw [inp.atI_of_nonneg hb, ok_bind, inp.putI_of_nonneg _ ha]

/-- `for (i = hi; i > hi - n; i--) input.buf[i % INPUT_BUF] = input.buf[(i - 1) % INPUT_BUF]`
opens a gap: `moveUp` by one. -/
theorem shiftUp_eq (inp : Input) {n : Nat} {i : Int32} (hn : (n : Int) ≤ i.toInt) :
    loop decr (fun i inp => do inp.putI i (← inp.atI (i - 1))) n i inp =
      .ok { inp with buf := RingBuf.moveUp inp.buf 1 i.toInt.toNat n } := by
  induction n generalizing i inp with
  | zero => rfl
  | succ n ih =>
    have hi1 : (i - 1).toInt = i.toInt - 1 := by
      rw [toInt_sub_of_range] <;> simp only [Int32.toInt_one] <;> have := i.toInt_lt <;> omega
    have hd : (decr i).toInt = i.toInt - 1 := hi1
    rw [loop_succ, inp.copy_of_nonneg (by omega) (by omega), ok_bind,
      @ih _ (decr i) (by rw [hd]; omega), hd]
    have h1 : (i.toInt - 1).toNat = i.toInt.toNat - 1 := by omega
    have h2 : i.toInt.toNat - 1 + 1 = i.toInt.toNat := by omega
    simp only [RingBuf.moveUp, hi1, h1, h2]

/-- `for (i = lo; i < lo + n; i++) input.buf[(i - d) % INPUT_BUF] = input.buf[i % INPUT_BUF]`
closes a gap: `moveDown` by `d`. -/
theorem shiftDown_eq (inp : Input) {n : Nat} {i d : Int32} (hd : 0 ≤ d.toInt)
    (hid : d.toInt ≤ i.toInt) (hn : i.toInt + n < 2 ^ 31) :
    loop incr (fun i inp => do inp.putI (i - d) (← inp.atI i)) n i inp =
      .ok { inp with buf := RingBuf.moveDown inp.buf d.toInt.toNat i.toInt.toNat n } := by
  induction n generalizing i inp with
  | zero => rfl
  | succ n ih =>
    have hid' : (i - d).toInt = i.toInt - d.toInt := by
      rw [toInt_sub_of_range] <;> have := i.toInt_lt <;> have := d.toInt_lt <;> omega
    have hinc : (incr i).toInt = i.toInt + 1 := by
      rw [incr, toInt_add_of_range] <;> simp only [Int32.toInt_one] <;> omega
    rw [loop_succ, inp.copy_of_nonneg (by omega) (by omega), ok_bind,
      @ih _ (incr i) (by rw [hinc]; omega) (by rw [hinc]; omega), hinc]
    simp only [RingBuf.moveDown, hid']
    congr 4 <;> omega

theorem echoRing_sat (inp : Input) {i0 : Int32} {n : Nat} (g : Cga) (h0 : 0 ≤ i0.toInt)
    (h1 : i0.toInt + n < 2 ^ 31) : Sat ScreenPanic (fun _ => True) (echoRing inp i0 n g) := by
  refine sat_loop (fun _ _ => True) (fun k g hk _ => ?_) trivial
  rw [inp.atI_of_nonneg (by rw [toInt_iterate_incr h0 (by omega)]; omega), ok_bind]
  exact consputc_sat _ g

/-! ## The undo stack and the selection -/

theorem Undo.push_ok (u : Undo) (op : Op) (h : u.n.toNat < 128) :
    u.push op = .ok ⟨Function.update u.buf ⟨u.n.toNat, h⟩ op, u.n + 1⟩ := by
  simp [Undo.push, arrSetU_of_lt _ _ h]

/-- `if (undo.n < UNDO_BUF) { undo.buf[undo.n] = op; undo.n++; }`, then `f`: the push never
fails. -/
theorem Undo.sat_pushIfRoom {α : Type} {E : String → Prop} {P : α → Prop} (u : Undo) (op : Op)
    {f : Undo → Except String α} (hf : ∀ u', Sat E P (f u')) :
    Sat E P (if u.n < 128 then u.push op >>= f else pure u >>= f) := by
  split
  · rw [u.push_ok op (UInt32.lt_iff_toNat_lt.mp ‹_›)]; exact hf _
  · exact hf u

theorem updateHighlight_eq (a b : Int32) (on : Bool) (st : State) :
    ∃ g, updateHighlight a b on st = { st with cga := g } := by
  unfold updateHighlight
  dsimp only
  split_ifs <;> exact ⟨_, rfl⟩

theorem updateHighlight_input (a b : Int32) (on : Bool) (st : State) :
    (updateHighlight a b on st).input = st.input := by
  obtain ⟨g, hg⟩ := updateHighlight_eq a b on st
  rw [hg]

/-- The input with its selection dropped, as `clear_selection` leaves it. -/
def Input.dropSel (inp : Input) : Input :=
  { inp with
    selecting := 0
    selStart := -1
    selEnd := if inp.selStart = -1 then inp.selEnd else -1 }

/-- `clear_selection` drops the selection and redraws; nothing else changes. -/
theorem clearSelection_eq (st : State) :
    ∃ g, clearSelection st = { st with input := st.input.dropSel, cga := g } := by
  unfold clearSelection
  by_cases h : st.input.selStart = -1
  · refine ⟨st.cga, ?_⟩
    simp only [Input.dropSel, h, ne_eq, not_true_eq_false, if_false, if_true]
  · obtain ⟨g, hg⟩ := updateHighlight_eq st.input.selStart st.input.selEnd false st
    refine ⟨g, ?_⟩
    simp only [Input.dropSel, h, ne_eq, not_false_eq_true, if_true, if_false, hg]

theorem State.hasSelection_iff (st : State) :
    st.hasSelection ↔ st.input.selStart ≠ -1 ∧ st.input.selEnd ≠ -1 := by
  simp [State.hasSelection]

theorem deselectIfAny_eq (st : State) :
    deselectIfAny st = if st.hasSelection then clearSelection st else st := by
  simp only [deselectIfAny, st.hasSelection_iff]

@[simp] theorem clearSelection_input (st : State) : (clearSelection st).input = st.input.dropSel := by
  obtain ⟨g, hg⟩ := clearSelection_eq st
  rw [hg]

@[simp] theorem clearSelection_clipboard (st : State) :
    (clearSelection st).clipboard = st.clipboard := by
  obtain ⟨g, hg⟩ := clearSelection_eq st
  rw [hg]

/-- The input after `clear_selection` of a state with a selection set. -/
theorem clearSelection_input_of_ne {st : State} (h : st.input.selStart ≠ -1) :
    (clearSelection st).input = { st.input with selecting := 0, selStart := -1, selEnd := -1 } := by
  obtain ⟨g, hg⟩ := clearSelection_eq st
  rw [hg]
  simp only [Input.dropSel, h, if_false]

/-! ## Inserting at the cursor -/

/-- The ring after inserting `ch` at the cursor: `[c, e)` moved up one position and `ch`
stored at `c`. -/
def Input.insertByte (ch : UInt8) (inp : Input) : Input :=
  { inp with
    buf := RingBuf.set (RingBuf.moveUp inp.buf 1 inp.e.toNat (inp.e.toNat - inp.c.toNat))
      inp.c.toNat ch
    e := inp.e + 1
    c := inp.c + 1 }

theorem insertAt_sat (cmp : Cmp) (ch : UInt8) {st : State} (h : st.input.Inv)
    (hroom : st.input.e.toNat < st.input.r.toNat + 128) :
    Sat ScreenPanic (fun st' => st'.input = st.input.insertByte ch ∧ st'.clipboard = st.clipboard)
      (insertAt cmp ch st) := by
  have hsmall := h.small
  have hc := h.c_le_e
  have he : st.input.e.toInt32.toInt = st.input.e.toNat := toInt_toInt32_of_lt (by omega)
  unfold insertAt
  refine st.undo.sat_pushIfRoom _ fun u => ?_
  dsimp only
  rw [Cmp.trips_of_le cmp hc (by omega), shiftUp_eq _ (by omega), ok_bind]
  -- the echo runs from the new byte at `c` to the end of the line
  have he1 : (st.input.e + 1).toNat = st.input.e.toNat + 1 := toNat_add_one (by omega)
  have hc1 : st.input.c + 1 - 1 = st.input.c := by simp
  have hc0 : st.input.c.toInt32.toInt = st.input.c.toNat := toInt_toInt32_of_lt (by omega)
  refine sat_bind (echoRing_sat _ _ ?_ ?_) fun g _ => ⟨?_, rfl⟩
  · simp only [hc1, hc0]; omega
  · simp only [hc1, hc0]
    rw [Cmp.trips_of_le cmp (by rw [he1]; omega) (by rw [he1]; omega), he1]
    omega
  · simp only [Input.insertByte, Input.put, he, Int.toNat_natCast]

/-! ## Deleting the selection -/

theorem toInt_clampLo {s lo : Int32} : (if s < lo then lo else s).toInt = max s.toInt lo.toInt := by
  split
  · rename_i h; rw [Int32.lt_iff_toInt_lt] at h; omega
  · rename_i h; rw [Int32.lt_iff_toInt_lt] at h; omega

theorem toInt_clampHi {t hi : Int32} : (if t > hi then hi else t).toInt = min t.toInt hi.toInt := by
  split
  · rename_i h; rw [gt_iff_lt, Int32.lt_iff_toInt_lt] at h; omega
  · rename_i h; rw [gt_iff_lt, Int32.lt_iff_toInt_lt] at h; omega

/-- The clamped selection as integers: `max(min(sel_start, sel_end), w)` and
`min(max(sel_start, sel_end), e)`. -/
theorem clampSelection_toInt (inp : Input) (h : inp.Inv) :
    (clampSelection inp).1.toInt = max (min inp.selStart.toInt inp.selEnd.toInt) inp.w.toNat ∧
      (clampSelection inp).2.toInt = min (max inp.selStart.toInt inp.selEnd.toInt) inp.e.toNat := by
  have hw : inp.w.toInt32.toInt = inp.w.toNat := toInt_toInt32_of_lt (by have := h.small; have := h.r_le_w; have := h.w_le_c; have := h.c_le_e; have := h.e_le; omega)
  have he : inp.e.toInt32.toInt = inp.e.toNat := toInt_toInt32_of_lt (by have := h.small; have := h.e_le; omega)
  unfold clampSelection
  by_cases hgt : inp.selStart > inp.selEnd
  · simp only [hgt, if_true, toInt_clampLo, toInt_clampHi, hw, he]
    rw [gt_iff_lt, Int32.lt_iff_toInt_lt] at hgt; omega
  · simp only [hgt, if_false, toInt_clampLo, toInt_clampHi, hw, he]
    rw [gt_iff_lt, Int32.lt_iff_toInt_lt] at hgt; omega

/-- The undo records of a deletion never fail: each is pushed below `UNDO_BUF`. -/
theorem recordDeletes_sat (inp : Input) {s len : Int32} (u : Undo) (hs : 0 ≤ s.toInt)
    (hl0 : 0 ≤ len.toInt) (hl : s.toInt + len.toInt < 2 ^ 31) :
    Sat ScreenPanic (fun _ => True) (recordDeletes inp s len u) := by
  refine sat_mono (sat_loop (fun k u' => u'.n.toNat = u.n.toNat + k) (fun k u' hk hu' => ?_) rfl)
    fun _ _ => trivial
  have hk1 : k < len.toInt.toNat := lt_of_lt_of_le hk (min_le_left _ _)
  have hk2 : k < 128 - u.n.toNat := lt_of_lt_of_le hk (min_le_right _ _)
  have hk' : (incr^[k] 0).toInt = k := by
    rw [toInt_iterate_incr] <;> simp only [Int32.toInt_zero, zero_add] <;> omega
  have hsk : (s + incr^[k] 0).toInt = s.toInt + k := by
    rw [toInt_add_of_range] <;> rw [hk'] <;> omega
  rw [inp.atI_of_nonneg (by omega), ok_bind, u'.push_ok _ (by omega)]
  show (u'.n + 1).toNat = u.n.toNat + (k + 1)
  rw [toNat_add_one (by omega)]; omega

/-- What `delete_selection` leaves in `input`: the clamped selection `[s, t)` erased from the
ring (`[t, e)` moved down to `s`), the cursor at `s`, and no selection. -/
def Input.eraseSel (inp : Input) : Input :=
  let (s, t) := clampSelection inp
  let inp := if s < t then
      { inp with
        buf := RingBuf.moveDown inp.buf (t - s).toInt.toNat t.toInt.toNat
          (inp.e.toNat - t.toInt.toNat)
        e := inp.e - (t - s).toUInt32
        c := s.toUInt32 }
    else inp
  { inp with selecting := 0, selStart := -1, selEnd := -1 }

theorem deleteSelection_sat {st : State} (h : st.input.Inv) (hsel : st.hasSelection) :
    Sat ScreenPanic (fun st' => st'.input = st.input.eraseSel ∧ st'.clipboard = st.clipboard)
      (deleteSelection st) := by
  rw [State.hasSelection_iff] at hsel
  obtain ⟨hs, ht⟩ := clampSelection_toInt st.input h
  have := h.small; have := h.r_le_w; have := h.w_le_c; have := h.c_le_e; have := h.e_le
  unfold deleteSelection Input.eraseSel
  rw [if_neg (by tauto)]
  rcases hcl : clampSelection st.input with ⟨s, t⟩
  rw [hcl] at hs ht
  dsimp only at hs ht ⊢
  by_cases hst : s.toInt < t.toInt
  case neg =>
    -- an empty clamped range: only the selection goes
    rw [if_pos (Int32.le_iff_toInt_le.mpr (by omega)), if_neg (fun h => hst (Int32.lt_iff_toInt_lt.mp h))]
    exact ⟨clearSelection_input_of_ne hsel.1, clearSelection_clipboard st⟩
  case pos =>
    rw [if_neg (fun h => absurd (Int32.le_iff_toInt_le.mp h) (by omega)),
      if_pos (Int32.lt_iff_toInt_lt.mpr hst)]
    have hlen : (t - s).toInt = t.toInt - s.toInt := by
      rw [toInt_sub_of_range] <;> omega
    have he : st.input.e.toInt32.toInt = st.input.e.toNat := toInt_toInt32_of_lt (by omega)
    refine sat_bind (recordDeletes_sat _ _ (by omega) (by omega) (by omega)) fun undo _ => ?_
    rw [closeGap, shiftDown_eq _ (by omega) (by omega) (by rw [he]; omega), ok_bind, he]
    -- the counters after the gap is closed
    have hn : (↑st.input.e.toNat - t.toInt).toNat = st.input.e.toNat - t.toInt.toNat := by omega
    have hw : st.input.w.toInt32.toInt = st.input.w.toNat := toInt_toInt32_of_lt (by omega)
    have hlenU : (t - s).toUInt32.toNat = (t.toInt - s.toInt).toNat := by
      rw [toNat_toUInt32 (by omega), hlen]
    have he' : (st.input.e - (t - s).toUInt32).toNat =
        st.input.e.toNat - (t.toInt - s.toInt).toNat := by
      rw [toNat_sub_of_le (by rw [hlenU]; omega), hlenU]
    simp only [hn]
    refine sat_bind (echoRing_sat _ _ (by simp only [hw]; omega) (by simp only [hw, he']; omega))
      fun g _ => sat_bind (putN_sat _ _ _) fun g _ => ?_
    exact ⟨clearSelection_input_of_ne hsel.1, clearSelection_clipboard _⟩

end Xv6.Console
