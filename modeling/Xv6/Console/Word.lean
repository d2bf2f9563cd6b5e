import Xv6.Console.Clip

/-!
# Moving by words

^A moves the cursor back to the start of a word and ^D forward to the start of the next one,
with `is_whitespace` as the separator test: the editor's `LineEdit.wordLeft` and
`LineEdit.wordRight` on the line `buf[w..e)`. Each key is two scans of the ring. ^A first
skips the separators before the cursor (testing `buf[t]`), then the word they end (testing
`buf[t-1]`), both stopping at `w`; ^D first skips the rest of the word under the cursor, then
the separators after it, both stopping at `e`, and moves only if it found a byte there.

Both keys move the hardware cursor by as many cells as `input.c`, in its 16-bit register
(`cga_set_cursor_pos` keeps the low 16 bits of the new position).
-/

namespace Xv6.Console

open CInt CLoop LineEdit

/-! ## The cursor register -/

theorem bmod_emod_65536 (a : Int) : a.bmod (2 ^ 32) % 65536 = a % 65536 := by
  rw [Int.bmod_def]
  split <;> omega

/-- ^A's new position `cga_get_cursor_pos() - (old_c - input.c)`, computed in `unsigned`. -/
theorem sint_sub_emod (P : Int) (y : UInt32) :
    sint (UInt32.ofInt P - y) % 65536 = (P - y.toNat) % 65536 := by
  have h1 : (UInt32.ofInt P - y).toNat = ((P - y.toNat) % 2 ^ 32).toNat := by
    rw [UInt32.toNat_sub]
    simp only [UInt32.ofInt, UInt32.toNat_ofNat']
    have := y.toNat_lt
    omega
  rw [sint_eq]
  split <;> omega

/-- ^D's new position `cga_get_cursor_pos() + (temp_c - old_c)`, computed in `int`. -/
theorem toInt_ofInt_add_emod (P : Int) (d : Int32) :
    (Int32.ofInt P + d).toInt % 65536 = (P + d.toInt) % 65536 := by
  rw [Int32.toInt_add, Int32.toInt_ofInt]
  have h := bmod_emod_65536 (P.bmod Int32.size + d.toInt)
  have h2 := bmod_emod_65536 P
  have hsize : Int32.size = 2 ^ 32 := rfl
  rw [hsize] at h ⊢
  omega

/-! ## The line through the ring -/

/-- `st'` is `st` with the cursor at offset `q'` of the line, the ring and `r`, `w`, `e` as they
were, and the hardware cursor moved by as many cells as the cursor. -/
def WordMoved (st st' : State) (q' : Nat) : Prop :=
  st'.input.buf = st.input.buf ∧ st'.input.r = st.input.r ∧ st'.input.w = st.input.w ∧
    st'.input.e = st.input.e ∧ st'.input.c.toNat = st.input.w.toNat + q' ∧
    cgaGetCursorPos st'.cga =
      (cgaGetCursorPos st.cga + q' - (st.input.c.toNat - st.input.w.toNat)) % 65536

/-- The separator test of the line's byte at offset `k`, read from the ring. -/
theorem Input.line_map_ws {inp : Input} (h : inp.Inv) {k : Nat}
    (hk : inp.w.toNat + k < inp.e.toNat) :
    inp.line[k]?.map isWhitespace =
      some (isWhitespace (RingBuf.get inp.buf (inp.w.toNat + k))) := by
  have := h.w_le_c; have := h.c_le_e
  have hn : k < (inp.e - inp.w).toNat := by
    rw [toNat_sub_of_le (by omega)]
    omega
  rw [Input.line, List.getElem?_eq_getElem (by simpa using hn), Option.map_some,
    RingBuf.getElem_window]

/-- A cursor that does not move leaves the hardware cursor where it was. -/
theorem wordMoved_self {st : State} (h : st.input.Inv) :
    WordMoved st st (st.input.c.toNat - st.input.w.toNat) := by
  have hP : cgaGetCursorPos st.cga < 65536 := by
    have := st.cga.cursor.toNat_lt
    simp only [cgaGetCursorPos]
    omega
  have := h.w_le_c
  have := cgaGetCursorPos_nonneg st.cga
  refine ⟨rfl, rfl, rfl, rfl, by omega, ?_⟩
  rw [Int.emod_eq_of_lt (by omega) (by omega)]
  omega

/-! ## ^A -/

/-- ^A: the first scan stops at `w` or at a byte that is not a separator, with only separators
between it and the cursor; the second stops at `w` or after a separator, with only word bytes
between it and the first stop. That stop is the last word start before the cursor. -/
theorem keyWordLeft_spec {st : State} (h : (deselectIfAny st).input.Inv) :
    ∃ st', keyWordLeft st = .ok st' ∧ WordMoved (deselectIfAny st) st'
      (wordLeft isWhitespace (deselectIfAny st).input.line
        ((deselectIfAny st).input.c.toNat - (deselectIfAny st).input.w.toNat)) := by
  unfold keyWordLeft
  generalize deselectIfAny st = D at h ⊢
  have := h.w_le_c; have := h.c_le_e; have := h.small; have := h.r_le_w; have := h.e_le
  dsimp only
  split
  case isFalse hc =>
    have hc' : D.input.c.toNat = D.input.w.toNat := by
      have := UInt32.lt_iff_toNat_lt.not.mp hc
      omega
    have hq : wordLeft isWhitespace D.input.line (D.input.c.toNat - D.input.w.toNat) =
        D.input.c.toNat - D.input.w.toNat := by
      rw [hc', Nat.sub_self, wordLeft_eq_zero fun p hp hpq => absurd hpq (by omega)]
    rw [hq]
    exact ⟨D, rfl, wordMoved_self h⟩
  case isTrue hc =>
    have hc' := UInt32.lt_iff_toNat_lt.mp hc
    have hc32 := toInt_toInt32_of_lt (show D.input.c.toNat < 2 ^ 31 by omega)
    set w := D.input.w.toNat with hw
    set c := D.input.c.toNat with hcdef
    set get := RingBuf.get D.input.buf
    -- the first scan: only separators in `(t, c)`
    let P₁ : Int32 → Prop := fun t => (w : Int) ≤ t.toInt ∧ t.toInt < c ∧
      ∀ p : Nat, t.toInt < p → p < c → isWhitespace (get p) = true
    have hstep₁ : ∀ j, P₁ j → ∃ b, (if j.toUInt32 > D.input.w then do
        pure (isWhitespace (← D.input.atI j)) else pure false) = .ok b ∧
        (b = true → P₁ (decr j) ∧ (decr j).toInt.toNat - w < j.toInt.toNat - w) := by
      rintro j ⟨hj0, hj1, hj2⟩
      have hj : j.toUInt32.toNat = j.toInt.toNat := toNat_toUInt32 (by omega)
      split
      case isTrue hgt =>
        have hgt' := UInt32.lt_iff_toNat_lt.mp hgt
        rw [D.input.atI_of_nonneg (by omega), ok_bind]
        refine ⟨_, rfl, fun hws => ?_⟩
        have hd := toInt_decr (j := j) (by omega)
        refine ⟨⟨by omega, by omega, fun p hp hpc => ?_⟩, by omega⟩
        rcases Nat.lt_or_ge (j.toInt.toNat) p with hlt | hle
        · exact hj2 p (by omega) hpc
        · have : p = j.toInt.toNat := by omega
          rw [this]
          exact hws
      case isFalse => exact ⟨false, rfl, fun hf => absurd hf (by decide)⟩
    have ht₀ : (decr D.input.c.toInt32).toInt = c - 1 := by rw [toInt_decr (by omega), hc32]
    obtain ⟨t₁, hscan₁, ⟨ht₁w, ht₁c, ht₁ws⟩, hexit₁⟩ :=
      scan_exit P₁ (fun t => t.toInt.toNat - w)
        (n := (decr D.input.c.toInt32).toUInt32.toNat - D.input.w.toNat) hstep₁
        (by rw [toNat_toUInt32 (by omega), ht₀])
        ⟨by omega, by omega, fun p hp hpc => by omega⟩
    -- the second scan: only word bytes in `[t, t₁)`
    let P₂ : Int32 → Prop := fun t => (w : Int) ≤ t.toInt ∧ t.toInt ≤ t₁.toInt ∧
      ∀ p : Nat, t.toInt ≤ p → p < t₁.toInt → isWhitespace (get p) = false
    have hstep₂ : ∀ j, P₂ j → ∃ b, (if j.toUInt32 > D.input.w then do
        pure !(isWhitespace (← D.input.atI (j - 1))) else pure false) = .ok b ∧
        (b = true → P₂ (decr j) ∧ (decr j).toInt.toNat - w < j.toInt.toNat - w) := by
      rintro j ⟨hj0, hj1, hj2⟩
      have hj : j.toUInt32.toNat = j.toInt.toNat := toNat_toUInt32 (by omega)
      split
      case isTrue hgt =>
        have hgt' := UInt32.lt_iff_toNat_lt.mp hgt
        have hd := toInt_decr (j := j) (by omega)
        have hd' : (j - 1).toInt = j.toInt - 1 := hd
        rw [D.input.atI_of_nonneg (by omega), ok_bind, hd']
        refine ⟨_, rfl, fun hws => ?_⟩
        refine ⟨⟨by omega, by omega, fun p hp hpt => ?_⟩, by omega⟩
        rcases Nat.lt_or_ge p j.toInt.toNat with hlt | hge
        · have : p = (j.toInt - 1).toNat := by omega
          rw [this]
          simpa using hws
        · exact hj2 p (by omega) hpt
      case isFalse => exact ⟨false, rfl, fun hf => absurd hf (by decide)⟩
    obtain ⟨t₂, hscan₂, ⟨ht₂w, ht₂t, ht₂ws⟩, hexit₂⟩ :=
      scan_exit P₂ (fun t => t.toInt.toNat - w)
        (n := t₁.toUInt32.toNat - D.input.w.toNat) hstep₂
        (by rw [toNat_toUInt32 (by omega)]) ⟨ht₁w, le_rfl, fun p hp hpt => by omega⟩
    rw [hscan₁, ok_bind, hscan₂, ok_bind]
    refine ⟨_, rfl, ?_⟩
    have ht₂ : t₂.toUInt32.toNat = t₂.toInt.toNat := toNat_toUInt32 (by omega)
    -- the stop conditions, read as facts about bytes
    have hstop₁ : t₁.toInt.toNat = w ∨
        w < t₁.toInt.toNat ∧ isWhitespace (get t₁.toInt.toNat) = false := by
      rcases Nat.lt_or_ge w t₁.toInt.toNat with hlt | hle
      · have hgt : D.input.w < t₁.toUInt32 := by
          rw [UInt32.lt_iff_toNat_lt, toNat_toUInt32 (by omega)]
          omega
        rw [if_pos hgt, D.input.atI_of_nonneg (by omega), ok_bind, pure_eq_ok] at hexit₁
        exact .inr ⟨hlt, Except.ok.inj hexit₁⟩
      · exact .inl (by omega)
    have hstop₂ : t₂.toInt.toNat = w ∨
        w < t₂.toInt.toNat ∧ isWhitespace (get (t₂.toInt.toNat - 1)) = true := by
      rcases Nat.lt_or_ge w t₂.toInt.toNat with hlt | hle
      · have hgt : D.input.w < t₂.toUInt32 := by
          rw [UInt32.lt_iff_toNat_lt, ht₂]
          omega
        have hd : (t₂ - 1).toInt = t₂.toInt - 1 := toInt_decr (by omega)
        have hd' : (t₂ - 1).toInt.toNat = t₂.toInt.toNat - 1 := by omega
        rw [if_pos hgt, D.input.atI_of_nonneg (by omega), ok_bind, pure_eq_ok, hd'] at hexit₂
        exact .inr ⟨hlt, by simpa using Except.ok.inj hexit₂⟩
      · exact .inl (by omega)
    have hq : wordLeft isWhitespace D.input.line (c - w) = t₂.toInt.toNat - w := by
      rcases hstop₁ with h₁ | h₁
      · -- the first scan reached `w`: only separators after `w`
        have : t₂.toInt.toNat = w := by omega
        rw [this, Nat.sub_self]
        refine wordLeft_eq_zero fun p hp hpq => not_wordStart_of_sep ?_
        rw [Input.line_map_ws h (by omega), ht₁ws (w + p) (by omega) (by omega)]
      · refine wordLeft_eq ⟨?_, ?_⟩ (by omega) fun p hp hpq => ?_
        · rw [Input.line_map_ws h (by omega), Nat.add_sub_cancel' (by omega)]
          rcases Nat.lt_or_ge t₂.toInt.toNat t₁.toInt.toNat with hlt | hge
          · rw [ht₂ws _ (by omega) (by omega)]
          · rw [show t₂.toInt.toNat = t₁.toInt.toNat by omega, h₁.2]
        · rcases hstop₂ with h₂ | ⟨h₂w, h₂⟩
          · exact .inl (by omega)
          · refine .inr ?_
            rw [Input.line_map_ws h (by omega), show w + (t₂.toInt.toNat - w - 1) =
              t₂.toInt.toNat - 1 by omega, h₂]
        · rcases Nat.lt_or_ge t₁.toInt.toNat (w + p) with hlt | hge
          · exact not_wordStart_of_sep (by
              rw [Input.line_map_ws h (by omega), ht₁ws (w + p) (by omega) (by omega)])
          · exact not_wordStart_of_prev (by omega) (by
              rw [Input.line_map_ws h (by omega), ht₂ws (w + (p - 1)) (by omega) (by omega)])
    rw [hq]
    refine ⟨rfl, rfl, rfl, rfl, by dsimp only; rw [ht₂]; omega, ?_⟩
    dsimp only
    rw [cgaGetCursorPos_set, sint_sub_emod, UInt32.toNat_sub, ht₂,
      toNat_toUInt32 (show 0 ≤ D.input.c.toInt32.toInt by omega), hc32]
    congr 1
    omega

/-! ## ^D -/

/-- ^D on a line that is not empty: the first scan stops at `e` or at a separator, with only
word bytes from the cursor to it; the second stops at `e` or at a word byte, with only
separators from the first stop to it. A stop below `e` is the first word start after the
cursor; at `e` there is none. -/
theorem keyEof_spec {st : State} (h : (deselectIfAny st).input.Inv)
    (hne : (deselectIfAny st).input.e ≠ (deselectIfAny st).input.w) :
    ∃ st', keyEof st = .ok st' ∧ WordMoved (deselectIfAny st) st'
      (wordRight isWhitespace (deselectIfAny st).input.line
        ((deselectIfAny st).input.c.toNat - (deselectIfAny st).input.w.toNat)) := by
  unfold keyEof
  generalize deselectIfAny st = D at h hne ⊢
  have := h.w_le_c; have := h.c_le_e; have := h.small; have := h.r_le_w; have := h.e_le
  dsimp only
  rw [if_neg hne]
  set w := D.input.w.toNat with hw
  set c := D.input.c.toNat with hcdef
  set e := D.input.e.toNat with he
  set get := RingBuf.get D.input.buf
  -- no word start after `q` once every later offset is a separator or follows a word byte
  have hnone : ∀ t : Nat, c ≤ t → t ≤ e →
      (∀ p, c ≤ p → p < t → isWhitespace (get p) = false) →
      (∀ p, t ≤ p → p < e → isWhitespace (get p) = true) →
      wordRight isWhitespace D.input.line (c - w) = c - w := by
    intro t hct hte hword hsep
    refine wordRight_eq_self fun p hp hs => ?_
    have hpe : w + p < e := by
      have := hs.lt_length
      simp only [Input.line, RingBuf.length_window] at this
      rw [toNat_sub_of_le (by omega)] at this
      omega
    rcases Nat.lt_or_ge (w + p) t with hlt | hge
    · exact not_wordStart_of_prev (by omega) (by
        rw [Input.line_map_ws h (by omega), hword (w + (p - 1)) (by omega) (by omega)]) hs
    · exact not_wordStart_of_sep (by rw [Input.line_map_ws h hpe, hsep (w + p) hge hpe]) hs
  split
  case isFalse hc =>
    have hc' : c = e := by
      have := UInt32.lt_iff_toNat_lt.not.mp hc
      omega
    rw [hnone c le_rfl (by omega) (fun p hp hpc => by omega) (fun p hp hpe => by omega)]
    exact ⟨D, rfl, wordMoved_self h⟩
  case isTrue hc =>
    have hc' := UInt32.lt_iff_toNat_lt.mp hc
    have hc32 := toInt_toInt32_of_lt (show c < 2 ^ 31 by omega)
    -- the first scan: only word bytes in `[c, t)`
    let P₁ : Int32 → Prop := fun t => (c : Int) ≤ t.toInt ∧ t.toInt ≤ e ∧
      ∀ p : Nat, c ≤ p → p < t.toInt → isWhitespace (get p) = false
    have hstep₁ : ∀ j, P₁ j → ∃ b, (if j.toUInt32 < D.input.e then do
        pure !(isWhitespace (← D.input.atI j)) else pure false) = .ok b ∧
        (b = true → P₁ (incr j) ∧ e - (incr j).toInt.toNat < e - j.toInt.toNat) := by
      rintro j ⟨hj0, hj1, hj2⟩
      have hj : j.toUInt32.toNat = j.toInt.toNat := toNat_toUInt32 (by omega)
      split
      case isTrue hlt =>
        have hlt' := UInt32.lt_iff_toNat_lt.mp hlt
        rw [D.input.atI_of_nonneg (by omega), ok_bind]
        refine ⟨_, rfl, fun hws => ?_⟩
        have hi := toInt_incr (j := j) (by omega)
        refine ⟨⟨by omega, by omega, fun p hp hpt => ?_⟩, by omega⟩
        rcases Nat.lt_or_ge p j.toInt.toNat with hlt | hge
        · exact hj2 p hp (by omega)
        · have : p = j.toInt.toNat := by omega
          rw [this]
          simpa using hws
      case isFalse => exact ⟨false, rfl, fun hf => absurd hf (by decide)⟩
    obtain ⟨t₁, hscan₁, ⟨ht₁c, ht₁e, ht₁w⟩, hexit₁⟩ :=
      scan_exit P₁ (fun t => e - t.toInt.toNat) (n := D.input.e.toNat - D.input.c.toNat) hstep₁
        (by rw [hc32]; omega) ⟨by omega, by omega, fun p hp hpc => by omega⟩
    -- the second scan: only separators in `[t₁, t)`
    let P₂ : Int32 → Prop := fun t => t₁.toInt ≤ t.toInt ∧ t.toInt ≤ e ∧
      ∀ p : Nat, t₁.toInt ≤ p → p < t.toInt → isWhitespace (get p) = true
    have hstep₂ : ∀ j, P₂ j → ∃ b, (if j.toUInt32 < D.input.e then do
        pure (isWhitespace (← D.input.atI j)) else pure false) = .ok b ∧
        (b = true → P₂ (incr j) ∧ e - (incr j).toInt.toNat < e - j.toInt.toNat) := by
      rintro j ⟨hj0, hj1, hj2⟩
      have hj : j.toUInt32.toNat = j.toInt.toNat := toNat_toUInt32 (by omega)
      split
      case isTrue hlt =>
        have hlt' := UInt32.lt_iff_toNat_lt.mp hlt
        rw [D.input.atI_of_nonneg (by omega), ok_bind]
        refine ⟨_, rfl, fun hws => ?_⟩
        have hi := toInt_incr (j := j) (by omega)
        refine ⟨⟨by omega, by omega, fun p hp hpt => ?_⟩, by omega⟩
        rcases Nat.lt_or_ge p j.toInt.toNat with hlt | hge
        · exact hj2 p hp (by omega)
        · have : p = j.toInt.toNat := by omega
          rw [this]
          exact hws
      case isFalse => exact ⟨false, rfl, fun hf => absurd hf (by decide)⟩
    obtain ⟨t₂, hscan₂, ⟨ht₂t, ht₂e, ht₂s⟩, hexit₂⟩ :=
      scan_exit P₂ (fun t => e - t.toInt.toNat)
        (n := D.input.e.toNat - t₁.toUInt32.toNat) hstep₂
        (by rw [toNat_toUInt32 (by omega)]) ⟨le_rfl, ht₁e, fun p hp hpt => by omega⟩
    rw [hscan₁, ok_bind, hscan₂, ok_bind]
    have ht₂ : t₂.toUInt32.toNat = t₂.toInt.toNat := toNat_toUInt32 (by omega)
    have hstop₁ : t₁.toInt.toNat = e ∨
        t₁.toInt.toNat < e ∧ isWhitespace (get t₁.toInt.toNat) = true := by
      rcases Nat.lt_or_ge t₁.toInt.toNat e with hlt | hle
      · have hlt' : t₁.toUInt32 < D.input.e := by
          rw [UInt32.lt_iff_toNat_lt, toNat_toUInt32 (by omega)]
          omega
        rw [if_pos hlt', D.input.atI_of_nonneg (by omega), ok_bind, pure_eq_ok] at hexit₁
        exact .inr ⟨hlt, by simpa using Except.ok.inj hexit₁⟩
      · exact .inl (by omega)
    have hstop₂ : t₂.toInt.toNat = e ∨
        t₂.toInt.toNat < e ∧ isWhitespace (get t₂.toInt.toNat) = false := by
      rcases Nat.lt_or_ge t₂.toInt.toNat e with hlt | hle
      · have hlt' : t₂.toUInt32 < D.input.e := by
          rw [UInt32.lt_iff_toNat_lt, ht₂]
          omega
        rw [if_pos hlt', D.input.atI_of_nonneg (by omega), ok_bind, pure_eq_ok] at hexit₂
        exact .inr ⟨hlt, Except.ok.inj hexit₂⟩
      · exact .inl (by omega)
    split
    case isTrue hlt =>
      have hlt' : t₂.toInt.toNat < e := by
        have := UInt32.lt_iff_toNat_lt.mp hlt
        omega
      have hsep₁ : isWhitespace (get t₁.toInt.toNat) = true := by
        rcases hstop₁ with h₁ | h₁
        · omega
        · exact h₁.2
      have hword₂ : isWhitespace (get t₂.toInt.toNat) = false := by
        rcases hstop₂ with h₂ | h₂
        · omega
        · exact h₂.2
      -- the second scan moved: its stop is a word byte, `t₁` a separator
      have ht₁₂ : t₁.toInt < t₂.toInt := by
        rcases lt_or_eq_of_le ht₂t with hlt | heq
        · exact hlt
        · rw [← heq, hsep₁] at hword₂
          cases hword₂
      have hq : wordRight isWhitespace D.input.line (c - w) = t₂.toInt.toNat - w := by
        refine wordRight_eq ⟨?_, .inr ?_⟩ (by omega) fun p hp hpt => ?_
        · rw [Input.line_map_ws h (by omega), Nat.add_sub_cancel' (by omega), hword₂]
        · rw [Input.line_map_ws h (by omega), show w + (t₂.toInt.toNat - w - 1) =
            t₂.toInt.toNat - 1 by omega, ht₂s _ (by omega) (by omega)]
        · rcases Nat.lt_or_ge (w + p) (t₁.toInt.toNat + 1) with hlt | hge
          · exact not_wordStart_of_prev (by omega) (by
              rw [Input.line_map_ws h (by omega), ht₁w (w + (p - 1)) (by omega) (by omega)])
          · exact not_wordStart_of_sep (by
              rw [Input.line_map_ws h (by omega), ht₂s (w + p) (by omega) (by omega)])
      rw [hq]
      refine ⟨_, rfl, rfl, rfl, rfl, rfl, by dsimp only; rw [ht₂]; omega, ?_⟩
      dsimp only
      rw [cgaGetCursorPos_set, toInt_ofInt_add_emod, Int32.toInt_sub, hc32,
        Int.bmod_eq_of_le (by omega) (by omega)]
      congr 1
      omega
    case isFalse hge =>
      have ht₂e' : t₂.toInt.toNat = e := by
        have := UInt32.lt_iff_toNat_lt.not.mp hge
        omega
      rw [hnone t₁.toInt.toNat (by omega) (by omega) (fun p hp hpt => ht₁w p hp (by omega))
        (fun p hp hpe => ht₂s p (by omega) (by omega))]
      exact ⟨D, rfl, wordMoved_self h⟩

/-! ## The keys -/

theorem deselectIfAny_ring (st : State) :
    (deselectIfAny st).input.buf = st.input.buf ∧ (deselectIfAny st).input.r = st.input.r := by
  obtain ⟨g, hg⟩ := deselectIfAny_spec st
  rw [hg]
  split <;> exact ⟨rfl, rfl⟩

theorem deselectIfAny_line (st : State) : (deselectIfAny st).input.line = st.input.line := by
  simp only [Input.line, (deselectIfAny_ring st).1, deselectIfAny_w, deselectIfAny_e]

/-- Dropping the selection first changes nothing `WordMoved` looks at. -/
theorem WordMoved.of_deselect {st st' : State} {q : Nat} (h : WordMoved (deselectIfAny st) st' q) :
    WordMoved st st' q := by
  obtain ⟨hb, hr, hw, he, hc, hg⟩ := h
  have hcur : cgaGetCursorPos (deselectIfAny st).cga = cgaGetCursorPos st.cga := by
    simp only [cgaGetCursorPos, deselectIfAny_cursor]
  rw [(deselectIfAny_ring st).1] at hb
  rw [(deselectIfAny_ring st).2] at hr
  rw [deselectIfAny_w] at hw hc hg
  rw [deselectIfAny_e] at he
  rw [deselectIfAny_c, hcur] at hg
  exact ⟨hb, hr, hw, he, hc, hg⟩

theorem consoleKey_ctrlA (st : State) : consoleKey (ctrl 'A') st = keyWordLeft st := rfl

theorem consoleKey_ctrlD (st : State) : consoleKey (ctrl 'D') st = keyEof st := rfl

/-- ^A and ^D on a line that is not empty: ^A moves the cursor to the last word start before it,
or to the start of the line, ^D to the first word start after it, or nowhere; the ring, `r`, `w`
and `e` stay, and the hardware cursor moves with the cursor. -/
theorem word_motion {st : State} (h : st.input.Inv) (hne : st.input.line ≠ []) :
    (∃ st', consoleKey (ctrl 'A') st = .ok st' ∧
      WordMoved st st'
        (wordLeft isWhitespace st.input.line (st.input.c.toNat - st.input.w.toNat))) ∧
    (∃ st', consoleKey (ctrl 'D') st = .ok st' ∧
      WordMoved st st'
        (wordRight isWhitespace st.input.line (st.input.c.toNat - st.input.w.toNat))) := by
  have hd := h.deselectIfAny
  have hne' : (deselectIfAny st).input.e ≠ (deselectIfAny st).input.w := by
    rw [deselectIfAny_e, deselectIfAny_w]
    exact Input.line_ne_nil hne
  obtain ⟨st₁, h₁, hm₁⟩ := keyWordLeft_spec hd
  obtain ⟨st₂, h₂, hm₂⟩ := keyEof_spec hd hne'
  rw [deselectIfAny_line, deselectIfAny_c, deselectIfAny_w] at hm₁ hm₂
  exact ⟨⟨st₁, h₁, hm₁.of_deselect⟩, ⟨st₂, h₂, hm₂.of_deselect⟩⟩

/-- The line `ab cd` with the cursor at its end, over a blank screen. -/
def abCd : State :=
  { consoleinit ⟨fun _ => 0, 5⟩ with
    input := ⟨fun i => [97, 98, 32, 99, 100].getD i.val 0, 0, 0, 5, 5, 0, -1, -1⟩ }

theorem word_motion_ab_cd :
    abCd.input.Inv ∧ abCd.input.line ≠ [] ∧
    (∃ st', consoleKey (ctrl 'A') abCd = .ok st' ∧
      WordMoved abCd st' (wordLeft isWhitespace abCd.input.line
        (abCd.input.c.toNat - abCd.input.w.toNat))) ∧
    (∃ st', consoleKey (ctrl 'D') abCd = .ok st' ∧
      WordMoved abCd st' (wordRight isWhitespace abCd.input.line
        (abCd.input.c.toNat - abCd.input.w.toNat))) :=
  have h : abCd.input.Inv := ⟨by decide, by decide, by decide, by decide, by decide⟩
  have hne : abCd.input.line ≠ [] := by decide
  ⟨h, hne, word_motion h hne⟩

end Xv6.Console
