import Xv6.Console.Word
import Xv6.Lib.CStr
import Xv6.Lib.Lcp

/-!
# Tab completion: the common prefix and the listing path

`find_lcp_len` scans the matches column by column and stops at the first column where
`matches[0]` has its NUL or a later match has another byte; that column is the length of the
longest common prefix of the matches as C strings (`findLcpLen_isGreatest`). A later match that
is shorter stops the scan with its own NUL, which differs from the byte of `matches[0]`.

A Tab right after a Tab that found several matches lists them with `print_matches_and_redraw`.
That function is meant to redraw the line after the list, but it erases it: it moves the
hardware cursor to the end of the line and then counts `input.e` down to `input.w`, echoing a
backspace for each byte, and sets `input.c = input.w`. Only `r`, `w` and the ring bytes are
kept, so the line is empty afterwards, whatever it held. The other paths only append to the
line (`appendWord`), so a Tab either extends the line or empties it (`consoleKey_tab_line`).
-/

namespace Xv6.Console

open CInt CLoop CStr

/-- The test `find_lcp_len`'s loop makes at column `l`: `first[l]` is not NUL and every later
string has the same byte there. -/
def LcpAgree (matched : List (List UInt8)) (count l : Nat) : Prop :=
  strAt (matched.getD 0 []) l ≠ 0 ∧
    ∀ i < count - 1, strAt (matched.getD (i + 1) []) l = strAt (matched.getD 0 []) l

theorem findLcpLenFrom_eq {matched : List (List UInt8)} {count L : Nat}
    (hbelow : ∀ j < L, LcpAgree matched count j) (hat : ¬LcpAgree matched count L)
    {fuel l : Nat} (hl : l ≤ L) (hfuel : L - l < fuel) :
    findLcpLenFrom matched count fuel l = L := by
  induction fuel generalizing l with
  | zero => omega
  | succ fuel ih =>
    rw [findLcpLenFrom]
    by_cases hlL : l = L
    · subst hlL
      unfold LcpAgree at hat
      split
      · rfl
      · rename_i h0
        rw [if_pos]
        simp only [List.any_eq_true, List.mem_range, decide_eq_true_eq]
        by_contra hall
        push Not at hall
        exact hat ⟨h0, hall⟩
    · have ha := hbelow l (by omega)
      rw [if_neg ha.1, if_neg, ih (by omega) (by omega)]
      simp only [List.any_eq_true, List.mem_range, decide_eq_true_eq, not_exists, not_and, not_not]
      exact ha.2

theorem mem_tail_take {ms : List (List UInt8)} {count : Nat} (hlen : count ≤ ms.length)
    {x : List UInt8} : x ∈ (ms.take count).tail ↔ ∃ i < count - 1, x = ms.getD (i + 1) [] := by
  rw [List.mem_iff_getElem]
  constructor
  · rintro ⟨i, hi, rfl⟩
    simp only [List.length_tail, List.length_take] at hi
    refine ⟨i, by omega, ?_⟩
    rw [List.getElem_tail, List.getElem_take, List.getD_eq_getElem _ _ (by omega)]
  · rintro ⟨i, hi, rfl⟩
    refine ⟨i, by simp only [List.length_tail, List.length_take]; omega, ?_⟩
    rw [List.getElem_tail, List.getElem_take, List.getD_eq_getElem _ _ (by omega)]

/-- The columns where the loop goes on are those before the end of the longest common prefix. -/
theorem lcpAgree_iff {matched : List (List UInt8)} {count : Nat} (hlen : count ≤ matched.length)
    (l : Nat) :
    (∀ j < l, LcpAgree matched count j) ↔
      l ≤ (Lcp.lcp ((matched.getD 0 []).takeWhile (· ≠ 0))
        ((matched.take count).tail.map fun s => s.takeWhile (· ≠ 0))).length := by
  have hfirst := agree_iff_prefix_takeWhile (matched.getD 0 []) (matched.getD 0 []) l
  have hmem : ∀ t ∈ (matched.take count).tail.map (fun s => s.takeWhile (· ≠ 0)),
      ∃ i < count - 1, t = (matched.getD (i + 1) []).takeWhile (· ≠ 0) := fun t ht => by
    obtain ⟨x, hx, rfl⟩ := List.mem_map.mp ht
    obtain ⟨i, hi, rfl⟩ := (mem_tail_take hlen).mp hx
    exact ⟨i, hi, rfl⟩
  constructor
  · intro h
    have hl0 := (hfirst.mp fun j hj => ⟨(h j hj).1, rfl⟩).1
    refine (Lcp.take_prefix_lcp_iff _ hl0).mp fun t ht => ?_
    obtain ⟨i, hi, rfl⟩ := hmem t ht
    exact ((agree_iff_prefix_takeWhile _ _ l).mp fun j hj => ⟨(h j hj).1, (h j hj).2 i hi⟩).2
  · intro h
    have hL := (Lcp.lcp_prefix_self ((matched.getD 0 []).takeWhile (· ≠ 0))
      ((matched.take count).tail.map fun s => s.takeWhile (· ≠ 0))).length_le
    have hall := (Lcp.take_prefix_lcp_iff _ (by omega)).mpr h
    intro j hj
    refine ⟨(hfirst.mpr ⟨by omega, List.take_prefix _ _⟩ j hj).1, fun i hi => ?_⟩
    have hi' : (matched.getD (i + 1) []).takeWhile (· ≠ 0) ∈
        (matched.take count).tail.map fun s => s.takeWhile (· ≠ 0) :=
      List.mem_map.mpr ⟨_, (mem_tail_take hlen).mpr ⟨i, hi, rfl⟩, rfl⟩
    exact ((agree_iff_prefix_takeWhile _ _ l).mpr ⟨by omega, hall _ hi'⟩ j hj).2


/-- `find_lcp_len` for `count ≥ 1` matches, as the `lcp` of `matches[0]` and the others. -/
theorem findLcpLen_eq {matched : List (List UInt8)} {count : Nat} (hc : 1 ≤ count)
    (hlen : count ≤ matched.length) :
    findLcpLen matched count = (Lcp.lcp ((matched.getD 0 []).takeWhile (· ≠ 0))
      ((matched.take count).tail.map fun s => s.takeWhile (· ≠ 0))).length := by
  unfold findLcpLen
  rw [if_neg (by omega)]
  by_cases h1 : count = 1
  · subst h1
    obtain ⟨m, ms, rfl⟩ := List.exists_cons_of_length_pos (show 0 < matched.length by omega)
    simp [strlen, Lcp.lcp]
  · rw [if_neg (by omega), Int.toNat_natCast]
    have hL := (Lcp.lcp_prefix_self ((matched.getD 0 []).takeWhile (· ≠ 0))
      ((matched.take count).tail.map fun s => s.takeWhile (· ≠ 0))).length_le
    have hbelow := (lcpAgree_iff hlen _).mpr le_rfl
    refine findLcpLenFrom_eq hbelow (fun hat => ?_) (Nat.zero_le _) ?_
    · -- one more agreeing column would make the common prefix longer than itself
      have hmore : ∀ j < _ + 1, LcpAgree matched count j := fun j hj =>
        (Nat.lt_succ_iff_lt_or_eq.mp hj).elim (hbelow j) fun e => e ▸ hat
      have := (lcpAgree_iff hlen _).mp hmore
      omega
    · have hfirst : (matched.getD 0 []).takeWhile (· ≠ 0) <+: matched.getD 0 [] :=
        List.takeWhile_prefix _
      have := hfirst.length_le
      omega

/-- For `count ≥ 1` matches, `find_lcp_len` is the length of the longest prefix common to all
of them, each read up to its NUL. -/
theorem findLcpLen_isGreatest {matched : List (List UInt8)} {count : Nat} (hc : 1 ≤ count)
    (hlen : count ≤ matched.length) :
    IsGreatest {n | ∃ p : List UInt8, p.length = n ∧
        ∀ t ∈ (matched.take count).map (fun s => s.takeWhile (· ≠ 0)), p <+: t}
      (findLcpLen matched count) := by
  have htake : (matched.take count).map (fun s => s.takeWhile (· ≠ 0)) =
      (matched.getD 0 []).takeWhile (· ≠ 0) ::
        (matched.take count).tail.map fun s => s.takeWhile (· ≠ 0) := by
    obtain ⟨m, ms, rfl⟩ := List.exists_cons_of_length_pos (show 0 < matched.length by omega)
    obtain ⟨c, rfl⟩ := Nat.exists_eq_add_of_le' hc
    simp
  rw [findLcpLen_eq hc hlen, htake]
  refine ⟨⟨_, rfl, fun t ht => ?_⟩, fun n ⟨p, hp, hall⟩ => ?_⟩
  · have hcommon := (Lcp.prefix_lcp_iff _ _).mp (List.prefix_refl (Lcp.lcp
      ((matched.getD 0 []).takeWhile (· ≠ 0))
      ((matched.take count).tail.map fun s => s.takeWhile (· ≠ 0))))
    rcases List.mem_cons.mp ht with rfl | ht
    · exact hcommon.1
    · exact hcommon.2 t ht
  · rw [← hp]
    exact ((Lcp.prefix_lcp_iff _ _).mpr
      ⟨hall _ List.mem_cons_self, fun t ht => hall t (List.mem_cons_of_mem _ ht)⟩).length_le

theorem findLcpLen_hel :
    1 ≤ 2 ∧ 2 ≤ [[104, 101, 108, 108, 111, 0], [104, 101, 108, 112, 0]].length ∧
      IsGreatest {n | ∃ p : List UInt8, p.length = n ∧ ∀ t ∈
          ([[104, 101, 108, 108, 111, 0], [104, 101, 108, 112, 0]].take 2).map
            (fun s => s.takeWhile (· ≠ 0)), p <+: t}
        (findLcpLen [[104, 101, 108, 108, 111, 0], [104, 101, 108, 112, 0]] (2 : Nat)) :=
  ⟨by decide, by decide, findLcpLen_isGreatest (by decide) (by decide)⟩

/-- What `print_matches_and_redraw` leaves of the input: the line dropped, the cursor at `w`. -/
theorem printMatchesAndRedraw_input {M : List (List UInt8)} {st st' : State}
    (h : printMatchesAndRedraw M st = .ok st') :
    st'.input = { st.input with c := st.input.w, e := st.input.w } := by
  simp only [printMatchesAndRedraw] at h
  obtain ⟨g₁, -, h⟩ := bind_eq_ok.mp h
  obtain ⟨g₂, -, h⟩ := bind_eq_ok.mp h
  obtain ⟨g₃, -, h⟩ := bind_eq_ok.mp h
  obtain ⟨g₄, -, h⟩ := bind_eq_ok.mp h
  -- both branches of `if (input.e != input.w)` end with `e = w`
  by_cases hew : st.input.e = st.input.w
  · rw [if_neg (not_not.mpr hew), pure_eq_ok, ok_bind] at h
    obtain ⟨g₅, -, h⟩ := bind_eq_ok.mp h
    cases Except.ok.inj h
    simp only [← hew]
  · rw [if_pos hew] at h
    obtain ⟨g₅, -, h⟩ := bind_eq_ok.mp h
    rw [pure_eq_ok, ok_bind] at h
    obtain ⟨g₆, -, h⟩ := bind_eq_ok.mp h
    cases Except.ok.inj h
    rfl

theorem printMatchesAndRedraw_line {M : List (List UInt8)} {st st' : State}
    (h : printMatchesAndRedraw M st = .ok st') : st'.input.line = [] := by
  simp [Input.line, printMatchesAndRedraw_input h, RingBuf.window]

/-- One step of the completion loop: the byte stored at `e`, which moves up one. -/
theorem Input.Inv.appendByte {inp : Input} (h : inp.Inv) (hroom : inp.e.toNat < inp.r.toNat + 128)
    (x : UInt8) : ({ inp.put inp.e x with e := inp.e + 1 } : Input).Inv ∧
      ({ inp.put inp.e x with e := inp.e + 1 } : Input).line = inp.line ++ [x] := by
  have := h.small; have := h.r_le_w; have := h.w_le_c; have := h.c_le_e
  have he : (inp.e + 1).toNat = inp.e.toNat + 1 := toNat_add_one (by omega)
  refine ⟨⟨h.r_le_w, h.w_le_c, by simp only [Input.put, he]; omega,
    by simp only [Input.put, he]; omega, h.small⟩, ?_⟩
  rw [Input.line_eq (by simp only [Input.put, he]; omega), Input.line_eq (by omega)]
  simp only [Input.put, he]
  rw [show inp.e.toNat + 1 - inp.w.toNat = (inp.e.toNat - inp.w.toNat) + 1 by omega]
  exact RingBuf.window_set_last _ _ (by omega) (by congr 1; omega)

/-- The completion loop keeps the invariant, `r`, `w` and `c`, and only appends to the line. -/
theorem appendWord_line {word : List UInt8} {n i : Nat} {inp inp' : Input} {g g' : Cga}
    (hinv : inp.Inv) (h : appendWord word n i (inp, g) = .ok (inp', g')) :
    inp'.Inv ∧ inp'.r = inp.r ∧ inp'.w = inp.w ∧ inp'.c = inp.c ∧ inp.line <+: inp'.line := by
  -- induction on the loop's fuel; the invariant carries the room check of each step
  induction n generalizing i inp g with
  | zero => cases h; exact ⟨hinv, rfl, rfl, rfl, List.prefix_refl _⟩
  | succ n ih =>
    simp only [appendWord] at h
    split at h
    · cases h; exact ⟨hinv, rfl, rfl, rfl, List.prefix_refl _⟩
    · rename_i hfull
      obtain ⟨g₁, -, h⟩ := bind_eq_ok.mp h
      have hroom : inp.e.toNat < inp.r.toNat + 128 := by
        have := hinv.small
        have hr : (inp.r + 128).toNat = inp.r.toNat + 128 := toNat_add_of_lt (by simp; omega)
        rw [ge_iff_le, UInt32.le_iff_toNat_le, hr] at hfull
        omega
      obtain ⟨hinv₁, hline₁⟩ := hinv.appendByte hroom (strAt word i)
      obtain ⟨hinv', hr, hw, hc, hp⟩ := ih hinv₁ h
      refine ⟨hinv', hr, hw, hc, ?_⟩
      rw [hline₁] at hp
      exact (List.prefix_append _ _).trans hp

/-- `handle_tab_completion` either keeps the line as a prefix of the new one or, on the listing
path, empties it. -/
theorem handleTabCompletion_line {st st' : State} (hinv : st.input.Inv)
    (h : handleTabCompletion st = .ok st') : st'.input.line = [] ∨ st.input.line <+: st'.input.line := by
  simp only [handleTabCompletion] at h
  obtain ⟨stop, -, h⟩ := bind_eq_ok.mp h
  split at h
  · cases h; exact .inr (List.prefix_refl _)
  obtain ⟨pre, -, h⟩ := bind_eq_ok.mp h
  split at h
  · cases h; exact .inr (List.prefix_refl _)
  split at h
  · -- one match: completed in place
    obtain ⟨⟨inp, g⟩, hap, h⟩ := bind_eq_ok.mp h
    cases h
    exact .inr (appendWord_line hinv hap).2.2.2.2
  split at h
  · -- a repeated Tab: the listing
    obtain ⟨st₁, hp, h⟩ := bind_eq_ok.mp h
    cases h
    have hnil := printMatchesAndRedraw_line hp
    exact .inl hnil
  split at h
  · -- extended to the longest common prefix
    obtain ⟨⟨inp, g⟩, hap, h⟩ := bind_eq_ok.mp h
    cases h
    exact .inr (appendWord_line hinv hap).2.2.2.2
  · cases h; exact .inr (List.prefix_refl _)

/-- A Tab key, from any state that keeps the line invariant, either extends the line or
empties it. -/
theorem consoleKey_tab_line {st st' : State} (hinv : st.input.Inv) (h : consoleKey 9 st = .ok st') :
    st'.input.line = [] ∨ st.input.line <+: st'.input.line := by
  rw [← deselectIfAny_line st]
  exact handleTabCompletion_line hinv.deselectIfAny h

set_option maxRecDepth 100000 in
/-- From the boot state, `s` and Tab find the two matches `sh` and `stressfs`, whose longest
common prefix adds nothing, and set the repeated-Tab flag; the line is `s`. The next Tab lists
the matches and leaves an empty line. -/
theorem second_tab_empties_line :
    (match consoleKeys [115, 9] (consoleinit ⟨fun _ => 0x0720, 0⟩) with
      | .ok st =>
        decide (st.input.line = bytesOf "s" ∧ st.lastKeyWasTab = 1) &&
        (match consoleKey 9 st with
          | .ok st' => decide (st'.input.line = [])
          | .error _ => false)
      | .error _ => false) = true := by
  decide

end Xv6.Console
