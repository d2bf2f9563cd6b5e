import Xv6.User.Sh

/-!
# The tokens of a command line

`Tokens s es i ts` says what the tokens of `s[i, es)` are, in the claim's words and apart from
`gettoken`: whitespace separates tokens, each of `|();&<` is one, `>>` is one (`'+'`), a `>` not
followed by another is `'>'`, and a word (`'a'`) is a maximal run of bytes outside the
whitespace and the symbols. A token is recorded as `gettoken` reports it, by its code and its
positions `*q`, `*eq`.

For a line whose NUL is at `es` (`IsLen`), every position up to `es` has exactly one such token
list (`tokens_exists`, `Tokens.unique`), and `gettoken` and `peek` read it: `gettoken` returns
its first token and moves to where the rest begins (`gettoken_cons`), or `0` at its end
(`gettoken_nil`), and `peek` tests the first token's first byte (`peek_tokens`).
-/

namespace Xv6.User

/-- A token as `gettoken` reports it: its code and the positions of its first byte and of the
byte after it. -/
structure Tok where
  ret : UInt8
  q : Nat
  eq : Nat
  deriving DecidableEq, Repr

/-- The byte of a token that `peek` tests: `>` for `>>`, and otherwise the code, which for a word
is `'a'`, like the word's first byte no symbol. -/
def Tok.lead (t : Tok) : UInt8 := if t.ret = '+'.toUInt8 then '>'.toUInt8 else t.ret

/-- Whether the first of `ts` is a token `peek` finds among `toks`. -/
def nextIn (ts : List Tok) (toks : List UInt8) : Bool :=
  match ts with
  | [] => false
  | t :: _ => decide (t.lead ∈ toks)

/-! ## Bytes -/

theorem whitespace_eq : whitespace = [32, 9, 13, 10, 11] := by decide

theorem symbols_eq : symbols = [60, 124, 62, 38, 59, 40, 41] := by decide

/-! The values of the bytes and byte strings the parser names, as a simp set: with them `simp`
decides what a literal contains. -/

@[simp] theorem char_lt : '<'.toUInt8 = 60 := rfl
@[simp] theorem char_gt : '>'.toUInt8 = 62 := rfl
@[simp] theorem char_plus : '+'.toUInt8 = 43 := rfl
@[simp] theorem char_a : 'a'.toUInt8 = 97 := rfl
@[simp] theorem char_amp : '&'.toUInt8 = 38 := rfl
@[simp] theorem char_semi : ';'.toUInt8 = 59 := rfl
@[simp] theorem char_bar : '|'.toUInt8 = 124 := rfl
@[simp] theorem char_lparen : '('.toUInt8 = 40 := rfl
@[simp] theorem char_rparen : ')'.toUInt8 = 41 := rfl

@[simp] theorem bytesOf_single : bytesOf "|();&<" = [124, 40, 41, 59, 38, 60] := by decide
@[simp] theorem bytesOf_redir : bytesOf "<>" = [60, 62] := by decide
@[simp] theorem bytesOf_exec_end : bytesOf "|)&;" = [124, 41, 38, 59] := by decide
@[simp] theorem bytesOf_pipe_end : bytesOf ")&;" = [41, 38, 59] := by decide
@[simp] theorem bytesOf_amp : bytesOf "&" = [38] := by decide
@[simp] theorem bytesOf_semi : bytesOf ";" = [59] := by decide
@[simp] theorem bytesOf_bar : bytesOf "|" = [124] := by decide
@[simp] theorem bytesOf_lparen : bytesOf "(" = [40] := by decide
@[simp] theorem bytesOf_rparen : bytesOf ")" = [41] := by decide
@[simp] theorem bytesOf_empty : bytesOf "" = [] := by decide

theorem strchr_isSome_iff {l : List UInt8} (hl : 0 ∉ l) (c : UInt8) :
    (strchr l c).isSome ↔ c ∈ l := by
  induction l with
  | nil => simp [strchr]
  | cons x xs ih =>
    have hx : x ≠ 0 := fun h => hl (h ▸ List.mem_cons_self)
    rw [strchr, if_neg hx, List.mem_cons, ← ih (fun h => hl (List.mem_cons_of_mem x h))]
    by_cases hc : x = c
    · simp [hc]
    · simp only [if_neg hc, Option.isSome_map]
      constructor
      · exact Or.inr
      · rintro (h | h)
        · exact absurd h.symm hc
        · exact h

@[simp] theorem isWs_iff (c : UInt8) : isWs c = true ↔ c ∈ whitespace :=
  strchr_isSome_iff (by decide) c

@[simp] theorem isWordByte_iff (c : UInt8) :
    isWordByte c = true ↔ c ∉ whitespace ∧ c ∉ symbols := by
  have hw := strchr_isSome_iff (show (0 : UInt8) ∉ whitespace by decide) c
  have hs := strchr_isSome_iff (show (0 : UInt8) ∉ symbols by decide) c
  cases h₁ : (strchr whitespace c).isSome <;> cases h₂ : (strchr symbols c).isSome <;>
    simp_all [isWordByte]

theorem ne_zero_of_mem_whitespace {c : UInt8} (h : c ∈ whitespace) : c ≠ 0 := by
  rintro rfl; exact absurd h (by decide)

theorem not_mem_symbols_of_mem_whitespace {c : UInt8} (h : c ∈ whitespace) : c ∉ symbols := by
  rw [whitespace_eq] at h
  simp only [List.mem_cons, List.not_mem_nil, or_false] at h
  rcases h with rfl | rfl | rfl | rfl | rfl <;> decide

theorem isWs_eq_false {c : UInt8} (h : c ∉ whitespace) : isWs c = false := by
  cases hw : isWs c with
  | false => rfl
  | true => exact absurd ((isWs_iff c).mp hw) h

theorem isWordByte_eq_false {c : UInt8} (h : c ∈ whitespace ∨ c ∈ symbols) :
    isWordByte c = false := by
  cases hw : isWordByte c with
  | false => rfl
  | true =>
    obtain ⟨h₁, h₂⟩ := (isWordByte_iff c).mp hw
    exact absurd h (by tauto)

theorem isWs_eq_false_of_mem_symbols {c : UInt8} (h : c ∈ symbols) : isWs c = false :=
  isWs_eq_false fun hw => not_mem_symbols_of_mem_whitespace hw h

/-- The bytes `gettoken` reads as one-byte tokens are symbols, and none of them is `>`. -/
theorem mem_single_iff {c : UInt8} :
    c ∈ bytesOf "|();&<" ↔ c ∈ symbols ∧ c ≠ '>'.toUInt8 := by
  rw [symbols_eq, show bytesOf "|();&<" = [124, 40, 41, 59, 38, 60] by decide,
    show '>'.toUInt8 = 62 by decide]
  simp only [List.mem_cons, List.not_mem_nil, or_false]
  constructor
  · rintro (rfl | rfl | rfl | rfl | rfl | rfl) <;> decide
  · rintro ⟨rfl | rfl | rfl | rfl | rfl | rfl | rfl, h⟩ <;> first | decide | exact absurd rfl h

/-! ## `while` loops over the line -/

section Skip

variable {s : List UInt8} {f : UInt8 → Bool}

theorem skip_of_not {i : Nat} (h : f (s.getD i 0) = false) (n : Nat) : skip s f n i = i := by
  cases n with
  | zero => rfl
  | succ n => simp only [skip, h, Bool.false_eq_true, if_false]

theorem skip_of_pos {i : Nat} (h : f (s.getD i 0) = true) (n : Nat) :
    skip s f (n + 1) i = skip s f n (i + 1) := by
  simp only [skip, h, if_true]

/-- A loop over a run of bytes that `f` accepts, up to a byte it does not or to the bound,
stops at the run's end. -/
theorem skip_eq {i j n : Nat} (hij : i ≤ j) (hjn : j ≤ i + n)
    (hrun : ∀ k, i ≤ k → k < j → f (s.getD k 0) = true)
    (hend : j < i + n → f (s.getD j 0) = false) : skip s f n i = j := by
  induction n generalizing i with
  | zero => rw [skip]; omega
  | succ n ih =>
    rcases Nat.eq_or_lt_of_le hij with rfl | hlt
    · exact skip_of_not (hend (by omega)) _
    · rw [skip_of_pos (hrun i le_rfl hlt)]
      exact ih (by omega) (by omega) (fun k hk hkj => hrun k (by omega) hkj) (fun h => hend (by omega))

/-- Where a loop stops: past a run that `f` accepts, at the bound or at a byte it does not. -/
theorem skip_spec (n i : Nat) :
    i ≤ skip s f n i ∧ skip s f n i ≤ i + n ∧
      (∀ k, i ≤ k → k < skip s f n i → f (s.getD k 0) = true) ∧
      (skip s f n i < i + n → f (s.getD (skip s f n i) 0) = false) := by
  induction n generalizing i with
  | zero =>
    simp only [skip]
    exact ⟨le_rfl, by omega, fun k hk hki => absurd hki (by omega), fun h => absurd h (by omega)⟩
  | succ n ih =>
    cases hf : f (s.getD i 0) with
    | false =>
      rw [skip_of_not hf]
      exact ⟨le_rfl, by omega, fun k hk hki => absurd hki (by omega), fun _ => hf⟩
    | true =>
      rw [skip_of_pos hf]
      obtain ⟨h₁, h₂, h₃, h₄⟩ := ih (i + 1)
      refine ⟨by omega, by omega, fun k hk hkj => ?_, fun h => h₄ (by omega)⟩
      rcases Nat.eq_or_lt_of_le hk with rfl | hlt
      · exact hf
      · exact h₃ k hlt hkj

/-- A loop run again from where it stopped does not move. -/
theorem skip_skip (es i : Nat) : skip s f (es - skip s f (es - i) i) (skip s f (es - i) i) =
    skip s f (es - i) i := by
  obtain ⟨h₁, h₂, -, h₄⟩ := @skip_spec s f (es - i) i
  rcases Nat.lt_or_ge (skip s f (es - i) i) (i + (es - i)) with h | h
  · exact skip_of_not (h₄ h) _
  · rw [show es - skip s f (es - i) i = 0 by omega, skip]

end Skip

/-- Peeking twice is peeking once: the second starts where the whitespace ends. -/
theorem peek_peek (s : List UInt8) (es i : Nat) (toks toks' : List UInt8) :
    peek s es (peek s es i toks).2 toks' = peek s es i toks' := by
  simp only [peek, skip_skip]

/-! ## The tokens -/

section Lex

variable (s : List UInt8) (es : Nat)

/-- The tokens of `s[i, es)`, left to right. -/
inductive Tokens : Nat → List Tok → Prop
  | done : Tokens es []
  | blank {i ts} : i < es → s.getD i 0 ∈ whitespace → Tokens (i + 1) ts → Tokens i ts
  | sym {i ts} : i < es → s.getD i 0 ∈ bytesOf "|();&<" → Tokens (i + 1) ts →
      Tokens i (⟨s.getD i 0, i, i + 1⟩ :: ts)
  | gt {i ts} : i < es → s.getD i 0 = '>'.toUInt8 →
      ¬(i + 1 < es ∧ s.getD (i + 1) 0 = '>'.toUInt8) → Tokens (i + 1) ts →
      Tokens i (⟨'>'.toUInt8, i, i + 1⟩ :: ts)
  | app {i ts} : i + 1 < es → s.getD i 0 = '>'.toUInt8 → s.getD (i + 1) 0 = '>'.toUInt8 →
      Tokens (i + 2) ts → Tokens i (⟨'+'.toUInt8, i, i + 2⟩ :: ts)
  | word {i j ts} : i < j → j ≤ es →
      (∀ k, i ≤ k → k < j → s.getD k 0 ∉ whitespace ∧ s.getD k 0 ∉ symbols) →
      (j < es → s.getD j 0 ∈ whitespace ∨ s.getD j 0 ∈ symbols) →
      Tokens j ts → Tokens i (⟨'a'.toUInt8, i, j⟩ :: ts)

/-- `es` is where the C string `s` ends: no byte before it is NUL, and the one there is. -/
structure IsLen : Prop where
  ne_zero : ∀ k < es, s.getD k 0 ≠ 0
  at_es : s.getD es 0 = 0

end Lex

theorem isLen_strlen (s : List UInt8) : IsLen s (strlen s) := by
  have hsplit : s = s.takeWhile (· ≠ 0) ++ s.dropWhile (· ≠ 0) := List.takeWhile_append_dropWhile.symm
  constructor
  · intro k hk
    have hmem : (s.takeWhile (· ≠ 0)).getD k 0 ∈ s.takeWhile (· ≠ 0) := by
      rw [List.getD_eq_getElem _ _ hk]; exact List.getElem_mem hk
    have hne := List.mem_takeWhile_imp hmem
    rw [hsplit, List.getD_append _ _ _ _ hk]
    simpa using hne
  · have hd : s.getD (strlen s) 0 = (s.dropWhile (· ≠ 0)).getD 0 0 := by
      calc s.getD (strlen s) 0
          = (s.takeWhile (· ≠ 0) ++ s.dropWhile (· ≠ 0)).getD (s.takeWhile (· ≠ 0)).length 0 := by
            rw [← hsplit]; rfl
        _ = (s.dropWhile (· ≠ 0)).getD 0 0 := by
            rw [List.getD_append_right _ _ _ _ le_rfl, Nat.sub_self]
    rw [hd]
    cases hd' : s.dropWhile (· ≠ 0) with
    | nil => rfl
    | cons x xs =>
      have := @List.head_dropWhile_not _ (fun x => decide (x ≠ 0)) s
        (by rw [hd']; exact List.cons_ne_nil _ _)
      simp only [hd', List.head_cons, decide_eq_false_iff_not, not_not] at this
      simp [this]

section Lex

variable {s : List UInt8} {es : Nat}

theorem Tokens.le {i : Nat} {ts : List Tok} (h : Tokens s es i ts) : i ≤ es := by
  induction h <;> omega

/-- Skipping whitespace keeps the tokens. -/
theorem Tokens.skipWs {i : Nat} {ts : List Tok} (h : Tokens s es i ts) :
    Tokens s es (skip s isWs (es - i) i) ts := by
  induction h with
  | done => rw [Nat.sub_self, skip]; exact .done
  | @blank i ts hi hw _ ih =>
    rwa [show es - i = es - (i + 1) + 1 by omega, skip_of_pos ((isWs_iff _).mpr hw)]
  | @sym i ts hi hc h' _ =>
    rw [skip_of_not (isWs_eq_false_of_mem_symbols (mem_single_iff.mp hc).1)]
    exact .sym hi hc h'
  | @gt i ts hi hc hn h' _ =>
    rw [skip_of_not (isWs_eq_false_of_mem_symbols (by rw [hc]; decide))]
    exact .gt hi hc hn h'
  | @app i ts hi hc hc' h' _ =>
    rw [skip_of_not (isWs_eq_false_of_mem_symbols (by rw [hc]; decide))]
    exact .app hi hc hc' h'
  | @word i j ts hij hj hrun hend h' _ =>
    rw [skip_of_not (isWs_eq_false (hrun i le_rfl hij).1)]
    exact .word hij hj hrun hend h'

variable (hl : IsLen s es)
include hl

/-- Before the line's end there is a first token or only whitespace: every position up to `es`
has its tokens. -/
theorem tokens_exists {i : Nat} (hi : i ≤ es) : ∃ ts, Tokens s es i ts := by
  induction h : es - i using Nat.strong_induction_on generalizing i with
  | _ n ih =>
    rcases Nat.eq_or_lt_of_le hi with rfl | hlt
    · exact ⟨[], .done⟩
    by_cases hw : s.getD i 0 ∈ whitespace
    · obtain ⟨ts, hts⟩ := ih (es - (i + 1)) (by omega) (by omega) rfl
      exact ⟨ts, .blank hlt hw hts⟩
    by_cases hsym : s.getD i 0 ∈ symbols
    · by_cases hgt : s.getD i 0 = '>'.toUInt8
      · by_cases happ : i + 1 < es ∧ s.getD (i + 1) 0 = '>'.toUInt8
        · obtain ⟨ts, hts⟩ := ih (es - (i + 2)) (by omega) (by omega) rfl
          exact ⟨_, .app happ.1 hgt happ.2 hts⟩
        · obtain ⟨ts, hts⟩ := ih (es - (i + 1)) (by omega) (by omega) rfl
          exact ⟨_, .gt hlt hgt happ hts⟩
      · obtain ⟨ts, hts⟩ := ih (es - (i + 1)) (by omega) (by omega) rfl
        exact ⟨_, .sym hlt (mem_single_iff.mpr ⟨hsym, hgt⟩) hts⟩
    -- a word: the bytes up to the first whitespace or symbol
    obtain ⟨h₁, h₂, h₃, h₄⟩ := @skip_spec s isWordByte (es - i) i
    set j := skip s isWordByte (es - i) i
    have hword := (isWordByte_iff (s.getD i 0)).mpr ⟨hw, hsym⟩
    have hij : i < j := by
      rcases Nat.eq_or_lt_of_le h₁ with heq | hlt'
      · have h4 := h₄ (by omega)
        rw [← heq, hword] at h4
        exact absurd h4 (by decide)
      · exact hlt'
    obtain ⟨ts, hts⟩ := ih (es - j) (by omega) (by omega) rfl
    refine ⟨_, .word hij (by omega) (fun k hk hkj => (isWordByte_iff _).mp (h₃ k hk hkj))
      (fun hj => ?_) hts⟩
    by_contra hn
    push Not at hn
    have h4 := h₄ (by omega)
    rw [(isWordByte_iff _).mpr hn] at h4
    exact absurd h4 (by decide)

/-- `gettoken` at the end of the tokens: code `0`, and `*ps` at the NUL. -/
theorem gettoken_nil {i : Nat} (h : Tokens s es i []) : gettoken s es i = (0, es, es, es) := by
  generalize hts : ([] : List Tok) = ts at h
  induction h with
  | done => simp only [gettoken, Nat.sub_self, skip, hl.at_es, ↓reduceIte]
  | @blank i ts hi hw _ ih =>
    rw [← ih hts]
    simp only [gettoken, show es - i = es - (i + 1) + 1 by omega, skip_of_pos ((isWs_iff _).mpr hw)]
  | sym => cases hts
  | gt => cases hts
  | app => cases hts
  | word => cases hts

/-- `gettoken` before a token: the token, and `*ps` where the next ones begin. -/
theorem gettoken_cons {i : Nat} {t : Tok} {ts : List Tok} (h : Tokens s es i (t :: ts)) :
    ∃ j, gettoken s es i = (t.ret, t.q, t.eq, j) ∧ Tokens s es j ts := by
  generalize hts : t :: ts = l at h
  induction h with
  | done => cases hts
  | @blank i ts' hi hw _ ih =>
    rw [gettoken, show es - i = es - (i + 1) + 1 by omega, skip_of_pos ((isWs_iff _).mpr hw)]
    exact ih hts
  | @sym i ts' hi hc h' =>
    cases hts
    have hq : skip s isWs (es - i) i = i :=
      skip_of_not (isWs_eq_false_of_mem_symbols (mem_single_iff.mp hc).1) _
    refine ⟨_, ?_, h'.skipWs⟩
    simp only [gettoken, hq, if_neg (hl.ne_zero i hi), if_pos hc]
  | @gt i ts' hi hc hn h' =>
    cases hts
    have hq : skip s isWs (es - i) i = i :=
      skip_of_not (isWs_eq_false_of_mem_symbols (by rw [hc]; decide)) _
    have hn' : s.getD (i + 1) 0 ≠ '>'.toUInt8 := by
      intro h2
      rcases Nat.lt_or_ge (i + 1) es with h1 | h1
      · exact hn ⟨h1, h2⟩
      · rw [show i + 1 = es by omega, hl.at_es] at h2
        exact absurd h2 (by decide)
    refine ⟨_, ?_, h'.skipWs⟩
    simp only [gettoken, hq, hc, if_neg (show '>'.toUInt8 ≠ 0 by decide),
      if_neg (show '>'.toUInt8 ∉ bytesOf "|();&<" by decide), if_true, if_neg hn']
  | @app i ts' hi hc hc' h' =>
    cases hts
    have hq : skip s isWs (es - i) i = i :=
      skip_of_not (isWs_eq_false_of_mem_symbols (by rw [hc]; decide)) _
    refine ⟨_, ?_, h'.skipWs⟩
    simp only [gettoken, hq, hc, if_neg (show '>'.toUInt8 ≠ 0 by decide),
      if_neg (show '>'.toUInt8 ∉ bytesOf "|();&<" by decide), if_true, hc']
  | @word i j ts' hij hj hrun hend h' =>
    cases hts
    have hc := hrun i le_rfl hij
    have hq : skip s isWs (es - i) i = i := skip_of_not (isWs_eq_false hc.1) _
    have hw : skip s isWordByte (es - i) i = j :=
      skip_eq (by omega) (by omega) (fun k hk hkj => (isWordByte_iff _).mpr (hrun k hk hkj))
        (fun hj' => isWordByte_eq_false (hend (by omega)))
    refine ⟨_, ?_, h'.skipWs⟩
    simp only [gettoken, hq, if_neg (hl.ne_zero i (by omega)),
      if_neg (fun h => hc.2 (mem_single_iff.mp h).1),
      if_neg (fun h : s.getD i 0 = '>'.toUInt8 => hc.2 (by rw [h]; decide)), hw]

omit hl in
theorem peek_eq (i : Nat) (toks : List UInt8) :
    peek s es i toks = (decide (s.getD (skip s isWs (es - i) i) 0 ≠ 0) &&
      (strchr toks (s.getD (skip s isWs (es - i) i) 0)).isSome, skip s isWs (es - i) i) := rfl

omit hl in
/-- `peek`'s test of a byte: for a byte other than NUL, whether it is one of `toks`. -/
theorem peek_test {c : UInt8} (hc : c ≠ 0) {toks : List UInt8} (h0 : (0 : UInt8) ∉ toks) :
    (decide (c ≠ 0) && (strchr toks c).isSome) = decide (c ∈ toks) := by
  rw [decide_eq_true hc, Bool.true_and]
  exact Bool.eq_iff_iff.mpr ((strchr_isSome_iff h0 c).trans (decide_eq_true_iff).symm)

/-- `peek` tests the first token's leading byte and leaves `*ps` where the tokens begin. -/
theorem peek_tokens {i : Nat} {ts : List Tok} (h : Tokens s es i ts) (toks : List UInt8)
    (htoks : ∀ x ∈ toks, x ∈ symbols) :
    (peek s es i toks).1 = nextIn ts toks ∧ Tokens s es (peek s es i toks).2 ts := by
  refine ⟨?_, h.skipWs⟩
  have h0 : (0 : UInt8) ∉ toks := fun h0 => absurd (htoks 0 h0) (by decide)
  rw [peek_eq]
  induction h with
  | done => simp only [Nat.sub_self, skip, hl.at_es, ne_eq, not_true_eq_false, decide_false,
      Bool.false_and, nextIn]
  | @blank i ts hi hw _ ih =>
    rwa [show es - i = es - (i + 1) + 1 by omega, skip_of_pos ((isWs_iff _).mpr hw)]
  | @sym i ts hi hc _ _ =>
    have hne : s.getD i 0 ≠ '+'.toUInt8 := fun h => absurd (h ▸ hc) (by decide)
    rw [skip_of_not (isWs_eq_false_of_mem_symbols (mem_single_iff.mp hc).1), peek_test (hl.ne_zero i hi) h0]
    simp only [nextIn, Tok.lead, if_neg hne]
  | @gt i ts hi hc _ _ _ =>
    rw [skip_of_not (isWs_eq_false_of_mem_symbols (by rw [hc]; decide)), peek_test (hl.ne_zero i hi) h0]
    simp only [nextIn, Tok.lead, hc, if_neg (show '>'.toUInt8 ≠ '+'.toUInt8 by decide)]
  | @app i ts hi hc _ _ _ =>
    rw [skip_of_not (isWs_eq_false_of_mem_symbols (by rw [hc]; decide)),
      peek_test (hl.ne_zero i (by omega)) h0]
    simp only [nextIn, Tok.lead, hc, ↓reduceIte]
  | @word i j ts hij hj hrun _ _ _ =>
    have hc := hrun i le_rfl hij
    have hnot : s.getD i 0 ∉ toks := fun h => hc.2 (htoks _ h)
    have ha : 'a'.toUInt8 ∉ toks := fun h => absurd (htoks _ h) (by decide)
    rw [skip_of_not (isWs_eq_false hc.1), peek_test (hl.ne_zero i (by omega)) h0]
    simp only [nextIn, Tok.lead, if_neg (show 'a'.toUInt8 ≠ '+'.toUInt8 by decide), hnot, ha]

/-- After the last token, `peek` stops at the NUL. -/
theorem peek_nil {i : Nat} (h : Tokens s es i []) (toks : List UInt8) : (peek s es i toks).2 = es := by
  have := congrArg (fun r => r.2.1) (gettoken_nil hl h)
  simpa only [gettoken, peek] using this

omit hl in
/-- Every token takes at least one byte. -/
theorem Tokens.length_le {i : Nat} {ts : List Tok} (h : Tokens s es i ts) : ts.length + i ≤ es := by
  induction h with
  | done => simp
  | blank _ _ _ ih => omega
  | sym _ _ _ ih => simp only [List.length_cons]; omega
  | gt _ _ _ _ ih => simp only [List.length_cons]; omega
  | app _ _ _ _ ih => simp only [List.length_cons]; omega
  | word hij _ _ _ _ ih => simp only [List.length_cons]; omega

omit hl in
/-- A word token is a maximal run of bytes outside the whitespace and the symbols. -/
theorem Tokens.word_mem {i : Nat} {ts : List Tok} (h : Tokens s es i ts) :
    ∀ t ∈ ts, t.ret = 'a'.toUInt8 → t.q < t.eq ∧ t.eq ≤ es ∧
      (∀ k, t.q ≤ k → k < t.eq → s.getD k 0 ∉ whitespace ∧ s.getD k 0 ∉ symbols) ∧
      (t.eq < es → s.getD t.eq 0 ∈ whitespace ∨ s.getD t.eq 0 ∈ symbols) := by
  induction h with
  | done => simp
  | blank _ _ _ ih => exact ih
  | @sym i ts _ hc _ ih =>
    rintro t (_ | ⟨_, ht⟩)
    · intro ha
      have h97 : (97 : UInt8) ∈ bytesOf "|();&<" := by rw [← char_a, ← ha]; exact hc
      exact absurd h97 (by decide)
    · exact ih t ht
  | gt _ _ _ _ ih =>
    rintro t (_ | ⟨_, ht⟩)
    · exact fun ha => absurd ha (by decide : '>'.toUInt8 ≠ 'a'.toUInt8)
    · exact ih t ht
  | app _ _ _ _ ih =>
    rintro t (_ | ⟨_, ht⟩)
    · exact fun ha => absurd ha (by decide : '+'.toUInt8 ≠ 'a'.toUInt8)
    · exact ih t ht
  | word hij hj hrun hend _ ih =>
    rintro t (_ | ⟨_, ht⟩)
    · exact fun _ => ⟨hij, hj, hrun, hend⟩
    · exact ih t ht

omit hl in
/-- Every token has a non-zero code, so `gettoken` tells the end of the tokens from a token. -/
theorem Tokens.ret_ne_zero {i : Nat} {ts : List Tok} (h : Tokens s es i ts) :
    ∀ t ∈ ts, t.ret ≠ 0 := by
  induction h with
  | done => simp
  | blank _ _ _ ih => exact ih
  | @sym i ts _ hc _ ih =>
    rintro t (_ | ⟨_, ht⟩)
    · intro h
      have h0 : (0 : UInt8) ∈ bytesOf "|();&<" := by rw [← h]; exact hc
      exact absurd h0 (by decide)
    · exact ih t ht
  | gt _ _ _ _ ih =>
    rintro t (_ | ⟨_, ht⟩)
    · exact (by decide : '>'.toUInt8 ≠ 0)
    · exact ih t ht
  | app _ _ _ _ ih =>
    rintro t (_ | ⟨_, ht⟩)
    · exact (by decide : '+'.toUInt8 ≠ 0)
    · exact ih t ht
  | word _ _ _ _ _ ih =>
    rintro t (_ | ⟨_, ht⟩)
    · exact (by decide : 'a'.toUInt8 ≠ 0)
    · exact ih t ht

/-- The tokens at a position are unique. -/
theorem Tokens.unique {i : Nat} {ts ts' : List Tok} (h : Tokens s es i ts)
    (h' : Tokens s es i ts') : ts = ts' := by
  induction ts generalizing i ts' with
  | nil =>
    cases ts' with
    | nil => rfl
    | cons t ts' =>
      obtain ⟨j, hj, -⟩ := gettoken_cons hl h'
      rw [gettoken_nil hl h] at hj
      exact absurd (congrArg Prod.fst hj).symm (h'.ret_ne_zero t List.mem_cons_self)
  | cons t ts ih =>
    obtain ⟨j, hj, hts⟩ := gettoken_cons hl h
    cases ts' with
    | nil =>
      rw [gettoken_nil hl h'] at hj
      exact absurd (congrArg Prod.fst hj).symm (h.ret_ne_zero t List.mem_cons_self)
    | cons t' ts' =>
      obtain ⟨j', hj', hts'⟩ := gettoken_cons hl h'
      rw [hj] at hj'
      simp only [Prod.mk.injEq] at hj'
      obtain ⟨h1, h2, h3, rfl⟩ := hj'
      have htt : t = t' := by cases t; cases t'; simp_all
      rw [htt, ih hts hts']

end Lex

end Xv6.User
