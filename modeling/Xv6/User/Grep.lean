import Mathlib

/-!
# grep

`grep` prints the lines of its input that `match` its pattern: Kernighan and Pike's matcher, with
`.`, `x*`, a leading `^` and a final `$`. A C string is the list of its bytes before the NUL, so
`*text == '\0'` is the end of the list.

`Pattern.of` reads a pattern the way the claim describes it: an atom (a byte, or `.` for any byte)
followed by `*` is starred, a `*` with no atom before it and a `$` that does not end the pattern
are literal, a leading `^` anchors the match at the start and a final `$` at the end. Against it,
`match` is exact (`match_iff`): it accepts a text exactly when some substring of it, a prefix
under `^` and a suffix under `$`, is a word of the pattern's items.
-/

namespace Xv6.User

/-! ## The matcher -/

/-- `matchstar(c, re, text)`, with `matchhere(re, ·)` passed in as `here`: try `here` at each
point of a run of `c`s (of any bytes for `c == '.'`). -/
def matchstar (c : UInt8) (here : List UInt8 → Bool) : List UInt8 → Bool
  | [] => here []
  | t :: ts => here (t :: ts) || ((t == c || c == '.'.toUInt8) && matchstar c here ts)

/-- The last test of `matchhere(re, text)`, with `matchhere(re+1, ·)` passed in as `here`:
`*text!='\0' && (re[0]=='.' || re[0]==*text)`, then `here` on the rest of the text. -/
def matchOne (c : UInt8) (here : List UInt8 → Bool) : List UInt8 → Bool
  | t :: ts => (c == '.'.toUInt8 || c == t) && here ts
  | [] => false

/-- `matchhere(re, text)`: does `re` match at the start of `text`? -/
def matchhere : List UInt8 → List UInt8 → Bool
  | [], _ => true
  | [c], text => if c = '$'.toUInt8 then text.isEmpty else matchOne c (matchhere []) text
  | c :: d :: re, text =>
    if d = '*'.toUInt8 then matchstar c (matchhere re) text
    else matchOne c (matchhere (d :: re)) text

/-- The `do ... while(*text++ != '\0')` loop of `match`: `matchhere` at each suffix of the text,
the empty one included. -/
def matchFrom (re : List UInt8) : List UInt8 → Bool
  | [] => matchhere re []
  | t :: ts => matchhere re (t :: ts) || matchFrom re ts

/-- `match(re, text)`. -/
def «match» (re text : List UInt8) : Bool :=
  match re with
  | c :: re' => if c = '^'.toUInt8 then matchhere re' text else matchFrom (c :: re') text
  | [] => matchFrom [] text

/-! ## What a pattern means -/

/-- A byte of the pattern, or `.`. -/
inductive Atom where
  | lit (c : UInt8)
  | any
  deriving DecidableEq, Repr

def Atom.Matches : Atom → UInt8 → Prop
  | .lit c, x => x = c
  | .any, _ => True

/-- One element of a pattern: an atom once, or starred. -/
inductive Item where
  | one (a : Atom)
  | star (a : Atom)
  deriving DecidableEq, Repr

/-- A pattern: its items, and whether it is anchored at the start (`^`) and at the end (`$`). -/
structure Pattern where
  start : Bool
  items : List Item
  stop : Bool

def atomOf (c : UInt8) : Atom := if c = '.'.toUInt8 then .any else .lit c

/-- The items of a pattern after its `^`, and whether a final `$` anchors it at the end. -/
def parse : List UInt8 → List Item × Bool
  | [] => ([], false)
  | [c] => if c = '$'.toUInt8 then ([], true) else ([.one (atomOf c)], false)
  | c :: d :: re =>
    if d = '*'.toUInt8 then ((parse re).1.cons (.star (atomOf c)), (parse re).2)
    else ((parse (d :: re)).1.cons (.one (atomOf c)), (parse (d :: re)).2)

def Pattern.of (re : List UInt8) : Pattern :=
  match re with
  | c :: re' =>
    if c = '^'.toUInt8 then ⟨true, (parse re').1, (parse re').2⟩
    else ⟨false, (parse re).1, (parse re).2⟩
  | [] => ⟨false, [], false⟩

/-- `w` is a word of the items. -/
def Word : List Item → List UInt8 → Prop
  | [], w => w = []
  | .one a :: is, w => ∃ x w', w = x :: w' ∧ a.Matches x ∧ Word is w'
  | .star a :: is, w => ∃ u v, w = u ++ v ∧ (∀ x ∈ u, a.Matches x) ∧ Word is v

/-- Some substring of `text` is a word of the pattern: with nothing before it under `^`, and
nothing after it under `$`. -/
def Pattern.Matches (p : Pattern) (text : List UInt8) : Prop :=
  ∃ pre w rest, text = pre ++ w ++ rest ∧ (p.start → pre = []) ∧ (p.stop → rest = []) ∧
    Word p.items w


/-! ## The matcher is exact -/

theorem matches_atomOf (c x : UInt8) :
    (atomOf c).Matches x ↔ (c == '.'.toUInt8 || c == x) = true := by
  unfold atomOf
  by_cases hc : c = '.'.toUInt8
  · simp [hc, Atom.Matches]
  · simp only [hc, if_false, Atom.Matches, Bool.or_eq_true, beq_iff_eq, false_or]
    exact eq_comm

/-- `matchstar`'s test `*text++==c || c=='.'`, the same test in the other order. -/
theorem matches_atomOf_star (c x : UInt8) :
    (atomOf c).Matches x ↔ (x == c || c == '.'.toUInt8) = true := by
  rw [matches_atomOf]
  simp only [Bool.or_eq_true, beq_iff_eq]
  constructor
  · rintro (h | rfl)
    · exact Or.inr h
    · exact Or.inl rfl
  · rintro (rfl | h)
    · exact Or.inr rfl
    · exact Or.inl h

/-- A prefix of `text` is a word of `is`, and under `stop` it is all of `text`. -/
def Prefix (is : List Item) (stop : Bool) (text : List UInt8) : Prop :=
  ∃ w rest, text = w ++ rest ∧ Word is w ∧ (stop = true → rest = [])

theorem prefix_nil_iff {stop : Bool} {text : List UInt8} :
    Prefix [] stop text ↔ (stop = true → text = []) := by
  simp [Prefix, Word]

theorem prefix_one_cons_iff {a : Atom} {is : List Item} {stop : Bool} {t : UInt8}
    {ts : List UInt8} : Prefix (.one a :: is) stop (t :: ts) ↔ a.Matches t ∧ Prefix is stop ts := by
  constructor
  · rintro ⟨_, rest, htext, ⟨x, w', rfl, hx, hw⟩, hstop⟩
    obtain ⟨rfl, rfl⟩ := List.cons_eq_cons.mp htext
    exact ⟨hx, w', rest, rfl, hw, hstop⟩
  · rintro ⟨ht, w', rest, rfl, hw, hstop⟩
    exact ⟨t :: w', rest, rfl, ⟨t, w', rfl, ht, hw⟩, hstop⟩

theorem not_prefix_one_nil {a : Atom} {is : List Item} {stop : Bool} :
    ¬Prefix (.one a :: is) stop [] := by
  rintro ⟨_, rest, htext, ⟨x, w', rfl, -, -⟩, -⟩
  simp at htext

theorem prefix_star_iff {a : Atom} {is : List Item} {stop : Bool} {text : List UInt8} :
    Prefix (.star a :: is) stop text ↔
      ∃ u v, text = u ++ v ∧ (∀ x ∈ u, a.Matches x) ∧ Prefix is stop v := by
  constructor
  · rintro ⟨_, rest, rfl, ⟨u, v, rfl, hu, hv⟩, hstop⟩
    exact ⟨u, v ++ rest, List.append_assoc _ _ _, hu, v, rest, rfl, hv, hstop⟩
  · rintro ⟨u, _, rfl, hu, v, rest, rfl, hv, hstop⟩
    exact ⟨u ++ v, rest, (List.append_assoc _ _ _).symm, ⟨u, v, rfl, hu, hv⟩, hstop⟩

/-- `matchstar` tries every length of the run of `c`s, the empty one first. -/
theorem matchstar_iff (c : UInt8) (here : List UInt8 → Bool) (text : List UInt8) :
    matchstar c here text = true ↔
      ∃ u v, text = u ++ v ∧ (∀ x ∈ u, (atomOf c).Matches x) ∧ here v = true := by
  induction text with
  | nil => simp [matchstar]
  | cons t ts ih =>
    rw [matchstar, Bool.or_eq_true, Bool.and_eq_true, ih, ← matches_atomOf_star]
    constructor
    · rintro (hhere | ⟨ht, u, v, rfl, hu, hv⟩)
      · exact ⟨[], t :: ts, rfl, by simp, hhere⟩
      · exact ⟨t :: u, v, rfl, by simpa [ht] using hu, hv⟩
    · rintro ⟨u, v, htext, hu, hv⟩
      cases u with
      | nil => exact Or.inl (by simpa using htext ▸ hv)
      | cons x u =>
        obtain ⟨rfl, rfl⟩ := List.cons_eq_cons.mp htext
        exact Or.inr ⟨hu _ List.mem_cons_self, u, v, rfl, fun y hy => hu y (List.mem_cons_of_mem _ hy), hv⟩

/-- The literal step of `matchhere`: one byte matched, then the rest. -/
theorem matchOne_iff {c : UInt8} {is : List Item} {stop : Bool} {text : List UInt8}
    {here : List UInt8 → Bool} (hhere : ∀ ts, here ts = true ↔ Prefix is stop ts) :
    matchOne c here text = true ↔ Prefix (.one (atomOf c) :: is) stop text := by
  cases text with
  | nil => simpa [matchOne] using not_prefix_one_nil
  | cons t ts => rw [prefix_one_cons_iff, matches_atomOf, matchOne, Bool.and_eq_true, hhere]

/-- `matchhere re text` holds exactly when a prefix of `text` is a word of the pattern `re`, the
whole text under a final `$`. -/
theorem matchhere_iff : ∀ re text : List UInt8,
    matchhere re text = true ↔ Prefix (parse re).1 (parse re).2 text
  | [], text => by simp [matchhere, parse, prefix_nil_iff]
  | [c], text => by
    by_cases hc : c = '$'.toUInt8
    · simp [matchhere, parse, hc, prefix_nil_iff]
    · rw [matchhere, if_neg hc, parse, if_neg hc]
      exact matchOne_iff fun ts => by simp [matchhere, prefix_nil_iff]
  | c :: d :: re, text => by
    by_cases hd : d = '*'.toUInt8
    · rw [matchhere, if_pos hd, parse, if_pos hd, matchstar_iff, prefix_star_iff]
      simp only [matchhere_iff re]
    · rw [matchhere, if_neg hd, parse, if_neg hd]
      exact matchOne_iff (matchhere_iff (d :: re))

theorem matchFrom_iff (re text : List UInt8) :
    matchFrom re text = true ↔ ∃ pre suf, text = pre ++ suf ∧ matchhere re suf = true := by
  induction text with
  | nil => simp [matchFrom]
  | cons t ts ih =>
    rw [matchFrom, Bool.or_eq_true, ih]
    constructor
    · rintro (h | ⟨pre, suf, rfl, h⟩)
      · exact ⟨[], t :: ts, rfl, h⟩
      · exact ⟨t :: pre, suf, rfl, h⟩
    · rintro ⟨pre, suf, htext, h⟩
      cases pre with
      | nil => exact Or.inl (by simpa [htext] using h)
      | cons x pre =>
        obtain ⟨rfl, rfl⟩ := List.cons_eq_cons.mp htext
        exact Or.inr ⟨pre, suf, rfl, h⟩

theorem Pattern.matches_iff (p : Pattern) (text : List UInt8) :
    p.Matches text ↔ ∃ pre suf, text = pre ++ suf ∧ (p.start = true → pre = []) ∧
      Prefix p.items p.stop suf := by
  constructor
  · rintro ⟨pre, w, rest, rfl, hstart, hstop, hw⟩
    exact ⟨pre, w ++ rest, List.append_assoc _ _ _, hstart, w, rest, rfl, hw, hstop⟩
  · rintro ⟨pre, _, rfl, hstart, w, rest, rfl, hw, hstop⟩
    exact ⟨pre, w, rest, (List.append_assoc _ _ _).symm, hstart, hstop, hw⟩

/-- `match(re, text)` returns 1 exactly when some substring of `text` is in the language of `re`:
a prefix when `re` begins with `^`, a suffix when it ends with `$`. -/
theorem match_iff (re text : List UInt8) : «match» re text = true ↔ (Pattern.of re).Matches text := by
  rw [Pattern.matches_iff]
  cases re with
  | nil => simp [«match», Pattern.of, matchFrom_iff, matchhere_iff, parse]
  | cons c re' =>
    by_cases hc : c = '^'.toUInt8
    · -- anchored: only the whole text is tried
      simp only [«match», Pattern.of, if_pos hc, matchhere_iff, forall_const]
      constructor
      · intro h
        exact ⟨[], text, rfl, rfl, h⟩
      · rintro ⟨pre, suf, rfl, rfl, h⟩
        exact h
    · simp [«match», Pattern.of, hc, matchFrom_iff, matchhere_iff]

/-! ## Lines -/

/-- `strchr(s, c)`: the index of the first `c` before the NUL. -/
def strchr (s : List UInt8) (c : UInt8) : Option Nat :=
  match s with
  | [] => none
  | x :: xs => if x = 0 then none else if x = c then some 0 else (strchr xs c).map (· + 1)

/-- The inner `while` of `grep`, from `p = buf + off`, with `fuel` rounds left: the bytes it
writes, and the offset of `p` when no `'\n'` is left before the NUL. -/
def grepLines (pattern buf : List UInt8) : Nat → Nat → List UInt8 × Nat
  | 0, off => ([], off)
  | fuel + 1, off =>
    match strchr (buf.drop off) 10 with
    | none => ([], off)
    | some i =>
      -- `*q = 0` ends the line at `q`; the `'\n'` is put back only to write it
      let line := (buf.drop off).take i
      let r := grepLines pattern buf fuel (off + i + 1)
      ((if «match» pattern line then line ++ [10] else []) ++ r.1, r.2)

/-- The outer `while` of `grep(pattern, fd)`: `buf` holds the `m` bytes kept from the last round,
`inp` what is left to read, and each `read` hands out at most the next size of `ks`. Returns
what `grep` writes. -/
def grepLoop (pattern : List UInt8) : List Nat → List UInt8 → List UInt8 → List UInt8
  | [], _, _ => []
  | k :: ks, buf, inp =>
    -- `n = read(fd, buf+m, sizeof(buf)-m-1)`
    let n := min k (min (1023 - buf.length) inp.length)
    if n = 0 then []
    else
      let buf := buf ++ inp.take n
      let r := grepLines pattern buf (buf.length + 1) 0
      -- `if(p == buf) m = 0; if(m > 0){ m -= p - buf; memmove(buf, p, m); }`
      let m := if r.2 = 0 then 0 else buf.length
      r.1 ++ grepLoop pattern ks (if m > 0 then buf.drop r.2 else []) (inp.drop n)

/-- The text of lines, each ended by a `'\n'`. -/
def linesText (ls : List (List UInt8)) : List UInt8 := ls.flatMap (· ++ [10])

/-- The lines of an input: its maximal `'\n'`-ended segments, and the final segment when the
input does not end in `'\n'`. -/
def inputLines (inp : List UInt8) : List (List UInt8) :=
  if (inp.splitOn 10).getLast? = some [] then (inp.splitOn 10).dropLast else inp.splitOn 10

/-- What `grep` is for: the lines of the input that match, in order, each followed by `'\n'`. -/
def grepSpec (pattern inp : List UInt8) : List UInt8 :=
  linesText ((inputLines inp).filter fun l => «match» pattern l)

/-- `ab\n` searched for `b`: read whole, `grep` writes `ab\n`; read as `a` then `b\n`, it drops
the `a` it could not end with a newline and writes `b\n`, a line the input does not have. An
input without a final newline loses its last line under every chunking. -/
theorem grep_output_depends_on_chunks :
    grepSpec [98] [97, 98, 10] = [97, 98, 10] ∧ grepLoop [98] [3] [] [97, 98, 10] = [97, 98, 10] ∧
      grepLoop [98] [1, 2] [] [97, 98, 10] = [98, 10] ∧
      grepSpec [98] [98] = [98, 10] ∧ grepLoop [98] [1] [] [98] = [] := by
  decide

/-! ## Reads of whole lines -/

theorem strchr_append_cons {l s : List UInt8} {c : UInt8} (hc : c ≠ 0)
    (hl : ∀ x ∈ l, x ≠ 0 ∧ x ≠ c) : strchr (l ++ c :: s) c = some l.length := by
  induction l with
  | nil => simp [strchr, hc]
  | cons x l ih =>
    have hx := hl x List.mem_cons_self
    rw [List.cons_append, strchr, if_neg hx.1, if_neg hx.2,
      ih fun y hy => hl y (List.mem_cons_of_mem _ hy)]
    rfl

/-- The inner loop reads `buf` only from `p` on. -/
theorem grepLines_drop (pattern buf : List UInt8) (fuel off : Nat) :
    grepLines pattern buf fuel off =
      ((grepLines pattern (buf.drop off) fuel 0).1, off + (grepLines pattern (buf.drop off) fuel 0).2) := by
  induction fuel generalizing off buf with
  | zero => rfl
  | succ fuel ih =>
    rw [grepLines, grepLines, List.drop_zero]
    split
    · rfl
    · rename_i i _
      rw [ih buf, ih (buf.drop off) (0 + i + 1), List.drop_drop]
      simp only [Nat.zero_add, Nat.add_assoc]

/-- The inner loop over whole lines, followed by a tail with no `'\n'`: it writes the lines that
match and stops at the tail. -/
theorem grepLines_linesText (pattern : List UInt8) {ls : List (List UInt8)} {t : List UInt8}
    (hl : ∀ l ∈ ls, 10 ∉ l ∧ 0 ∉ l) (ht : strchr t 10 = none) {fuel : Nat}
    (hfuel : ls.length < fuel) :
    grepLines pattern (linesText ls ++ t) fuel 0 =
      (linesText (ls.filter fun l => «match» pattern l), (linesText ls).length) := by
  induction ls generalizing fuel with
  | nil =>
    obtain ⟨fuel, rfl⟩ : ∃ f, fuel = f + 1 := ⟨fuel - 1, by simp at hfuel; omega⟩
    simp [grepLines, linesText, ht]
  | cons l ls ih =>
    obtain ⟨fuel, rfl⟩ : ∃ f, fuel = f + 1 := ⟨fuel - 1, by simp at hfuel; omega⟩
    have hl0 := hl l List.mem_cons_self
    have hbuf : linesText (l :: ls) ++ t = l ++ 10 :: (linesText ls ++ t) := by
      simp [linesText]
    have hchr : strchr (l ++ 10 :: (linesText ls ++ t)) 10 = some l.length :=
      strchr_append_cons (by decide) fun x hx => ⟨fun h => hl0.2 (h ▸ hx), fun h => hl0.1 (h ▸ hx)⟩
    have hline : (l ++ 10 :: (linesText ls ++ t)).take l.length = l := List.take_left' rfl
    have hrest : (l ++ 10 :: (linesText ls ++ t)).drop (0 + l.length + 1) = linesText ls ++ t := by
      rw [← List.singleton_append, ← List.append_assoc]
      exact List.drop_left' (by simp)
    rw [hbuf, grepLines, List.drop_zero, hchr]
    simp only
    rw [grepLines_drop, hline, hrest,
      ih (fun l' hl' => hl l' (List.mem_cons_of_mem _ hl')) (by simpa using hfuel)]
    have hlen : (linesText (l :: ls)).length = 0 + l.length + 1 + (linesText ls).length := by
      simp [linesText]
      omega
    rw [hlen]
    by_cases hm : «match» pattern l = true
    · simp [hm, linesText, List.filter_cons]
    · simp [hm, linesText, List.filter_cons]

theorem splitOn_linesText {ls : List (List UInt8)} (hl : ∀ l ∈ ls, 10 ∉ l) :
    (linesText ls).splitOn 10 = ls ++ [[]] := by
  induction ls with
  | nil => rfl
  | cons l ls ih =>
    have hcons : linesText (l :: ls) = l ++ 10 :: linesText ls := by simp [linesText]
    rw [hcons, List.splitOn_append_cons_self_of_not_mem (hl l List.mem_cons_self),
      ih fun l' hl' => hl l' (List.mem_cons_of_mem _ hl'), List.cons_append]

/-- Lines ended by newlines are read back as themselves. -/
theorem inputLines_linesText {ls : List (List UInt8)} (hl : ∀ l ∈ ls, 10 ∉ l) :
    inputLines (linesText ls) = ls := by
  rw [inputLines, splitOn_linesText hl, if_pos List.getLast?_concat, List.dropLast_concat]

theorem length_le_linesText (ls : List (List UInt8)) : ls.length ≤ (linesText ls).length := by
  induction ls with
  | nil => simp [linesText]
  | cons l ls ih =>
    simp only [linesText, List.flatMap_cons, List.length_append, List.length_cons] at ih ⊢
    omega

theorem linesText_append (ls ls' : List (List UInt8)) :
    linesText (ls ++ ls') = linesText ls ++ linesText ls' := by
  simp [linesText]

/-- When every `read` returns whole lines, at most 1023 bytes with no NUL, `grep` writes exactly
the lines that match, each followed by `'\n'`: the behaviour of reads from the console, which
return a line at a time. -/
theorem grepLoop_whole_lines (pattern : List UInt8) {groups : List (List (List UInt8))}
    (hl : ∀ g ∈ groups, ∀ l ∈ g, 10 ∉ l ∧ 0 ∉ l)
    (hg : ∀ g ∈ groups, g ≠ [] ∧ (linesText g).length ≤ 1023) :
    grepLoop pattern (groups.map fun g => (linesText g).length) [] (linesText groups.flatten) =
      grepSpec pattern (linesText groups.flatten) := by
  rw [grepSpec, inputLines_linesText fun l hl' => by
    obtain ⟨g, hg', hlg⟩ := List.mem_flatten.mp hl'
    exact (hl g hg' l hlg).1]
  induction groups with
  | nil => rfl
  | cons g gs ih =>
    obtain ⟨hne, hlen⟩ := hg g List.mem_cons_self
    have hpos : 0 < (linesText g).length := by
      obtain ⟨l, ls, rfl⟩ := List.exists_cons_of_ne_nil hne
      simp [linesText]
    have hlines : grepLines pattern (linesText g ++ []) ((linesText g).length + 1) 0 =
        (linesText (g.filter fun l => «match» pattern l), (linesText g).length) :=
      grepLines_linesText pattern (hl g List.mem_cons_self) rfl
        (Nat.lt_succ_of_le (length_le_linesText g))
    rw [List.append_nil] at hlines
    have hn : min (linesText g).length (min (1023 - ([] : List UInt8).length)
        (linesText g ++ linesText gs.flatten).length) = (linesText g).length := by
      simp only [List.length_nil, Nat.sub_zero, List.length_append]
      omega
    rw [List.flatten_cons, linesText_append, List.map_cons, grepLoop]
    simp only []
    rw [hn, if_neg (by omega), List.nil_append, List.take_left' rfl, hlines]
    -- the round ends on a newline: nothing is carried over to the next one
    simp only [if_neg (Nat.pos_iff_ne_zero.mp hpos), if_pos hpos, List.drop_length,
      List.drop_left' rfl]
    rw [ih (fun g' hg' => hl g' (List.mem_cons_of_mem _ hg'))
      (fun g' hg' => hg g' (List.mem_cons_of_mem _ hg')), List.filter_append, linesText_append]

theorem grepLoop_whole_lines_two_reads :
    (∀ g ∈ [[[97, 98]], [[99], [98]]], ∀ l ∈ g, 10 ∉ l ∧ 0 ∉ l) ∧
      (∀ g ∈ [[[97, 98]], [[99], [98]]], g ≠ [] ∧ (linesText g).length ≤ 1023) ∧
      grepLoop [98] ([[[97, 98]], [[99], [98]]].map fun g => (linesText g).length) []
          (linesText [[[97, 98]], [[99], [98]]].flatten) =
        grepSpec [98] (linesText [[[97, 98]], [[99], [98]]].flatten) :=
  ⟨by decide, by decide, grepLoop_whole_lines _ (by decide) (by decide)⟩

end Xv6.User
