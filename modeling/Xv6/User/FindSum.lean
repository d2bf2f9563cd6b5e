import Xv6.Lib.CInt

/-!
# find_sum

`find_sum` adds up the runs of decimal digits in its arguments and writes the sum in decimal,
with a newline, to `result.txt`. A run is read in an `int` (`current_num`) and added to a
`long long` (`total_sum`); `itoa` writes the digits least significant first and puts them in
order with `reverse`'s two-pointer swap. Signed overflow wraps, as the compiled code does.

What the program means to write is `decimal (runTotal args)` and a newline: `runTotal` sums the
numerals of the maximal digit runs (`digitRuns`) of every argument. It writes that exactly when
every run is below `2^31` and the sum below `2^63` (`resultBytes_eq`); a run of `2^31` wraps to
a negative `current_num`, and `itoa` of a negative number writes no digits.
-/

namespace Xv6.User

/-! ## The program -/

/-- `is_digit(c)`. -/
def isDigit (c : UInt8) : Bool := 48 ≤ c && c ≤ 57

/-- `(input_str[i] - '0')`, as the `int` it is added as. -/
def digitVal (c : UInt8) : Int32 := Int32.ofInt ((c.toNat : Int) - 48)

mutual
/-- The loop `while (input_str[i] != '\0')` of `main` over one argument, adding its digit runs
to `total_sum`. -/
def sumArg : List UInt8 → Int64 → Int64
  | [], total => total
  | c :: s, total =>
    if c = 0 then total
    else if isDigit c then sumRun s (0 * 10 + digitVal c) total
    else sumArg s total

/-- The inner loop `while (is_digit(input_str[i]))` with `current_num` so far; where the run
ends, `total_sum += current_num` and the outer loop goes on at the byte that ended it. -/
def sumRun : List UInt8 → Int32 → Int64 → Int64
  | [], n, total => total + n.toInt64
  | c :: s, n, total =>
    if isDigit c then sumRun s (n * 10 + digitVal c) total
    else if c = 0 then total + n.toInt64
    else sumArg s (total + n.toInt64)
end

/-- `total_sum` after the loop over `argv[1..argc)`. -/
def totalSum (args : List (List UInt8)) : Int64 := args.foldl (fun total a => sumArg a total) 0

/-- The loop of `reverse(str, length)`, `while (start < end)` swapping `str[start]` and
`str[end]`, with at most `fuel` runs. -/
def reverseFrom : Nat → List UInt8 → Nat → Nat → List UInt8
  | 0, str, _, _ => str
  | fuel + 1, str, start, e =>
    if start < e then
      let temp := str.getD start 0
      reverseFrom fuel ((str.set start (str.getD e 0)).set e temp) (start + 1) (e - 1)
    else str

/-- `reverse(str, length)`: `start = 0`, `end = length - 1`; the loop runs at most `length`
times. -/
def reverse (str : List UInt8) (length : Nat) : List UInt8 := reverseFrom length str 0 (length - 1)

/-- The digit loop of `itoa`, `while (num != 0) { int rem = num % 10; str[i++] = rem + '0';
num = num / 10; }`, with at most `fuel` runs. -/
def itoaLoop : Nat → Int64 → List UInt8 → Nat → List UInt8 × Nat
  | 0, _, str, i => (str, i)
  | fuel + 1, num, str, i =>
    if num ≠ 0 then
      let rem : Int32 := (num % 10).toInt32
      itoaLoop fuel (num / 10) (str.set i (rem + 48).toUInt32.toUInt8) (i + 1)
    else (str, i)

/-- `itoa(num, str)`: the bytes of `str` after the call, and the count it returns. The digit
loop runs at most 19 times, the digits of an `Int64`. -/
def itoa (num : Int64) (str : List UInt8) : List UInt8 × Nat :=
  if num = 0 then ((str.set 0 48).set 1 0, 1)
  else
    let (str, i) := itoaLoop 19 num str 0
    ((reverse str i).set i 0, i)

/-- The bytes `main` hands to `write(fd, result_buf, len)`: `itoa(total_sum, result_buf)`, then
`result_buf[len] = '\n'` and `len++`; `buf` is what `result_buf` held before. -/
def resultBytes (buf : List UInt8) (args : List (List UInt8)) : List UInt8 :=
  let (buf, len) := itoa (totalSum args) buf
  (buf.set len 10).take (len + 1)

/-! ## Decimal numerals -/

/-- The value of a decimal numeral, most significant digit first. -/
def numeral (ds : List UInt8) : Nat := ds.foldl (fun v c => 10 * v + (c.toNat - 48)) 0

/-- The maximal runs of digits of a C string. -/
def digitRuns (s : List UInt8) : List (List UInt8) :=
  ((s.takeWhile (· != 0)).splitOnP (!isDigit ·)).filter (!·.isEmpty)

/-- The sum of the numerals of a string's digit runs. -/
def runSum (s : List UInt8) : Nat := ((digitRuns s).map numeral).sum

/-- The sum the program is meant to print: over every argument, its digit runs read as decimal
numerals. -/
def runTotal (args : List (List UInt8)) : Nat := (args.map runSum).sum

/-- The bytes of `n`'s decimal digits, least significant first. -/
def digitBytes (n : Nat) : List UInt8 := (Nat.digits 10 n).map fun d => (48 + d).toUInt8

/-- `n` in decimal, most significant digit first and without leading zeros; `"0"` for `0`. -/
def decimal (n : Nat) : List UInt8 := if n = 0 then [48] else (digitBytes n).reverse

/-! ## Digit runs -/

theorem digitRuns_nil : digitRuns [] = [] := by decide

theorem digitRuns_nul (s : List UInt8) : digitRuns (0 :: s) = [] := by
  rw [digitRuns, List.takeWhile_cons_of_neg (by decide)]
  rfl

theorem digitRuns_sep {c : UInt8} (hc : isDigit c = false) (h0 : c ≠ 0) (s : List UInt8) :
    digitRuns (c :: s) = digitRuns s := by
  rw [digitRuns, List.takeWhile_cons_of_pos (by simpa using h0), List.splitOnP_cons_eq_if_modifyHead,
    if_pos (by simp [hc]), List.filter_cons_of_neg (by simp)]
  rfl

theorem ne_zero_of_isDigit {c : UInt8} (h : isDigit c) : c ≠ 0 := by
  rintro rfl; exact absurd h (by decide)

/-- A run followed by the end of the string or by a byte that is not a digit is the first run. -/
theorem digitRuns_append {e t : List UInt8} (he : ∀ x ∈ e, isDigit x) (hne : e ≠ [])
    (ht : ∀ b ∈ t.head?, isDigit b = false) : digitRuns (e ++ t) = e :: digitRuns t := by
  have h0 : ∀ x ∈ e, (x != 0) = true := fun x hx => bne_iff_ne.mpr (ne_zero_of_isDigit (he x hx))
  have hsep : ∀ x ∈ e, (!isDigit x) = false := fun x hx => by simp [he x hx]
  rw [digitRuns, List.takeWhile_append_of_pos h0]
  rcases t with _ | ⟨b, t⟩
  · rw [List.takeWhile_nil, List.append_nil, List.splitOnP_eq_singleton hsep,
      List.filter_cons_of_pos (by simpa using hne), digitRuns_nil]
    rfl
  · have hb := ht b rfl
    by_cases hb0 : b = 0
    · subst hb0
      rw [List.takeWhile_cons_of_neg (by decide), List.append_nil, List.splitOnP_eq_singleton hsep,
        List.filter_cons_of_pos (by simpa using hne), digitRuns_nul]
      rfl
    · rw [List.takeWhile_cons_of_pos (by simpa using hb0),
        List.splitOnP_append_cons_of_forall_mem hsep _ (by simp [hb]),
        List.filter_cons_of_pos (by simpa using hne), digitRuns_sep hb hb0]
      rfl

theorem sumRun_append {e : List UInt8} (he : ∀ x ∈ e, isDigit x) (t : List UInt8) (n : Int32)
    (total : Int64) :
    sumRun (e ++ t) n total = sumRun t (e.foldl (fun n c => n * 10 + digitVal c) n) total := by
  induction e generalizing n with
  | nil => rfl
  | cons x e ih =>
    rw [List.cons_append, sumRun, if_pos (he x (List.mem_cons_self ..)), List.foldl_cons,
      ih fun y hy => he y (List.mem_cons_of_mem _ hy)]

/-- Where a run stops, `total_sum` takes `current_num` and the outer loop takes over. -/
theorem sumRun_of_stop {t : List UInt8} (ht : ∀ b ∈ t.head?, isDigit b = false) (n : Int32)
    (total : Int64) : sumRun t n total = sumArg t (total + n.toInt64) := by
  cases t with
  | nil => rfl
  | cons b t =>
    have hb := ht b rfl
    rw [sumRun, if_neg (by simp [hb])]
    by_cases hb0 : b = 0
    · rw [if_pos hb0, sumArg, if_pos hb0]
    · rw [if_neg hb0, sumArg, if_neg hb0, if_neg (by simp [hb])]

theorem le_foldl_numeral (e : List UInt8) (v : Nat) :
    v ≤ e.foldl (fun v c => 10 * v + (c.toNat - 48)) v := by
  induction e generalizing v with
  | nil => exact le_refl v
  | cons x e ih =>
    rw [List.foldl_cons]
    exact le_trans (by omega) (ih _)

theorem isDigit_iff {c : UInt8} : isDigit c ↔ 48 ≤ c.toNat ∧ c.toNat ≤ 57 := by
  simp only [isDigit, Bool.and_eq_true, decide_eq_true_eq, UInt8.le_iff_toNat_le]
  rfl

theorem toInt_digitVal {c : UInt8} (h : isDigit c) : (digitVal c).toInt = c.toNat - 48 := by
  have h := isDigit_iff.mp h
  have : (c.toNat : Int) - 48 = (c.toNat - 48 : Nat) := by omega
  rw [digitVal, Int32.toInt_ofInt, this, show Int32.size = 2 ^ 32 from rfl,
    Int.bmod_eq_of_le (by omega) (by omega)]

/-- **A run in `int`.** `current_num` holds the run's numeral as long as it stays below `2^31`. -/
theorem toInt_foldl_digits {e : List UInt8} (he : ∀ x ∈ e, isDigit x) {n : Int32} {v : Nat}
    (hn : n.toInt = v) (hb : e.foldl (fun v c => 10 * v + (c.toNat - 48)) v < 2 ^ 31) :
    (e.foldl (fun n c => n * 10 + digitVal c) n).toInt = e.foldl (fun v c => 10 * v + (c.toNat - 48)) v := by
  induction e generalizing n v with
  | nil => exact hn
  | cons x e ih =>
    have hx := he x (List.mem_cons_self ..)
    have hle := le_foldl_numeral e (10 * v + (x.toNat - 48))
    simp only [List.foldl_cons] at hb ⊢
    refine ih (fun y hy => he y (List.mem_cons_of_mem _ hy)) ?_ hb
    have hd := toInt_digitVal hx
    have hx48 := (isDigit_iff.mp hx).1
    have hmul : (n * 10).toInt = 10 * v := by
      rw [Int32.toInt_mul, hn, show (10 : Int32).toInt = 10 from rfl, Int.bmod_eq_of_le] <;> omega
    rw [CInt.toInt_add_of_range] <;> rw [hmul, hd] <;> omega

theorem toInt_add_toInt64 {total : Int64} {n : Int32} (h0 : 0 ≤ total.toInt) (hn : 0 ≤ n.toInt)
    (hb : total.toInt + n.toInt < 2 ^ 63) : (total + n.toInt64).toInt = total.toInt + n.toInt := by
  rw [Int64.toInt_add, Int32.toInt_toInt64, Int.bmod_eq_of_le (by omega) (by omega)]

/-- **One argument.** When each digit run is below `2^31` and the sum stays below `2^63`, the
outer loop adds the numerals of the argument's digit runs to `total_sum`. -/
theorem sumArg_eq {s : List UInt8} (hs : ∀ r ∈ digitRuns s, numeral r < 2 ^ 31) {total : Int64}
    (h0 : 0 ≤ total.toInt) (hb : total.toInt + runSum s < 2 ^ 63) :
    (sumArg s total).toInt = total.toInt + runSum s := by
  induction hn : s.length using Nat.strong_induction_on generalizing s total with
  | _ n ih =>
    cases s with
    | nil => simp [sumArg, runSum, digitRuns_nil]
    | cons c s =>
      by_cases hc0 : c = 0
      · subst hc0
        simp [sumArg, runSum, digitRuns_nul]
      by_cases hcd : isDigit c
      · have he : ∀ x ∈ c :: s.takeWhile isDigit, isDigit x := fun x hx => by
          rcases List.mem_cons.mp hx with rfl | hx
          · exact hcd
          · exact List.mem_takeWhile_imp hx
        have hstop : ∀ b ∈ (s.dropWhile isDigit).head?, isDigit b = false := fun b hb => by
          have := List.head?_dropWhile_not isDigit s
          rwa [Option.mem_def.mp hb] at this
        have hruns : digitRuns (c :: s) =
            (c :: s.takeWhile isDigit) :: digitRuns (s.dropWhile isDigit) := by
          rw [← digitRuns_append he (List.cons_ne_nil _ _) hstop, List.cons_append,
            List.takeWhile_append_dropWhile]
        have hrun := hs _ (by rw [hruns]; exact List.mem_cons_self ..)
        have hval : ((s.takeWhile isDigit).foldl (fun n c => n * 10 + digitVal c)
            (0 * 10 + digitVal c)).toInt = numeral (c :: s.takeWhile isDigit) :=
          toInt_foldl_digits (fun x hx => List.mem_takeWhile_imp hx)
            (by
              have := (isDigit_iff.mp hcd).1
              rw [Int32.zero_mul, Int32.zero_add, toInt_digitVal hcd]
              show _ = ((10 * 0 + (c.toNat - 48) : Nat) : Int)
              omega) hrun
        have hsum : runSum (c :: s) = numeral (c :: s.takeWhile isDigit) + runSum (s.dropWhile isDigit) := by
          rw [runSum, hruns, List.map_cons, List.sum_cons]
          rfl
        have hsplit : sumRun s (0 * 10 + digitVal c) total =
            sumRun (s.takeWhile isDigit ++ s.dropWhile isDigit) (0 * 10 + digitVal c) total := by
          rw [List.takeWhile_append_dropWhile]
        rw [sumArg, if_neg hc0, if_pos hcd, hsplit, sumRun_append (fun x hx => List.mem_takeWhile_imp hx),
          sumRun_of_stop hstop, hsum]
        rw [hsum] at hb
        have hlen : (s.dropWhile isDigit).length < n := by
          have := List.length_dropWhile_le isDigit s
          simp at hn; omega
        rw [ih _ hlen (fun r hr => hs r (by rw [hruns]; exact List.mem_cons_of_mem _ hr))
          (by rw [toInt_add_toInt64 h0 (by rw [hval]; omega) (by rw [hval]; omega), hval]; omega)
          (by rw [toInt_add_toInt64 h0 (by rw [hval]; omega) (by rw [hval]; omega), hval]; omega) rfl,
          toInt_add_toInt64 h0 (by rw [hval]; omega) (by rw [hval]; omega), hval]
        omega
      · have hsep := digitRuns_sep (Bool.eq_false_iff.mpr hcd) hc0 s
        have hsum : runSum (c :: s) = runSum s := by rw [runSum, runSum, hsep]
        rw [sumArg, if_neg hc0, if_neg hcd, hsum]
        rw [hsum] at hb
        exact ih s.length (by simp at hn; omega) (fun r hr => hs r (by rw [hsep]; exact hr)) h0 hb rfl

/-! ## `itoa` -/

/-- The swap loop reverses the segment `[start, e]` and leaves the rest. -/
theorem getElem?_reverseFrom {fuel : Nat} {str : List UInt8} {start e : Nat}
    (he : e < str.length) (hfuel : e - start < 2 * fuel + 1) (k : Nat) :
    (reverseFrom fuel str start e)[k]? =
      if start ≤ k ∧ k ≤ e then str[start + e - k]? else str[k]? := by
  induction fuel generalizing str start e with
  | zero =>
    rw [reverseFrom]
    split
    · rename_i h
      have : k = start + e - k := by omega
      rw [← this]
    · rfl
  | succ fuel ih =>
    rw [reverseFrom]
    split
    · rename_i hlt
      have hs : ∀ j, ((str.set start (str.getD e 0)).set e (str.getD start 0))[j]? =
          if j = e then str[start]? else if j = start then str[e]? else str[j]? := by
        intro j
        have hstart : start < str.length := by omega
        by_cases hje : j = e
        · subst hje
          rw [if_pos rfl, List.getElem?_set_self (by simpa using he), List.getElem?_eq_getElem hstart,
            List.getD_eq_getElem _ _ hstart]
        · rw [if_neg hje, List.getElem?_set_ne (Ne.symm hje)]
          by_cases hjs : j = start
          · subst hjs
            rw [if_pos rfl, List.getElem?_set_self hstart, List.getElem?_eq_getElem he,
              List.getD_eq_getElem _ _ he]
          · rw [if_neg hjs, List.getElem?_set_ne (Ne.symm hjs)]
      rw [ih (by simp only [List.length_set]; omega) (by omega), hs, hs]
      split_ifs <;> first | rfl | (congr 1; omega)
    · rename_i hge
      split
      · rename_i h
        have : k = start + e - k := by omega
        rw [← this]
      · rfl

/-- **`reverse`.** It reverses `str[0, length)` and leaves the rest. -/
theorem reverse_eq {str : List UInt8} {length : Nat} (h : length ≤ str.length) :
    reverse str length = (str.take length).reverse ++ str.drop length := by
  cases length with
  | zero => simp [reverse, reverseFrom]
  | succ l =>
    apply List.ext_getElem?
    intro k
    rw [reverse, getElem?_reverseFrom (by omega) (by omega)]
    by_cases hk : k < l + 1
    · rw [if_pos ⟨Nat.zero_le _, by omega⟩, List.getElem?_append_left (by simp; omega),
        List.getElem?_reverse (by simp; omega)]
      simp only [List.length_take, Nat.min_eq_left h]
      rw [List.getElem?_take_of_lt (by omega)]
      congr 1
      omega
    · rw [if_neg (by omega), List.getElem?_append_right (by simp; omega), List.getElem?_drop]
      simp only [List.length_reverse, List.length_take, Nat.min_eq_left h]
      congr 1
      omega

theorem digitBytes_of_pos {n : Nat} (h : 0 < n) :
    digitBytes n = (48 + n % 10).toUInt8 :: digitBytes (n / 10) := by
  rw [digitBytes, Nat.digits_def' (by decide) h, List.map_cons]
  rfl

/-- `rem + '0'` for a nonnegative `num`. -/
theorem remByte {num : Int64} (h0 : 0 ≤ num.toInt) :
    ((num % 10).toInt32 + 48).toUInt32.toUInt8 = (48 + num.toInt.toNat % 10).toUInt8 := by
  have hr : (num % 10).toInt = (num.toInt.toNat % 10 : Nat) := by
    rw [Int64.toInt_mod, show (10 : Int64).toInt = 10 from rfl, Int.tmod_eq_emod_of_nonneg h0]
    omega
  have hsum : (num % 10).toInt32 + 48 = Int32.ofNat (48 + num.toInt.toNat % 10) := by
    apply Int32.toInt_inj.mp
    rw [Int32.toInt_ofNat_of_lt (by omega), CInt.toInt_add_of_range] <;>
      rw [Int64.toInt_toInt32, hr, Int.bmod_eq_of_le (by omega) (by omega)] <;>
      simp <;> omega
  rw [hsum, Int32.toUInt32_ofNat', UInt32.toUInt8_ofNat']

theorem toInt_div_ten {num : Int64} (h0 : 0 ≤ num.toInt) :
    (num / 10).toInt = num.toInt / 10 := by
  rw [Int64.toInt_div_of_ne_right _ _ (by decide), Int.tdiv_eq_ediv_of_nonneg h0]
  rfl

/-- **The digit loop.** From a nonnegative `num` below `10 ^ fuel`, it writes `num`'s digits,
least significant first, into `str` from `i` on. -/
theorem itoaLoop_eq {fuel : Nat} {num : Int64} (h0 : 0 ≤ num.toInt)
    (hfuel : num.toInt.toNat < 10 ^ fuel) {str : List UInt8} {i : Nat}
    (hroom : i + (digitBytes num.toInt.toNat).length ≤ str.length) :
    itoaLoop fuel num str i =
      (str.take i ++ digitBytes num.toInt.toNat ++ str.drop (i + (digitBytes num.toInt.toNat).length),
        i + (digitBytes num.toInt.toNat).length) := by
  induction fuel generalizing num str i with
  | zero =>
    have hm : num.toInt.toNat = 0 := by simpa using hfuel
    rw [hm, itoaLoop]
    simp [digitBytes]
  | succ fuel ih =>
    rw [itoaLoop]
    by_cases hnum : num = 0
    · subst hnum
      simp [digitBytes]
    · have hpos : 0 < num.toInt.toNat := by
        have : num.toInt ≠ 0 := fun h => hnum (Int64.toInt_inj.mp (by rw [h]; rfl))
        omega
      have hq : (num / 10).toInt.toNat = num.toInt.toNat / 10 := by
        rw [toInt_div_ten h0]; omega
      have hq0 : 0 ≤ (num / 10).toInt := by rw [toInt_div_ten h0]; omega
      rw [digitBytes_of_pos hpos, List.length_cons] at hroom ⊢
      rw [if_pos hnum]
      dsimp only
      rw [ih hq0 (by rw [hq]; rw [Nat.pow_succ] at hfuel; omega) (by rw [List.length_set, hq]; omega), hq,
        remByte h0, List.set_eq_take_append_cons_drop, if_pos (by omega)]
      have hA : (str.take i).length = i := by simp; omega
      have htake : (str.take i ++ (48 + num.toInt.toNat % 10).toUInt8 :: str.drop (i + 1)).take (i + 1) =
          str.take i ++ [(48 + num.toInt.toNat % 10).toUInt8] := by
        rw [List.take_append, hA, List.take_of_length_le (by omega), Nat.add_sub_cancel_left]
        rfl
      have hdrop : ∀ k, (str.take i ++ (48 + num.toInt.toNat % 10).toUInt8 :: str.drop (i + 1)).drop
          (i + 1 + k) = str.drop (i + 1 + k) := by
        intro k
        rw [List.drop_append, hA, List.drop_of_length_le (by omega), List.nil_append,
          show i + 1 + k - i = k + 1 by omega, List.drop_succ_cons, List.drop_drop]
      rw [htake, hdrop, show i + 1 + (digitBytes (num.toInt.toNat / 10)).length =
        i + ((digitBytes (num.toInt.toNat / 10)).length + 1) by omega]
      simp

theorem isDigit_of_mem_digitBytes {n : Nat} {c : UInt8} (hc : c ∈ digitBytes n) : isDigit c := by
  obtain ⟨d, hd, rfl⟩ := List.mem_map.mp hc
  have := Nat.digits_lt_base (by decide) hd
  simp only [isDigit, Bool.and_eq_true, decide_eq_true_eq]
  constructor <;> rw [UInt8.le_iff_toNat_le] <;> simp <;> omega

theorem numeral_reverse_digitBytes (n : Nat) : numeral (digitBytes n).reverse = n := by
  have key : ∀ L : List Nat, (∀ d ∈ L, d < 10) →
      (L.map fun d => (48 + d).toUInt8).foldr (fun c v => 10 * v + (c.toNat - 48)) 0 =
        Nat.ofDigits 10 L := by
    intro L hL
    induction L with
    | nil => rfl
    | cons d L ih =>
      have hd := hL d (List.mem_cons_self ..)
      rw [List.map_cons, List.foldr_cons, ih fun x hx => hL x (List.mem_cons_of_mem _ hx),
        Nat.ofDigits_cons]
      have : (48 + d).toUInt8.toNat = 48 + d := by simp; omega
      rw [this]
      omega
  rw [numeral, List.foldl_reverse, digitBytes, key _ fun d hd => Nat.digits_lt_base (by decide) hd,
    Nat.ofDigits_digits]

theorem decimal_head {n : Nat} (h : n ≠ 0) : (decimal n).head? ≠ some 48 := by
  rw [decimal, if_neg h, List.head?_reverse, digitBytes, List.getLast?_map,
    List.getLast?_eq_some_getLast (Nat.digits_ne_nil_iff_ne_zero.mpr h), Option.map_some]
  have hlast := Nat.getLast_digit_ne_zero 10 h
  have hlt := Nat.digits_lt_base (show 1 < 10 by decide)
    (List.getLast_mem (Nat.digits_ne_nil_iff_ne_zero.mpr h))
  intro heq
  have := congrArg UInt8.toNat (Option.some.inj heq)
  simp at this
  omega

/-- **`itoa`.** For every `num ≥ 0` and a `str` with room for the digits and the NUL, `itoa`
writes `num` in decimal and a NUL at the front of `str` and returns the number of digits; the
digits are digits, the first is not `'0'` unless `num = 0`, and read back they give `num`. -/
theorem itoa_decimal {num : Int64} (h0 : 0 ≤ num.toInt) {str : List UInt8}
    (hroom : (decimal num.toInt.toNat).length < str.length) :
    itoa num str = (decimal num.toInt.toNat ++ 0 :: str.drop ((decimal num.toInt.toNat).length + 1),
      (decimal num.toInt.toNat).length) ∧
    (∀ c ∈ decimal num.toInt.toNat, isDigit c) ∧
    (num ≠ 0 → (decimal num.toInt.toNat).head? ≠ some 48) ∧
    numeral (decimal num.toInt.toNat) = num.toInt.toNat := by
  by_cases hnum : num = 0
  · subst hnum
    have hz : (0 : Int64).toInt.toNat = 0 := by simp
    have hd : decimal 0 = [48] := rfl
    rw [hz, hd] at hroom ⊢
    refine ⟨?_, fun c hc => by rw [List.mem_singleton.mp hc]; rfl, fun h => absurd rfl h, rfl⟩
    rw [itoa, if_pos rfl]
    match str, hroom with
    | a :: b :: rest, _ => rfl
  · have hpos : 0 < num.toInt.toNat := by
      have : num.toInt ≠ 0 := fun h => hnum (Int64.toInt_inj.mp (by rw [h]; rfl))
      omega
    have hd : decimal num.toInt.toNat = (digitBytes num.toInt.toNat).reverse := if_neg (by omega)
    have hlen : (digitBytes num.toInt.toNat).length < str.length := by
      rw [hd, List.length_reverse] at hroom; exact hroom
    have hfuel : num.toInt.toNat < 10 ^ 19 := by
      have := num.toInt_lt; simp at this; omega
    refine ⟨?_, fun c hc => isDigit_of_mem_digitBytes (List.mem_reverse.mp (hd ▸ hc)),
      fun _ => decimal_head (by omega), by rw [hd, numeral_reverse_digitBytes]⟩
    rw [itoa, if_neg hnum, itoaLoop_eq h0 hfuel (by omega)]
    dsimp only
    rw [List.take_zero, List.nil_append, Nat.zero_add,
      reverse_eq (by rw [List.length_append, List.length_drop]; omega),
      List.take_left' rfl, List.drop_left' rfl, List.set_append_right _ _ (by simp), hd]
    simp only [List.length_reverse, Nat.sub_self]
    rw [List.set_eq_take_append_cons_drop, if_pos (by rw [List.length_drop]; omega), List.take_zero,
      List.nil_append,
      List.drop_drop]

theorem itoa_decimal_1234 :
    0 ≤ (1234 : Int64).toInt ∧
      itoa 1234 (List.replicate 20 0) = ([49, 50, 51, 52, 0] ++ List.replicate 15 0, 4) := by
  have h0 : 0 ≤ (1234 : Int64).toInt := by decide
  obtain ⟨h, -⟩ := itoa_decimal h0 (show (decimal (1234 : Int64).toInt.toNat).length < (List.replicate 20 (0 : UInt8)).length by decide)
  exact ⟨h0, h.trans (by decide)⟩

/-! ## The bytes written -/

theorem foldl_sumArg_eq {args : List (List UInt8)}
    (hs : ∀ a ∈ args, ∀ r ∈ digitRuns a, numeral r < 2 ^ 31) {total : Int64} (h0 : 0 ≤ total.toInt)
    (hb : total.toInt + runTotal args < 2 ^ 63) :
    (args.foldl (fun total a => sumArg a total) total).toInt = total.toInt + runTotal args := by
  induction args generalizing total with
  | nil => simp [runTotal]
  | cons a args ih =>
    have hsum : runTotal (a :: args) = runSum a + runTotal args := by simp [runTotal]
    rw [hsum] at hb ⊢
    have ha := sumArg_eq (hs a (List.mem_cons_self ..)) h0 (by omega)
    rw [List.foldl_cons, ih (fun b hb r hr => hs b (List.mem_cons_of_mem _ hb) r hr) (by omega)
      (by omega), ha]
    omega

theorem length_decimal_le {n : Nat} (h : n < 2 ^ 63) : (decimal n).length ≤ 19 := by
  unfold decimal
  split
  · simp
  · rw [List.length_reverse, digitBytes, List.length_map]
    exact (Nat.digits_length_le_iff (by decide) n).mpr (by omega)

/-- **What `find_sum` writes.** When every digit run is below `2^31` and their sum `S` below
`2^63`, the bytes written are `S` in decimal and a newline, whatever `result_buf` held. -/
theorem resultBytes_eq {buf : List UInt8} (hbuf : buf.length = 50) {args : List (List UInt8)}
    (hs : ∀ a ∈ args, ∀ r ∈ digitRuns a, numeral r < 2 ^ 31) (hb : runTotal args < 2 ^ 63) :
    resultBytes buf args = decimal (runTotal args) ++ [10] := by
  have htot : (totalSum args).toInt = runTotal args := by
    have := foldl_sumArg_eq hs (le_refl (0 : Int64).toInt) (by simpa using hb)
    simpa [totalSum] using this
  have hlen := length_decimal_le hb
  have hroom : (decimal (totalSum args).toInt.toNat).length < buf.length := by
    rw [htot, Int.toNat_natCast]; omega
  obtain ⟨hitoa, -⟩ := itoa_decimal (show 0 ≤ (totalSum args).toInt by omega) hroom
  rw [resultBytes, hitoa, htot, Int.toNat_natCast]
  dsimp only
  rw [List.set_append_right _ _ (le_refl _), Nat.sub_self, List.set_cons_zero, List.take_append,
    List.take_of_length_le (by omega), Nat.add_sub_cancel_left]
  rfl

theorem find_sum_run_overflows :
    runTotal [[50, 49, 52, 55, 52, 56, 51, 54, 52, 56]] = 2147483648 ∧
      resultBytes (List.replicate 50 0) [[50, 49, 52, 55, 52, 56, 51, 54, 52, 56]] =
        [46, 47, 44, 41, 44, 40, 45, 42, 44, 40, 10] ∧
      decimal 2147483648 ++ [10] = [50, 49, 52, 55, 52, 56, 51, 54, 52, 56, 10] :=
  ⟨by decide, by decide, by decide⟩

end Xv6.User
