import Xv6.Console.Edit

/-!
# Tab completion

`handle_tab_completion` completes the first word of the line against the
table `commands[]`. It copies the line into `prefix` with one `memmove` from
`input.buf + (input.w % INPUT_BUF)`, so a line that wraps past the end of the
ring is read on from the bytes that follow `buf` in the `input` struct
(`Input.byteAt`). One match is completed in place; several are extended to
their longest common prefix (`find_lcp_len`), and a second Tab in a row lists
them (`print_matches_and_redraw`), which also empties the line.

C strings are byte lists without their terminator; `strAt` reads `'\0'` at
and past the end.
-/

namespace Xv6.Console

open CInt CLoop

/-- The bytes of an ASCII string. -/
def bytesOf (s : String) : List UInt8 := s.toList.map fun ch => ch.toNat.toUInt8

/-- `commands[]`. -/
def commands : List (List UInt8) :=
  ["cat", "echo", "find_sum", "forktest", "grep", "init", "kill", "ln", "ls", "mkdir", "rm", "sh",
    "stressfs", "usertests", "wc", "zombie", "console"].map bytesOf

/-- `s[i]` of a C string. -/
def strAt (s : List UInt8) (i : Nat) : UInt8 := s.getD i 0

/-- `strlen(s)`. -/
def strlen (s : List UInt8) : Nat := (s.takeWhile (· ≠ 0)).length

/-- `strncmp(p, q, n)`, comparing from index `i` on. -/
def strncmpFrom (p q : List UInt8) : Nat → Nat → Int
  | 0, _ => 0
  | n + 1, i =>
    if strAt p i ≠ 0 ∧ strAt p i = strAt q i then strncmpFrom p q n (i + 1)
    else (strAt p i).toNat - (strAt q i).toNat

/-- `strncmp(p, q, n)`. -/
def strncmp (p q : List UInt8) (n : Nat) : Int := strncmpFrom p q n 0

/-- The `while (1)` loop of `find_lcp_len`, from `lcp_len = l`, with `fuel` runs left. -/
def findLcpLenFrom (matched : List (List UInt8)) (count : Nat) : Nat → Nat → Nat
  | 0, l => l
  | fuel + 1, l =>
    let c := strAt (matched.getD 0 []) l
    if c = 0 then l
    else if (List.range (count - 1)).any (fun i => strAt (matched.getD (i + 1) []) l ≠ c) then l
    else findLcpLenFrom matched count fuel (l + 1)

/-- `find_lcp_len(matches, count)`. The loop stops at the latest at the end of `matches[0]`. -/
def findLcpLen (matched : List (List UInt8)) (count : Int) : Nat :=
  if count ≤ 0 then 0
  else if count = 1 then strlen (matched.getD 0 [])
  else findLcpLenFrom matched count.toNat ((matched.getD 0 []).length + 1) 0

/-- The byte at offset `off` of the `input` struct: `buf`, then the little-endian words of
`r`, `w`, `e`, `c`, `selecting`, `sel_start`, `sel_end`; past its 156 bytes, undefined. -/
def Input.byteAt (inp : Input) (off : Nat) : Except String UInt8 :=
  if h : off < 128 then .ok (inp.buf ⟨off, h⟩)
  else if off < 156 then
    let word := [inp.r, inp.w, inp.e, inp.c, inp.selecting.toUInt32, inp.selStart.toUInt32,
      inp.selEnd.toUInt32].getD ((off - 128) / 4) 0
    .ok (word >>> (8 * ((off - 128) % 4)).toUInt32).toUInt8
  else .error badIndex

/-- `memmove(prefix, input.buf + (input.w % INPUT_BUF), len)`. -/
def copyPrefix (inp : Input) (len : Nat) : Except String (List UInt8) :=
  (List.range len).mapM fun j => inp.byteAt ((inp.w % 128).toNat + j)

/-- `cprintf` of a string without `%`: `consputc` of each byte. -/
def putStr (s : List UInt8) (g : Cga) : Except String Cga :=
  s.foldlM (fun g b => consputc b.toNat g) g

/-- `print_matches_and_redraw(matches, count)`; `cprintf("%s  ", m)` prints the (ASCII) name
and two spaces. -/
def printMatchesAndRedraw (matched : List (List UInt8)) (st : State) : Except String State := do
  let g ← putStr (bytesOf "\n") st.cga
  let g ← matched.foldlM (fun g m => do putStr (bytesOf "  ") (← putStr m g)) g
  let g ← putStr (bytesOf "\n") g
  let g ← putStr (bytesOf "$ ") g
  let inp := st.input
  let (inp, g) ← if inp.e ≠ inp.w then do
      let curpos := Int32.ofInt (cgaGetCursorPos g)
      let moveRight := (inp.e - inp.c).toInt32
      let g := cgaSetCursorPos (curpos + moveRight).toInt g
      -- `input.c = input.e; while (input.e != input.w) { input.e--; input.c--;
      -- consputc(BACKSPACE); }`
      let g ← putN backspace (inp.e - inp.w).toNat g
      pure ({ inp with c := inp.w, e := inp.w }, g)
    else pure (inp, g)
  let g ← putStr (bytesOf " ") g
  pure { st with input := { inp with c := inp.w }, undo := { st.undo with n := 0 }, cga := g }

/-- The completion loop `for (i = from; i < to; i++) { if (input.e >= input.r + INPUT_BUF)
break; input.buf[input.e++ % INPUT_BUF] = word[i]; consputc(word[i]); }`. -/
def appendWord (word : List UInt8) : Nat → Nat → Input × Cga → Except String (Input × Cga)
  | 0, _, ig => .ok ig
  | n + 1, i, (inp, g) =>
    if inp.e ≥ inp.r + 128 then .ok (inp, g)
    else do
      let inp := { inp.put inp.e (strAt word i) with e := inp.e + 1 }
      let g ← consputc (charVal (strAt word i)) g
      appendWord word n (i + 1) (inp, g)

/-- `handle_tab_completion()`. -/
def handleTabCompletion (st : State) : Except String State := do
  let inp := st.input
  let len := (inp.e - inp.w).toInt32
  -- `for (int i = input.w; i < input.e; i++) if (input.buf[i % INPUT_BUF] == ' ') break;`,
  -- an unsigned comparison: the scan ends below `e` only at a space
  let stop ← scan incr (fun i => if i.toUInt32 < inp.e then do pure ((← inp.atI i) ≠ 32)
      else pure false) (inp.e.toNat - inp.w.toNat) inp.w.toInt32
  let isFirstWord := !(stop.toUInt32 < inp.e)
  if !isFirstWord ∨ len < 0 ∨ len ≥ 128 then return { st with lastKeyWasTab := 0 }
  let prefix_ ← copyPrefix inp len.toInt.toNat
  let matched := commands.filter fun cmd => strncmp prefix_ cmd len.toInt.toNat = 0
  if matched.length = 0 then return { st with lastKeyWasTab := 0 }
  if matched.length = 1 then
    let completion := matched.getD 0 []
    let (inp, g) ← appendWord completion (strlen completion - len.toInt.toNat) len.toInt.toNat
      (inp, st.cga)
    return { st with input := { inp with c := inp.e }, cga := g, lastKeyWasTab := 0 }
  if st.lastKeyWasTab ≠ 0 then
    let st ← printMatchesAndRedraw matched st
    return { st with lastKeyWasTab := 0 }
  let lcpLen := findLcpLen matched matched.length
  if lcpLen > len.toInt then
    let (inp, g) ← appendWord (matched.getD 0 []) (lcpLen - len.toInt.toNat) len.toInt.toNat
      (inp, st.cga)
    return { st with input := { inp with c := inp.e }, cga := g, lastKeyWasTab := 1 }
  return { st with lastKeyWasTab := 1 }

end Xv6.Console
