import Xv6.Console.Tab

/-!
# `consoleintr`

One key of `consoleintr`'s `switch`, as `consoleKey`, and the whole call, as
`consoleintr`: the keys `getc` returns before `-1`, then `procdump()` when one
of them was ^P. `procdump` prints the process table, which is not console
state; its text is a parameter of the call.

The ^V paste and the insertion of a printable key run the same steps, but the
paste compares its `int` loop counters with `input.c` and `input.e` as
`unsigned` and the insertion with `(int)input.c` and `(int)input.e`
(`Cmp`). Below `2^31` the two agree.
-/

namespace Xv6.Console

open CInt CLoop

/-- The int counter of a C `for` loop, `i--`. -/
def decr (i : Int32) : Int32 := i - 1

/-- How a loop compares its `int` counter `i` with an `unsigned` bound: converting the bound
(`i > (int)input.c`) or, by the usual arithmetic conversions, the counter (`i > input.c`). -/
inductive Cmp where
  | signed
  | unsigned
  deriving DecidableEq, Repr

/-- The number of runs of `for (i = hi; i > lo; i--)` (and of `for (i = lo; i < hi; i++)`)
with `int i` and `unsigned` bounds. -/
def Cmp.trips : Cmp → UInt32 → UInt32 → Nat
  | .signed, hi, lo => (sint hi - sint lo).toNat
  | .unsigned, hi, lo => hi.toNat - lo.toNat

/-- `is_whitespace(c)`. -/
def isWhitespace (c : UInt8) : Bool := c = 32 || c = 9 || c = 10 || c = 11

/-- Inserting `ch` at the cursor: an `OP_INSERT` record, the gap opened from `e` down to
`c`, the byte stored, the tail echoed and the cursor moved back over it. -/
def insertAt (cmp : Cmp) (ch : UInt8) (st : State) : Except String State := do
  let undo ← if st.undo.n < 128 then st.undo.push ⟨.insert, ch, st.input.c⟩ else pure st.undo
  let inp ← loop decr (fun i inp => do inp.putI i (← inp.atI (i - 1)))
    (cmp.trips st.input.e st.input.c) st.input.e.toInt32 st.input
  let inp := { inp.put inp.c ch with e := inp.e + 1, c := inp.c + 1 }
  let g ← echoRing inp (inp.c - 1).toInt32 (cmp.trips inp.e (inp.c - 1)) st.cga
  let g := cgaSetCursorPos (sint (UInt32.ofInt (cgaGetCursorPos g) - (inp.e - inp.c))) g
  pure { st with input := inp, undo := undo, cga := g }

/-- The commit of a line: `input.buf[input.e++ % INPUT_BUF] = v; input.w = input.e;
input.c = input.w;` (followed by `wakeup(&input.r)`). -/
def Input.commit (inp : Input) (v : UInt8) : Input :=
  { inp.put inp.e v with e := inp.e + 1, w := inp.e + 1, c := inp.e + 1 }

/-- `case C('S')`: open a selection at the cursor, or close it there. -/
def keySelect (st : State) : State :=
  if st.input.selecting = 0 then
    let st := clearSelection st
    let inp := { st.input with selecting := 1, selStart := st.input.c.toInt32, selEnd := -1 }
    { st with input := inp }
  else
    let inp := { st.input with selecting := 0, selEnd := st.input.c.toInt32 }
    let inp := if inp.selStart > inp.selEnd then
        { inp with selStart := inp.selEnd, selEnd := inp.selStart }
      else inp
    if inp.selStart = inp.selEnd then { st with input := { inp with selStart := -1, selEnd := -1 } }
    else updateHighlight inp.selStart inp.selEnd true { st with input := inp }

/-- `case C('C')`: copy the clamped selection, at most `CLIPBOARD_BUF` bytes. -/
def keyCopy (st : State) : Except String State := do
  if st.hasSelection then
    let (s, e) := clampSelection st.input
    let len := e - s
    let len := if len > 128 then 128 else len
    let buf ← loop incr (fun i buf => do arrSet buf i (← st.input.atI (s + i)))
      len.toInt.toNat 0 st.clipboard.buf
    pure { st with clipboard := ⟨buf, len.toUInt32⟩ }
  else
    let st := clearSelection st
    pure { st with clipboard := { st.clipboard with n := 0 } }

/-- `case C('V')`: delete the selection, then insert the clipboard's bytes while the ring has
room. -/
def keyPaste (st : State) : Except String State := do
  let st ← if st.clipboard.n > 0 then do
      let st ← if st.hasSelection then deleteSelection st else pure st
      -- `for (uint i = 0; i < clipboard.n; i++)`
      (List.range st.clipboard.n.toNat).foldlM (fun st i => do
        let ch ← arrGetU st.clipboard.buf i.toUInt32
        if st.input.e < st.input.r + 128 then insertAt .unsigned ch st else pure st) st
    else pure st
  pure (clearSelection (deselectIfAny st))

/-- `case C('A')`: the cursor to the start of the word before it. -/
def keyWordLeft (st : State) : Except String State := do
  let st := deselectIfAny st
  let inp := st.input
  if inp.c > inp.w then
    let oldC := inp.c.toInt32
    let t := decr inp.c.toInt32
    let t ← scan decr (fun t => if t.toUInt32 > inp.w then do pure (isWhitespace (← inp.atI t))
      else pure false) (t.toUInt32.toNat - inp.w.toNat) t
    let t ← scan decr (fun t => if t.toUInt32 > inp.w then do
        pure !(isWhitespace (← inp.atI (t - 1)))
      else pure false) (t.toUInt32.toNat - inp.w.toNat) t
    let inp := { inp with c := t.toUInt32 }
    let g := cgaSetCursorPos
      (sint (UInt32.ofInt (cgaGetCursorPos st.cga) - (oldC.toUInt32 - inp.c))) st.cga
    pure { st with input := inp, cga := g }
  else pure st

/-- `case C('D')`: on an empty line, commit `C('D')` (end of file); otherwise the cursor to the
start of the next word, if there is one. -/
def keyEof (st : State) : Except String State := do
  let st := deselectIfAny st
  let inp := st.input
  if inp.e = inp.w then pure { st with input := inp.commit (ctrl 'D') }
  else if inp.c < inp.e then
    let oldC := inp.c.toInt32
    let t ← scan incr (fun t => if t.toUInt32 < inp.e then do
        pure !(isWhitespace (← inp.atI t))
      else pure false) (inp.e.toNat - inp.c.toNat) inp.c.toInt32
    let t ← scan incr (fun t => if t.toUInt32 < inp.e then do pure (isWhitespace (← inp.atI t))
      else pure false) (inp.e.toNat - t.toUInt32.toNat) t
    if t.toUInt32 < inp.e then
      let g := cgaSetCursorPos (Int32.ofInt (cgaGetCursorPos st.cga) + (t - oldC)).toInt st.cga
      pure { st with input := { inp with c := t.toUInt32 }, cga := g }
    else pure st
  else pure st

/-- `case C('U')`: erase the line on the screen from its end, and empty it. -/
def keyKill (st : State) : Except String State := do
  let st := deselectIfAny st
  let inp := st.input
  let st ← if inp.e ≠ inp.w then do
      let curpos := Int32.ofInt (cgaGetCursorPos st.cga)
      let moveRight := (inp.e - inp.c).toInt32
      let g := cgaSetCursorPos (curpos + moveRight).toInt st.cga
      -- `input.c = input.e; while (input.e != input.w) { input.e--; input.c--;
      -- consputc(BACKSPACE); }`
      let g ← putN backspace (inp.e - inp.w).toNat g
      let undo := { st.undo with n := 0 }
      pure { st with input := { inp with e := inp.w, c := inp.w }, undo := undo, cga := g }
    else pure st
  pure { st with input := { st.input with c := st.input.w }, undo := { st.undo with n := 0 } }

/-- `case C('H')` and `case '\x7f'`: delete the selection, or the byte before the cursor. -/
def keyBackspace (st : State) : Except String State := do
  if st.hasSelection then return ← deleteSelection st
  let inp := st.input
  if inp.c > inp.w then
    let undo ← if st.undo.n < 128 then st.undo.push ⟨.delete, inp.at (inp.c - 1), inp.c - 1⟩
      else pure st.undo
    let cursorPos := Int32.ofInt (cgaGetCursorPos st.cga)
    let lineStartPos := cursorPos - (inp.c - inp.w).toInt32
    -- `for (int i = input.c; i < (int)input.e; i++)`
    let inp ← loop incr (fun i inp => do inp.putI (i - 1) (← inp.atI i))
      (Cmp.signed.trips inp.e inp.c) inp.c.toInt32 inp
    let inp := { inp with c := inp.c - 1, e := inp.e - 1 }
    let g := cgaSetCursorPos lineStartPos.toInt st.cga
    let g ← echoRing inp inp.w.toInt32 (Cmp.signed.trips inp.e inp.w) g
    let g ← consputc 32 g
    let g := cgaSetCursorPos (sint (lineStartPos.toUInt32 + (inp.c - inp.w))) g
    pure { st with input := inp, undo := undo, cga := g }
  else pure st

/-- `case C('Z')`: undo the last record if it is an insertion inside the line. -/
def keyUndo (st : State) : Except String State := do
  let st := deselectIfAny st
  if st.undo.n > 0 then
    let n := st.undo.n - 1
    let last ← arrGetU st.undo.buf n
    let st := { st with undo := { st.undo with n := n } }
    let pos := last.pos.toInt32
    let inp := st.input
    if last.type = .insert then
      if pos.toUInt32 < inp.w ∨ pos.toUInt32 ≥ inp.e then return st
      -- `for (int i = pos + 1; i < input.e; i++)`: an unsigned comparison
      let inp ← loop incr (fun i inp => do inp.putI (i - 1) (← inp.atI i))
        (inp.e.toNat - (pos + 1).toUInt32.toNat) (pos + 1) inp
      let inp := { inp with e := inp.e - 1 }
      let cursorBefore := Int32.ofInt (cgaGetCursorPos st.cga)
      let delta := (inp.c - pos.toUInt32).toInt32
      let g := cgaSetCursorPos (cursorBefore - delta).toInt st.cga
      let g ← echoRing inp pos (inp.e.toNat - pos.toUInt32.toNat) g
      let g ← consputc 32 g
      let g := cgaSetCursorPos
        (sint (UInt32.ofInt (cgaGetCursorPos g) - (inp.e - pos.toUInt32 + 1))) g
      pure { st with input := { inp with c := pos.toUInt32 }, cga := g }
    else pure st
  else pure st

/-- `case KEY_LF`. -/
def keyLeft (st : State) : State :=
  let st := deselectIfAny st
  if st.input.c > st.input.w then
    let g := cgaSetCursorPos (cgaGetCursorPos st.cga - 1) st.cga
    { st with input := { st.input with c := st.input.c - 1 }, cga := g }
  else st

/-- `case KEY_RT`. -/
def keyRight (st : State) : State :=
  let st := deselectIfAny st
  if st.input.c < st.input.e then
    let g := cgaSetCursorPos (cgaGetCursorPos st.cga + 1) st.cga
    { st with input := { st.input with c := st.input.c + 1 }, cga := g }
  else st

/-- `default`: a key `c ≠ 0` replaces the selection, then ends the line (Enter, or any key
when the ring is full) or is inserted at the cursor. -/
def keyDefault (k : UInt8) (st : State) : Except String State := do
  if k = 0 then return st
  let k : UInt8 := if k = 13 then 10 else k
  let st ← if st.hasSelection then deleteSelection st else pure st
  let st ← if k = 10 ∨ st.input.e = st.input.r + 128 then do
      let g ← if k = 10 then cgaputc 10 st.cga else pure st.cga
      pure { st with input := st.input.commit 10, undo := { st.undo with n := 0 }, cga := g }
    else if st.input.e < st.input.r + 128 then insertAt .signed k st
    else pure st
  pure (clearSelection st)

/-- One key of `consoleintr`'s `switch`. -/
def consoleKey (k : UInt8) (st : State) : Except String State :=
  if k = 9 then handleTabCompletion (deselectIfAny st)
  else if k = ctrl 'S' then pure (keySelect st)
  else if k = ctrl 'C' then keyCopy st
  else if k = ctrl 'V' then keyPaste st
  else if k = ctrl 'A' then keyWordLeft st
  else if k = ctrl 'D' then keyEof st
  else if k = ctrl 'P' then pure (deselectIfAny st)
  else if k = ctrl 'U' then keyKill st
  else if k = ctrl 'H' ∨ k = 0x7f then keyBackspace st
  else if k = ctrl 'Z' then keyUndo st
  else if k = keyLf then pure (keyLeft st)
  else if k = keyRt then pure (keyRight st)
  else keyDefault k st

/-- The keys of one `consoleintr` call, in order. -/
def consoleKeys : List UInt8 → State → Except String State
  | [], st => .ok st
  | k :: ks, st => consoleKey k st >>= consoleKeys ks

/-- `consoleintr(getc)` for a `getc` that returns `keys` and then `-1`; `dump` is the text
`procdump()` prints. -/
def consoleintr (dump : List UInt8) (keys : List UInt8) (st : State) : Except String State := do
  let st ← consoleKeys keys st
  if keys.contains (ctrl 'P') then
    let g ← dump.foldlM (fun g b => consputc (charVal b) g) st.cga
    pure { st with cga := g }
  else pure st

end Xv6.Console
