import Xv6.Console.Cga

/-!
# The selection and its deletion

`update_highlight`, `clear_selection`, `deselect_if_any` and `delete_selection`
of `console.c`. A selection is `sel_start`, `sel_end` (positions of the ring,
stored as `int`); `delete_selection` orders and clamps them to the line
`[w, e]`, records the deleted bytes for undo, closes the gap in the ring,
redraws the line from the start of the line on the screen and blanks the cells
the line no longer covers.

The screen position of the line's start is never stored: both functions
recompute it as `cga_get_cursor_pos() - (c - w)`.
-/

namespace Xv6.Console

open CInt CLoop

/-- The int counter of a C `for` loop, `i++`. -/
def incr (i : Int32) : Int32 := i + 1

/-- `crt[pos] = (crt[pos] & 0x00ff) | attr` when `pos` is on the screen. -/
def highlightCell (attr : UInt16) (g : Cga) (pos : Int32) : Cga :=
  if 0 ≤ pos ∧ pos < 25 * 80 then
    g.write pos.toInt.toNat ((g.crt pos.toInt.toNat &&& 0x00ff) ||| attr)
  else g

/-- `update_highlight(start, end, on)`. -/
def updateHighlight (start end_ : Int32) (on : Bool) (st : State) : State :=
  if start < 0 ∨ end_ ≤ start then st else
  let start := if start < st.input.w.toInt32 then st.input.w.toInt32 else start
  let end_ := if end_ > st.input.e.toInt32 then st.input.e.toInt32 else end_
  if start ≥ end_ then st else
  let cursorPos := Int32.ofInt (cgaGetCursorPos st.cga)
  let screenPosOfW := cursorPos - (st.input.c - st.input.w).toInt32
  let attr : UInt16 := if on then 0x7000 else 0x0700
  -- `for (int i = start; i < end; i++)`
  let g := (List.range (end_.toInt - start.toInt).toNat).foldl (fun g k =>
    highlightCell attr g (screenPosOfW + (start + Int32.ofNat k - st.input.w.toInt32))) st.cga
  { st with cga := g }

/-- `clear_selection()`. -/
def clearSelection (st : State) : State :=
  let st := if st.input.selStart ≠ -1 then
      let st := updateHighlight st.input.selStart st.input.selEnd false st
      { st with input := { st.input with selStart := -1, selEnd := -1 } }
    else st
  { st with input := { st.input with selecting := 0 } }

/-- `deselect_if_any()`. -/
def deselectIfAny (st : State) : State :=
  if st.input.selStart ≠ -1 ∧ st.input.selEnd ≠ -1 then clearSelection st else st

/-- `input.sel_start != -1 && input.sel_end != -1`: both ends of the selection are set. -/
def State.hasSelection (st : State) : Bool := st.input.selStart ≠ -1 && st.input.selEnd ≠ -1

/-- Pushing an undo record: `undo.buf[undo.n] = op; undo.n++`. -/
def Undo.push (u : Undo) (op : Op) : Except String Undo := do
  let buf ← arrSetU u.buf u.n op
  pure ⟨buf, u.n + 1⟩

/-- `for (i = i0; i < i0 + n; i++) consputc(input.buf[i % INPUT_BUF])`: echo `n` bytes of
the ring. -/
def echoRing (inp : Input) (i0 : Int32) (n : Nat) (g : Cga) : Except String Cga :=
  loop incr (fun i g => do consputc (charVal (← inp.atI i)) g) n i0 g

/-- `n` calls `consputc(c)`. -/
def putN (c : Int) (n : Nat) (g : Cga) : Except String Cga :=
  loop incr (fun _ g => consputc c g) n 0 g

/-- The clamped selection of `delete_selection` (and of ^C): ordered, and cut to the line. -/
def clampSelection (inp : Input) : Int32 × Int32 :=
  let (s, e) := if inp.selStart > inp.selEnd then (inp.selEnd, inp.selStart)
    else (inp.selStart, inp.selEnd)
  (if s < inp.w.toInt32 then inp.w.toInt32 else s, if e > inp.e.toInt32 then inp.e.toInt32 else e)

/-- The undo loop of `delete_selection`:
`for (k = 0; k < len && undo.n < UNDO_BUF; k++)` records `OP_DELETE` of the byte at `s + k`. -/
def recordDeletes (inp : Input) (s len : Int32) (u : Undo) : Except String Undo :=
  loop incr (fun k u => do
      let ch ← inp.atI (s + k)
      u.push ⟨.delete, ch, (s + k).toUInt32⟩)
    (min len.toInt.toNat (undoBuf - u.n.toNat)) 0 u

/-- The gap-closing loop `for (i = e; i < old_e; i++) input.buf[(i - len) % INPUT_BUF] =
input.buf[i % INPUT_BUF]`. -/
def closeGap (len : Int32) (i0 : Int32) (n : Nat) (inp : Input) : Except String Input :=
  loop incr (fun i inp => do inp.putI (i - len) (← inp.atI i)) n i0 inp

/-- `delete_selection()`. -/
def deleteSelection (st : State) : Except String State := do
  if st.input.selStart = -1 ∨ st.input.selEnd = -1 then return st
  let (s, e) := clampSelection st.input
  if s ≥ e then return clearSelection st
  let len := e - s
  let oldE := st.input.e.toInt32
  let oldC := st.input.c.toInt32
  let undo ← recordDeletes st.input s len st.undo
  let hwCursor := Int32.ofInt (cgaGetCursorPos st.cga)
  let spw := hwCursor - (oldC - st.input.w.toInt32)
  let spw := if spw < 0 then 0 else spw
  let spw := if spw ≥ 25 * 80 then 25 * 80 - 1 else spw
  let inp ← closeGap len e (oldE.toInt - e.toInt).toNat st.input
  let inp := { inp with e := inp.e - len.toUInt32, c := s.toUInt32 }
  let g := cgaSetCursorPos spw.toInt st.cga
  -- `for (int i = input.w; i < input.e; i++)`: an unsigned comparison
  let g ← echoRing inp inp.w.toInt32 (inp.e.toNat - inp.w.toNat) g
  let leftover := sint (oldE.toUInt32 - inp.e)
  let g ← putN 32 leftover.toNat g
  let g := cgaSetCursorPos (sint (spw.toUInt32 + (inp.c - inp.w))) g
  pure (clearSelection { st with input := inp, undo := undo, cga := g })

end Xv6.Console
