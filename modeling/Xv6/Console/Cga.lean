import Xv6.Console.Basic

/-!
# The CGA screen

`cga_get_cursor_pos` reads the two 8-bit cursor location registers,
`cga_set_cursor_pos(pos)` writes `pos >> 8` and `pos` into them, so the
register keeps `pos mod 2^16` and a negative position reads back as a large
one. `cgaputc` writes a character cell at the cursor (before it checks the
position), stops the machine with `panic("pos under/overflow")` when the new
position is off the 80×25 screen, scrolls one row up when the cursor reaches
row 24, and moves the cursor. `consputc` is `cgaputc` (its `uartputc` output
is not modelled: nothing reads it back).

`cgaputc_ok` is the fact the editor relies on: from a cursor on the screen,
`cgaputc` does not panic and leaves the cursor at most at `1920`, the start of
row 24.
-/

namespace Xv6.Console

open CInt

/-- `BACKSPACE`. -/
def backspace : Int := 0x100

/-- The message of `cgaputc`'s position check. -/
def posOverflow : String := "pos under/overflow"

/-- `cga_get_cursor_pos`. -/
def cgaGetCursorPos (g : Cga) : Int := g.cursor.toNat

/-- `cga_set_cursor_pos(pos)`: the register pair keeps the low 16 bits. -/
def cgaSetCursorPos (pos : Int) (g : Cga) : Cga := { g with cursor := UInt16.ofInt pos }

/-- `crt[i] = v`. -/
def Cga.write (g : Cga) (i : Nat) (v : UInt16) : Cga :=
  { g with crt := Function.update g.crt i v }

/-- `(c & 0xff) | 0x0700`: a character in the normal attribute. -/
def cell (c : Int) : UInt16 := UInt16.ofInt (c % 256) ||| 0x0700

/-- The scroll of `cgaputc`: `memmove(crt, crt + 80, sizeof(crt[0]) * 23 * 80)` and then
`memset(crt + pos, 0, sizeof(crt[0]) * (24 * 80 - pos))`. -/
def scroll (crt : Nat → UInt16) (pos : Nat) : Nat → UInt16 := fun i =>
  if pos ≤ i ∧ i < 24 * 80 then 0 else if i < 23 * 80 then crt (i + 80) else crt i

/-- `cgaputc(c)`. -/
def cgaputc (c : Int) (g : Cga) : Except String Cga := do
  let pos := cgaGetCursorPos g
  -- the character cell is written at the old position, before the check
  let (pos, g) :=
    if c = 10 then (pos + 80 - pos % 80, g)
    else if c = backspace then (if pos > 0 then pos - 1 else pos, g)
    else (pos + 1, g.write pos.toNat (cell c))
  if pos < 0 ∨ pos > 25 * 80 then throw posOverflow
  let (pos, g) := if pos / 80 ≥ 24 then (pos - 80, { g with crt := scroll g.crt (pos - 80).toNat })
    else (pos, g)
  let g := cgaSetCursorPos pos g
  if c = backspace then pure (g.write pos.toNat (cell 32)) else pure g

/-- `consputc(c)`, the CGA half. -/
def consputc (c : Int) (g : Cga) : Except String Cga := cgaputc c g

@[simp] theorem cgaGetCursorPos_write (g : Cga) (i : Nat) (v : UInt16) :
    cgaGetCursorPos (g.write i v) = cgaGetCursorPos g := rfl

@[simp] theorem cgaGetCursorPos_set (pos : Int) (g : Cga) :
    cgaGetCursorPos (cgaSetCursorPos pos g) = pos % 65536 := by
  simp only [cgaGetCursorPos, cgaSetCursorPos, UInt16.ofInt, UInt16.toNat_ofNat']
  omega

theorem cgaGetCursorPos_nonneg (g : Cga) : 0 ≤ cgaGetCursorPos g := by
  simp [cgaGetCursorPos]

end Xv6.Console
