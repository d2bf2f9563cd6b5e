import Xv6.Lib.CInt
import Xv6.Lib.Ring
import Xv6.Lib.Loop

/-!
# The console's state

`console.c` keeps, besides the hardware, four pieces of state:

* `input`, the line ring of `INPUT_BUF = 128` bytes. Its positions run freely
  (`unsigned int`): `[r, w)` holds committed bytes that no `consoleread` has
  taken yet, `[w, e)` is the line being edited and `c` the editing cursor. The
  selection is `selecting`, `sel_start`, `sel_end`, where `-1` is "not set".
* `undo`, a stack of up to `UNDO_BUF` insertions and deletions;
* `clipboard`, the bytes ^C copied;
* `tab_state.last_key_was_tab`.

The CGA text screen is the video memory `crt`, one 16-bit cell per character
(attribute in the high byte), and the cursor location register pair 14/15 of
the CRT controller, a 16-bit value.

Everything lives in zero-initialised globals (only `clipboard` has an
initialiser, `.n = 0`), and `consoleinit` resets `r`, `w`, `e`, `c`, `undo.n`
and the Tab state, so `consoleinit` yields the all-zero state over whatever
screen the boot left: in particular `sel_start = sel_end = 0`, not `-1`.
-/

namespace Xv6.Console

open CInt

/-- `INPUT_BUF`. -/
abbrev inputBuf : Nat := 128

/-- `UNDO_BUF`. -/
abbrev undoBuf : Nat := 128

/-- `CLIPBOARD_BUF`. -/
abbrev clipboardBuf : Nat := 128

theorem inputBuf_ne_zero : inputBuf ≠ 0 := by decide

/-- The three buffers are indexed modulo their size, `128`. -/
instance : NeZero inputBuf := ⟨inputBuf_ne_zero⟩

/-- The anonymous `struct input` (`buf` is `char buf[INPUT_BUF]`). -/
structure Input where
  buf : Fin 128 → UInt8
  r : UInt32
  w : UInt32
  e : UInt32
  c : UInt32
  selecting : Int32
  selStart : Int32
  selEnd : Int32

/-- `OP_INSERT` and `OP_DELETE`, the values stored in `struct op`'s `type`. -/
inductive OpType where
  | insert
  | delete
  deriving DecidableEq, Repr

/-- `struct op`: an undo record. -/
structure Op where
  type : OpType
  c : UInt8
  pos : UInt32
  deriving DecidableEq, Repr

/-- The anonymous `struct undo` (`struct op buf[UNDO_BUF]`). -/
structure Undo where
  buf : Fin 128 → Op
  n : UInt32

/-- The anonymous `struct clipboard` (`char buf[CLIPBOARD_BUF]`). -/
structure Clipboard where
  buf : Fin 128 → UInt8
  n : UInt32

/-- The CGA text screen: video memory, word-addressed from `0xb8000`, and the cursor
location register. -/
structure Cga where
  crt : Nat → UInt16
  cursor : UInt16

/-- All the state `consoleintr` and `consoleread` work on. -/
structure State where
  input : Input
  undo : Undo
  clipboard : Clipboard
  lastKeyWasTab : Int32
  cga : Cga

/-- A zero-filled record, as in the kernel's `.bss`. -/
def zeroOp : Op := ⟨.insert, 0, 0⟩

/-- `consoleinit`: the zeroed globals with `r = w = e = c = 0`, `undo.n = 0` and the Tab
state reset, over the screen `g` the boot left. -/
def consoleinit (g : Cga) : State where
  input := ⟨fun _ => 0, 0, 0, 0, 0, 0, 0, 0⟩
  undo := ⟨fun _ => zeroOp, 0⟩
  clipboard := ⟨fun _ => 0, 0⟩
  lastKeyWasTab := 0
  cga := g

/-! ## Keys

`getc` returns a byte (`kbdgetc` a table entry, `uartgetc` the data register) or
`-1`, which ends `consoleintr`'s loop; a key is the byte. -/

/-- `C(x)`: the control code of `x`. -/
def ctrl (x : Char) : UInt8 := x.toNat.toUInt8 - 64

/-- `KEY_LF`. -/
def keyLf : UInt8 := 0xE4

/-- `KEY_RT`. -/
def keyRt : UInt8 := 0xE5

/-- `(int)ch` for a `char`: the x86 `char` is signed. -/
def charVal (b : UInt8) : Int := if b.toNat < 128 then b.toNat else b.toNat - 256

/-! ## The ring

`input.buf[x % INPUT_BUF]` for an `unsigned` `x` always lies in the array;
for an `int` `i` the index `i % INPUT_BUF` is negative when `i` is. -/

/-- `input.buf[p % INPUT_BUF]` for an `unsigned` position `p`. -/
def Input.at (inp : Input) (p : UInt32) : UInt8 := RingBuf.get inp.buf p.toNat

/-- `input.buf[p % INPUT_BUF] = v` for an `unsigned` position `p`. -/
def Input.put (inp : Input) (p : UInt32) (v : UInt8) : Input :=
  { inp with buf := RingBuf.set inp.buf p.toNat v }

/-- `input.buf[i % INPUT_BUF]` for an `int` `i`. -/
def Input.atI (inp : Input) (i : Int32) : Except String UInt8 := arrGet inp.buf (i % 128)

/-- `input.buf[i % INPUT_BUF] = v` for an `int` `i`. -/
def Input.putI (inp : Input) (i : Int32) (v : UInt8) : Except String Input := do
  let buf ← arrSet inp.buf (i % 128) v
  pure { inp with buf }

/-- The line being edited, `buf[w..e)`. -/
def Input.line (inp : Input) : List UInt8 := RingBuf.window inp.buf inp.w.toNat (inp.e - inp.w).toNat

/-- The committed bytes not yet read, `buf[r..w)`. -/
def Input.unread (inp : Input) : List UInt8 :=
  RingBuf.window inp.buf inp.r.toNat (inp.w - inp.r).toNat

theorem toInt_mod_128 {i : Int32} (h : 0 ≤ i.toInt) : (i % 128).toInt = i.toInt % 128 := by
  rw [Int32.toInt_mod, show (128 : Int32).toInt = 128 from rfl, Int.tmod_eq_emod_of_nonneg h]

/-- An `int` index that is not negative reads the ring at its position. -/
theorem Input.atI_of_nonneg (inp : Input) {i : Int32} (h : 0 ≤ i.toInt) :
    inp.atI i = .ok (RingBuf.get inp.buf i.toInt.toNat) := by
  have hm := toInt_mod_128 h
  rw [Input.atI, arrGet_of_range _ (by omega)]
  congr 2
  apply Fin.ext
  simp only [RingBuf.slot]
  omega

/-- An `int` index that is not negative writes the ring at its position. -/
theorem Input.putI_of_nonneg (inp : Input) {i : Int32} (v : UInt8) (h : 0 ≤ i.toInt) :
    inp.putI i v = .ok { inp with buf := RingBuf.set inp.buf i.toInt.toNat v } := by
  have hm := toInt_mod_128 h
  rw [Input.putI, arrSet_of_range _ _ (by omega)]
  simp only [CLoop.ok_bind, CLoop.pure_eq_ok, RingBuf.set, RingBuf.slot]
  congr 4
  omega

end Xv6.Console
