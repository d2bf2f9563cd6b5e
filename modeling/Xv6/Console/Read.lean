import Xv6.Console.Intr

/-!
# `consoleread`

`consoleread(ip, dst, n)` takes committed bytes from `input.r` on. It stops
after `n` bytes or after a `'\n'`; a `C('D')` ends the call without being
copied and, if bytes were already copied, is pushed back (`input.r--`) so the
next call returns 0 for it. With nothing committed the call returns `-1` if
the process was killed and otherwise sleeps until a commit wakes it, keeping
what it has copied so far: `ReadCall` is a call in progress, and `readLoop`
runs it until it returns (`ReadStep.done`) or sleeps (`ReadStep.sleeping`).
-/

namespace Xv6.Console

open CInt

/-- A `consoleread` call in progress: `target` bytes asked for, `n` still wanted, and the
bytes written to `dst` so far. -/
structure ReadCall where
  target : UInt32
  n : Int32
  dst : List UInt8

/-- The call `consoleread(ip, dst, n)` before its loop. -/
def ReadCall.start (n : Int32) : ReadCall := ⟨n.toUInt32, n, []⟩

/-- `return target - n;` -/
def ReadCall.ret (call : ReadCall) : Int32 := (call.target - call.n.toUInt32).toInt32

/-- A `consoleread` call run until it returns or sleeps. -/
inductive ReadStep where
  | done (ret : Int32) (dst : List UInt8) (inp : Input)
  | sleeping (call : ReadCall) (inp : Input)

/-- The loop `while (n > 0)` of `consoleread`, for a process whose `killed` flag is
`killed`; it runs at most `fuel` times. -/
def readLoop (killed : Bool) : Nat → ReadCall → Input → ReadStep
  | 0, call, inp => .done call.ret call.dst inp
  | fuel + 1, call, inp =>
    if call.n > 0 then
      if inp.r = inp.w then
        if killed then .done (-1) call.dst inp else .sleeping call inp
      else
        let ch := inp.at inp.r
        let inp := { inp with r := inp.r + 1 }
        if ch = ctrl 'D' then
          let inp := if call.n.toUInt32 < call.target then { inp with r := inp.r - 1 } else inp
          .done call.ret call.dst inp
        else
          let call := { call with dst := call.dst ++ [ch], n := call.n - 1 }
          if ch = 10 then .done call.ret call.dst inp
          else readLoop killed fuel call inp
    else .done call.ret call.dst inp

/-- Running a `consoleread` call (a new one, or one woken from its sleep): every run of the loop
but the last lowers `n`, so `n` runs bound it. -/
def consoleread (killed : Bool) (call : ReadCall) (inp : Input) : ReadStep :=
  readLoop killed (call.n.toInt.toNat + 1) call inp

end Xv6.Console
