import Xv6.Lib.CInt
import Xv6.Lib.Sat
import Xv6.Log.Basic

/-!
# System call arguments

`syscall.c`: a system call's arguments are words on the user stack, above the saved
`%esp`. `fetchint` and `fetchstr` check a user address against the process size `sz`
before the kernel dereferences it; `argint`, `argptr` and `argstr` fetch the `n`th argument
as an integer, a pointer to `size` bytes, or a string. The kernel then reads and writes
user memory through those pointers directly, so each check must cover every byte it later
touches, with the `uint` sums `addr + 4` and `i + size` unable to wrap.

Every dereference of a user address is `User.peek`, which stops with `.outside` off
`[0, sz)`; `.fail` is a return of `-1`. A handler fetches its arguments (`Handler.args`) and
names the user regions it goes on to touch: the buffer of `read`, `write`, `fstat` and
`pipe`, the strings of the path arguments and of `exec`'s `argv`, each with its `NUL`.
`sys_mkdir`, `sys_mknod` and `sys_chdir` call `begin_op()` before they fetch their path
(`Handler.beginsOp`).
-/

namespace Xv6.Syscall

open CLoop CInt

/-- `KERNBASE`: `allocuvm` keeps every process's size below it. -/
def kernbase : Nat := 0x80000000

/-- `NOFILE`. -/
def nofile : Int32 := 16

/-- `MAXARG`, the length of `sys_exec`'s `argv`. -/
def maxarg : Nat := 32

/-- Why an argument fetch stops: it returns `-1`, or it would dereference an address outside
the process's memory `[0, sz)`. -/
inductive Fault where
  | fail
  | outside
  deriving DecidableEq, Repr

/-- The current process as the fetchers see it: its memory, its size, and the user `%esp`
saved in its trap frame. -/
structure User where
  mem : UInt32 → UInt8
  sz : UInt32
  esp : UInt32

/-- The kernel's dereference of the user address `a`. -/
def User.peek (u : User) (a : UInt32) : Except Fault UInt8 :=
  if a < u.sz then .ok (u.mem a) else .error .outside

/-- `*(int*)a`: four bytes, little-endian. -/
def User.peekInt (u : User) (a : UInt32) : Except Fault Int32 := do
  let b0 ← u.peek a
  let b1 ← u.peek (a + 1)
  let b2 ← u.peek (a + 2)
  let b3 ← u.peek (a + 3)
  pure (b0.toUInt32 ||| b1.toUInt32 <<< 8 ||| b2.toUInt32 <<< 16 ||| b3.toUInt32 <<< 24).toInt32

/-- `fetchint(addr, ip)`. -/
def fetchint (u : User) (addr : UInt32) : Except Fault Int32 :=
  if addr ≥ u.sz ∨ addr + 4 > u.sz then .error .fail else u.peekInt addr

/-- The loop of `fetchstr` at `s`, with `k` turns before `s` reaches `ep = sz`: the string's
length once a `NUL` is found. -/
def fetchstrLoop (u : User) (addr : UInt32) : Nat → UInt32 → Except Fault Nat
  | 0, _ => .error .fail
  | k + 1, s =>
    if s < u.sz then do
      let c ← u.peek s
      if c = 0 then pure (s - addr).toNat else fetchstrLoop u addr k (s + 1)
    else .error .fail

/-- `fetchstr(addr, pp)`: the length of the string at `addr`, `*pp` being `addr`. -/
def fetchstr (u : User) (addr : UInt32) : Except Fault Nat :=
  if addr ≥ u.sz then .error .fail else fetchstrLoop u addr (u.sz - addr).toNat addr

/-- `argint(n, ip)`. -/
def argint (u : User) (n : UInt32) : Except Fault Int32 := fetchint u (u.esp + 4 + 4 * n)

/-- `argptr(n, pp, size)`. -/
def argptr (u : User) (n : UInt32) (size : Int32) : Except Fault UInt32 := do
  let i ← argint u n
  if size < 0 ∨ i.toUInt32 ≥ u.sz ∨ i.toUInt32 + size.toUInt32 > u.sz then .error .fail
  else pure i.toUInt32

/-- `argstr(n, pp)`: the string's address and length. -/
def argstr (u : User) (n : UInt32) : Except Fault (UInt32 × Nat) := do
  let addr ← argint u n
  let len ← fetchstr u addr.toUInt32
  pure (addr.toUInt32, len)

/-- `argfd(n, pfd, pf)`, with `ofile fd` telling whether `myproc()->ofile[fd]` is set. -/
def argfd (u : User) (ofile : Nat → Bool) (n : UInt32) : Except Fault Int32 := do
  let fd ← argint u n
  if fd < 0 ∨ fd ≥ nofile ∨ !ofile fd.toInt.toNat then .error .fail else pure fd

/-! ## The handlers -/

/-- A user region: its first address and its length in bytes. -/
abbrev Region := UInt32 × Nat

/-- A string argument's region: its bytes and the `NUL`. -/
def strRegion (s : UInt32 × Nat) : Region := (s.1, s.2 + 1)

/-- A handler up to the point where its arguments are accepted: whether it runs `begin_op()`
first, and its argument fetches with the user regions it then touches. -/
structure Handler where
  beginsOp : Bool
  args : User → (Nat → Bool) → Except Fault (List Region)

/-- `sys_read`, up to `fileread(f, p, n)`, which writes at most `n` bytes from `p`. -/
def sysRead : Handler := ⟨false, fun u ofile => do
  let _ ← argfd u ofile 0
  let n ← argint u 2
  let p ← argptr u 1 n
  pure [(p, n.toInt.toNat)]⟩

/-- `sys_write`, up to `filewrite(f, p, n)`, which reads at most `n` bytes from `p`. -/
def sysWrite : Handler := ⟨false, fun u ofile => do
  let _ ← argfd u ofile 0
  let n ← argint u 2
  let p ← argptr u 1 n
  pure [(p, n.toInt.toNat)]⟩

/-- `sys_fstat`, up to `filestat(f, st)`, which writes the 20 bytes of `struct stat`. -/
def sysFstat : Handler := ⟨false, fun u ofile => do
  let _ ← argfd u ofile 0
  let st ← argptr u 1 20
  pure [(st, 20)]⟩

/-- `sys_pipe`, which writes `fd[0]` and `fd[1]`. -/
def sysPipe : Handler := ⟨false, fun u _ => do
  let fd ← argptr u 0 8
  pure [(fd, 8)]⟩

/-- The loop of `sys_exec` over the `argv` table at `uargv` from entry `i`, with `k` turns
before `i` reaches `MAXARG`. -/
def execArgv (u : User) (uargv : UInt32) : Nat → Nat → Except Fault (List Region)
  | 0, _ => .error .fail
  | k + 1, i => do
    let uarg ← fetchint u (uargv + 4 * UInt32.ofNat i)
    if uarg = 0 then pure []
    else do
      let len ← fetchstr u uarg.toUInt32
      let rest ← execArgv u uargv k (i + 1)
      pure ((uarg.toUInt32, len + 1) :: rest)

/-- `sys_exec`, up to `exec(path, argv)`, which reads the path and the argument strings. -/
def sysExec : Handler := ⟨false, fun u _ => do
  let path ← argstr u 0
  let uargv ← argint u 1
  let argv ← execArgv u uargv.toUInt32 maxarg 0
  pure (strRegion path :: argv)⟩

/-- `sys_open`, up to `begin_op()`. -/
def sysOpen : Handler := ⟨false, fun u _ => do
  let path ← argstr u 0
  let _ ← argint u 1
  pure [strRegion path]⟩

/-- `sys_link`, up to `begin_op()`. -/
def sysLink : Handler := ⟨false, fun u _ => do
  let old ← argstr u 0
  let new ← argstr u 1
  pure [strRegion old, strRegion new]⟩

/-- `sys_unlink`, up to `begin_op()`. -/
def sysUnlink : Handler := ⟨false, fun u _ => do
  let path ← argstr u 0
  pure [strRegion path]⟩

/-- `sys_mkdir`: `begin_op()`, then the path. -/
def sysMkdir : Handler := ⟨true, fun u _ => do
  let path ← argstr u 0
  pure [strRegion path]⟩

/-- `sys_mknod`: `begin_op()`, then the path, `major` and `minor`. -/
def sysMknod : Handler := ⟨true, fun u _ => do
  let path ← argstr u 0
  let _ ← argint u 1
  let _ ← argint u 2
  pure [strRegion path]⟩

/-- `sys_chdir`: `begin_op()`, then the path. -/
def sysChdir : Handler := ⟨true, fun u _ => do
  let path ← argstr u 0
  pure [strRegion path]⟩

/-- `sys_dup` and `sys_close`: a descriptor. -/
def sysFd : Handler := ⟨false, fun u ofile => do
  let _ ← argfd u ofile 0
  pure []⟩

/-- `sys_kill`, `sys_sbrk` and `sys_sleep`: one `int`. -/
def sysInt : Handler := ⟨false, fun u _ => do
  let _ ← argint u 0
  pure []⟩

/-- The system calls with arguments. -/
inductive Syscall where
  | read | write | fstat | pipe | exec | openCall | link | unlink | mkdir | mknod | chdir
  | dup | close | kill | sbrk | sleep
  deriving DecidableEq, Repr

/-- The handler `syscall()` dispatches to. -/
def Syscall.handler : Syscall → Handler
  | .read => sysRead
  | .write => sysWrite
  | .fstat => sysFstat
  | .pipe => sysPipe
  | .exec => sysExec
  | .openCall => sysOpen
  | .link => sysLink
  | .unlink => sysUnlink
  | .mkdir => sysMkdir
  | .mknod => sysMknod
  | .chdir => sysChdir
  | .dup | .close => sysFd
  | .kill | .sbrk | .sleep => sysInt

open Xv6.FsLog in
/-- The log once a handler has returned `-1` for rejected arguments; `none` while its
`begin_op` sleeps. -/
def Handler.onReject {α : Type} (h : Handler) (codec : Codec α) (st : LogSys α) :
    Option (Except String (LogSys α)) :=
  if h.beginsOp then (beginOp st).map (endOp codec) else some (.ok st)

end Xv6.Syscall
