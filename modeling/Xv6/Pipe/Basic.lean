import Xv6.Lib.Ring

/-!
# Pipes

`pipe.c`: a pipe is a ring of `PIPESIZE` bytes with two free-running `uint` counters,
`nread` and `nwrite`. Byte `k` of the stream lives in `data[k % PIPESIZE]`; the ring is
full when `nwrite == nread + PIPESIZE` and empty when the two are equal, both compared
as `uint`s, so the counters may wrap.

A call holds `p->lock` and gives it up only in `sleep`. `pipewrite` stores one byte at a
time and sleeps while the ring is full, so other calls run between two of its bytes;
`piperead` sleeps while the ring is empty and the write end open, and then copies out what
it can in one go. Each step of a call below runs from the lock's acquisition (or a wakeup)
to its next byte, its `sleep` or its return; `killed` is what `myproc()->killed` reads then.
The `wakeup`s only end sleeps, which a step that finds its condition changed models.
-/

namespace Xv6.Pipes

open RingBuf

/-- `PIPESIZE`. -/
abbrev pipesize : Nat := 512

/-- `struct pipe` without its lock. -/
structure Pipe where
  data : Fin pipesize → UInt8
  nread : UInt32
  nwrite : UInt32
  readopen : Bool
  writeopen : Bool

/-- The pipe `pipealloc` sets up in the page `data` that `kalloc` returned. -/
def Pipe.alloc (data : Fin pipesize → UInt8) : Pipe := ⟨data, 0, 0, true, true⟩

/-- `pipeclose(p, writable)`; `kfree` of the page once both ends are closed is not modelled. -/
def pipeclose (writable : Bool) (p : Pipe) : Pipe :=
  if writable then { p with writeopen := false } else { p with readopen := false }

/-- Where one step of `pipewrite` ends. -/
inductive WriteStep where
  | store (p : Pipe)
  | sleep
  | ret (v : Int) (p : Pipe)

/-- One step of `pipewrite(p, addr, n)` at loop counter `i`: `p->data[p->nwrite++ % PIPESIZE]
= addr[i]`, or `sleep` on a full ring, or the return. -/
def pipewrite (killed : Bool) (addr : Nat → UInt8) (n : Int) (i : Nat) (p : Pipe) : WriteStep :=
  if (i : Int) < n then
    -- `PIPESIZE` converted to `uint`
    if p.nwrite = p.nread + 512 then
      if !p.readopen || killed then .ret (-1) p else .sleep
    else .store { p with data := set p.data p.nwrite.toNat (addr i), nwrite := p.nwrite + 1 }
  else .ret n p

/-- The copy loop of `piperead`, with `k` turns left: `addr[i] = p->data[p->nread++ % PIPESIZE]`
until the ring is empty. -/
def readLoop : Nat → Pipe → List UInt8 × Pipe
  | 0, p => ([], p)
  | k + 1, p =>
    if p.nread = p.nwrite then ([], p)
    else
      let r := readLoop k { p with nread := p.nread + 1 }
      (get p.data p.nread.toNat :: r.1, r.2)

/-- Where one step of `piperead` ends: `sleep`, or the return with the bytes copied to
`addr`. -/
inductive ReadStep where
  | sleep
  | ret (v : Int) (out : List UInt8) (p : Pipe)

/-- `piperead(p, addr, n)` from its `acquire` or a wakeup. -/
def piperead (killed : Bool) (n : Int) (p : Pipe) : ReadStep :=
  if p.nread = p.nwrite ∧ p.writeopen then
    if killed then .ret (-1) [] p else .sleep
  else
    let r := readLoop n.toNat p
    .ret r.1.length r.1 r.2

/-- The number of bytes in the ring, `nwrite - nread` as a `uint`. -/
def Pipe.count (p : Pipe) : Nat := (p.nwrite - p.nread).toNat

/-- The bytes in the ring, oldest first. -/
def Pipe.contents (p : Pipe) : List UInt8 := window p.data p.nread.toNat p.count

/-! ## Calls of many threads -/

/-- A call in progress: `pipewrite(p, addr, n)` at loop counter `i`, or `piperead(p, addr, n)`. -/
inductive Call where
  | write (addr : Nat → UInt8) (n : Int) (i : Nat)
  | read (n : Int)

/-- The pipe, the call each thread has in progress, and two histories: every byte
`pipewrite` stored, with the thread that stored it, and every byte `piperead` returned. -/
structure Sys where
  pipe : Pipe
  calls : Nat → Option Call
  stored : List (Nat × UInt8)
  got : List UInt8

/-- The bytes thread `t` has stored. -/
def Sys.mine (s : Sys) (t : Nat) : List UInt8 := (s.stored.filter (·.1 = t)).map Prod.snd

/-- One step of one thread, or a `pipeclose` of either end. -/
inductive Step : Sys → Sys → Prop
  | beginWrite {s : Sys} (t : Nat) (addr : Nat → UInt8) (n : Int) (h : s.calls t = none) :
      Step s { s with calls := Function.update s.calls t (some (.write addr n 0)) }
  | beginRead {s : Sys} (t : Nat) (n : Int) (h : s.calls t = none) :
      Step s { s with calls := Function.update s.calls t (some (.read n)) }
  | store {s : Sys} {t : Nat} {addr : Nat → UInt8} {n : Int} {i : Nat} {p : Pipe} (killed : Bool)
      (hc : s.calls t = some (.write addr n i)) (h : pipewrite killed addr n i s.pipe = .store p) :
      Step s ⟨p, Function.update s.calls t (some (.write addr n (i + 1))), s.stored ++ [(t, addr i)],
        s.got⟩
  | writeRet {s : Sys} {t : Nat} {addr : Nat → UInt8} {n : Int} {i : Nat} {v : Int} {p : Pipe}
      (killed : Bool) (hc : s.calls t = some (.write addr n i))
      (h : pipewrite killed addr n i s.pipe = .ret v p) :
      Step s { s with pipe := p, calls := Function.update s.calls t none }
  | readRet {s : Sys} {t : Nat} {n v : Int} {out : List UInt8} {p : Pipe} (killed : Bool)
      (hc : s.calls t = some (.read n)) (h : piperead killed n s.pipe = .ret v out p) :
      Step s ⟨p, Function.update s.calls t none, s.stored, s.got ++ out⟩
  | close {s : Sys} (writable : Bool) : Step s { s with pipe := pipeclose writable s.pipe }

/-- The states from a fresh pipe, with no call in progress, in any interleaving. -/
inductive Reach : Sys → Prop
  | alloc (data : Fin pipesize → UInt8) : Reach ⟨Pipe.alloc data, fun _ => none, [], []⟩
  | step {s s' : Sys} : Reach s → Step s s' → Reach s'

end Xv6.Pipes
