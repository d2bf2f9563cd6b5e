import Mathlib

/-!
# The process table

`ptable.proc[NPROC]` and `nextpid`, with the system calls that create, end
and signal processes: `allocproc` (through `fork` and `userinit`), `exit`,
`wait` and `kill`. A slot keeps the fields these read and write: `state`,
`pid`, `parent`, `chan` and `killed`; memory, files and the register state
are left out, and a failing `kalloc` or `copyuvm` is a parameter of the call.
`sleep` is only modelled where `wait` sleeps, on its own slot; `chan` is that
slot.

All slots start zeroed (the table is a global), so an `UNUSED` slot holds
`pid = 0` and `killed = 0` until it is used. `allocproc` takes the first
`UNUSED` slot and sets `state` and `pid` only; `wait` zeroes `pid` and
`killed` when it reaps; `fork` gives a slot back as `UNUSED` when `copyuvm`
fails, with the `pid` it was given. `kill` looks at every slot, `UNUSED` ones
included.
-/

namespace Xv6.Process

/-- `enum procstate`. -/
inductive ProcState where
  | unused
  | embryo
  | sleeping
  | runnable
  | running
  | zombie
  deriving DecidableEq, Repr

/-- The fields of `struct proc` that these calls use. -/
structure Proc where
  state : ProcState
  pid : Int32
  parent : Option (Fin 64)
  chan : Option (Fin 64)
  killed : Int32
  deriving DecidableEq, Repr

/-- `ptable`, `nextpid` and `initproc`. -/
structure PTable where
  proc : Fin 64 → Proc
  nextpid : Int32
  initproc : Option (Fin 64)

/-- The table at boot: zeroed slots, `nextpid = 1`. -/
def PTable.boot : PTable := ⟨fun _ => ⟨.unused, 0, none, none, 0⟩, 1, none⟩

/-- Slot `i` overwritten. -/
def PTable.set (t : PTable) (i : Fin 64) (p : Proc) : PTable :=
  { t with proc := Function.update t.proc i p }

/-- `for (p = ptable.proc; p < &ptable.proc[NPROC]; p++) if (f(p)) ...`: the first slot that
passes `f`. -/
def PTable.first (t : PTable) (f : Proc → Bool) : Option (Fin 64) :=
  (List.finRange 64).find? fun i => f (t.proc i)

/-- `allocproc()`: the first `UNUSED` slot becomes `EMBRYO` with the next pid; if `kalloc`
fails for its kernel stack, it is `UNUSED` again. -/
def allocproc (kallocOk : Bool) (t : PTable) : Option (Fin 64) × PTable :=
  match t.first (·.state = .unused) with
  | none => (none, t)
  | some i =>
    let t := { t.set i { t.proc i with state := .embryo, pid := t.nextpid } with
      nextpid := t.nextpid + 1 }
    if kallocOk then (some i, t) else (none, t.set i { t.proc i with state := .unused })

/-- `userinit()`, with memory for the first process; `none` when `allocproc` fails, where the
code goes on with a null pointer. -/
def userinit (t : PTable) : Option PTable :=
  match allocproc true t with
  | (some i, t) => some { t.set i { t.proc i with state := .runnable } with initproc := some i }
  | (none, _) => none

/-- `fork()` from the process in slot `cur`. -/
def fork (cur : Fin 64) (kallocOk copyuvmOk : Bool) (t : PTable) : Int32 × PTable :=
  match allocproc kallocOk t with
  | (none, t) => (-1, t)
  | (some i, t) =>
    if copyuvmOk then
      let t := t.set i { t.proc i with parent := some cur, state := .runnable }
      ((t.proc i).pid, t)
    else (-1, t.set i { t.proc i with state := .unused })

/-- `wakeup1(chan)`. -/
def wakeup1 (chan : Option (Fin 64)) (t : PTable) : PTable :=
  { t with proc := fun j =>
      if (t.proc j).state = .sleeping ∧ (t.proc j).chan = chan then
        { t.proc j with state := .runnable }
      else t.proc j }

/-- One turn of the loop of `exit` that passes the children of `cur` to `initproc`. -/
def reparentOne (cur : Fin 64) (t : PTable) (j : Fin 64) : PTable :=
  if (t.proc j).parent = some cur then
    let t := t.set j { t.proc j with parent := t.initproc }
    if (t.proc j).state = .zombie then wakeup1 t.initproc t else t
  else t

/-- The loop of `exit` that passes the children of `cur` to `initproc`. -/
def reparent (cur : Fin 64) (t : PTable) : PTable :=
  (List.finRange 64).foldl (reparentOne cur) t

/-- `exit()` of the process in slot `cur`, up to its `sched()`. -/
def exit (cur : Fin 64) (t : PTable) : Except String PTable :=
  if t.initproc = some cur then .error "init exiting"
  else
    let t := reparent cur (wakeup1 (t.proc cur).parent t)
    .ok (t.set cur { t.proc cur with state := .zombie })

/-- One pass of `wait`'s loop: it returns, or the caller sleeps until a child exits. -/
inductive WaitStep where
  | ret (v : Int32) (t : PTable)
  | sleep (t : PTable)

/-- `wait()` of the process in slot `cur`: one pass over the table. -/
def wait (cur : Fin 64) (t : PTable) : WaitStep :=
  let kids := (List.finRange 64).filter fun j => (t.proc j).parent = some cur
  match kids.find? fun j => (t.proc j).state = .zombie with
  | some j =>
    .ret (t.proc j).pid
      (t.set j { t.proc j with pid := 0, parent := none, killed := 0, state := .unused })
  | none =>
    if kids = [] ∨ (t.proc cur).killed ≠ 0 then .ret (-1) t
    else .sleep (t.set cur { t.proc cur with chan := some cur, state := .sleeping })

/-- `kill(pid)`: the first slot holding `pid`, whatever its state, is marked killed. -/
def kill (pid : Int32) (t : PTable) : Int32 × PTable :=
  match t.first (·.pid = pid) with
  | some i =>
    let p := t.proc i
    (0, t.set i { p with killed := 1, state := if p.state = .sleeping then .runnable else p.state })
  | none => (-1, t)

/-- `yield()`: the running process gives up the CPU. -/
def yield (cur : Fin 64) (t : PTable) : PTable :=
  t.set cur { t.proc cur with state := .runnable }

/-- One turn of `scheduler()`'s loop that picks slot `i`; `sleep`'s `p->chan = 0`, run when
the process is back on a CPU, is folded in. -/
def schedule (i : Fin 64) (t : PTable) : PTable :=
  t.set i { t.proc i with state := .running, chan := none }

/-- What a CPU can do next at the granularity of `ptable.lock`: the process in slot `cur`
makes a system call, or the scheduler picks slot `i`. -/
inductive Call where
  | fork (cur : Fin 64) (kallocOk copyuvmOk : Bool)
  | exit (cur : Fin 64)
  | wait (cur : Fin 64)
  | kill (cur : Fin 64) (pid : Int32)
  | yield (cur : Fin 64)
  | schedule (i : Fin 64)
  deriving DecidableEq, Repr

/-- The system call's caller, or the slot the scheduler picks. -/
def Call.slot : Call → Fin 64
  | .fork cur _ _ | .exit cur | .wait cur | .kill cur _ | .yield cur | .schedule cur => cur

/-- A call runs from a `RUNNING` process; the scheduler picks a `RUNNABLE` one. -/
def Call.enabled (c : Call) (t : PTable) : Bool :=
  match c with
  | .schedule i => (t.proc i).state = .runnable
  | c => (t.proc c.slot).state = .running

/-- The table after the call, whatever it returns; `none` where it cannot run or panics. -/
def Call.run (c : Call) (t : PTable) : Option PTable :=
  if c.enabled t then
    match c with
    | .fork cur a b => some (Process.fork cur a b t).2
    | .exit cur => (Process.exit cur t).toOption
    | .wait cur => match Process.wait cur t with
      | .ret _ t => some t
      | .sleep t => some t
    | .kill _ pid => some (Process.kill pid t).2
    | .yield cur => some (Process.yield cur t)
    | .schedule i => some (Process.schedule i t)
  else none

/-- The tables the system reaches from `userinit` on the boot table, in any interleaving. -/
inductive Reachable : PTable → Prop
  | init {t : PTable} : userinit PTable.boot = some t → Reachable t
  | step {t t' : PTable} (c : Call) : Reachable t → c.run t = some t' → Reachable t'

@[simp] theorem PTable.set_proc_self (t : PTable) (i : Fin 64) (p : Proc) :
    (t.set i p).proc i = p := by
  simp [PTable.set]

theorem PTable.set_proc_ne (t : PTable) {i j : Fin 64} (p : Proc) (h : j ≠ i) :
    (t.set i p).proc j = t.proc j := by
  simp [PTable.set, h]

theorem PTable.set_proc (t : PTable) (i j : Fin 64) (p : Proc) :
    (t.set i p).proc j = if j = i then p else t.proc j := by
  simp only [PTable.set, Function.update_apply]

@[simp] theorem PTable.set_initproc (t : PTable) (i : Fin 64) (p : Proc) :
    (t.set i p).initproc = t.initproc := rfl

theorem PTable.first_spec {t : PTable} {f : Proc → Bool} {i : Fin 64}
    (h : t.first f = some i) : f (t.proc i) = true := by
  simpa using List.find?_some h

theorem PTable.first_eq_none {t : PTable} {f : Proc → Bool} :
    t.first f = none ↔ ∀ i, f (t.proc i) = false := by
  simp [PTable.first, List.find?_eq_none]

end Xv6.Process
