import Xv6.Pipe.Basic

/-!
# The file table

`file.c`: `ftable.file[NFILE]` holds the open files, each with a reference count `ref`;
`filealloc` takes an entry whose `ref` is 0, `filedup` adds a reference, and `fileclose`
drops one and, with the last, clears the entry and then, outside `ftable.lock`, calls
`pipeclose` or `iput` on a copy of it. The descriptors of process slot `i` are
`proc[i].ofile[NOFILE]`; `fdalloc` puts a file in the first empty one.

`sysOpen`, `sysDup`, `sysClose`, `sysPipe`, `forkFiles` and `exitFiles` are the parts of
`sys_open`, `sys_dup`, `sys_close`, `sys_pipe`, `fork` and `exit` that change the table or
the descriptors, with their failure paths; what fails before them (argument fetches,
`create` and `namei`, `allocproc`, `copyuvm`) returns with nothing changed. Each runs as one
step. A pipe lives in the page `kalloc` gave `pipealloc`, `pages k`; `pipeclose` frees the
page once both ends are closed. Two ghost counters record what `fileclose` released: the
`pipeclose` calls on each end of the pipe in page `k` since its `pipealloc`, and the
`pipeclose` or `iput` calls for each entry since its `filealloc`.
-/

namespace Xv6.Files

open Pipes

/-- `NFILE`. -/
abbrev nfile : Nat := 100

/-- `NOFILE`. -/
abbrev nofile : Nat := 16

/-- The `type` of `struct file`. -/
inductive FdType where
  | none
  | pipe
  | inode
  deriving DecidableEq, Repr

/-- `struct file` without `off`, which none of these calls reads: the pipe is its page and
the inode its number. -/
structure File where
  type : FdType
  ref : Int
  readable : Bool
  writable : Bool
  pipe : Nat
  ip : Nat
  deriving DecidableEq, Repr

/-- A zeroed entry, as the global `ftable` starts. -/
def File.zero : File := ⟨.none, 0, false, false, 0, 0⟩

/-- What `fileclose` does after it has released `ftable.lock`. -/
inductive Release where
  | none
  | pipe (k : Nat) (writable : Bool)
  | iput (ip : Nat)
  deriving DecidableEq, Repr

/-- `filealloc()`: the first entry with `ref == 0` gets `ref = 1`. -/
def filealloc (ft : Fin nfile → File) : Option (Fin nfile) × (Fin nfile → File) :=
  match (List.finRange nfile).find? fun f => (ft f).ref = 0 with
  | some f => (some f, Function.update ft f { ft f with ref := 1 })
  | none => (none, ft)

/-- `filedup(f)`. -/
def filedup (f : Fin nfile) (ft : Fin nfile → File) : Except String (Fin nfile → File) :=
  if (ft f).ref < 1 then .error "filedup"
  else .ok (Function.update ft f { ft f with ref := (ft f).ref + 1 })

/-- `fileclose(f)` up to the release of `ftable.lock`: the entry with one reference less,
and what to release for it. -/
def fileclose (f : Fin nfile) (ft : Fin nfile → File) : Except String (Release × (Fin nfile → File)) :=
  if (ft f).ref < 1 then .error "fileclose"
  else if (ft f).ref - 1 > 0 then .ok (.none, Function.update ft f { ft f with ref := (ft f).ref - 1 })
  else
    -- `ff = *f; f->ref = 0; f->type = FD_NONE;`
    let ff := ft f
    let r : Release := match ff.type with
      | .pipe => .pipe ff.pipe ff.writable
      | .inode => .iput ff.ip
      | .none => .none
    .ok (r, Function.update ft f { ft f with ref := 0, type := .none })

/-- The descriptor tables of all process slots. -/
abbrev Ofile := Fin 64 → Fin nofile → Option (Fin nfile)

/-- `proc[i].ofile[fd] = v`. -/
def setOfile (o : Ofile) (i : Fin 64) (fd : Fin nofile) (v : Option (Fin nfile)) : Ofile :=
  Function.update o i (Function.update (o i) fd v)

/-- `fdalloc(f)` in slot `cur`: the first empty descriptor. -/
def fdalloc (cur : Fin 64) (f : Fin nfile) (o : Ofile) : Option (Fin nofile) × Ofile :=
  match (List.finRange nofile).find? fun fd => o cur fd = none with
  | some fd => (some fd, setOfile o cur fd (some f))
  | none => (none, o)

/-- `argfd`'s check of the descriptor `fd` of slot `cur`. -/
def argfd (cur : Fin 64) (fd : Int) (o : Ofile) : Option (Fin nofile × Fin nfile) :=
  if h : 0 ≤ fd ∧ fd < nofile then
    let d : Fin nofile := ⟨fd.toNat, by omega⟩
    (o cur d).map fun f => (d, f)
  else none

/-- The file table, the descriptors, the pipes in the pages `kalloc` handed to `pipealloc`,
and the ghost counters. -/
structure Sys where
  ft : Fin nfile → File
  ofile : Ofile
  pages : Nat → Option Pipe
  closes : Nat → Bool → Nat
  released : Fin nfile → Nat

/-- Nothing open: zeroed globals and no descriptors. -/
def Sys.boot : Sys := ⟨fun _ => File.zero, fun _ _ => none, fun _ => none, fun _ _ => 0, fun _ => 0⟩

/-- `filealloc`, restarting the entry's ghost count. -/
def Sys.filealloc (s : Sys) : Option (Fin nfile) × Sys :=
  match Files.filealloc s.ft with
  | (some f, ft) => (some f, { s with ft := ft, released := Function.update s.released f 0 })
  | (none, ft) => (none, { s with ft := ft })

/-- `pipeclose(p, writable)` on the pipe in page `k`, with `kfree` of the page once both ends
are closed; the page must not have been freed. -/
def Sys.pipeclose (s : Sys) (k : Nat) (w : Bool) : Except String Sys :=
  match s.pages k with
  | none => .error "pipeclose of a freed page"
  | some p =>
    let p := Pipes.pipeclose w p
    .ok { s with
      pages := Function.update s.pages k (if !p.readopen && !p.writeopen then none else some p)
      closes := Function.update s.closes k (Function.update (s.closes k) w (s.closes k w + 1)) }

/-- Counts one release for entry `f`. -/
def Sys.countRelease (s : Sys) (f : Fin nfile) : Sys :=
  { s with released := Function.update s.released f (s.released f + 1) }

/-- `fileclose(f)`, with the `pipeclose` or `iput` it then makes. -/
def Sys.fileclose (s : Sys) (f : Fin nfile) : Except String Sys := do
  let (r, ft) ← Files.fileclose f s.ft
  let s := { s with ft := ft }
  match r with
  | .none => pure s
  | .pipe k w => do
    let s ← s.pipeclose k w
    pure (s.countRelease f)
  | .iput _ => pure (s.countRelease f)

/-! ## The calls -/

/-- `O_WRONLY`. -/
def oWronly : Int32 := 0x001

/-- `O_RDWR`. -/
def oRdwr : Int32 := 0x002

/-- `sys_open` from its `filealloc`, with the inode `ip` that `create` or `namei` returned
(`none`: it failed, or a directory was opened for writing, and `-1` came first). -/
def sysOpen (cur : Fin 64) (ip : Option Nat) (omode : Int32) (s : Sys) : Except String Sys :=
  match ip with
  | none => pure s
  | some ip =>
    match s.filealloc with
    -- `iunlockput(ip)`
    | (none, s) => pure s
    | (some f, s) =>
      match fdalloc cur f s.ofile with
      | (none, _) => s.fileclose f
      | (some _, o) =>
        let fl := s.ft f
        pure { s with
          ofile := o
          ft := Function.update s.ft f { fl with
            type := .inode, ip := ip, readable := omode &&& oWronly = 0,
            writable := omode &&& oWronly ≠ 0 || omode &&& oRdwr ≠ 0 } }

/-- `sys_dup` after `argint`: `fdalloc(f)`, then `filedup(f)`. -/
def sysDup (cur : Fin 64) (fd : Int) (s : Sys) : Except String Sys :=
  match argfd cur fd s.ofile with
  | none => pure s
  | some (_, f) =>
    match fdalloc cur f s.ofile with
    | (none, _) => pure s
    | (some _, o) => do
      let ft ← filedup f s.ft
      pure { s with ofile := o, ft := ft }

/-- `sys_close` after `argint`. -/
def sysClose (cur : Fin 64) (fd : Int) (s : Sys) : Except String Sys :=
  match argfd cur fd s.ofile with
  | none => pure s
  | some (d, f) => { s with ofile := setOfile s.ofile cur d none }.fileclose f

/-- `f->type = FD_PIPE; f->readable = !w; f->writable = w; f->pipe = p;`: entry `f` becomes
end `w` of the pipe in page `k`. -/
def setPipeEnd (ft : Fin nfile → File) (f : Fin nfile) (w : Bool) (k : Nat) : Fin nfile → File :=
  Function.update ft f { ft f with type := .pipe, readable := !w, writable := w, pipe := k }

/-- `pipealloc(&rf, &wf)` with the page `kalloc` returns (`none`: it failed) holding `data`:
the two entries, or none and whatever it had taken given back. -/
def Sys.pipealloc (page : Option Nat) (data : Fin pipesize → UInt8) (s : Sys) :
    Except String (Option (Fin nfile × Fin nfile) × Sys) :=
  match s.filealloc with
  | (none, s) => pure (none, s)
  | (some rf, s) =>
    match s.filealloc with
    | (none, s) => do
      let s ← s.fileclose rf
      pure (none, s)
    | (some wf, s) =>
      match page with
      | none => do
        let s ← s.fileclose rf
        let s ← s.fileclose wf
        pure (none, s)
      | some k =>
        pure (some (rf, wf), { s with
          ft := setPipeEnd (setPipeEnd s.ft rf false k) wf true k
          pages := Function.update s.pages k (some (Pipe.alloc data))
          closes := Function.update s.closes k fun _ => 0 })

/-- `sys_pipe` after `argptr`. -/
def sysPipe (cur : Fin 64) (page : Option Nat) (data : Fin pipesize → UInt8) (s : Sys) :
    Except String Sys := do
  let (r, s) ← s.pipealloc page data
  match r with
  | none => pure s
  | some (rf, wf) =>
    match fdalloc cur rf s.ofile with
    | (none, _) => do
      let s ← s.fileclose rf
      s.fileclose wf
    | (some fd0, o) =>
      match fdalloc cur wf o with
      | (none, _) => do
        let s ← { s with ofile := setOfile o cur fd0 none }.fileclose rf
        s.fileclose wf
      | (some _, o) => pure { s with ofile := o }

/-- One turn of the loop of `fork`: `if(curproc->ofile[i]) np->ofile[i] =
filedup(curproc->ofile[i]);`. -/
def forkFile (cur child : Fin 64) (s : Sys) (fd : Fin nofile) : Except String Sys :=
  match s.ofile cur fd with
  | none => pure s
  | some f => do
    let ft ← filedup f s.ft
    pure { s with ft := ft, ofile := setOfile s.ofile child fd (some f) }

/-- The loop of `fork` that gives slot `child` a reference to each open file of `cur`. -/
def forkFiles (cur child : Fin 64) (s : Sys) : Except String Sys :=
  (List.finRange nofile).foldlM (forkFile cur child) s

/-- One turn of the loop of `exit`: `fileclose(curproc->ofile[fd]); curproc->ofile[fd] = 0;`
for an open descriptor. -/
def exitFile (cur : Fin 64) (s : Sys) (fd : Fin nofile) : Except String Sys :=
  match s.ofile cur fd with
  | none => pure s
  | some f => do
    let s ← s.fileclose f
    pure { s with ofile := setOfile s.ofile cur fd none }

/-- The loop of `exit` that closes every open file of `cur`. -/
def exitFiles (cur : Fin 64) (s : Sys) : Except String Sys :=
  (List.finRange nofile).foldlM (exitFile cur) s

/-- A call of process slot `cur`. -/
inductive Call where
  | openCall (cur : Fin 64) (ip : Option Nat) (omode : Int32)
  | dup (cur : Fin 64) (fd : Int)
  | close (cur : Fin 64) (fd : Int)
  | pipe (cur : Fin 64) (page : Option Nat) (data : Fin pipesize → UInt8)
  | fork (cur child : Fin 64)
  | exit (cur : Fin 64)

/-- `fork` copies into a slot with no open descriptor, as exit leaves a slot; `kalloc`
returns a page that holds no pipe. -/
def Call.enabled (s : Sys) : Call → Prop
  | .fork cur child => child ≠ cur ∧ ∀ fd, s.ofile child fd = none
  | .pipe _ (some k) _ => s.pages k = none
  | _ => True

def Call.run (s : Sys) : Call → Except String Sys
  | .openCall cur ip omode => sysOpen cur ip omode s
  | .dup cur fd => sysDup cur fd s
  | .close cur fd => sysClose cur fd s
  | .pipe cur page data => sysPipe cur page data s
  | .fork cur child => forkFiles cur child s
  | .exit cur => exitFiles cur s

/-- The states from boot, in any interleaving of the calls. -/
inductive Reach : Sys → Prop
  | boot : Reach Sys.boot
  | step {s s' : Sys} (c : Call) : Reach s → c.enabled s → c.run s = .ok s' → Reach s'

end Xv6.Files
