import Xv6.User.Grep

/-!
# The shell's parser

`sh.c` parses a command line by recursive descent over its bytes, in place. `gettoken` skips
whitespace, reads one token (a symbol of `<|>&;()`, with `>>` read as `'+'`, or a word, `'a'`)
and skips the whitespace after it; `peek` skips whitespace and tests the next byte. `parseline`,
`parsepipe`, `parseexec`, `parseblock` and `parseredirs` build a tree of `execcmd`, `redircmd`,
`pipecmd`, `listcmd` and `backcmd` nodes whose words are pointers to the start and the end of
each word in the line (`argv[i]`, `eargv[i]`; `file`, `efile`). `parsecmd` rejects what is left
after a line, and `nulterminate` then writes a NUL at the end of every word.

A pointer into the line is a position in the byte list, and `es` the position of its NUL. The
recursion of the parse functions and each of their `while` loops is bounded by `fuel`, which
`parsecmd` sets to four calls for every byte of the line; it is never exhausted there
(`parsecmd_correct`). `panic` ends the shell's child: `Stop.panic` with its message. The leftovers
check prints what is left before it panics, and is `Stop.leftovers`.
-/

namespace Xv6.User

/-- The bytes of a C string literal. -/
def bytesOf (lit : String) : List UInt8 := lit.toList.map Char.toUInt8

/-- `whitespace[]`. -/
def whitespace : List UInt8 := bytesOf " \t\r\n\x0b"

/-- `symbols[]`. -/
def symbols : List UInt8 := bytesOf "<|>&;()"

/-- `strlen(s)` of `ulib.c`. -/
def strlen (s : List UInt8) : Nat := (s.takeWhile (· ≠ 0)).length

/-- `strchr(whitespace, c)`, as a test. -/
def isWs (c : UInt8) : Bool := (strchr whitespace c).isSome

/-- `!strchr(whitespace, c) && !strchr(symbols, c)`: a byte that continues a word. -/
def isWordByte (c : UInt8) : Bool := !(strchr whitespace c).isSome && !(strchr symbols c).isSome

/-- `O_RDONLY` of `fcntl.h`. -/
def O_RDONLY : Nat := 0x000

/-- `O_WRONLY` of `fcntl.h`. -/
def O_WRONLY : Nat := 0x001

/-- `O_CREATE` of `fcntl.h`. -/
def O_CREATE : Nat := 0x200

/-- `MAXARGS`. -/
def MAXARGS : Nat := 10

/-- A command tree: `struct execcmd` with its words as positions `(argv[i], eargv[i])`,
`struct redircmd`, `struct pipecmd`, `struct listcmd` and `struct backcmd`. -/
inductive Cmd where
  | exec (argv : List (Nat × Nat))
  | redir (cmd : Cmd) (file efile : Nat) (mode fd : Nat)
  | pipe (left right : Cmd)
  | list (left right : Cmd)
  | back (cmd : Cmd)
  deriving DecidableEq, Repr

/-- How a parse ends the process: `panic(msg)`, the leftovers check (which prints what is left,
then panics with `"syntax"`), or the model's bound on the recursion running out. -/
inductive Stop where
  | panic (msg : String)
  | leftovers (rest : List UInt8)
  | noFuel
  deriving DecidableEq, Repr

/-- `cmd->argv[argc] = q` once the `execcmd` node is wrapped in `redircmd`s: the words go into
the node the wrapping points to. -/
def Cmd.setArgv (argv : List (Nat × Nat)) : Cmd → Cmd
  | .exec _ => .exec argv
  | .redir cmd file efile mode fd => .redir (cmd.setArgv argv) file efile mode fd
  | cmd => cmd

section Parse

variable (s : List UInt8) (es : Nat)

/-- `while(s < es && f(*s)) s++;` from `i`, run as `skip f (es - i) i`. -/
def skip (f : UInt8 → Bool) : Nat → Nat → Nat
  | 0, i => i
  | n + 1, i => if f (s.getD i 0) then skip f n (i + 1) else i

/-- `gettoken(ps, es, q, eq)` with `*ps = i`: the token's code (`0` at the end of the line, the
symbol, `'+'` for `>>`, `'a'` for a word), `*q`, `*eq`, and the new `*ps`. -/
def gettoken (i : Nat) : UInt8 × Nat × Nat × Nat :=
  let q := skip s isWs (es - i) i
  let c := s.getD q 0
  let (ret, eq) :=
    if c = 0 then (0, q)
    else if c ∈ bytesOf "|();&<" then (c, q + 1)
    else if c = '>'.toUInt8 then
      if s.getD (q + 1) 0 = '>'.toUInt8 then ('+'.toUInt8, q + 2) else (c, q + 1)
    else ('a'.toUInt8, skip s isWordByte (es - q) q)
  (ret, q, eq, skip s isWs (es - eq) eq)

/-- `peek(ps, es, toks)` with `*ps = i`: whether the byte after the whitespace is one of `toks`,
and the new `*ps`. -/
def peek (i : Nat) (toks : List UInt8) : Bool × Nat :=
  let j := skip s isWs (es - i) i
  (s.getD j 0 ≠ 0 && (strchr toks (s.getD j 0)).isSome, j)

/-- `parseredirs(cmd, ps, es)` with `*ps = i`: the command wrapped in the redirections read, and
the new `*ps`. -/
def parseredirs : Nat → Cmd → Nat → Except Stop (Cmd × Nat)
  | 0, _, _ => .error .noFuel
  | fuel + 1, cmd, i =>
    let (more, i) := peek s es i (bytesOf "<>")
    if !more then .ok (cmd, i)
    else
      let (tok, _, _, i) := gettoken s es i
      let (t, q, eq, i) := gettoken s es i
      if t ≠ 'a'.toUInt8 then .error (.panic "missing file for redirection")
      else
        let cmd :=
          if tok = '<'.toUInt8 then Cmd.redir cmd q eq O_RDONLY 0
          else if tok = '>'.toUInt8 then Cmd.redir cmd q eq (O_WRONLY ||| O_CREATE) 1
          else if tok = '+'.toUInt8 then Cmd.redir cmd q eq (O_WRONLY ||| O_CREATE) 1
          else cmd
        parseredirs fuel cmd i

/-- The `while(peek(ps, es, "&"))` loop of `parseline`. -/
def parseBacks : Nat → Cmd → Nat → Except Stop (Cmd × Nat)
  | 0, _, _ => .error .noFuel
  | fuel + 1, cmd, i =>
    let (amp, i) := peek s es i (bytesOf "&")
    if amp then parseBacks fuel (.back cmd) (gettoken s es i).2.2.2 else .ok (cmd, i)

/-- The `while(!peek(ps, es, "|)&;"))` loop of `parseexec`, with the wrapped node `ret` and the
words `argv` read so far. -/
def parseArgs : Nat → Cmd → List (Nat × Nat) → Nat → Except Stop (Cmd × List (Nat × Nat) × Nat)
  | 0, _, _, _ => .error .noFuel
  | fuel + 1, ret, argv, i =>
    let (stop, i) := peek s es i (bytesOf "|)&;")
    if stop then .ok (ret, argv, i)
    else
      let (tok, q, eq, i) := gettoken s es i
      if tok = 0 then .ok (ret, argv, i)
      else if tok ≠ 'a'.toUInt8 then .error (.panic "syntax")
      else
        let argv := argv ++ [(q, eq)]
        if argv.length ≥ MAXARGS then .error (.panic "too many args")
        else do
          let (ret, i) ← parseredirs s es fuel ret i
          parseArgs fuel ret argv i

mutual

/-- `parseline(ps, es)` with `*ps = i`. -/
def parseline : Nat → Nat → Except Stop (Cmd × Nat)
  | 0, _ => .error .noFuel
  | fuel + 1, i => do
    let (cmd, i) ← parsepipe fuel i
    let (cmd, i) ← parseBacks s es fuel cmd i
    let (semi, i) := peek s es i (bytesOf ";")
    if semi then
      let (rest, i) ← parseline fuel (gettoken s es i).2.2.2
      pure (.list cmd rest, i)
    else pure (cmd, i)
termination_by structural fuel _ => fuel

/-- `parsepipe(ps, es)` with `*ps = i`. -/
def parsepipe : Nat → Nat → Except Stop (Cmd × Nat)
  | 0, _ => .error .noFuel
  | fuel + 1, i => do
    let (cmd, i) ← parseexec fuel i
    let (bar, i) := peek s es i (bytesOf "|")
    if bar then
      let (rest, i) ← parsepipe fuel (gettoken s es i).2.2.2
      pure (.pipe cmd rest, i)
    else pure (cmd, i)
termination_by structural fuel _ => fuel

/-- `parseblock(ps, es)` with `*ps = i`. -/
def parseblock : Nat → Nat → Except Stop (Cmd × Nat)
  | 0, _ => .error .noFuel
  | fuel + 1, i =>
    let (lp, i) := peek s es i (bytesOf "(")
    if !lp then .error (.panic "parseblock")
    else do
      let (cmd, i) ← parseline fuel (gettoken s es i).2.2.2
      let (rp, i) := peek s es i (bytesOf ")")
      if !rp then .error (.panic "syntax - missing )")
      else parseredirs s es fuel cmd (gettoken s es i).2.2.2
termination_by structural fuel _ => fuel

/-- `parseexec(ps, es)` with `*ps = i`. -/
def parseexec : Nat → Nat → Except Stop (Cmd × Nat)
  | 0, _ => .error .noFuel
  | fuel + 1, i =>
    let (lp, i) := peek s es i (bytesOf "(")
    if lp then parseblock fuel i
    else do
      let (ret, i) ← parseredirs s es fuel (.exec []) i
      let (ret, argv, i) ← parseArgs s es fuel ret [] i
      pure (ret.setArgv argv, i)
termination_by structural fuel _ => fuel

end

end Parse

/-- `nulterminate(cmd)`: the line after a NUL is written at the end of every word. -/
def nulterminate (buf : List UInt8) : Cmd → List UInt8
  | .exec argv => argv.foldl (fun b w => b.set w.2 0) buf
  | .redir cmd _ efile _ _ => (nulterminate buf cmd).set efile 0
  | .pipe left right => nulterminate (nulterminate buf left) right
  | .list left right => nulterminate (nulterminate buf left) right
  | .back cmd => nulterminate buf cmd

/-- `parsecmd(s)`: the command tree and the line after `nulterminate`. -/
def parsecmd (s : List UInt8) : Except Stop (Cmd × List UInt8) := do
  let es := strlen s
  let (cmd, i) ← parseline s es (4 * es + 4) 0
  let (_, i) := peek s es i (bytesOf "")
  if i ≠ es then .error (.leftovers ((s.drop i).takeWhile (· ≠ 0)))
  else pure (cmd, nulterminate s cmd)

example : (parsecmd (bytesOf "ls -l|wc>out")).map Prod.fst =
    .ok (.pipe (.exec [(0, 2), (3, 5)]) (.redir (.exec [(6, 8)]) 9 12 (O_WRONLY ||| O_CREATE) 1)) := by
  decide

end Xv6.User
