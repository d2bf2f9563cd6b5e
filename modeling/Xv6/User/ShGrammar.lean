import Xv6.User.ShLex
import Xv6.Lib.Sat
import Xv6.Lib.CStr

/-!
# The shell's grammar

`Gram nt toks c`: the tokens `toks` derive from the nonterminal `nt` with the command tree `c`,
in the grammar

* `line ::= pipe {'&'} [';' line]`
* `pipe ::= exec ['|' pipe]`
* `exec ::= '(' line ')' redirs | redirs {word redirs}`
* `redirs ::= {('<' | '>' | '>>') word}`

A simple command's words and redirections come in any order (`Items`); its tree is its
`execcmd` node with all its words, wrapped in its redirections, the first innermost, as
`parseexec` builds it. The parse functions are proved against the grammar in both directions:

* `parseline_sat` and its siblings (soundness, with the errors): from a position with tokens
  `ts` and enough fuel, a parse function either panics with one of the messages the claim lists,
  or returns a tree that a prefix of `ts` derives, with every simple command under `MAXARGS`
  words, and stops where the rest of `ts` begins;
* `parse_complete`: a derivation followed by a token that may follow its nonterminal is parsed
  exactly, when its simple commands are under `MAXARGS` words.

`parsecmd_correct` puts them together for a whole line.
-/

namespace Xv6.User

open CLoop

/-! ## The grammar -/

/-- The codes of the redirection operators: `<`, `>`, and `>>` as `'+'`. -/
def redirOps : List UInt8 := bytesOf "<>+"

@[simp] theorem bytesOf_ops : bytesOf "<>+" = [60, 62, 43] := by decide

/-- The `redircmd` node of a redirection: its operator's code and the positions of its file
word. -/
def redirOf (cmd : Cmd) (r : UInt8 × Nat × Nat) : Cmd :=
  if r.1 = '<'.toUInt8 then .redir cmd r.2.1 r.2.2 O_RDONLY 0
  else .redir cmd r.2.1 r.2.2 (O_WRONLY ||| O_CREATE) 1

/-- A command wrapped in redirections, the first innermost. -/
def wrap (rs : List (UInt8 × Nat × Nat)) (cmd : Cmd) : Cmd := rs.foldl redirOf cmd

/-- A command under `n` `backcmd` nodes. -/
def backs (n : Nat) (cmd : Cmd) : Cmd := Cmd.back^[n] cmd

/-- `redirs`: operator and file word, repeated; the redirections in order. -/
inductive Redirs : List Tok → List (UInt8 × Nat × Nat) → Prop
  | nil : Redirs [] []
  | cons {op f : Tok} {ts : List Tok} {rs : List (UInt8 × Nat × Nat)} :
      op.ret ∈ redirOps → f.ret = 'a'.toUInt8 → Redirs ts rs →
      Redirs (op :: f :: ts) ((op.ret, f.q, f.eq) :: rs)

/-- `redirs {word redirs}`: words and redirections in any order; the words, and the
redirections, each in order. -/
inductive Items : List Tok → List (Nat × Nat) → List (UInt8 × Nat × Nat) → Prop
  | nil : Items [] [] []
  | word {w : Tok} {ts : List Tok} {argv : List (Nat × Nat)} {rs : List (UInt8 × Nat × Nat)} :
      w.ret = 'a'.toUInt8 → Items ts argv rs → Items (w :: ts) ((w.q, w.eq) :: argv) rs
  | redir {op f : Tok} {ts : List Tok} {argv : List (Nat × Nat)} {rs : List (UInt8 × Nat × Nat)} :
      op.ret ∈ redirOps → f.ret = 'a'.toUInt8 → Items ts argv rs →
      Items (op :: f :: ts) argv ((op.ret, f.q, f.eq) :: rs)

/-- The nonterminals `line`, `pipe`, `exec`. -/
inductive NT where
  | line
  | pipe
  | exec
  deriving DecidableEq, Repr

/-- The derivations of the grammar, with the command tree of each. -/
inductive Gram : NT → List Tok → Cmd → Prop
  | line {p as : List Tok} {c : Cmd} : Gram .pipe p c → (∀ t ∈ as, t.ret = '&'.toUInt8) →
      Gram .line (p ++ as) (backs as.length c)
  | seq {p as l : List Tok} {t : Tok} {c d : Cmd} : Gram .pipe p c →
      (∀ t ∈ as, t.ret = '&'.toUInt8) → t.ret = ';'.toUInt8 → Gram .line l d →
      Gram .line (p ++ as ++ t :: l) (.list (backs as.length c) d)
  | pipe {e : List Tok} {c : Cmd} : Gram .exec e c → Gram .pipe e c
  | pipeCons {e p : List Tok} {t : Tok} {c d : Cmd} : Gram .exec e c → t.ret = '|'.toUInt8 →
      Gram .pipe p d → Gram .pipe (e ++ t :: p) (.pipe c d)
  | block {lp rp : Tok} {l r : List Tok} {c : Cmd} {rs : List (UInt8 × Nat × Nat)} :
      lp.ret = '('.toUInt8 → Gram .line l c → rp.ret = ')'.toUInt8 → Redirs r rs →
      Gram .exec (lp :: l ++ rp :: r) (wrap rs c)
  | simple {ts : List Tok} {argv : List (Nat × Nat)} {rs : List (UInt8 × Nat × Nat)} :
      Items ts argv rs → Gram .exec ts (wrap rs (.exec argv))

/-- Every simple command has fewer than `MAXARGS` words. -/
def Cmd.argsOk : Cmd → Bool
  | .exec argv => argv.length < MAXARGS
  | .redir cmd _ _ _ _ => cmd.argsOk
  | .pipe left right => left.argsOk && right.argsOk
  | .list left right => left.argsOk && right.argsOk
  | .back cmd => cmd.argsOk

/-- The words of a tree: every `argv` entry and redirection file, as positions. -/
def Cmd.words : Cmd → List (Nat × Nat)
  | .exec argv => argv
  | .redir cmd file efile _ _ => cmd.words ++ [(file, efile)]
  | .pipe left right => left.words ++ right.words
  | .list left right => left.words ++ right.words
  | .back cmd => cmd.words

/-- The messages of the panics a parse of a line can reach: `syntax` (also after the leftovers
are printed), the missing `)`, the missing file of a redirection, and too many arguments. The
`"parseblock"` panic is not among them: `parseexec` calls `parseblock` only before a `(`. -/
def panicTexts : List String :=
  ["syntax", "syntax - missing )", "missing file for redirection", "too many args"]

/-- How a parse may end the process: one of the listed panics, or the leftovers check. -/
def Stop.Listed : Stop → Prop
  | .panic msg => msg ∈ panicTexts
  | .leftovers _ => True
  | .noFuel => False

/-- The tokens `ts` begin with one whose code is in `codes`, or there are none. -/
def Ends (ts : List Tok) (codes : List UInt8) : Prop := ∀ t ∈ ts.head?, t.ret ∈ codes

/-- What may follow each nonterminal: the end, or `)`, `&`, `;` after a pipe and also `|` after
an `exec`. -/
def Follow : NT → List Tok → Prop
  | .line, ts => Ends ts (bytesOf ")")
  | .pipe, ts => Ends ts (bytesOf ")&;")
  | .exec, ts => Ends ts (bytesOf "|)&;")

/-! ## The trees -/

@[simp] theorem wrap_nil (cmd : Cmd) : wrap [] cmd = cmd := rfl

theorem wrap_cons (r : UInt8 × Nat × Nat) (rs : List (UInt8 × Nat × Nat)) (cmd : Cmd) :
    wrap (r :: rs) cmd = wrap rs (redirOf cmd r) := rfl

theorem wrap_append (rs rs' : List (UInt8 × Nat × Nat)) (cmd : Cmd) :
    wrap (rs ++ rs') cmd = wrap rs' (wrap rs cmd) := List.foldl_append

theorem setArgv_redirOf (argv : List (Nat × Nat)) (cmd : Cmd) (r : UInt8 × Nat × Nat) :
    (redirOf cmd r).setArgv argv = redirOf (cmd.setArgv argv) r := by
  unfold redirOf
  split <;> rfl

/-- The words go into the `execcmd` node under the redirections. -/
theorem setArgv_wrap (argv : List (Nat × Nat)) (rs : List (UInt8 × Nat × Nat)) (cmd : Cmd) :
    (wrap rs cmd).setArgv argv = wrap rs (cmd.setArgv argv) := by
  induction rs generalizing cmd with
  | nil => rfl
  | cons r rs ih => rw [wrap_cons, ih, setArgv_redirOf, wrap_cons]

@[simp] theorem argsOk_wrap (rs : List (UInt8 × Nat × Nat)) (cmd : Cmd) :
    (wrap rs cmd).argsOk = cmd.argsOk := by
  induction rs generalizing cmd with
  | nil => rfl
  | cons r rs ih =>
    rw [wrap_cons, ih, redirOf]
    split <;> rfl

@[simp] theorem argsOk_backs (n : Nat) (cmd : Cmd) : (backs n cmd).argsOk = cmd.argsOk := by
  induction n generalizing cmd with
  | zero => rfl
  | succ n ih => rw [backs, Function.iterate_succ_apply, ← backs, ih]; rfl

theorem backs_succ (n : Nat) (cmd : Cmd) : backs (n + 1) cmd = backs n (.back cmd) := by
  rw [backs, Function.iterate_succ_apply]; rfl

theorem Redirs.items {red : List Tok} {rs : List (UInt8 × Nat × Nat)} (h : Redirs red rs) :
    Items red [] rs := by
  induction h with
  | nil => exact .nil
  | cons hop hf _ ih => exact .redir hop hf ih

theorem Items.append {a b : List Tok} {argv argv' : List (Nat × Nat)}
    {rs rs' : List (UInt8 × Nat × Nat)} (ha : Items a argv rs) (hb : Items b argv' rs') :
    Items (a ++ b) (argv ++ argv') (rs ++ rs') := by
  induction ha with
  | nil => exact hb
  | word hw _ ih => exact .word hw ih
  | redir hop hf _ ih => exact .redir hop hf ih

/-! ## Tokens that `peek` finds -/

/-- `peek(ps, es, "<>")` finds exactly the redirection operators. -/
theorem lead_mem_redir_iff (t : Tok) : t.lead ∈ bytesOf "<>" ↔ t.ret ∈ redirOps := by
  unfold Tok.lead
  split
  · rename_i h
    rw [h]
    decide
  · rename_i h
    rw [show redirOps = bytesOf "<>" ++ ['+'.toUInt8] by decide, List.mem_append,
      List.mem_singleton]
    tauto

/-- For the sets without `>`, `peek` finds a token exactly when its code is in the set. -/
theorem lead_mem_iff (t : Tok) {toks : List UInt8} (h : '>'.toUInt8 ∉ toks)
    (h' : '+'.toUInt8 ∉ toks) : t.lead ∈ toks ↔ t.ret ∈ toks := by
  unfold Tok.lead
  split
  · rename_i hp
    rw [hp]
    exact ⟨fun h₁ => absurd h₁ h, fun h₁ => absurd h₁ h'⟩
  · exact Iff.rfl

theorem nextIn_cons (t : Tok) (ts : List Tok) (toks : List UInt8) :
    nextIn (t :: ts) toks = decide (t.lead ∈ toks) := rfl

@[simp] theorem nextIn_nil (toks : List UInt8) : nextIn [] toks = false := rfl

/-- A word is never what `peek` looks for. -/
theorem nextIn_word {w : Tok} (hw : w.ret = 'a'.toUInt8) (ts : List Tok) {toks : List UInt8}
    (h : 'a'.toUInt8 ∉ toks) : nextIn (w :: ts) toks = false := by
  rw [nextIn_cons, Tok.lead, if_neg (by rw [hw]; decide), hw]
  exact decide_eq_false h

theorem ret_mem_of_nextIn {t : Tok} {ts : List Tok} {toks : List UInt8}
    (h : nextIn (t :: ts) toks = true) (h₁ : '>'.toUInt8 ∉ toks) (h₂ : '+'.toUInt8 ∉ toks) :
    t.ret ∈ toks :=
  (lead_mem_iff t h₁ h₂).mp (of_decide_eq_true h)

theorem nextIn_of_ret {t : Tok} (ts : List Tok) {toks : List UInt8} (h : t.ret ∈ toks)
    (h₁ : '>'.toUInt8 ∉ toks) (h₂ : '+'.toUInt8 ∉ toks) : nextIn (t :: ts) toks = true :=
  decide_eq_true ((lead_mem_iff t h₁ h₂).mpr h)

theorem nextIn_of_not_ret {t : Tok} (ts : List Tok) {toks : List UInt8} (h : t.ret ∉ toks)
    (h₁ : '>'.toUInt8 ∉ toks) (h₂ : '+'.toUInt8 ∉ toks) : nextIn (t :: ts) toks = false :=
  decide_eq_false fun h' => h ((lead_mem_iff t h₁ h₂).mp h')

/-- The `redircmd` that `parseredirs`'s `switch` makes for an operator. -/
theorem redirSwitch_eq {tok : UInt8} (h : tok ∈ redirOps) (cmd : Cmd) (q eq : Nat) :
    (if tok = '<'.toUInt8 then Cmd.redir cmd q eq O_RDONLY 0
      else if tok = '>'.toUInt8 then Cmd.redir cmd q eq (O_WRONLY ||| O_CREATE) 1
      else if tok = '+'.toUInt8 then Cmd.redir cmd q eq (O_WRONLY ||| O_CREATE) 1
      else cmd) = redirOf cmd (tok, q, eq) := by
  unfold redirOf
  by_cases h₁ : tok = '<'.toUInt8
  · rw [if_pos h₁, if_pos h₁]
  · by_cases h₂ : tok = '>'.toUInt8
    · rw [if_neg h₁, if_pos h₂, if_neg h₁]
    · have h₃ : tok = '+'.toUInt8 := by
        rw [show redirOps = ['<'.toUInt8, '>'.toUInt8, '+'.toUInt8] by decide] at h
        simp only [List.mem_cons, List.not_mem_nil, or_false] at h
        tauto
      rw [if_neg h₁, if_neg h₂, if_pos h₃, if_neg h₁]

@[simp] theorem Stop.listed_panic (msg : String) : (Stop.panic msg).Listed ↔ msg ∈ panicTexts :=
  Iff.rfl

/-! ## Soundness of the loops -/

section Loops

variable {s : List UInt8} {es : Nat} (hl : IsLen s es)
include hl

/-- `parseredirs` reads redirections as long as the next token is an operator, and panics when
one has no file word. -/
theorem parseredirs_sat {fuel : Nat} {cmd : Cmd} {i : Nat} {ts : List Tok} (h : Tokens s es i ts)
    (hfuel : ts.length < fuel) :
    Sat Stop.Listed (fun r : Cmd × Nat => ∃ red rest rs, ts = red ++ rest ∧
      Tokens s es r.2 rest ∧ Redirs red rs ∧ r.1 = wrap rs cmd) (parseredirs s es fuel cmd i) := by
  induction fuel generalizing cmd i ts with
  | zero => omega
  | succ fuel ih =>
    obtain ⟨hp₁, hp₂⟩ := peek_tokens hl h (bytesOf "<>") (by simp [symbols_eq])
    rw [parseredirs]
    generalize peek s es i (bytesOf "<>") = p at hp₁ hp₂
    obtain ⟨more, j⟩ := p
    dsimp only at hp₁ hp₂ ⊢
    cases more with
    | false => exact ⟨[], ts, [], rfl, hp₂, .nil, rfl⟩
    | true =>
      cases ts with
      | nil => simp at hp₁
      | cons t ts =>
        have hop : t.ret ∈ redirOps :=
          (lead_mem_redir_iff t).mp (of_decide_eq_true ((nextIn_cons t ts _).symm.trans hp₁.symm))
        obtain ⟨j₁, hg₁, h₁⟩ := gettoken_cons hl hp₂
        simp only [Bool.not_true, Bool.false_eq_true, ↓reduceIte, hg₁]
        cases ts with
        | nil =>
          rw [gettoken_nil hl h₁]
          simp only [ne_eq, show (0 : UInt8) ≠ 'a'.toUInt8 by decide, not_false_eq_true,
            ↓reduceIte, sat_error, Stop.listed_panic]
          decide
        | cons f ts =>
          obtain ⟨j₂, hg₂, h₂⟩ := gettoken_cons hl h₁
          rw [hg₂]
          dsimp only
          by_cases hf : f.ret = 'a'.toUInt8
          · rw [if_neg (not_not.mpr hf), redirSwitch_eq hop]
            refine sat_mono (ih h₂ (by simp at hfuel; omega)) ?_
            rintro ⟨d, k⟩ ⟨red, rest, rs, rfl, hk, hred, hd⟩
            exact ⟨t :: f :: red, rest, (t.ret, f.q, f.eq) :: rs, rfl, hk, .cons hop hf hred, hd⟩
          · rw [if_pos hf]
            simp only [sat_error, Stop.listed_panic]
            decide

/-- `parseline`'s loop takes the `&` tokens that come next. -/
theorem parseBacks_sat {fuel : Nat} {cmd : Cmd} {i : Nat} {ts : List Tok} (h : Tokens s es i ts)
    (hfuel : ts.length < fuel) :
    Sat Stop.Listed (fun r : Cmd × Nat => ∃ as rest, ts = as ++ rest ∧
      (∀ t ∈ as, t.ret = '&'.toUInt8) ∧ Tokens s es r.2 rest ∧ r.1 = backs as.length cmd)
      (parseBacks s es fuel cmd i) := by
  induction fuel generalizing cmd i ts with
  | zero => omega
  | succ fuel ih =>
    obtain ⟨hp₁, hp₂⟩ := peek_tokens hl h (bytesOf "&") (by simp [symbols_eq])
    rw [parseBacks]
    generalize peek s es i (bytesOf "&") = p at hp₁ hp₂
    obtain ⟨amp, j⟩ := p
    dsimp only at hp₁ hp₂ ⊢
    cases amp with
    | false => exact ⟨[], ts, rfl, by simp, hp₂, rfl⟩
    | true =>
      cases ts with
      | nil => simp at hp₁
      | cons t ts =>
        have ht : t.ret = '&'.toUInt8 := by
          have := of_decide_eq_true ((nextIn_cons t ts _).symm.trans hp₁.symm)
          rw [lead_mem_iff t (by simp) (by simp)] at this
          simpa using this
        obtain ⟨j₁, hg₁, h₁⟩ := gettoken_cons hl hp₂
        rw [if_pos rfl, hg₁]
        refine sat_mono (ih h₁ (by simp at hfuel; omega)) ?_
        rintro ⟨d, k⟩ ⟨as, rest, rfl, has, hk, hd⟩
        refine ⟨t :: as, rest, rfl, ?_, hk, by rw [hd, List.length_cons, backs_succ]⟩
        rintro u (_ | ⟨_, hu⟩)
        · exact ht
        · exact has u hu

/-- `parseexec`'s loop takes words and redirections up to the end or a token that ends a simple
command, and panics on any other token or at the `MAXARGS`-th word. -/
theorem parseArgs_sat {fuel : Nat} {ret : Cmd} {argv : List (Nat × Nat)} {i : Nat}
    {ts : List Tok} (h : Tokens s es i ts) (hfuel : ts.length < fuel)
    (hargv : argv.length < MAXARGS) :
    Sat Stop.Listed (fun r : Cmd × List (Nat × Nat) × Nat => ∃ toks rest argvN rsN,
      ts = toks ++ rest ∧ Tokens s es r.2.2 rest ∧ Items toks argvN rsN ∧
      r.2.1 = argv ++ argvN ∧ r.1 = wrap rsN ret ∧ r.2.1.length < MAXARGS)
      (parseArgs s es fuel ret argv i) := by
  induction fuel generalizing ret argv i ts with
  | zero => omega
  | succ fuel ih =>
    obtain ⟨hp₁, hp₂⟩ := peek_tokens hl h (bytesOf "|)&;") (by simp [symbols_eq])
    rw [parseArgs]
    generalize peek s es i (bytesOf "|)&;") = p at hp₁ hp₂
    obtain ⟨stop, j⟩ := p
    dsimp only at hp₁ hp₂ ⊢
    have hnone : Sat Stop.Listed (fun r : Cmd × List (Nat × Nat) × Nat => ∃ toks rest argvN rsN,
        ts = toks ++ rest ∧ Tokens s es r.2.2 rest ∧ Items toks argvN rsN ∧
        r.2.1 = argv ++ argvN ∧ r.1 = wrap rsN ret ∧ r.2.1.length < MAXARGS) (.ok (ret, argv, j)) :=
      ⟨[], ts, [], [], rfl, hp₂, .nil, by simp, rfl, hargv⟩
    cases stop with
    | true => exact hnone
    | false =>
      rw [if_neg Bool.false_ne_true]
      cases ts with
      | nil =>
        rw [gettoken_nil hl hp₂]
        exact ⟨[], [], [], [], rfl, .done, .nil, by simp, rfl, hargv⟩
      | cons t ts =>
        obtain ⟨j₁, hg₁, h₁⟩ := gettoken_cons hl hp₂
        rw [hg₁]
        dsimp only
        rw [if_neg (hp₂.ret_ne_zero t List.mem_cons_self)]
        by_cases hw : t.ret = 'a'.toUInt8
        · rw [if_neg (not_not.mpr hw)]
          by_cases hmax : (argv ++ [(t.q, t.eq)]).length ≥ MAXARGS
          · rw [if_pos hmax]
            simp only [sat_error, Stop.listed_panic]
            decide
          · rw [if_neg hmax]
            refine sat_bind (parseredirs_sat hl h₁ (by simp at hfuel; omega)) ?_
            rintro ⟨ret₁, j₂⟩ ⟨red, rest₁, rs₁, rfl, h₂, hred, hret₁⟩
            dsimp only at hret₁ ⊢
            have hlen : rest₁.length < fuel := by simp at hfuel; omega
            refine sat_mono (ih h₂ hlen (by omega)) ?_
            rintro ⟨ret₂, argv₂, k⟩ ⟨toks, rest, argvN, rsN, rfl, hk, hitems, hargv₂, hret₂, hlt⟩
            dsimp only at hk hargv₂ hret₂ hlt ⊢
            refine ⟨t :: (red ++ toks), rest, (t.q, t.eq) :: argvN, rs₁ ++ rsN, by simp, hk,
              .word hw (hred.items.append hitems), by rw [hargv₂]; simp, ?_, hlt⟩
            rw [hret₂, hret₁, wrap_append]
        · rw [if_pos hw]
          simp only [sat_error, Stop.listed_panic]
          decide

end Loops

/-! ## Soundness of the parse functions -/

section Sound

variable (s : List UInt8) (es : Nat)

/-- A parse from the tokens `ts` that returned `r`: a prefix of `ts` derives from `nt` with the
tree `r.1`, whose simple commands are under `MAXARGS` words, and the rest begins at `r.2`. -/
def Parsed (nt : NT) (ts : List Tok) (r : Cmd × Nat) : Prop :=
  ∃ toks rest, ts = toks ++ rest ∧ Tokens s es r.2 rest ∧ Gram nt toks r.1 ∧ r.1.argsOk = true

-- Each parse function at `fuel`, from any position whose tokens leave it four calls a token:
-- `parseline` one call more than `parsepipe`, which has one more than `parseexec`, which has
-- one more than `parseblock`, which starts at a `(`.

/-- `parseline` at `fuel`. -/
def LineSat (fuel : Nat) : Prop :=
  ∀ i ts, Tokens s es i ts → 4 * ts.length + 4 ≤ fuel →
    Sat Stop.Listed (Parsed s es .line ts) (parseline s es fuel i)

/-- `parsepipe` at `fuel`. -/
def PipeSat (fuel : Nat) : Prop :=
  ∀ i ts, Tokens s es i ts → 4 * ts.length + 3 ≤ fuel →
    Sat Stop.Listed (Parsed s es .pipe ts) (parsepipe s es fuel i)

/-- `parseexec` at `fuel`. -/
def ExecSat (fuel : Nat) : Prop :=
  ∀ i ts, Tokens s es i ts → 4 * ts.length + 2 ≤ fuel →
    Sat Stop.Listed (Parsed s es .exec ts) (parseexec s es fuel i)

/-- `parseblock` at `fuel`. -/
def BlockSat (fuel : Nat) : Prop :=
  ∀ i t ts, Tokens s es i (t :: ts) → t.ret = '('.toUInt8 → 4 * ts.length + 5 ≤ fuel →
    Sat Stop.Listed (Parsed s es .exec (t :: ts)) (parseblock s es fuel i)

variable {s es} (hl : IsLen s es)
include hl

theorem lineSat_succ {fuel : Nat} (hpipe : PipeSat s es fuel) (hline : LineSat s es fuel) :
    LineSat s es (fuel + 1) := by
  intro i ts h hfuel
  rw [parseline]
  refine sat_bind (hpipe i ts h (by omega)) ?_
  rintro ⟨c₁, j₁⟩ ⟨p, rest₁, rfl, h₁, hg₁, hok₁⟩
  dsimp only at h₁ hg₁ hok₁ ⊢
  refine sat_bind (parseBacks_sat hl h₁ (by simp at hfuel; omega)) ?_
  rintro ⟨c₂, j₂⟩ ⟨as, rest₂, rfl, has, h₂, hc₂⟩
  dsimp only at h₂ hc₂ ⊢
  obtain ⟨hp₁, hp₂⟩ := peek_tokens hl h₂ (bytesOf ";") (by simp [symbols_eq])
  generalize peek s es j₂ (bytesOf ";") = pk at hp₁ hp₂
  obtain ⟨semi, j₃⟩ := pk
  dsimp only at hp₁ hp₂ ⊢
  cases semi with
  | false =>
    rw [if_neg Bool.false_ne_true]
    refine ⟨p ++ as, rest₂, by simp, hp₂, ?_, ?_⟩
    · rw [hc₂]; exact .line hg₁ has
    · rw [hc₂, argsOk_backs]; exact hok₁
  | true =>
    rw [if_pos rfl]
    cases rest₂ with
    | nil => simp at hp₁
    | cons t rest₃ =>
      have ht : t.ret = ';'.toUInt8 := by
        simpa using ret_mem_of_nextIn hp₁.symm (by simp) (by simp)
      obtain ⟨j₄, hg₄, h₄⟩ := gettoken_cons hl hp₂
      rw [hg₄]
      refine sat_bind (hline j₄ rest₃ h₄ (by simp at hfuel; omega)) ?_
      rintro ⟨d, k⟩ ⟨l, rest, rfl, hk, hgd, hokd⟩
      dsimp only at hk hgd hokd ⊢
      refine ⟨p ++ as ++ t :: l, rest, by simp, hk, ?_, ?_⟩
      · rw [hc₂]; exact .seq hg₁ has ht hgd
      · simp [hc₂, hok₁, hokd, Cmd.argsOk]

theorem pipeSat_succ {fuel : Nat} (hexec : ExecSat s es fuel) (hpipe : PipeSat s es fuel) :
    PipeSat s es (fuel + 1) := by
  intro i ts h hfuel
  rw [parsepipe]
  refine sat_bind (hexec i ts h (by omega)) ?_
  rintro ⟨c₁, j₁⟩ ⟨e, rest₁, rfl, h₁, hg₁, hok₁⟩
  dsimp only at h₁ hg₁ hok₁ ⊢
  obtain ⟨hp₁, hp₂⟩ := peek_tokens hl h₁ (bytesOf "|") (by simp [symbols_eq])
  generalize peek s es j₁ (bytesOf "|") = pk at hp₁ hp₂
  obtain ⟨bar, j₂⟩ := pk
  dsimp only at hp₁ hp₂ ⊢
  cases bar with
  | false =>
    rw [if_neg Bool.false_ne_true]
    exact ⟨e, rest₁, rfl, hp₂, .pipe hg₁, hok₁⟩
  | true =>
    rw [if_pos rfl]
    cases rest₁ with
    | nil => simp at hp₁
    | cons t rest₂ =>
      have ht : t.ret = '|'.toUInt8 := by
        simpa using ret_mem_of_nextIn hp₁.symm (by simp) (by simp)
      obtain ⟨j₃, hg₃, h₃⟩ := gettoken_cons hl hp₂
      rw [hg₃]
      refine sat_bind (hpipe j₃ rest₂ h₃ (by simp at hfuel; omega)) ?_
      rintro ⟨d, k⟩ ⟨p, rest, rfl, hk, hgd, hokd⟩
      dsimp only at hk hgd hokd ⊢
      exact ⟨e ++ t :: p, rest, by simp, hk, .pipeCons hg₁ ht hgd, by simp [hok₁, hokd, Cmd.argsOk]⟩

theorem execSat_succ {fuel : Nat} (hblock : BlockSat s es fuel) : ExecSat s es (fuel + 1) := by
  intro i ts h hfuel
  rw [parseexec]
  obtain ⟨hp₁, hp₂⟩ := peek_tokens hl h (bytesOf "(") (by simp [symbols_eq])
  generalize peek s es i (bytesOf "(") = pk at hp₁ hp₂
  obtain ⟨lp, j⟩ := pk
  dsimp only at hp₁ hp₂ ⊢
  cases lp with
  | true =>
    rw [if_pos rfl]
    cases ts with
    | nil => simp at hp₁
    | cons t ts =>
      have ht : t.ret = '('.toUInt8 := by
        simpa using ret_mem_of_nextIn hp₁.symm (by simp) (by simp)
      exact hblock j t ts hp₂ ht (by simp at hfuel; omega)
  | false =>
    rw [if_neg Bool.false_ne_true]
    refine sat_bind (parseredirs_sat hl hp₂ (by omega)) ?_
    rintro ⟨ret₁, j₁⟩ ⟨red, rest₁, rs₁, rfl, h₁, hred, hret₁⟩
    dsimp only at h₁ hret₁ ⊢
    refine sat_bind (parseArgs_sat hl h₁ (by simp at hfuel; omega) (by decide)) ?_
    rintro ⟨ret₂, argv, k⟩ ⟨toks, rest, argvN, rsN, rfl, hk, hitems, hargv, hret₂, hlt⟩
    dsimp only at hk hargv hret₂ hlt ⊢
    rw [List.nil_append] at hargv
    subst hargv
    have htree : ret₂.setArgv argv = wrap (rs₁ ++ rsN) (.exec argv) := by
      rw [hret₂, hret₁, ← wrap_append, setArgv_wrap]
      rfl
    refine ⟨red ++ toks, rest, by simp, hk, ?_, ?_⟩
    · rw [htree]
      exact .simple (by simpa using hred.items.append hitems)
    · rw [htree, argsOk_wrap]
      simpa [Cmd.argsOk] using hlt

theorem blockSat_succ {fuel : Nat} (hline : LineSat s es fuel) : BlockSat s es (fuel + 1) := by
  intro i t ts h ht hfuel
  rw [parseblock]
  obtain ⟨hp₁, hp₂⟩ := peek_tokens hl h (bytesOf "(") (by simp [symbols_eq])
  have hlp : nextIn (t :: ts) (bytesOf "(") = true := nextIn_of_ret ts (by simp [ht]) (by simp) (by simp)
  generalize peek s es i (bytesOf "(") = pk at hp₁ hp₂
  obtain ⟨lp, j⟩ := pk
  dsimp only at hp₁ hp₂ ⊢
  rw [hp₁, hlp, Bool.not_true, if_neg Bool.false_ne_true]
  obtain ⟨j₁, hg₁, h₁⟩ := gettoken_cons hl hp₂
  rw [hg₁]
  refine sat_bind (hline j₁ ts h₁ (by omega)) ?_
  rintro ⟨c, j₂⟩ ⟨l, rest₁, rfl, h₂, hgl, hokl⟩
  dsimp only at h₂ hgl hokl ⊢
  obtain ⟨hq₁, hq₂⟩ := peek_tokens hl h₂ (bytesOf ")") (by simp [symbols_eq])
  generalize peek s es j₂ (bytesOf ")") = pk at hq₁ hq₂
  obtain ⟨rp, j₃⟩ := pk
  dsimp only at hq₁ hq₂ ⊢
  cases rp with
  | false =>
    rw [Bool.not_false, if_pos rfl]
    simp only [sat_error, Stop.listed_panic]
    decide
  | true =>
    rw [Bool.not_true, if_neg Bool.false_ne_true]
    cases rest₁ with
    | nil => simp at hq₁
    | cons u rest₂ =>
      have hu : u.ret = ')'.toUInt8 := by
        simpa using ret_mem_of_nextIn hq₁.symm (by simp) (by simp)
      obtain ⟨j₄, hg₄, h₄⟩ := gettoken_cons hl hq₂
      rw [hg₄]
      refine sat_mono (parseredirs_sat hl h₄ (by simp at hfuel; omega)) ?_
      rintro ⟨d, k⟩ ⟨red, rest, rs, rfl, hk, hred, hd⟩
      dsimp only at hk hd ⊢
      refine ⟨t :: l ++ u :: red, rest, by simp, hk, ?_, ?_⟩
      · rw [hd]; exact .block ht hgl hu hred
      · rw [hd, argsOk_wrap]; exact hokl

/-- Soundness at every fuel, by induction on it: each function's step uses the others one call
down. -/
theorem parse_sat (fuel : Nat) :
    LineSat s es fuel ∧ PipeSat s es fuel ∧ ExecSat s es fuel ∧ BlockSat s es fuel := by
  induction fuel with
  | zero =>
    refine ⟨fun _ _ _ h => by omega, fun _ _ _ h => by omega, fun _ _ _ h => by omega,
      fun _ _ _ _ _ h => by omega⟩
  | succ fuel ih =>
    obtain ⟨hline, hpipe, hexec, hblock⟩ := ih
    exact ⟨lineSat_succ hl hpipe hline, pipeSat_succ hl hexec hpipe, execSat_succ hl hblock,
      blockSat_succ hl hline⟩

end Sound

/-! ## Completeness -/

theorem Follow.pipe_of_line {ts : List Tok} (h : Follow .line ts) : Follow .pipe ts := by
  intro t ht
  have := h t ht
  simp only [bytesOf_rparen, List.mem_singleton] at this
  simp [this]

theorem Follow.exec_of_pipe {ts : List Tok} (h : Follow .pipe ts) : Follow .exec ts := by
  intro t ht
  have := h t ht
  simp only [bytesOf_pipe_end, List.mem_cons, List.not_mem_nil, or_false] at this
  simp only [bytesOf_exec_end, List.mem_cons, List.not_mem_nil, or_false]
  tauto

/-- Before tokens that begin with a code from `codes`, or at the end, `peek` finds none of a set
`toks` that shares no code with `codes`. -/
theorem Ends.nextIn_eq_false {ts : List Tok} {codes toks : List UInt8} (h : Ends ts codes)
    (hdis : ∀ c ∈ codes, c ∉ toks) (h₁ : '>'.toUInt8 ∉ toks) (h₂ : '+'.toUInt8 ∉ toks) :
    nextIn ts toks = false := by
  cases ts with
  | nil => rfl
  | cons t ts => exact nextIn_of_not_ret ts (hdis _ (h t rfl)) h₁ h₂

/-- Nor is a redirection operator next. -/
theorem Ends.nextIn_redir_eq_false {ts : List Tok} {codes : List UInt8} (h : Ends ts codes)
    (hdis : ∀ c ∈ codes, c ∉ redirOps) : nextIn ts (bytesOf "<>") = false := by
  cases ts with
  | nil => rfl
  | cons t ts => exact decide_eq_false fun h' => hdis _ (h t rfl) ((lead_mem_redir_iff t).mp h')

/-- A pipe may be followed by `&` tokens and then what may follow a pipe. -/
theorem Follow.pipe_amps {as rest : List Tok} (has : ∀ t ∈ as, t.ret = '&'.toUInt8)
    (hf : Follow .pipe rest) : Follow .pipe (as ++ rest) := by
  cases as with
  | nil => exact hf
  | cons t as =>
    intro u hu
    cases hu
    simp [has t List.mem_cons_self]

theorem Follow.of_head {nt : NT} {t : Tok} {ts : List Tok} (h : t.ret ∈ (match nt with
    | .line => bytesOf ")" | .pipe => bytesOf ")&;" | .exec => bytesOf "|)&;")) :
    Follow nt (t :: ts) := by
  cases nt <;> exact fun u hu => by cases hu; exact h

/-- A simple command does not start with `(`, nor does what may follow it. -/
theorem Items.nextIn_lparen {ts rest : List Tok} {argv : List (Nat × Nat)}
    {rs : List (UInt8 × Nat × Nat)} (hit : Items ts argv rs) (hf : Follow .exec rest) :
    nextIn (ts ++ rest) (bytesOf "(") = false := by
  cases hit with
  | nil => exact hf.nextIn_eq_false (by simp) (by simp) (by simp)
  | word hw _ => exact nextIn_word hw _ (by simp)
  | redir hop _ _ =>
    refine nextIn_of_not_ret _ ?_ (by simp) (by simp)
    simp only [redirOps, bytesOf_ops, List.mem_cons, List.not_mem_nil, or_false] at hop
    simp only [bytesOf_lparen, List.mem_singleton]
    rcases hop with h | h | h <;> rw [h] <;> decide

/-- Four calls a token, as the parse functions use them. -/
def fuelFor : NT → Nat → Nat
  | .line, n => 4 * n + 4
  | .pipe, n => 4 * n + 3
  | .exec, n => 4 * n + 2

/-- The parse function of each nonterminal. -/
def parseNT (s : List UInt8) (es : Nat) : NT → Nat → Nat → Except Stop (Cmd × Nat)
  | .line => parseline s es
  | .pipe => parsepipe s es
  | .exec => parseexec s es

section Complete

variable {s : List UInt8} {es : Nat} (hl : IsLen s es)
include hl

/-- `parseredirs` stops before a token that is no redirection operator. -/
theorem parseredirs_stop {i : Nat} {ts : List Tok} (h : Tokens s es i ts)
    (hts : nextIn ts (bytesOf "<>") = false) (fuel : Nat) (cmd : Cmd) :
    ∃ j, parseredirs s es (fuel + 1) cmd i = .ok (cmd, j) ∧ Tokens s es j ts := by
  obtain ⟨hp₁, hp₂⟩ := peek_tokens hl h (bytesOf "<>") (by simp [symbols_eq])
  rw [parseredirs]
  generalize peek s es i (bytesOf "<>") = pk at hp₁ hp₂
  obtain ⟨more, j⟩ := pk
  dsimp only at hp₁ hp₂ ⊢
  rw [hp₁, hts]
  exact ⟨j, rfl, hp₂⟩

/-- `parseredirs` reads one redirection and goes on after its file word. -/
theorem parseredirs_redir {i : Nat} {op f : Tok} {ts : List Tok} (h : Tokens s es i (op :: f :: ts))
    (hop : op.ret ∈ redirOps) (hf : f.ret = 'a'.toUInt8) (fuel : Nat) (cmd : Cmd) :
    ∃ j, parseredirs s es (fuel + 1) cmd i =
      parseredirs s es fuel (redirOf cmd (op.ret, f.q, f.eq)) j ∧ Tokens s es j ts := by
  obtain ⟨hp₁, hp₂⟩ := peek_tokens hl h (bytesOf "<>") (by simp [symbols_eq])
  rw [parseredirs]
  generalize peek s es i (bytesOf "<>") = pk at hp₁ hp₂
  obtain ⟨more, j⟩ := pk
  dsimp only at hp₁ hp₂ ⊢
  rw [hp₁, nextIn_cons, decide_eq_true ((lead_mem_redir_iff op).mpr hop), Bool.not_true,
    if_neg Bool.false_ne_true]
  obtain ⟨j₁, hg₁, h₁⟩ := gettoken_cons hl hp₂
  obtain ⟨j₂, hg₂, h₂⟩ := gettoken_cons hl h₁
  rw [hg₁]
  dsimp only
  rw [hg₂]
  dsimp only
  rw [if_neg (not_not.mpr hf), redirSwitch_eq hop]
  exact ⟨j₂, rfl, h₂⟩

theorem parseredirs_complete {red rest : List Tok} {rs : List (UInt8 × Nat × Nat)}
    (hred : Redirs red rs) (fuel : Nat) (cmd : Cmd) {i : Nat} (h : Tokens s es i (red ++ rest))
    (hrest : nextIn rest (bytesOf "<>") = false) (hfuel : red.length < fuel) :
    ∃ j, parseredirs s es fuel cmd i = .ok (wrap rs cmd, j) ∧ Tokens s es j rest := by
  induction hred generalizing fuel cmd i with
  | nil =>
    obtain ⟨f, rfl⟩ : ∃ f, fuel = f + 1 := ⟨fuel - 1, by omega⟩
    exact parseredirs_stop hl h hrest f cmd
  | @cons op f ts rs hop hf _ ih =>
    obtain ⟨g, rfl⟩ : ∃ g, fuel = g + 1 := ⟨fuel - 1, by omega⟩
    obtain ⟨j, hj, h'⟩ := parseredirs_redir hl h hop hf g cmd
    rw [hj, wrap_cons]
    exact ih _ _ h' (by simp at hfuel; omega)

theorem parseBacks_complete {as rest : List Tok} (has : ∀ t ∈ as, t.ret = '&'.toUInt8)
    (fuel : Nat) (cmd : Cmd) {i : Nat} (h : Tokens s es i (as ++ rest))
    (hrest : nextIn rest (bytesOf "&") = false) (hfuel : as.length < fuel) :
    ∃ j, parseBacks s es fuel cmd i = .ok (backs as.length cmd, j) ∧ Tokens s es j rest := by
  induction as generalizing fuel cmd i with
  | nil =>
    obtain ⟨f, rfl⟩ : ∃ f, fuel = f + 1 := ⟨fuel - 1, by omega⟩
    obtain ⟨hp₁, hp₂⟩ := peek_tokens hl h (bytesOf "&") (by simp [symbols_eq])
    rw [parseBacks]
    generalize peek s es i (bytesOf "&") = pk at hp₁ hp₂
    obtain ⟨amp, j⟩ := pk
    dsimp only at hp₁ hp₂ ⊢
    rw [hp₁, List.nil_append, hrest]
    exact ⟨j, rfl, hp₂⟩
  | cons t as ih =>
    obtain ⟨f, rfl⟩ : ∃ f, fuel = f + 1 := ⟨fuel - 1, by omega⟩
    obtain ⟨hp₁, hp₂⟩ := peek_tokens hl h (bytesOf "&") (by simp [symbols_eq])
    rw [parseBacks]
    generalize peek s es i (bytesOf "&") = pk at hp₁ hp₂
    obtain ⟨amp, j⟩ := pk
    dsimp only at hp₁ hp₂ ⊢
    rw [hp₁, List.cons_append, nextIn_of_ret _ (by simp [has t List.mem_cons_self]) (by simp) (by simp),
      if_pos rfl]
    obtain ⟨j₁, hg₁, h₁⟩ := gettoken_cons hl hp₂
    rw [hg₁, List.length_cons, backs_succ]
    exact ih (fun u hu => has u (List.mem_cons_of_mem t hu)) _ _ h₁ (by simp at hfuel; omega)

/-- `parseexec`'s loop stops at the end or before a token that ends a simple command. -/
theorem parseArgs_stop {i : Nat} {ts : List Tok} (h : Tokens s es i ts) (hts : Follow .exec ts)
    (fuel : Nat) (ret : Cmd) (argv : List (Nat × Nat)) :
    ∃ j, parseArgs s es (fuel + 1) ret argv i = .ok (ret, argv, j) ∧ Tokens s es j ts := by
  obtain ⟨hp₁, hp₂⟩ := peek_tokens hl h (bytesOf "|)&;") (by simp [symbols_eq])
  rw [parseArgs]
  generalize peek s es i (bytesOf "|)&;") = pk at hp₁ hp₂
  obtain ⟨stop, j⟩ := pk
  dsimp only at hp₁ hp₂ ⊢
  cases ts with
  | nil =>
    rw [hp₁, nextIn_nil, if_neg Bool.false_ne_true, gettoken_nil hl hp₂]
    exact ⟨es, rfl, .done⟩
  | cons t ts =>
    rw [hp₁, nextIn_of_ret _ (hts t rfl) (by simp) (by simp), if_pos rfl]
    exact ⟨j, rfl, hp₂⟩

/-- The redirections and words of a simple command, followed by a token that ends it: the
first `parseredirs` of `parseexec` and its loop read them all, the words into `argv` and the
redirections around `ret`. -/
theorem parseArgs_complete {toks rest : List Tok} {argvN : List (Nat × Nat)}
    {rsN : List (UInt8 × Nat × Nat)} (hit : Items toks argvN rsN) (f₁ f₂ : Nat) (ret : Cmd)
    (argv : List (Nat × Nat)) {i : Nat} (h : Tokens s es i (toks ++ rest)) (hrest : Follow .exec rest)
    (hargv : (argv ++ argvN).length < MAXARGS) (hf₁ : toks.length < f₁) (hf₂ : toks.length < f₂) :
    ∃ r j, parseredirs s es f₁ ret i = .ok r ∧
      parseArgs s es f₂ r.1 argv r.2 = .ok (wrap rsN ret, argv ++ argvN, j) ∧
      Tokens s es j rest := by
  induction hit generalizing f₁ f₂ ret argv i with
  | nil =>
    obtain ⟨g₁, rfl⟩ : ∃ g, f₁ = g + 1 := ⟨f₁ - 1, by omega⟩
    obtain ⟨g₂, rfl⟩ : ∃ g, f₂ = g + 1 := ⟨f₂ - 1, by omega⟩
    obtain ⟨j₁, hr, h₁⟩ := parseredirs_stop hl h
      (hrest.nextIn_redir_eq_false (by simp [redirOps])) g₁ ret
    obtain ⟨j₂, ha, h₂⟩ := parseArgs_stop hl h₁ hrest g₂ ret argv
    exact ⟨_, j₂, hr, by simpa using ha, h₂⟩
  | @word w ts argvN rsN hw _ ih =>
    obtain ⟨g₁, rfl⟩ : ∃ g, f₁ = g + 1 := ⟨f₁ - 1, by omega⟩
    obtain ⟨g₂, rfl⟩ : ∃ g, f₂ = g + 1 := ⟨f₂ - 1, by omega⟩
    obtain ⟨j₁, hr, h₁⟩ := parseredirs_stop hl h (nextIn_word hw _ (by simp)) g₁ ret
    obtain ⟨hp₁, hp₂⟩ := peek_tokens hl h₁ (bytesOf "|)&;") (by simp [symbols_eq])
    obtain ⟨j₂, hg₂, h₂⟩ := gettoken_cons hl hp₂
    obtain ⟨⟨ret', j₃⟩, j, hr', ha, h'⟩ := ih g₂ g₂ ret
      (argv ++ [(w.q, w.eq)]) h₂ (by simpa using hargv) (by simp at hf₂; omega)
      (by simp at hf₂; omega)
    refine ⟨(ret, j₁), j, hr, ?_, h'⟩
    have hmax : ¬(argv ++ [(w.q, w.eq)]).length ≥ MAXARGS := by
      simp only [List.length_append, List.length_cons, List.length_nil] at hargv ⊢
      omega
    dsimp only
    rw [parseArgs]
    generalize peek s es j₁ (bytesOf "|)&;") = pk at hp₁ hp₂ hg₂
    obtain ⟨stop, j₀⟩ := pk
    dsimp only at hp₁ hp₂ hg₂ ⊢
    rw [hp₁, List.cons_append, nextIn_word hw _ (by simp), if_neg Bool.false_ne_true, hg₂]
    dsimp only
    rw [if_neg (hp₂.ret_ne_zero w List.mem_cons_self), if_neg (not_not.mpr hw), if_neg hmax, hr',
      ok_bind]
    dsimp only at ha ⊢
    rw [ha, List.append_assoc, List.singleton_append]
  | @redir op f ts argvN rsN hop hf _ ih =>
    obtain ⟨g₁, rfl⟩ : ∃ g, f₁ = g + 1 := ⟨f₁ - 1, by omega⟩
    obtain ⟨j, hj, h'⟩ := parseredirs_redir hl h hop hf g₁ ret
    rw [hj, wrap_cons]
    exact ih _ _ _ _ h' hargv (by simp at hf₁; omega) (by simp at hf₂; omega)

/-- **Completeness.** A derivation whose simple commands are under `MAXARGS` words, followed by a
token that may follow its nonterminal, is parsed exactly: its own parse function returns its
tree and stops where the rest begins. By induction on the derivation. -/
theorem parse_complete {nt : NT} {toks : List Tok} {c : Cmd} (hg : Gram nt toks c)
    (hok : c.argsOk = true) (fuel : Nat) {i : Nat} {rest : List Tok} (h : Tokens s es i (toks ++ rest))
    (hf : Follow nt rest) (hfuel : fuelFor nt (toks ++ rest).length ≤ fuel) :
    ∃ j, parseNT s es nt fuel i = .ok (c, j) ∧ Tokens s es j rest := by
  induction hg generalizing fuel i rest with
  | @line p as c hp has ih =>
    obtain ⟨f, rfl⟩ : ∃ f, fuel = f + 1 := ⟨fuel - 1, by simp [fuelFor] at hfuel; omega⟩
    rw [List.append_assoc] at h
    obtain ⟨j₁, hp₁, h₁⟩ := ih (by simpa using hok) f h (hf.pipe_of_line.pipe_amps has)
      (by simp [fuelFor] at hfuel ⊢; omega)
    obtain ⟨j₂, hb, h₂⟩ := parseBacks_complete hl has f c h₁
      (hf.nextIn_eq_false (by simp) (by simp) (by simp)) (by simp [fuelFor] at hfuel; omega)
    obtain ⟨hq₁, hq₂⟩ := peek_tokens hl h₂ (bytesOf ";") (by simp [symbols_eq])
    show ∃ j, parseline s es (f + 1) i = _ ∧ _
    rw [parseline, show parsepipe s es f i = _ from hp₁, ok_bind]
    dsimp only
    rw [hb, ok_bind]
    dsimp only
    generalize peek s es j₂ (bytesOf ";") = pk at hq₁ hq₂
    obtain ⟨semi, j₃⟩ := pk
    dsimp only at hq₁ hq₂ ⊢
    rw [hq₁, hf.nextIn_eq_false (by simp) (by simp) (by simp), if_neg Bool.false_ne_true]
    exact ⟨j₃, rfl, hq₂⟩
  | @seq p as l t c d hp has ht hgl ihp ihl =>
    obtain ⟨f, rfl⟩ : ∃ f, fuel = f + 1 := ⟨fuel - 1, by simp [fuelFor] at hfuel; omega⟩
    simp only [Cmd.argsOk, argsOk_backs, Bool.and_eq_true] at hok
    simp only [List.cons_append, List.append_assoc] at h
    obtain ⟨j₁, hp₁, h₁⟩ := ihp hok.1 f h
      (Follow.pipe_amps has (Follow.of_head (by simp [ht]))) (by simp [fuelFor] at hfuel ⊢; omega)
    obtain ⟨j₂, hb, h₂⟩ := parseBacks_complete hl has f c h₁
      (nextIn_of_not_ret _ (by simp [ht]) (by simp) (by simp)) (by simp [fuelFor] at hfuel; omega)
    obtain ⟨hq₁, hq₂⟩ := peek_tokens hl h₂ (bytesOf ";") (by simp [symbols_eq])
    obtain ⟨j₄, hg₄, h₄⟩ := gettoken_cons hl hq₂
    obtain ⟨j₅, hl₅, h₅⟩ := ihl hok.2 f h₄ hf (by simp [fuelFor] at hfuel ⊢; omega)
    show ∃ j, parseline s es (f + 1) i = _ ∧ _
    rw [parseline, show parsepipe s es f i = _ from hp₁, ok_bind]
    dsimp only
    rw [hb, ok_bind]
    dsimp only
    generalize peek s es j₂ (bytesOf ";") = pk at hq₁ hq₂ hg₄
    obtain ⟨semi, j₃⟩ := pk
    dsimp only at hq₁ hq₂ hg₄ ⊢
    rw [hq₁, nextIn_of_ret _ (by simp [ht]) (by simp) (by simp), if_pos rfl, hg₄]
    dsimp only
    rw [show parseline s es f j₄ = _ from hl₅, ok_bind]
    exact ⟨j₅, rfl, h₅⟩
  | @pipe e c he ih =>
    obtain ⟨f, rfl⟩ : ∃ f, fuel = f + 1 := ⟨fuel - 1, by simp [fuelFor] at hfuel; omega⟩
    obtain ⟨j₁, he₁, h₁⟩ := ih hok f h hf.exec_of_pipe
      (by simp [fuelFor] at hfuel ⊢; omega)
    obtain ⟨hq₁, hq₂⟩ := peek_tokens hl h₁ (bytesOf "|") (by simp [symbols_eq])
    show ∃ j, parsepipe s es (f + 1) i = _ ∧ _
    rw [parsepipe, show parseexec s es f i = _ from he₁, ok_bind]
    dsimp only
    generalize peek s es j₁ (bytesOf "|") = pk at hq₁ hq₂
    obtain ⟨bar, j₂⟩ := pk
    dsimp only at hq₁ hq₂ ⊢
    rw [hq₁, hf.nextIn_eq_false (by simp) (by simp) (by simp), if_neg Bool.false_ne_true]
    exact ⟨j₂, rfl, hq₂⟩
  | @pipeCons e p t c d he ht hp ihe ihp =>
    obtain ⟨f, rfl⟩ : ∃ f, fuel = f + 1 := ⟨fuel - 1, by simp [fuelFor] at hfuel; omega⟩
    simp only [Cmd.argsOk, Bool.and_eq_true] at hok
    simp only [List.cons_append, List.append_assoc] at h
    obtain ⟨j₁, he₁, h₁⟩ := ihe hok.1 f h (Follow.of_head (by simp [ht]))
      (by simp [fuelFor] at hfuel ⊢; omega)
    obtain ⟨hq₁, hq₂⟩ := peek_tokens hl h₁ (bytesOf "|") (by simp [symbols_eq])
    obtain ⟨j₃, hg₃, h₃⟩ := gettoken_cons hl hq₂
    obtain ⟨j₄, hp₄, h₄⟩ := ihp hok.2 f h₃ hf (by simp [fuelFor] at hfuel ⊢; omega)
    show ∃ j, parsepipe s es (f + 1) i = _ ∧ _
    rw [parsepipe, show parseexec s es f i = _ from he₁, ok_bind]
    dsimp only
    generalize peek s es j₁ (bytesOf "|") = pk at hq₁ hq₂ hg₃
    obtain ⟨bar, j₂⟩ := pk
    dsimp only at hq₁ hq₂ hg₃ ⊢
    rw [hq₁, nextIn_of_ret _ (by simp [ht]) (by simp) (by simp), if_pos rfl, hg₃]
    dsimp only
    rw [show parsepipe s es f j₃ = _ from hp₄, ok_bind]
    exact ⟨j₄, rfl, h₄⟩
  | @block lp rp l r c rs hlp hgl hrp hred ih =>
    obtain ⟨f, rfl⟩ : ∃ f, fuel = f + 2 := ⟨fuel - 2, by simp [fuelFor] at hfuel; omega⟩
    rw [argsOk_wrap] at hok
    simp only [List.cons_append, List.append_assoc] at h
    obtain ⟨hq₁, hq₂⟩ := peek_tokens hl h (bytesOf "(") (by simp [symbols_eq])
    obtain ⟨j₁, hg₁, h₁⟩ := gettoken_cons hl hq₂
    obtain ⟨j₂, hl₂, h₂⟩ := ih hok f h₁ (Follow.of_head (by simp [hrp]))
      (by simp [fuelFor] at hfuel ⊢; omega)
    obtain ⟨hr₁, hr₂⟩ := peek_tokens hl h₂ (bytesOf ")") (by simp [symbols_eq])
    obtain ⟨j₃, hg₃, h₃⟩ := gettoken_cons hl hr₂
    obtain ⟨j₄, hd₄, h₄⟩ := parseredirs_complete hl hred f c h₃
      (hf.nextIn_redir_eq_false (by simp [redirOps])) (by simp [fuelFor] at hfuel; omega)
    have hlp' : nextIn (lp :: (l ++ rp :: (r ++ rest))) (bytesOf "(") = true :=
      nextIn_of_ret _ (by simp [hlp]) (by simp) (by simp)
    have hpk : peek s es i (bytesOf "(") = (true, (peek s es i (bytesOf "(")).2) :=
      Prod.ext (hq₁.trans hlp') rfl
    show ∃ j, parseexec s es (f + 2) i = _ ∧ _
    -- `parseexec` peeks at the `(` and `parseblock` peeks at it again, from the same place
    rw [parseexec, hpk]
    dsimp only
    rw [if_pos rfl, parseblock, peek_peek, hpk]
    dsimp only
    rw [Bool.not_true, if_neg Bool.false_ne_true, hg₁]
    dsimp only
    rw [show parseline s es f j₁ = _ from hl₂, ok_bind]
    dsimp only
    generalize peek s es j₂ (bytesOf ")") = pk at hr₁ hr₂ hg₃
    obtain ⟨rp₁, j₂'⟩ := pk
    dsimp only at hr₁ hr₂ hg₃ ⊢
    rw [hr₁, nextIn_of_ret _ (by simp [hrp]) (by simp) (by simp), Bool.not_true,
      if_neg Bool.false_ne_true, hg₃]
    dsimp only
    exact ⟨j₄, hd₄, h₄⟩
  | @simple ts argv rs hit =>
    obtain ⟨f, rfl⟩ : ∃ f, fuel = f + 1 := ⟨fuel - 1, by simp [fuelFor] at hfuel; omega⟩
    rw [argsOk_wrap] at hok
    obtain ⟨hq₁, hq₂⟩ := peek_tokens hl h (bytesOf "(") (by simp [symbols_eq])
    obtain ⟨⟨r₁, j₁⟩, j, hr, ha, h'⟩ := parseArgs_complete hl hit f f
      (.exec []) [] hq₂ hf (by simpa [Cmd.argsOk] using hok)
      (by simp [fuelFor] at hfuel; omega) (by simp [fuelFor] at hfuel; omega)
    show ∃ j, parseexec s es (f + 1) i = _ ∧ _
    rw [parseexec]
    generalize peek s es i (bytesOf "(") = pk at hq₁ hq₂ hr
    obtain ⟨lp, i₁⟩ := pk
    dsimp only at hq₁ hq₂ hr ⊢
    rw [hq₁, hit.nextIn_lparen hf, if_neg Bool.false_ne_true, hr, ok_bind]
    dsimp only at ha ⊢
    rw [ha, ok_bind, List.nil_append, setArgv_wrap]
    exact ⟨j, rfl, h'⟩

end Complete

/-! ## The words of a tree and `nulterminate` -/

/-- `w` is the span of a word token of `toks`. -/
def WordOf (toks : List Tok) (w : Nat × Nat) : Prop :=
  ∃ t ∈ toks, t.ret = 'a'.toUInt8 ∧ w = (t.q, t.eq)

theorem WordOf.mono {a b : List Tok} {w : Nat × Nat} (h : WordOf a w) (hab : ∀ t ∈ a, t ∈ b) :
    WordOf b w := by
  obtain ⟨t, ht, hw, rfl⟩ := h
  exact ⟨t, hab t ht, hw, rfl⟩

theorem words_redirOf (cmd : Cmd) (r : UInt8 × Nat × Nat) :
    (redirOf cmd r).words = cmd.words ++ [(r.2.1, r.2.2)] := by
  unfold redirOf
  split <;> rfl

theorem words_wrap (rs : List (UInt8 × Nat × Nat)) (cmd : Cmd) :
    (wrap rs cmd).words = cmd.words ++ rs.map (fun r => (r.2.1, r.2.2)) := by
  induction rs generalizing cmd with
  | nil => simp
  | cons r rs ih => simp [wrap_cons, ih, words_redirOf]

@[simp] theorem words_backs (n : Nat) (cmd : Cmd) : (backs n cmd).words = cmd.words := by
  induction n generalizing cmd with
  | zero => rfl
  | succ n ih => rw [backs_succ, ih]; rfl

theorem Redirs.words {r : List Tok} {rs : List (UInt8 × Nat × Nat)} (h : Redirs r rs) :
    ∀ x ∈ rs, WordOf r (x.2.1, x.2.2) := by
  induction h with
  | nil => simp
  | @cons op f ts rs _ hf _ ih =>
    rintro x (_ | ⟨_, hx⟩)
    · exact ⟨f, by simp, hf, rfl⟩
    · exact (ih x hx).mono (by simp +contextual)

theorem Items.words {ts : List Tok} {argv : List (Nat × Nat)} {rs : List (UInt8 × Nat × Nat)}
    (h : Items ts argv rs) : (∀ w ∈ argv, WordOf ts w) ∧ ∀ x ∈ rs, WordOf ts (x.2.1, x.2.2) := by
  induction h with
  | nil => simp
  | @word w ts argv rs hw _ ih =>
    refine ⟨?_, fun x hx => (ih.2 x hx).mono (by simp +contextual)⟩
    rintro v (_ | ⟨_, hv⟩)
    · exact ⟨w, by simp, hw, rfl⟩
    · exact (ih.1 v hv).mono (by simp +contextual)
  | @redir op f ts argv rs _ hf _ ih =>
    refine ⟨fun v hv => (ih.1 v hv).mono (by simp +contextual), ?_⟩
    rintro x (_ | ⟨_, hx⟩)
    · exact ⟨f, by simp, hf, rfl⟩
    · exact (ih.2 x hx).mono (by simp +contextual)

/-- Every word of a derivation's tree is one of its word tokens. -/
theorem Gram.words {nt : NT} {toks : List Tok} {c : Cmd} (h : Gram nt toks c) :
    ∀ w ∈ c.words, WordOf toks w := by
  induction h with
  | line _ _ ih => simpa using fun w hw => (ih w hw).mono (by simp +contextual)
  | seq _ _ _ _ ihp ihl =>
    intro w hw
    simp only [Cmd.words, words_backs, List.mem_append] at hw
    rcases hw with hw | hw
    · exact (ihp w hw).mono (by simp +contextual)
    · exact (ihl w hw).mono (by simp +contextual)
  | pipe _ ih => exact ih
  | pipeCons _ _ _ ihe ihp =>
    intro w hw
    simp only [Cmd.words, List.mem_append] at hw
    rcases hw with hw | hw
    · exact (ihe w hw).mono (by simp +contextual)
    · exact (ihp w hw).mono (by simp +contextual)
  | block _ _ _ hred ih =>
    intro w hw
    simp only [words_wrap, List.mem_append, List.mem_map] at hw
    rcases hw with hw | ⟨x, hx, rfl⟩
    · exact (ih w hw).mono (by simp +contextual)
    · exact (hred.words x hx).mono (by simp +contextual)
  | simple hit =>
    intro w hw
    simp only [words_wrap, Cmd.words, List.mem_append, List.mem_map] at hw
    rcases hw with hw | ⟨x, hx, rfl⟩
    · exact hit.words.1 w hw
    · exact hit.words.2 x hx

theorem getD_set_zero (b : List UInt8) (i k : Nat) :
    (b.set i 0).getD k 0 = if k = i then 0 else b.getD k 0 := by
  rw [List.getD_eq_getElem?_getD, List.getElem?_set]
  by_cases h : i = k
  · subst h
    simp only [if_true]
    split <;> rfl
  · rw [if_neg h, if_neg (Ne.symm h), List.getD_eq_getElem?_getD]

/-- `nulterminate` writes a NUL at the end of every word of the tree and nowhere else. -/
theorem getD_nulterminate (b : List UInt8) (c : Cmd) (k : Nat) :
    (nulterminate b c).getD k 0 = if k ∈ c.words.map Prod.snd then 0 else b.getD k 0 := by
  induction c generalizing b with
  | exec argv =>
    simp only [nulterminate, Cmd.words]
    induction argv generalizing b with
    | nil => simp
    | cons w argv ih =>
      rw [List.foldl_cons, ih, getD_set_zero]
      by_cases hk : k = w.2
      · simp only [hk, if_true, ite_self, List.map_cons, List.mem_cons, true_or]
      · simp only [hk, if_false, List.map_cons, List.mem_cons, false_or]
  | redir cmd file efile mode fd ih =>
    simp only [nulterminate, Cmd.words, getD_set_zero, ih, List.map_append, List.mem_append]
    by_cases hk : k = efile
    · simp only [hk, if_true, List.map_cons, List.map_nil, List.mem_singleton, or_true]
    · simp only [hk, if_false, List.map_cons, List.map_nil, List.mem_singleton, or_false]
  | pipe left right ihl ihr =>
    simp only [nulterminate, Cmd.words, ihr, ihl, List.map_append, List.mem_append]
    by_cases hl : k ∈ left.words.map Prod.snd
    · simp only [hl, if_true, true_or, ite_self]
    · simp only [hl, if_false, false_or]
  | list left right ihl ihr =>
    simp only [nulterminate, Cmd.words, ihr, ihl, List.map_append, List.mem_append]
    by_cases hl : k ∈ left.words.map Prod.snd
    · simp only [hl, if_true, true_or, ite_self]
    · simp only [hl, if_false, false_or]
  | back cmd ih => exact ih b

section Words

variable {s : List UInt8} {es : Nat}

/-- No byte inside a word of the line is the end of a word: the byte at a word's end, if it is
before `es`, is whitespace or a symbol. -/
theorem Tokens.not_end_of_word {i : Nat} {ts : List Tok} (h : Tokens s es i ts) {t t' : Tok}
    (ht : t ∈ ts) (hw : t.ret = 'a'.toUInt8) (ht' : t' ∈ ts) (hw' : t'.ret = 'a'.toUInt8) {k : Nat}
    (hk₁ : t.q ≤ k) (hk₂ : k < t.eq) : k ≠ t'.eq := by
  rintro rfl
  obtain ⟨_, hle, hin, _⟩ := h.word_mem t ht hw
  obtain ⟨_, _, _, hend⟩ := h.word_mem t' ht' hw'
  obtain ⟨hws, hsym⟩ := hin t'.eq hk₁ hk₂
  rcases hend (by omega) with h' | h'
  · exact hws h'
  · exact hsym h'

/-- After `nulterminate`, the C string at each word of a parsed tree is that word of the line. -/
theorem nulterminate_word (hl : IsLen s es) {toks : List Tok} (h : Tokens s es 0 toks) {nt : NT}
    {c : Cmd} (hg : Gram nt toks c) {w : Nat × Nat} (hw : w ∈ c.words) :
    ((nulterminate s c).drop w.1).takeWhile (· ≠ 0) = (s.drop w.1).take (w.2 - w.1) := by
  obtain ⟨t, ht, hta, rfl⟩ := hg.words w hw
  obtain ⟨hlt, hle, _, _⟩ := h.word_mem t ht hta
  -- inside the word the line is unchanged and has no NUL; at its end there is one
  have hin : ∀ k < t.eq - t.q, (nulterminate s c).getD (t.q + k) 0 = s.getD (t.q + k) 0 ∧
      s.getD (t.q + k) 0 ≠ 0 := by
    intro k hk
    refine ⟨?_, hl.ne_zero _ (by omega)⟩
    rw [getD_nulterminate, if_neg]
    simp only [List.mem_map]
    rintro ⟨w', hw', hend⟩
    obtain ⟨t', ht', hta', rfl⟩ := hg.words w' hw'
    exact h.not_end_of_word ht hta ht' hta' (by omega) (by omega) hend.symm
  have hend : (nulterminate s c).getD (t.q + (t.eq - t.q)) 0 = 0 := by
    rw [getD_nulterminate, if_pos]
    exact List.mem_map.mpr ⟨(t.q, t.eq), hw, by simp only; omega⟩
  dsimp only
  rw [CStr.takeWhile_drop_eq_take (fun k hk => (hin k hk).1 ▸ (hin k hk).2) hend,
    CStr.take_drop_eq_of_agree hin]

end Words

/-! ## A whole line -/

/-- `parsecmd` from the result of `parseline`. -/
theorem parsecmd_eq (s : List UInt8) : parsecmd s =
    (parseline s (strlen s) (4 * strlen s + 4) 0).bind fun r =>
      if (peek s (strlen s) r.2 (bytesOf "")).2 ≠ strlen s then
        .error (.leftovers ((s.drop (peek s (strlen s) r.2 (bytesOf "")).2).takeWhile (· ≠ 0)))
      else .ok (r.1, nulterminate s r.1) := rfl

/-- A line `parsecmd` accepts is the tokens of a derivation from `line`, with nothing after it. -/
theorem parsecmd_ok {s : List UInt8} {c : Cmd} {b : List UInt8} (h : parsecmd s = .ok (c, b)) :
    b = nulterminate s c ∧
      ∃ toks, Tokens s (strlen s) 0 toks ∧ Gram .line toks c ∧ c.argsOk = true := by
  have hl := isLen_strlen s
  obtain ⟨ts, hts⟩ := tokens_exists hl (Nat.zero_le (strlen s))
  have hsound := (parse_sat hl (4 * strlen s + 4)).1 0 ts hts (by have := hts.length_le; omega)
  rw [parsecmd_eq] at h
  cases hp : parseline s (strlen s) (4 * strlen s + 4) 0 with
  | error e => rw [hp] at h; cases h
  | ok r =>
    obtain ⟨cmd, i⟩ := r
    rw [hp] at h hsound
    obtain ⟨toks, rest, rfl, hrest, hg, hok⟩ := hsound
    have hpk := (peek_tokens hl hrest (bytesOf "") (by simp)).2
    change (if _ then _ else _) = _ at h
    split at h
    · cases h
    · rename_i hend
      cases h
      rw [not_not.mp hend] at hpk
      -- nothing is left after the line
      obtain rfl := Tokens.unique hl hpk .done
      rw [List.append_nil] at hts
      exact ⟨rfl, toks, hts, hg, hok⟩

/-- A line of the grammar is accepted by `parsecmd`, with its tree. -/
theorem parsecmd_of_gram {s : List UInt8} {toks : List Tok} {c : Cmd}
    (h : Tokens s (strlen s) 0 toks) (hg : Gram .line toks c) (hok : c.argsOk = true) :
    parsecmd s = .ok (c, nulterminate s c) := by
  have hl := isLen_strlen s
  obtain ⟨j, hj, hrest⟩ := parse_complete hl hg hok (4 * strlen s + 4)
    (by rwa [List.append_nil] : Tokens s (strlen s) 0 (toks ++ [])) (fun t ht => by simp at ht)
    (by have := h.length_le; simp only [List.append_nil, fuelFor]; omega)
  rw [parsecmd_eq, show parseline s (strlen s) (4 * strlen s + 4) 0 = _ from hj]
  change (if _ then _ else _) = _
  rw [peek_nil hl hrest, if_neg (not_not.mpr rfl)]

/-- `parsecmd` on any line: it ends in one of the listed panics or the leftovers check, never in
the model's bound; it returns a tree exactly when the line derives it from `line` with every
simple command under `MAXARGS` words; and after `nulterminate` the C string at every word of the
tree is the text of that word. -/
theorem parsecmd_correct (s : List UInt8) :
    (∀ e, parsecmd s = .error e → e.Listed) ∧
    (∀ c, (∃ b, parsecmd s = .ok (c, b)) ↔
      ∃ toks, Tokens s (strlen s) 0 toks ∧ Gram .line toks c ∧ c.argsOk = true) ∧
    (∀ c b, parsecmd s = .ok (c, b) → ∀ w ∈ c.words,
      (b.drop w.1).takeWhile (· ≠ 0) = (s.drop w.1).take (w.2 - w.1)) := by
  have hl := isLen_strlen s
  refine ⟨?errors, fun c => ⟨fun ⟨b, h⟩ => (parsecmd_ok h).2,
    fun ⟨toks, h, hg, hok⟩ => ⟨_, parsecmd_of_gram h hg hok⟩⟩, ?words⟩
  case errors =>
    intro e h
    obtain ⟨ts, hts⟩ := tokens_exists hl (Nat.zero_le (strlen s))
    have hsound := (parse_sat hl (4 * strlen s + 4)).1 0 ts hts (by have := hts.length_le; omega)
    rw [parsecmd_eq] at h
    cases hp : parseline s (strlen s) (4 * strlen s + 4) 0 with
    | error e' =>
      rw [hp] at h hsound
      cases h
      exact hsound
    | ok r =>
      rw [hp] at h
      change (if _ then _ else _) = _ at h
      split at h
      · cases h
        trivial
      · cases h
  case words =>
    intro c b h w hw
    obtain ⟨rfl, toks, hts, hg, _⟩ := parsecmd_ok h
    exact nulterminate_word hl hts hg hw

end Xv6.User
