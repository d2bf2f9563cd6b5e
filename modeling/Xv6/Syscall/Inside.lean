import Xv6.Syscall.Args
import Xv6.Log.Crash

/-!
# Every fetched argument lies in the process's memory

With `sz ≤ KERNBASE`, as `allocuvm` keeps it, neither `addr + 4` in `fetchint` nor
`(uint)i + size` in `argptr` can wrap: `addr` and `i` are below `sz`, and `size` below
`2^31`. So each fetcher only dereferences addresses below `sz` and only accepts what lies
below it (`fetchint_sat`, `fetchstr_sat`, `argptr_sat`), and every handler's regions lie in
`[0, sz)` (`handler_sat`).
-/

namespace Xv6.Syscall

open CLoop CInt

variable {u : User}

/-- The region lies in `[0, sz)`, with no wrap. -/
def Inside (u : User) (r : Region) : Prop := r.1.toNat + r.2 ≤ u.sz.toNat

theorem peek_ok {a : UInt32} (h : a.toNat < u.sz.toNat) : u.peek a = .ok (u.mem a) := by
  simp [User.peek, UInt32.lt_iff_toNat_lt, h]

theorem peekInt_ok {a : UInt32} (h : a.toNat + 4 ≤ u.sz.toNat) : ∃ v, u.peekInt a = .ok v := by
  have hk : ∀ k : UInt32, k.toNat < 4 → (a + k).toNat < u.sz.toNat := fun k hk => by
    rw [UInt32.toNat_add]; omega
  rw [User.peekInt, peek_ok (by omega), ok_bind, peek_ok (hk 1 (by decide)), ok_bind,
    peek_ok (hk 2 (by decide)), ok_bind, peek_ok (hk 3 (by decide)), ok_bind]
  exact ⟨_, rfl⟩

section Fetch

variable (hsz : u.sz.toNat ≤ kernbase)
include hsz

theorem fetchint_sat (addr : UInt32) :
    Sat (· = .fail) (fun _ => addr.toNat + 4 ≤ u.sz.toNat) (fetchint u addr) := by
  unfold fetchint
  split_ifs with h
  · rfl
  · have h4 : addr.toNat + 4 ≤ u.sz.toNat := by
      simp only [not_or, not_le, not_lt, UInt32.le_iff_toNat_le, UInt32.lt_iff_toNat_lt,
        UInt32.toNat_add, UInt32.toNat_ofNat] at h
      unfold kernbase at hsz
      omega
    obtain ⟨v, hv⟩ := peekInt_ok h4
    rw [hv]
    exact h4

theorem argint_sat (n : UInt32) :
    Sat (· = .fail) (fun _ => True) (argint u n) :=
  sat_mono (fetchint_sat hsz _) fun _ _ => trivial

/-- The scan of `fetchstr` from `s ≥ addr` reads below `sz` only, and a string it accepts
ends, `NUL` included, below `sz`. -/
theorem fetchstrLoop_sat {addr : UInt32} :
    ∀ (k : Nat) (s : UInt32), addr.toNat ≤ s.toNat →
      Sat (· = .fail) (fun len => addr.toNat + len + 1 ≤ u.sz.toNat) (fetchstrLoop u addr k s)
  | 0, _, _ => rfl
  | k + 1, s, hs => by
    unfold fetchstrLoop
    split_ifs with hlt
    · have hlt' : s.toNat < u.sz.toNat := UInt32.lt_iff_toNat_lt.mp hlt
      rw [peek_ok hlt', ok_bind]
      split_ifs with hc
      · show addr.toNat + (s - addr).toNat + 1 ≤ u.sz.toNat
        have := addr.toNat_lt
        rw [UInt32.toNat_sub]
        omega
      · refine fetchstrLoop_sat k (s + 1) ?_
        rw [UInt32.toNat_add, UInt32.toNat_one]
        unfold kernbase at hsz
        omega
    · rfl

theorem fetchstr_sat (addr : UInt32) :
    Sat (· = .fail) (fun len => addr.toNat + len + 1 ≤ u.sz.toNat) (fetchstr u addr) := by
  unfold fetchstr
  split_ifs
  · rfl
  · exact fetchstrLoop_sat hsz _ addr le_rfl

theorem argstr_sat (n : UInt32) : Sat (· = .fail) (fun s => Inside u (strRegion s)) (argstr u n) := by
  unfold argstr
  refine sat_bind (argint_sat hsz n) fun addr _ => sat_bind (fetchstr_sat hsz _) fun len h => ?_
  show addr.toUInt32.toNat + (len + 1) ≤ u.sz.toNat
  omega

theorem argptr_sat (n : UInt32) (size : Int32) :
    Sat (· = .fail) (fun p => p.toNat + size.toInt.toNat ≤ u.sz.toNat) (argptr u n size) := by
  unfold argptr
  refine sat_bind (argint_sat hsz n) fun i _ => ?_
  split_ifs with h
  · rfl
  · simp only [not_or] at h
    obtain ⟨h0, hi, hend⟩ := h
    have h0' : 0 ≤ size.toInt := by
      have := mt Int32.lt_iff_toInt_lt.mpr h0
      simp only [Int32.toInt_zero] at this
      omega
    have hs := toNat_toUInt32 h0'
    have hlt := size.toInt_lt
    rw [ge_iff_le, UInt32.le_iff_toNat_le] at hi
    rw [gt_iff_lt, UInt32.lt_iff_toNat_lt, UInt32.toNat_add, hs] at hend
    unfold kernbase at hsz
    show i.toUInt32.toNat + size.toInt.toNat ≤ u.sz.toNat
    omega

theorem argfd_sat (ofile : Nat → Bool) (n : UInt32) :
    Sat (· = .fail) (fun _ => True) (argfd u ofile n) := by
  unfold argfd
  refine sat_bind (argint_sat hsz n) fun fd _ => ?_
  split_ifs
  · rfl
  · trivial

/-- Every string `sys_exec` accepts from the `argv` table lies below `sz`. -/
theorem execArgv_sat (uargv : UInt32) :
    ∀ (k i : Nat), Sat (· = .fail) (fun rs => ∀ r ∈ rs, Inside u r) (execArgv u uargv k i)
  | 0, _ => rfl
  | k + 1, i => by
    unfold execArgv
    refine sat_bind (fetchint_sat hsz _) fun uarg _ => ?_
    split_ifs
    · exact fun r hr => by cases hr
    · refine sat_bind (fetchstr_sat hsz _) fun len hlen => ?_
      refine sat_bind (execArgv_sat uargv k (i + 1)) fun rest hrest => ?_
      intro r hr
      rcases List.mem_cons.mp hr with rfl | hr
      · exact hlen
      · exact hrest r hr

/-- The regions of every handler lie in `[0, sz)`, and its fetches never dereference
outside it. -/
theorem handler_sat (c : Syscall) (ofile : Nat → Bool) :
    Sat (· = .fail) (fun rs => ∀ r ∈ rs, Inside u r) (c.handler.args u ofile) := by
  -- the string handlers: each string region from `argstr_sat`
  have hstr : ∀ s, Inside u (strRegion s) → ∀ r ∈ [strRegion s], Inside u r := by
    intro s hs r hr
    rw [List.mem_singleton] at hr
    exact hr ▸ hs
  cases c with
  | read | write =>
    refine sat_bind (argfd_sat hsz ofile 0) fun _ _ => sat_bind (argint_sat hsz 2) fun n _ =>
      sat_bind (argptr_sat hsz 1 n) fun p hp r hr => ?_
    rw [List.mem_singleton] at hr
    exact hr ▸ hp
  | fstat =>
    refine sat_bind (argfd_sat hsz ofile 0) fun _ _ =>
      sat_bind (argptr_sat hsz 1 20) fun p hp r hr => ?_
    rw [List.mem_singleton] at hr
    exact hr ▸ hp
  | pipe =>
    refine sat_bind (argptr_sat hsz 0 8) fun p hp r hr => ?_
    rw [List.mem_singleton] at hr
    exact hr ▸ hp
  | exec =>
    refine sat_bind (argstr_sat hsz 0) fun path hpath => sat_bind (argint_sat hsz 1) fun uargv _ =>
      sat_bind (execArgv_sat hsz _ maxarg 0) fun argv hargv r hr => ?_
    rcases List.mem_cons.mp hr with rfl | hr
    · exact hpath
    · exact hargv r hr
  | openCall =>
    exact sat_bind (argstr_sat hsz 0) fun s hs => sat_bind (argint_sat hsz 1) fun _ _ => hstr s hs
  | link =>
    refine sat_bind (argstr_sat hsz 0) fun old hold =>
      sat_bind (argstr_sat hsz 1) fun new hnew r hr => ?_
    rcases List.mem_pair.mp hr with rfl | rfl
    · exact hold
    · exact hnew
  | unlink | mkdir | chdir => exact sat_bind (argstr_sat hsz 0) hstr
  | mknod =>
    exact sat_bind (argstr_sat hsz 0) fun s hs => sat_bind (argint_sat hsz 1) fun _ _ =>
      sat_bind (argint_sat hsz 2) fun _ _ => hstr s hs
  | dup | close => exact sat_bind (argfd_sat hsz ofile 0) fun _ _ r hr => by cases hr
  | kill | sbrk | sleep => exact sat_bind (argint_sat hsz 0) fun _ _ r hr => by cases hr

end Fetch

/-! ## Rejected arguments and the log -/

/-- Only `sys_mkdir`, `sys_mknod` and `sys_chdir` run `begin_op()` before their arguments. -/
theorem beginsOp_iff (c : Syscall) :
    c.handler.beginsOp = true ↔ c = .mkdir ∨ c = .mknod ∨ c = .chdir := by
  cases c <;> decide

open Xv6.FsLog in
theorem onReject_of_beginsOp_false {α : Type} {h : Handler} (hb : h.beginsOp = false)
    (codec : Codec α) (st : LogSys α) : h.onReject codec st = some (.ok st) := by
  simp [Handler.onReject, hb]

open Xv6.FsLog in
theorem syscall_args_inside {α : Type} (u : User) (hsz : u.sz.toNat ≤ kernbase) (c : Syscall)
    (ofile : Nat → Bool) (codec : Codec α) (st : LogSys α) :
    Sat (· = .fail) (fun rs => ∀ r ∈ rs, r.1.toNat + r.2 ≤ u.sz.toNat) (c.handler.args u ofile) ∧
    (c ≠ .mkdir → c ≠ .mknod → c ≠ .chdir → c.handler.onReject codec st = some (.ok st)) := by
  refine ⟨handler_sat hsz c ofile, fun h1 h2 h3 => onReject_of_beginsOp_false ?_ codec st⟩
  -- the other calls do not begin a transaction
  have hn : ¬(c = .mkdir ∨ c = .mknod ∨ c = .chdir) := by
    rintro (h | h | h) <;> contradiction
  simpa [← beginsOp_iff] using hn

open Xv6.FsLog in
theorem syscall_args_inside_one_page :
    (0x1000 : UInt32).toNat ≤ kernbase ∧
    Sat (· = .fail) (fun rs => ∀ r ∈ rs, r.1.toNat + r.2 ≤ (0x1000 : UInt32).toNat)
      (Syscall.read.handler.args ⟨fun _ => 0, 0x1000, 0x100⟩ fun _ => true) ∧
    (Syscall.read ≠ .mkdir → Syscall.read ≠ .mknod → Syscall.read ≠ .chdir →
      Syscall.read.handler.onReject wordCodec (LogSys.boot 2 30 fun _ => []) =
        some (.ok (LogSys.boot 2 30 fun _ => ([] : List Nat)))) :=
  ⟨by decide, syscall_args_inside ⟨fun _ => 0, 0x1000, 0x100⟩ (by decide) .read (fun _ => true)
    wordCodec (LogSys.boot 2 30 fun _ => ([] : List Nat))⟩

open Xv6.FsLog in
/-- A path pointer `0x2000` past `sz = 0x1000`, read from the stack word at `esp + 4`: both
`sys_mkdir` and `sys_open` reject it, but while a commit runs `sys_mkdir` sleeps in its
`begin_op()` instead of returning `-1`, and `sys_open` returns with the log untouched. -/
theorem mkdir_rejects_after_begin_op :
    sysMkdir.args ⟨fun a => if a = 0x105 then 0x20 else 0, 0x1000, 0x100⟩ (fun _ => true) =
      .error .fail ∧
    sysOpen.args ⟨fun a => if a = 0x105 then 0x20 else 0, 0x1000, 0x100⟩ (fun _ => true) =
      .error .fail ∧
    Syscall.mkdir.handler.onReject wordCodec
      (⟨fun _ => [], fun _ => none, ⟨2, 30, 0, true, []⟩⟩ : LogSys (List Nat)) = none ∧
    Syscall.openCall.handler.onReject wordCodec
      (⟨fun _ => [], fun _ => none, ⟨2, 30, 0, true, []⟩⟩ : LogSys (List Nat)) =
      some (.ok ⟨fun _ => [], fun _ => none, ⟨2, 30, 0, true, []⟩⟩) := by
  refine ⟨rfl, rfl, ?_, rfl⟩
  simp [Syscall.handler, Handler.onReject, sysMkdir, beginOp]

end Xv6.Syscall
