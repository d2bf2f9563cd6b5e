import Xv6.Log.Crash

/-!
# One transaction from many calls

Between two commits the file-system calls interleave their `begin_op`,
`log_write` and `end_op` (`Calls`). `log_write` absorbs a block written twice
into one header entry, whose buffer keeps the last contents, so the header
never names a block twice (`Reach.lh_nodup`) and the commit makes durable
every call's writes applied in the order they were made (`commitTxn_calls`).
Together with the crash theorem this is the log's purpose: the disk behaves as
one whose transactions are applied whole, in order (`group_commit`).
-/

namespace Xv6.FsLog

open Disk

variable {α : Type} {codec : Codec α}

/-- The calls of one transaction, interleaved: `begin_op`, `log_write` of a block outside the
log, and the `end_op`s that leave a call outstanding; `ws` are the writes in order. -/
inductive Calls (codec : Codec α) : LogSys α → LogSys α → List (Nat × α) → Prop
  | nil (st : LogSys α) : Calls codec st st []
  | beginOp {st st₁ st' : LogSys α} {ws : List (Nat × α)} (h : beginOp st = some st₁)
      (hc : Calls codec st₁ st' ws) : Calls codec st st' ws
  | logWrite {st st₁ st' : LogSys α} {b : Nat} {v : α} {ws : List (Nat × α)}
      (hb : ¬InLog st.log.start st.log.size b) (h : logWrite b v st = .ok st₁)
      (hc : Calls codec st₁ st' ws) : Calls codec st st' ((b, v) :: ws)
  | endOp {st st₁ st' : LogSys α} {ws : List (Nat × α)} (h : endOp codec st = .ok st₁)
      (hn : st.log.outstanding ≠ 1) (hc : Calls codec st₁ st' ws) : Calls codec st st' ws

section Txn

variable {st st' : LogSys α} {m : Nat → α}

theorem commitTxn_logWrite {b : Nat} {v : α} (h : logWrite b v st = .ok st') (m : Nat → α) :
    commitTxn st' m = Function.update (commitTxn st m) b v := by
  obtain ⟨-, -, rfl⟩ := logWrite_eq_ok h
  funext c
  by_cases hc : c = b
  · subst hc
    simp [commitTxn, LogSys.read, mem_absorb]
  · simp [commitTxn, LogSys.read, mem_absorb, hc]

theorem commitTxn_beginOp (h : beginOp st = some st') : commitTxn st' m = commitTxn st m := by
  rw [beginOp_eq_some h]
  rfl

theorem commitTxn_endOp (h : endOp codec st = .ok st') (hn : st.log.outstanding ≠ 1) :
    commitTxn st' m = commitTxn st m := by
  obtain ⟨-, ⟨h1, -⟩ | ⟨-, rfl⟩⟩ := endOp_eq_ok h
  · exact absurd h1 hn
  · rfl

/-- The next commit makes durable the transaction's writes, in order, over what it would have
made durable before them. -/
theorem commitTxn_calls {ws : List (Nat × α)} (hc : Calls codec st st' ws) (m : Nat → α) :
    commitTxn st' m = run (commitTxn st m) (puts ws) := by
  induction hc with
  | nil st => rfl
  | beginOp h _ ih => rw [ih, commitTxn_beginOp h]
  | logWrite _ h _ ih => rw [ih, commitTxn_logWrite h, run_puts_cons]
  | endOp h hn _ ih => rw [ih, commitTxn_endOp h hn]

theorem Reach.calls {ws : List (Nat × α)} (hr : Reach codec st m) (hc : Calls codec st st' ws) :
    Reach codec st' m := by
  induction hc with
  | nil st => exact hr
  | beginOp h _ ih => exact ih (hr.beginOp h)
  | logWrite hb h _ ih => exact ih (hr.logWrite hb h)
  | endOp h hn _ ih => exact ih (by simpa [hn] using hr.endOp h)

end Txn

/-- **Group commit.** From an empty header, the calls of one transaction and the `end_op` of
the last of them commit the committed contents with every call's writes applied in order. -/
theorem group_commit {st st' st'' : LogSys α} {m : Nat → α} {ws : List (Nat × α)}
    (hr : Reach codec st m) (hnil : st.log.lh = []) (hc : Calls codec st st' ws)
    (he : endOp codec st' = .ok st'') (h1 : st'.log.outstanding = 1) :
    Reach codec st'' (run m (puts ws)) := by
  have hcommit := (hr.calls hc).endOp he
  rw [if_pos h1, commitTxn_calls hc, (commit_of_not_pos codec (by simp [hnil])).2] at hcommit
  exact hcommit

/-- Two calls on a zeroed disk: the first writes `[7]` to block `100`, the second `[8]` to
block `101` and then `[9]` to block `100`; the first ends, then the second, which commits. -/
theorem group_commit_two_calls :
    ∃ st, Reach wordCodec st (run (fun _ => []) (puts [(100, [7]), (101, [8]), (100, [9])])) := by
  have h0 : Reach wordCodec (LogSys.boot 2 30 fun _ => []) fun _ => [] := .boot rfl (by decide)
  have hc : Calls wordCodec (LogSys.boot 2 30 fun _ => []) _ [(100, [7]), (101, [8]), (100, [9])] :=
    .beginOp rfl (.logWrite (by decide) rfl (.beginOp rfl (.logWrite (by decide) rfl
      (.logWrite (by decide) rfl (.endOp rfl (by decide) (.nil _))))))
  exact ⟨_, group_commit h0 rfl hc rfl rfl⟩

end Xv6.FsLog
