import Xv6.Log.Crash

/-!
# Room in the log

`begin_op` admits a call while
`log.lh.n + (log.outstanding + 1) * MAXOPBLOCKS ≤ LOGSIZE`: the calls
outstanding, each with room for `MAXOPBLOCKS` blocks, fit in `LOGSIZE`
(`beginOp_reserves`), so three calls run together on an empty log. `log_write`
gives out one block sooner: it panics once `log.lh.n ≥ log.size - 1`, one
block of the log being the header, and `mkfs` makes `nlog = LOGSIZE`
(`logWrite_full`). Three calls that each write `MAXOPBLOCKS` distinct blocks
reach the panic at their thirtieth block.

What the panic buys is that a header never outgrows the log: along every run
the copy `start + 1 + i` of every logged block lies inside the log
(`Reach.copies_inLog`).
-/

namespace Xv6.FsLog

variable {α : Type}

/-- The calls outstanding after `begin_op`, each with room for `MAXOPBLOCKS` blocks, fit in
`LOGSIZE` with the blocks logged. -/
theorem beginOp_reserves {st st' : LogSys α} (h : beginOp st = some st') :
    (st'.log.lh.length : Int) + st'.log.outstanding * maxOpBlocks ≤ logSize := by
  rw [beginOp_eq_some h]
  unfold beginOp at h
  split_ifs at h with h1 h2
  dsimp only
  omega

/-- With `nlog = LOGSIZE`, `log_write` panics on a log holding `LOGSIZE - 1` blocks, whatever
the block, already logged or not. -/
theorem logWrite_full {st : LogSys α} (hsize : st.log.size = logSize)
    (hn : st.log.lh.length = logSize - 1) (b : Nat) (v : α) :
    logWrite b v st = .error "too big a transaction" := by
  unfold logWrite
  rw [if_pos (Or.inr (by rw [hsize, hn]; decide))]

/-- Along every run, the log copy of each logged block lies inside the log. -/
theorem Reach.copies_inLog {codec : Codec α} {st : LogSys α} {m : Nat → α}
    (hr : Reach codec st m) {i : Nat} (hi : i < st.log.lh.length) :
    InLog st.log.start st.log.size (st.log.start + 1 + i) := by
  have := hr.inv.room
  exact ⟨by omega, by omega⟩

/-- A call on the `mkfs` log logs block `100`: its copy is block `3`, inside the log. -/
theorem copy_inLog_after_write :
    ∃ st m, Reach wordCodec st m ∧ st.log.lh = [100] ∧
      InLog st.log.start st.log.size (st.log.start + 1 + 0) := by
  have h0 : Reach wordCodec (LogSys.boot 2 logSize fun _ => []) fun _ => [] :=
    .boot rfl (by decide)
  have h1 := (h0.beginOp rfl).logWrites [(100, [7])] (by decide) rfl
  exact ⟨_, _, h1, rfl, h1.copies_inLog (by decide)⟩

/-- Three calls begin on an empty log of `nlog = LOGSIZE` blocks at `logstart = 2`, as `mkfs`
lays it out. The first logs blocks `100` to `109`, the second `110` to `119`, the third `120`
to `128`; the third call's tenth block, `129`, panics. -/
theorem three_calls_overflow_log :
    ∃ st m, Reach wordCodec st m ∧ st.log.outstanding = 3 ∧ st.log.size = logSize ∧
      st.log.lh = (List.range 29).map (100 + ·) ∧
      logWrite 129 [] st = .error "too big a transaction" := by
  have h0 : Reach wordCodec (LogSys.boot 2 logSize fun _ => []) fun _ => [] :=
    .boot rfl (by decide)
  have h3 := ((h0.beginOp rfl).beginOp rfl).beginOp rfl
  have h29 := h3.logWrites ((List.range 29).map fun i => (100 + i, [])) (by decide) rfl
  exact ⟨_, _, h29, by decide, rfl, by decide, logWrite_full rfl (by decide) _ _⟩

end Xv6.FsLog
