import Xv6.Log.Basic
import Xv6.Lib.Loop

/-!
# Crashes and recovery

A crash can stop `commit()` or `recover_from_log` between any two block
writes. What it leaves is `Recoverable`: either the header on the disk is
clear and the disk holds the committed contents off the log (`Clear`), or the
header names blocks whose log copies hold their committed contents, and the
disk holds the committed contents everywhere else off the log (`Logged`).
Every prefix of `recover_from_log` keeps a disk `Recoverable`, and its whole
run makes it `Clear` (`Recovers.clear`), however often recovery itself
crashes.

A crash inside `commit()` leaves a `Clear` disk over the old contents while
`write_log` runs, and a `Logged` one over the new contents from `write_head`
on: the header write is the commit point (`commit_recoverable`). `Reach`
is the runs of the log, crashes and recoveries included, with the contents
`m` that the committed transactions make, in order; `Inv` holds along them.

The log's own blocks are left out of the comparison: they hold copies of the
last transaction, which no transaction wrote there
(`recovered_log_block_differs`).
-/

namespace Xv6.FsLog

open Disk

variable {α : Type} (codec : Codec α)

instance (start size a : Nat) : Decidable (InLog start size a) :=
  inferInstanceAs (Decidable (start ≤ a ∧ a < start + size))

/-- The contents that the commit of `st` makes durable over the committed contents `m`: each
logged block as its buffer holds it. -/
def commitTxn (st : LogSys α) (m : Nat → α) (b : Nat) : α :=
  if b ∈ st.log.lh then st.read st.disk b else m b

/-! ## What a crash can leave -/

/-- A clear header, over the contents `t` off the log. -/
structure Clear (start size : Nat) (t c : Nat → α) : Prop where
  head : codec.dec (c start) = []
  agree : Agree (InLog start size) c t
  size_pos : 0 < size

/-- A header naming `bs`, outside the log and with room in it, whose log copies hold `t`, over
`t` off the log and off `bs`. -/
structure Logged (start size : Nat) (t : Nat → α) (bs : List Nat) (c : Nat → α) : Prop where
  head : codec.dec (c start) = bs
  out : ∀ b ∈ bs, ¬InLog start size b
  room : bs.length + 1 ≤ size
  copy : ∀ i (hi : i < bs.length), c (start + i + 1) = t bs[i]
  rest : ∀ a, ¬InLog start size a → a ∉ bs → c a = t a

/-- A disk from which recovery yields `t` off the log. -/
def Recoverable (start size : Nat) (t c : Nat → α) : Prop :=
  Clear codec start size t c ∨ ∃ bs, Logged codec start size t bs c

section Recovery

variable {codec} {start size : Nat} {t c : Nat → α} {bs : List Nat}

theorem inLog_start (h : 0 < size) : InLog start size start := ⟨le_refl _, by omega⟩

theorem Logged.size_pos (h : Logged codec start size t bs c) : 0 < size := by
  have := h.room; omega

theorem Logged.inLog_copy (h : Logged codec start size t bs c) {i : Nat} (hi : i < bs.length) :
    InLog start size (start + i + 1) := ⟨by omega, by have := h.room; omega⟩

/-- A prefix of `install_trans` from a `Logged` disk sets the blocks it names to `t`. -/
theorem Logged.run_installTrans_take (h : Logged codec start size t bs c) (j a : Nat) :
    run c ((installTrans start bs).take j) a = if a ∈ bs.take j then t a else c a := by
  have hS : ∀ w ∈ (installTrans start bs : List (Write α)).take j, ¬InLog start size w.1 := by
    intro w hw
    obtain ⟨i, hi, rfl⟩ := mem_installTrans (List.mem_of_mem_take hw)
    exact h.out _ (List.getElem_mem hi)
  have hv : ∀ w ∈ (installTrans start bs : List (Write α)).take j, ∀ d : Nat → α,
      (∀ a, InLog start size a → d a = c a) → w.2 d = t w.1 := by
    intro w hw d hd
    obtain ⟨i, hi, rfl⟩ := mem_installTrans (List.mem_of_mem_take hw)
    dsimp only
    rw [hd _ (h.inLog_copy hi)]
    exact h.copy i hi
  rw [run_eq_of_copies hS hv a, List.map_take, map_fst_installTrans]

/-- `install_trans` never writes a block of the log. -/
theorem Logged.run_installTrans_take_inLog (h : Logged codec start size t bs c) (j : Nat)
    {a : Nat} (ha : InLog start size a) : run c ((installTrans start bs).take j) a = c a := by
  rw [h.run_installTrans_take, if_neg fun hm => h.out a (List.mem_of_mem_take hm) ha]

/-- A prefix of `install_trans` keeps a disk `Logged`. -/
theorem Logged.installTrans_take (h : Logged codec start size t bs c) (j : Nat) :
    Logged codec start size t bs (run c ((installTrans start bs).take j)) := by
  refine ⟨?_, h.out, h.room, fun i hi => ?_, fun a ha hb => ?_⟩
  · rw [h.run_installTrans_take_inLog j (inLog_start h.size_pos), h.head]
  · rw [h.run_installTrans_take_inLog j (h.inLog_copy hi), h.copy i hi]
  · rw [h.run_installTrans_take, if_neg fun hm => hb (List.mem_of_mem_take hm), h.rest a ha hb]

theorem recoverFromLog_of_head {d : Nat → α} (h : codec.dec (d start) = bs) :
    recoverFromLog codec start d = installTrans start bs ++ [writeHead codec start []] := by
  rw [recoverFromLog, h]

/-- Clearing the header keeps the disk off the log. -/
theorem clear_writeHead {d : Nat → α} (hs : 0 < size) (ha : Agree (InLog start size) d t) :
    Clear codec start size t (run d [writeHead codec start []]) := by
  refine ⟨?_, fun a hna => ?_, hs⟩
  · simp [writeHead, codec.dec_enc [] _ (Nat.zero_le _)]
  · have hne : a ≠ start := fun he => hna (he ▸ inLog_start hs)
    simp only [run_cons, run_nil, writeHead_fst, Function.update_of_ne hne]
    exact ha a hna

/-- The whole of `recover_from_log` from a `Logged` disk: every named block installed, the
header cleared. -/
theorem Logged.recover (h : Logged codec start size t bs c) :
    Clear codec start size t (run c (recoverFromLog codec start c)) := by
  rw [recoverFromLog_of_head h.head, run_append]
  refine clear_writeHead h.size_pos fun a ha => ?_
  have hfull := h.run_installTrans_take bs.length a
  rw [List.take_of_length_le (by simp), List.take_of_length_le (le_refl _)] at hfull
  rw [hfull]
  split
  case isTrue => rfl
  case isFalse hb => exact h.rest a ha hb

/-- From a `Clear` disk recovery installs nothing. -/
theorem Clear.recover (h : Clear codec start size t c) :
    Clear codec start size t (run c (recoverFromLog codec start c)) := by
  rw [recoverFromLog_of_head h.head]
  exact clear_writeHead h.size_pos h.agree

theorem Clear.recover_take (h : Clear codec start size t c) (k : Nat) :
    Clear codec start size t (run c ((recoverFromLog codec start c).take k)) := by
  cases k with
  | zero => exact h
  | succ k =>
    rw [recoverFromLog_of_head h.head]
    simpa using (clear_writeHead h.size_pos h.agree : Clear codec start size t _)

/-- Every prefix of `recover_from_log` keeps a disk `Recoverable`. -/
theorem Recoverable.take (h : Recoverable codec start size t c) (k : Nat) :
    Recoverable codec start size t (run c ((recoverFromLog codec start c).take k)) := by
  rcases h with hc | ⟨bs, hl⟩
  · exact .inl (hc.recover_take k)
  · rw [recoverFromLog_of_head hl.head]
    by_cases hk : k ≤ bs.length
    · rw [run_take_append_of_le (by simpa using hk)]
      exact .inr ⟨bs, hl.installTrans_take k⟩
    · -- past the installs: the header is cleared too, and the prefix is the whole run
      have hall : (installTrans start bs ++ [writeHead codec start []]).take k =
          recoverFromLog codec start c := by
        rw [recoverFromLog_of_head hl.head, List.take_of_length_le (by simp; omega)]
      rw [hall]
      exact .inl hl.recover

theorem Recoverable.recover (h : Recoverable codec start size t c) :
    Clear codec start size t (run c (recoverFromLog codec start c)) := by
  rcases h with hc | ⟨bs, hl⟩
  · exact hc.recover
  · exact hl.recover

end Recovery

/-- `initlog` after a crash, which may itself crash in `recover_from_log` any number of times
before one run completes. -/
inductive Recovers (start : Nat) : (Nat → α) → (Nat → α) → Prop
  | done (d : Nat → α) : Recovers start d (run d (recoverFromLog codec start d))
  | crash (d : Nat → α) (k : Nat) {d' : Nat → α} :
      Recovers start (run d ((recoverFromLog codec start d).take k)) d' → Recovers start d d'

/-- Recovery, crashes and all, ends in a `Clear` disk over the contents it was owed. -/
theorem Recovers.clear {codec : Codec α} {start size : Nat} {t d d' : Nat → α}
    (hr : Recovers codec start d d') (h : Recoverable codec start size t d) :
    Clear codec start size t d' := by
  induction hr with
  | done d => exact h.recover
  | crash d k _ ih => exact ih (h.take k)

/-! ## The log between calls -/

/-- What holds of the log between any two calls, for committed contents `m`. -/
structure Inv (st : LogSys α) (m : Nat → α) : Prop where
  head : codec.dec (st.disk st.log.start) = []
  agree : Agree (InLog st.log.start st.log.size) st.disk m
  out : ∀ b ∈ st.log.lh, ¬InLog st.log.start st.log.size b
  len : st.log.lh.length ≤ logSize
  room : st.log.lh.length + 1 ≤ st.log.size
  idle : st.log.committing = false

section Commit

variable {codec} {st : LogSys α} {m : Nat → α}

theorem Inv.size_pos (h : Inv codec st m) : 0 < st.log.size := by
  have := h.room; omega

theorem Inv.clear (h : Inv codec st m) : Clear codec st.log.start st.log.size m st.disk :=
  ⟨h.head, h.agree, h.size_pos⟩

/-- `Inv` does not read `log.outstanding`. -/
theorem Inv.outstanding (h : Inv codec st m) (o : Int) :
    Inv codec { st with log := { st.log with outstanding := o } } m :=
  ⟨h.head, h.agree, h.out, h.len, h.room, h.idle⟩

/-- `write_log` writes log blocks only, never the header. -/
theorem Inv.writeLog_inLog (h : Inv codec st m) :
    ∀ w ∈ writeLog st, InLog st.log.start st.log.size w.1 ∧ w.1 ≠ st.log.start := by
  intro w hw
  obtain ⟨i, hi, rfl⟩ := mem_writeLog hw
  have := h.room
  exact ⟨⟨by omega, by omega⟩, by omega⟩

/-- After `write_log`, log block `start + 1 + i` holds the buffer of `lh[i]`. -/
theorem Inv.run_writeLog_copy (h : Inv codec st m) {i : Nat} (hi : i < st.log.lh.length) :
    run st.disk (writeLog st) (st.log.start + i + 1) = st.read st.disk st.log.lh[i] := by
  let t : Nat → α := fun a => st.read st.disk (st.log.lh.getD (a - st.log.start - 1) 0)
  have hS : ∀ w ∈ writeLog st, ¬¬InLog st.log.start st.log.size w.1 :=
    fun w hw => not_not_intro (h.writeLog_inLog w hw).1
  have hv : ∀ w ∈ writeLog st, ∀ d : Nat → α,
      (∀ a, ¬InLog st.log.start st.log.size a → d a = st.disk a) → w.2 d = t w.1 := by
    intro w hw d hd
    obtain ⟨j, hj, rfl⟩ := mem_writeLog hw
    have hj' : st.log.start + j + 1 - st.log.start - 1 = j := by omega
    simp only [LogSys.read, t, hj', hd _ (h.out _ (List.getElem_mem hj))]
    simp [List.getElem?_eq_getElem hj]
  have hmem : st.log.start + i + 1 ∈ (writeLog st).map Prod.fst := by
    rw [map_fst_writeLog]
    exact List.mem_map.mpr ⟨i, List.mem_range.mpr hi, rfl⟩
  have hi' : st.log.start + i + 1 - st.log.start - 1 = i := by omega
  rw [run_eq_of_copies hS hv, if_pos hmem]
  simp [t, hi', List.getElem?_eq_getElem hi]

/-- The disk at the commit point: `write_log` and the header written. -/
def headWritten (codec : Codec α) (st : LogSys α) : Nat → α :=
  run st.disk (writeLog st ++ [writeHead codec st.log.start st.log.lh])

/-- From the commit point on, the disk is `Logged` over the transaction's contents. -/
theorem Inv.logged_headWritten (h : Inv codec st m) :
    Logged codec st.log.start st.log.size (commitTxn st m) st.log.lh (headWritten codec st) := by
  have hW : ∀ a, a ≠ st.log.start →
      headWritten codec st a = run st.disk (writeLog st) a := by
    intro a ha
    simp [headWritten, run_append, Function.update_of_ne ha]
  refine ⟨?_, h.out, h.room, fun i hi => ?_, fun a ha hb => ?_⟩
  · have h0 : run st.disk (writeLog st) st.log.start = st.disk st.log.start :=
      run_of_not_mem (fun w hw => (h.writeLog_inLog w hw).2) _
    simp [headWritten, run_append, writeHead, h0, codec.dec_enc _ _ h.len]
  · rw [hW _ (by omega), h.run_writeLog_copy hi, commitTxn, if_pos (List.getElem_mem hi)]
  · have hne : a ≠ st.log.start := fun he => ha (he ▸ inLog_start h.size_pos)
    rw [hW a hne, commitTxn, if_neg hb, ← h.agree a ha]
    exact run_agree (fun w hw => (h.writeLog_inLog w hw).1) _ a ha

/-- A non-empty `commit()` is `write_log`, `write_head`, then what recovery would run. -/
theorem Inv.commitWrites_eq (h : Inv codec st m) (hn : 0 < st.log.lh.length) :
    commitWrites codec st = (writeLog st ++ [writeHead codec st.log.start st.log.lh]) ++
      recoverFromLog codec st.log.start (headWritten codec st) := by
  rw [recoverFromLog_of_head h.logged_headWritten.head, commitWrites, if_pos hn]
  simp only [List.append_assoc, List.cons_append, List.nil_append]

/-- `commit()` with `log.lh.n = 0` writes nothing and makes nothing new durable. -/
theorem commit_of_not_pos (codec : Codec α) (hn : ¬0 < st.log.lh.length) :
    commitWrites codec st = [] ∧ commitTxn st m = m := by
  have hnil : st.log.lh = [] := List.eq_nil_of_length_eq_zero (by omega)
  refine ⟨by rw [commitWrites, if_neg hn], funext fun b => ?_⟩
  simp [commitTxn, hnil]

/-- **The commit point.** A crash after `k` of `commit()`'s block writes leaves a disk from
which recovery yields the new contents once the header is written (`k > n`), the old ones
before. -/
theorem Inv.commit_recoverable (h : Inv codec st m) (k : Nat) :
    Recoverable codec st.log.start st.log.size
      (if st.log.lh.length < k then commitTxn st m else m)
      (run st.disk ((commitWrites codec st).take k)) := by
  by_cases hn : 0 < st.log.lh.length
  case neg =>
    obtain ⟨hw, ht⟩ := commit_of_not_pos codec hn
    rw [hw, List.take_nil, run_nil, ht, ite_self]
    exact .inl h.clear
  case pos =>
    rw [h.commitWrites_eq hn]
    by_cases hk : k ≤ st.log.lh.length
    case pos =>
      -- inside `write_log`: only log blocks written, the header still clear
      rw [if_neg (by omega), run_take_append_of_le (by simp; omega),
        run_take_append_of_le (by simpa using hk)]
      have hw : ∀ w ∈ (writeLog st).take k, InLog st.log.start st.log.size w.1 ∧
          w.1 ≠ st.log.start := fun w hw => h.writeLog_inLog w (List.mem_of_mem_take hw)
      refine .inl ⟨?_, (run_agree (fun w hw' => (hw w hw').1) _).trans h.agree, h.size_pos⟩
      rw [run_of_not_mem (fun w hw' => (hw w hw').2), h.head]
    case neg =>
      -- the header is written: what is left is a crashed recovery
      rw [if_pos (by omega), run_take_append_of_ge (by simp; omega)]
      exact Recoverable.take (.inr ⟨_, h.logged_headWritten⟩) _

/-- A whole `commit()` leaves the header clear over the new contents. -/
theorem Inv.commit_clear (h : Inv codec st m) :
    Clear codec st.log.start st.log.size (commitTxn st m) (run st.disk (commitWrites codec st)) := by
  by_cases hn : 0 < st.log.lh.length
  case pos =>
    rw [h.commitWrites_eq hn, run_append]
    exact h.logged_headWritten.recover
  case neg =>
    obtain ⟨hw, ht⟩ := commit_of_not_pos codec hn
    rw [hw, run_nil, ht]
    exact h.clear

end Commit

/-! ## Runs of the log -/

section Steps

variable {codec} {st st' : LogSys α}

theorem beginOp_eq_some (h : beginOp st = some st') :
    st' = { st with log := { st.log with outstanding := st.log.outstanding + 1 } } := by
  unfold beginOp at h
  split_ifs at h
  exact (Option.some_inj.mp h).symm

theorem logWrite_eq_ok {b : Nat} {v : α} (h : logWrite b v st = .ok st') :
    st.log.lh.length < logSize ∧ (st.log.lh.length : Int) < st.log.size - 1 ∧
      st' = ⟨st.disk, Function.update st.dirty b (some v), { st.log with lh := absorb b st.log.lh }⟩ := by
  unfold logWrite at h
  split_ifs at h with h1 h2
  refine ⟨by omega, by omega, (Except.ok.inj h).symm⟩

theorem endOp_eq_ok (h : endOp codec st = .ok st') :
    st.log.committing = false ∧
      (st.log.outstanding = 1 ∧
          st' = commit codec { st with log := { st.log with outstanding := st.log.outstanding - 1 } } ∨
        st.log.outstanding ≠ 1 ∧
          st' = { st with log := { st.log with outstanding := st.log.outstanding - 1 } }) := by
  unfold endOp at h
  dsimp only at h
  split_ifs at h with h1 h2
  · exact ⟨by simpa using h1, .inl ⟨by omega, (Except.ok.inj h).symm⟩⟩
  · exact ⟨by simpa using h1, .inr ⟨by omega, (Except.ok.inj h).symm⟩⟩

end Steps

/-- The runs of the log from a formatted disk, paired with the contents `m` the committed
transactions make, in order: calls, and crashes (between calls, or inside the commit of the
call that ends the last outstanding one) followed by `initlog`. -/
inductive Reach : LogSys α → (Nat → α) → Prop
  | boot {start size : Nat} {d : Nat → α} (hd : codec.dec (d start) = []) (hs : 0 < size) :
      Reach (LogSys.boot start size d) d
  | beginOp {st st' : LogSys α} {m : Nat → α} (hr : Reach st m) (h : beginOp st = some st') :
      Reach st' m
  | logWrite {st st' : LogSys α} {m : Nat → α} {b : Nat} {v : α} (hr : Reach st m)
      (hb : ¬InLog st.log.start st.log.size b) (h : logWrite b v st = .ok st') : Reach st' m
  | endOp {st st' : LogSys α} {m : Nat → α} (hr : Reach st m) (h : endOp codec st = .ok st') :
      Reach st' (if st.log.outstanding = 1 then commitTxn st m else m)
  | reboot {st : LogSys α} {m d' : Nat → α} {k : Nat} (hr : Reach st m)
      (hk : k = 0 ∨ st.log.outstanding = 1)
      (h : Recovers codec st.log.start (run st.disk ((commitWrites codec st).take k)) d') :
      Reach (LogSys.boot st.log.start st.log.size d')
        (if st.log.lh.length < k then commitTxn st m else m)

section Preservation

variable {codec} {st st' : LogSys α} {m : Nat → α}

theorem Clear.inv_boot {start size : Nat} {d : Nat → α} (h : Clear codec start size m d) :
    Inv codec (LogSys.boot start size d) m :=
  ⟨h.head, h.agree, by simp [LogSys.boot], by simp [LogSys.boot],
    by have := h.size_pos; simp [LogSys.boot]; omega, rfl⟩

theorem Inv.beginOp (h : Inv codec st m) (hs : beginOp st = some st') : Inv codec st' m := by
  rw [beginOp_eq_some hs]
  exact h.outstanding _

theorem Inv.logWrite {b : Nat} {v : α} (h : Inv codec st m)
    (hb : ¬InLog st.log.start st.log.size b) (hw : logWrite b v st = .ok st') : Inv codec st' m := by
  obtain ⟨hlen, hroom, rfl⟩ := logWrite_eq_ok hw
  have habs := length_absorb_le b st.log.lh
  refine ⟨h.head, h.agree, fun c hc => ?_, by dsimp only; omega, by dsimp only; omega, h.idle⟩
  rcases mem_absorb.mp hc with rfl | hc
  · exact hb
  · exact h.out c hc

theorem Inv.endOp (h : Inv codec st m) (he : endOp codec st = .ok st') :
    Inv codec st' (if st.log.outstanding = 1 then commitTxn st m else m) := by
  obtain ⟨-, ⟨h1, rfl⟩ | ⟨h1, rfl⟩⟩ := endOp_eq_ok he
  case inl =>
    -- the last call out commits
    rw [if_pos h1]
    have hc := (h.outstanding (st.log.outstanding - 1)).commit_clear
    exact ⟨hc.head, hc.agree, by simp [commit], by simp [commit],
      by have := hc.size_pos; dsimp only at this; simp [commit]; omega, h.idle⟩
  case inr =>
    rw [if_neg h1]
    exact h.outstanding _

/-- `Inv` holds along every run. -/
theorem Reach.inv (hr : Reach codec st m) : Inv codec st m := by
  induction hr with
  | boot hd hs => exact Clear.inv_boot ⟨hd, Agree.refl _ _, hs⟩
  | beginOp _ h ih => exact ih.beginOp h
  | logWrite _ hb h ih => exact ih.logWrite hb h
  | endOp _ h ih => exact ih.endOp h
  | reboot _ _ h ih => exact (h.clear (ih.commit_recoverable _)).inv_boot

end Preservation

/-- After a crash at any point of a run, `k` block writes into the commit of the log as it
stands (`k = 0` between calls), and `initlog`, crashes during recovery included, the disk off
the log holds exactly the transactions committed before, and this one if its header write
was done (`k > n`), each logged block as its buffer held it when `commit` ran. -/
theorem recovery_installs_committed {st : LogSys α} {m d' : Nat → α} (hr : Reach codec st m)
    (k : Nat) (h : Recovers codec st.log.start (run st.disk ((commitWrites codec st).take k)) d') :
    Agree (InLog st.log.start st.log.size) d'
      (if st.log.lh.length < k then commitTxn st m else m) := by
  have hinv := hr.inv
  have hcrash := hinv.commit_recoverable k
  exact (h.clear hcrash).agree

section Runs

variable {codec}

/-- A run of `log_write`s of blocks outside the log. -/
theorem Reach.logWrites (ws : List (Nat × α)) {st st' : LogSys α} {m : Nat → α}
    (hr : Reach codec st m) (hout : ∀ w ∈ ws, ¬InLog st.log.start st.log.size w.1)
    (h : ws.foldlM (fun st w => FsLog.logWrite w.1 w.2 st) st = .ok st') : Reach codec st' m := by
  induction ws generalizing st with
  | nil => cases h; exact hr
  | cons w ws ih =>
    rw [List.foldlM_cons] at h
    obtain ⟨st₁, h₁, hrest⟩ := CLoop.bind_eq_ok.mp h
    obtain ⟨-, -, rfl⟩ := logWrite_eq_ok h₁
    exact ih (hr.logWrite (hout w List.mem_cons_self) h₁)
      (fun w' hw' => hout w' (List.mem_cons_of_mem _ hw')) hrest

end Runs

/-- A block as a list of words, `struct logheader` in its first ones: `n`, then
`block[0..n)`. -/
def wordCodec : Codec (List Nat) where
  enc bs b := bs.length :: bs ++ b.drop (bs.length + 1)
  dec b := match b with
    | [] => []
    | n :: r => r.take n
  dec_enc bs b _ := by simp

/-- One call writes `[7]` to block `100` of a zeroed disk whose log starts at `2`, and a crash
stops its commit after `write_log` and `write_head`: recovery installs the transaction. -/
theorem recovery_installs_committed_after_head :
    ∃ st m d', Reach wordCodec st m ∧
      Recovers wordCodec st.log.start (run st.disk ((commitWrites wordCodec st).take 2)) d' ∧
      st.log.lh.length < 2 ∧
      Agree (InLog st.log.start st.log.size) d' (if st.log.lh.length < 2 then commitTxn st m else m) := by
  have h0 : Reach wordCodec (LogSys.boot 2 30 fun _ => []) fun _ => [] := .boot rfl (by decide)
  have h2 := (h0.beginOp rfl).logWrites [(100, [7])] (by decide) rfl
  exact ⟨_, _, _, h2, .done _, by decide, recovery_installs_committed wordCodec h2 2 (.done _)⟩

/-- The same call, committed in full, and `initlog`: log block `3` keeps the copy of block
`100`, though no transaction wrote block `3`. -/
theorem recovered_log_block_differs :
    ∃ st m d', Reach wordCodec st m ∧ Recovers wordCodec st.log.start st.disk d' ∧ d' 3 ≠ m 3 := by
  have h0 : Reach wordCodec (LogSys.boot 2 30 fun _ => []) fun _ => [] := .boot rfl (by decide)
  have h3 := ((h0.beginOp rfl).logWrites [(100, [7])] (by decide) rfl).endOp rfl
  exact ⟨_, _, _, h3, .done _, by decide⟩

end Xv6.FsLog
