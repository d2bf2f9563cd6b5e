import Xv6.Bio.Cache
import Xv6.Lib.CInt

/-!
# Processes, the disk queue and the cache

The calls of `bio.c` and the parts of `ide.c` they reach, interleaved over the process
slots. `bread` is `bget` (the part under `bcache.lock`, `Call.bget`) and then, once the
buffer's sleep-lock is free, `acquiresleep` and the read of a buffer that is not valid
(`Call.acquire`); `bwrite` and `iderw` put the buffer at the end of `idequeue` and the caller
to sleep until it is synced, `ideintr` completes the request at the head of the queue, and
`Call.wake` is the sleeper seeing its buffer synced. `log_write`'s part here is
`b->flags |= B_DIRTY`. A process slot in a call is `running`, waiting for a sleep-lock
(`acquiring`, with the block `bread` asked for) or asleep in `iderw` (`syncing`). The disk's
data, `idestart` and the hardware are left out; `havedisk1` is what `ideinit` found.
-/

namespace Xv6.Bio

open LinkRing

/-- Where a process slot is in the cache's calls. -/
inductive PState where
  | running
  | acquiring (b : Fin NBUF) (dev blockno : UInt32)
  | syncing (b : Fin NBUF)
  deriving DecidableEq, Repr

/-- The slot waits for the sleep-lock of `b`. -/
def PState.waitsFor : PState → Fin NBUF → Bool
  | .acquiring b' _ _, b => b' == b
  | _, _ => false

/-- The cache, `idequeue` and the process slots. -/
structure Sys where
  cache : BCache
  idequeue : List (Fin NBUF)
  proc : Fin 64 → PState
  havedisk1 : Bool

/-- After `binit`, with no request queued and no process in a call. -/
def Sys.boot (havedisk1 : Bool) : Sys := ⟨binit BCache.zero, [], fun _ => .running, havedisk1⟩

/-- Buffer `b` overwritten. -/
def Sys.setBuf (s : Sys) (b : Fin NBUF) (v : Buf) : Sys := { s with cache := s.cache.set b v }

/-- `iderw(b)` by process `p` up to its sleep: `b` goes to the end of `idequeue`, and `p`
sleeps until `b` is synced. -/
def iderw (p : Fin 64) (b : Fin NBUF) (s : Sys) : Except Stop Sys :=
  let v := s.cache.buf b
  if v.lock ≠ some p then .error (.panic "iderw: buf not locked")
  else if v.flags.valid && !v.flags.dirty then .error (.panic "iderw: nothing to do")
  else if v.dev ≠ 0 && !s.havedisk1 then .error (.panic "iderw: ide disk 1 not present")
  else .ok { s with idequeue := s.idequeue ++ [b], proc := Function.update s.proc p (.syncing b) }

/-- A step of one process, or the disk interrupt. -/
inductive Call where
  | bget (p : Fin 64) (dev blockno : UInt32)
  | acquire (p : Fin 64) (b : Fin NBUF)
  | bwrite (p : Fin 64) (b : Fin NBUF)
  | logWrite (p : Fin 64) (b : Fin NBUF)
  | brelse (p : Fin 64) (b : Fin NBUF)
  | ideintr
  | wake (p : Fin 64) (b : Fin NBUF)

/-- When a step can be taken: a process in a call is blocked until its lock is free or its
buffer synced, and `log_write` is called on a buffer the caller holds. -/
def Call.enabled (s : Sys) : Call → Prop
  | .bget p _ _ | .bwrite p _ | .brelse p _ => s.proc p = .running
  | .logWrite p b => s.proc p = .running ∧ (s.cache.buf b).lock = some p
  | .acquire p b => (s.proc p).waitsFor b ∧ (s.cache.buf b).lock = none
  | .wake p b => s.proc p = .syncing b ∧ (s.cache.buf b).flags = ⟨true, false⟩
  | .ideintr => True

/-- The step. -/
def Call.run (s : Sys) : Call → Except Stop Sys
  | .bget p dev blockno =>
    match Bio.bget s.cache dev blockno with
    | .ok (b, c) => .ok { s with cache := c, proc := Function.update s.proc p (.acquiring b dev blockno) }
    | .error e => .error e
  | .acquire p b =>
    -- `acquiresleep(&b->lock)`, then `bread`: `if((b->flags & B_VALID) == 0) iderw(b);`
    let s := { s.setBuf b { s.cache.buf b with lock := some p } with
      proc := Function.update s.proc p .running }
    if (s.cache.buf b).flags.valid then .ok s else iderw p b s
  | .bwrite p b =>
    if (s.cache.buf b).lock ≠ some p then .error (.panic "bwrite")
    else iderw p b (s.setBuf b { s.cache.buf b with flags := { (s.cache.buf b).flags with dirty := true } })
  | .logWrite _ b =>
    .ok (s.setBuf b { s.cache.buf b with flags := { (s.cache.buf b).flags with dirty := true } })
  | .brelse p b =>
    if (s.cache.buf b).lock ≠ some p then .error (.panic "brelse")
    -- `releasesleep(&b->lock)`, then the part under `bcache.lock`
    else .ok { s with cache := Bio.brelse (s.cache.set b { s.cache.buf b with lock := none }) b }
  | .ideintr =>
    match s.idequeue with
    | [] => .ok s
    -- `b->flags |= B_VALID; b->flags &= ~B_DIRTY;`
    | b :: q => .ok { s.setBuf b { s.cache.buf b with flags := ⟨true, false⟩ } with idequeue := q }
  | .wake p _ => .ok { s with proc := Function.update s.proc p .running }

/-- The states a run from boot reaches. -/
inductive Reach : Sys → Prop
  | boot (havedisk1 : Bool) : Reach (Sys.boot havedisk1)
  | step {s s' : Sys} (c : Call) : Reach s → c.enabled s → c.run s = .ok s' → Reach s'

@[simp] theorem Sys.setBuf_cache (s : Sys) (b : Fin NBUF) (v : Buf) :
    (s.setBuf b v).cache = s.cache.set b v := rfl

@[simp] theorem Sys.setBuf_proc (s : Sys) (b : Fin NBUF) (v : Buf) :
    (s.setBuf b v).proc = s.proc := rfl

@[simp] theorem Sys.setBuf_idequeue (s : Sys) (b : Fin NBUF) (v : Buf) :
    (s.setBuf b v).idequeue = s.idequeue := rfl

/-! ## What each step does -/

variable {s s' : Sys}

theorem iderw_ok {p : Fin 64} {b : Fin NBUF} (h : iderw p b s = .ok s') :
    (s.cache.buf b).lock = some p ∧ (s.cache.buf b).flags ≠ ⟨true, false⟩ ∧
      s' = { s with idequeue := s.idequeue ++ [b], proc := Function.update s.proc p (.syncing b) } := by
  unfold iderw at h
  dsimp only at h
  split_ifs at h with h1 h2 h3
  cases h
  exact ⟨by simpa using h1, fun hf => h2 (by simp [hf]), rfl⟩

theorem run_bget {p : Fin 64} {dev blockno : UInt32} (h : (Call.bget p dev blockno).run s = .ok s') :
    ∃ b c, Bio.bget s.cache dev blockno = .ok (b, c) ∧
      s' = { s with cache := c, proc := Function.update s.proc p (.acquiring b dev blockno) } := by
  simp only [Call.run] at h
  split at h
  · rename_i b c hb
    cases h
    exact ⟨b, c, hb, rfl⟩
  · cases h

/-- `acquiresleep` returns: the slot holds the lock and runs again. -/
def Sys.take (s : Sys) (p : Fin 64) (b : Fin NBUF) : Sys :=
  { s.setBuf b { s.cache.buf b with lock := some p } with proc := Function.update s.proc p .running }

theorem run_acquire {p : Fin 64} {b : Fin NBUF} (h : (Call.acquire p b).run s = .ok s') :
    s' = s.take p b ∨ iderw p b (s.take p b) = .ok s' := by
  simp only [Call.run] at h
  split at h
  · cases h
    exact .inl rfl
  · exact .inr h

/-- `b->flags |= B_DIRTY`. -/
def Sys.dirty (s : Sys) (b : Fin NBUF) : Sys :=
  s.setBuf b { s.cache.buf b with flags := { (s.cache.buf b).flags with dirty := true } }

theorem run_bwrite {p : Fin 64} {b : Fin NBUF} (h : (Call.bwrite p b).run s = .ok s') :
    (s.cache.buf b).lock = some p ∧ iderw p b (s.dirty b) = .ok s' := by
  simp only [Call.run] at h
  split at h
  · cases h
  · rename_i hl
    exact ⟨not_not.mp hl, h⟩

theorem run_logWrite {p : Fin 64} {b : Fin NBUF} (h : (Call.logWrite p b).run s = .ok s') :
    s' = s.dirty b := by
  simp only [Call.run] at h
  cases h
  rfl

theorem run_brelse {p : Fin 64} {b : Fin NBUF} (h : (Call.brelse p b).run s = .ok s') :
    (s.cache.buf b).lock = some p ∧
      s' = { s with cache := Bio.brelse (s.cache.set b { s.cache.buf b with lock := none }) b } := by
  simp only [Call.run] at h
  split at h
  · cases h
  · rename_i hl
    cases h
    exact ⟨not_not.mp hl, rfl⟩

theorem run_ideintr (h : Call.ideintr.run s = .ok s') :
    (s.idequeue = [] ∧ s' = s) ∨
      ∃ b q, s.idequeue = b :: q ∧
        s' = { s.setBuf b { s.cache.buf b with flags := ⟨true, false⟩ } with idequeue := q } := by
  simp only [Call.run] at h
  split at h
  · cases h
    exact .inl ⟨‹_›, rfl⟩
  · cases h
    exact .inr ⟨_, _, ‹_›, rfl⟩

theorem run_wake {p : Fin 64} {b : Fin NBUF} (h : (Call.wake p b).run s = .ok s') :
    s' = { s with proc := Function.update s.proc p .running } := by
  simp only [Call.run] at h
  cases h
  rfl

/-! ## The invariant -/

/-- The slots waiting for the sleep-lock of `b`. -/
def acquirers (proc : Fin 64 → PState) (b : Fin NBUF) : Nat :=
  (Finset.univ.filter fun p => (proc p).waitsFor b).card

/-- The references to `b` that `bget` gave out and `brelse` has not taken back: the slots
waiting for its lock, and the one holding it. -/
def Sys.refs (s : Sys) (b : Fin NBUF) : Nat :=
  acquirers s.proc b + if (s.cache.buf b).lock.isSome then 1 else 0

theorem acquirers_le (proc : Fin 64 → PState) (b : Fin NBUF) : acquirers proc b ≤ 64 :=
  (Finset.card_filter_le _ _).trans (by simp)

theorem acquirers_pos {proc : Fin 64 → PState} {p : Fin 64} {b : Fin NBUF}
    (h : (proc p).waitsFor b = true) : 0 < acquirers proc b :=
  Finset.card_pos.mpr ⟨p, by simp [h]⟩

/-- A slot that changes state leaves the other slots' count as it was. -/
theorem acquirers_update (proc : Fin 64 → PState) (p : Fin 64) (st : PState) (b : Fin NBUF) :
    acquirers (Function.update proc p st) b + (if (proc p).waitsFor b then 1 else 0) =
      acquirers proc b + (if st.waitsFor b then 1 else 0) := by
  unfold acquirers
  rw [Finset.card_filter, Finset.card_filter, ← Finset.add_sum_erase _ _ (Finset.mem_univ p),
    ← Finset.add_sum_erase _ _ (Finset.mem_univ p)]
  have hrest : ∑ x ∈ Finset.univ.erase p, (if (Function.update proc p st x).waitsFor b then 1 else 0) =
      ∑ x ∈ Finset.univ.erase p, (if (proc x).waitsFor b then 1 else 0) :=
    Finset.sum_congr rfl fun x hx => by rw [Function.update_of_ne (Finset.ne_of_mem_erase hx)]
  rw [hrest, Function.update_self]
  omega

/-- What holds between the steps of every run, the ring's order being `l`. -/
structure Inv (s : Sys) (l : List (Fin NBUF)) : Prop extends Keys s.cache l where
  refs : ∀ b, (s.cache.buf b).refcnt.toNat = s.refs b
  acquiring : ∀ p b dev blockno, s.proc p = .acquiring b dev blockno →
    (s.cache.buf b).key = (dev, blockno)
  syncing : ∀ p b, s.proc p = .syncing b → (s.cache.buf b).lock = some p
  queued : ∀ b ∈ s.idequeue, (∃ p, s.proc p = .syncing b) ∧ (s.cache.buf b).flags ≠ ⟨true, false⟩
  nodup : s.idequeue.Nodup

variable {l : List (Fin NBUF)}

theorem Inv.refcnt_le (h : Inv s l) (b : Fin NBUF) : (s.cache.buf b).refcnt.toNat ≤ 65 := by
  rw [h.refs b, Sys.refs]
  have := acquirers_le s.proc b
  split <;> omega

/-- A locked buffer is referenced, so it is not blank. -/
theorem Inv.refcnt_pos (h : Inv s l) {b : Fin NBUF} {p : Fin 64} (hl : (s.cache.buf b).lock = some p) :
    0 < (s.cache.buf b).refcnt.toNat := by
  rw [h.refs b, Sys.refs, hl]
  simp

theorem Inv.not_blank (h : Inv s l) {b : Fin NBUF} {p : Fin 64} (hl : (s.cache.buf b).lock = some p) :
    ¬(s.cache.buf b).Blank := fun hb => by
  have := h.refcnt_pos hl
  rw [hb.1] at this
  simp at this

/-- A buffer its holder is not asleep on is not in the disk queue. -/
theorem Inv.not_queued (h : Inv s l) {b : Fin NBUF} (hl : ∀ p, (s.cache.buf b).lock = some p →
    s.proc p ≠ .syncing b) : b ∉ s.idequeue := fun hq => by
  obtain ⟨⟨p, hp⟩, -⟩ := h.queued b hq
  exact hl p (h.syncing p b hp) hp

/-- A slot that neither waited nor waits leaves every count as it was. -/
theorem acquirers_update_of_not {proc : Fin 64 → PState} {p : Fin 64} {st : PState}
    (h₀ : ∀ x, (proc p).waitsFor x = false) (h₁ : ∀ x, st.waitsFor x = false) (x : Fin NBUF) :
    acquirers (Function.update proc p st) x = acquirers proc x := by
  have := acquirers_update proc p st x
  rw [h₀, h₁] at this
  simpa using this

/-! ## Each step keeps the invariant -/

/-- `bget` gives out one more reference to the buffer it returns, for the block asked for. -/
theorem Inv.bget (h : Inv s l) {p : Fin 64} {dev blockno : UInt32} (hp : s.proc p = .running)
    (hrun : (Call.bget p dev blockno).run s = .ok s') : Inv s' l := by
  obtain ⟨b, c, hb, rfl⟩ := run_bget hrun
  have hkeys := h.toKeys.bget hb
  -- the slot now waits for `b` and for no other buffer
  have hacq : ∀ x, acquirers (Function.update s.proc p (.acquiring b dev blockno)) x =
      acquirers s.proc x + if b = x then 1 else 0 := fun x => by
    have := acquirers_update s.proc p (.acquiring b dev blockno) x
    simpa [hp, PState.waitsFor] using this
  have hother : ∀ q, q ≠ p → Function.update s.proc p (.acquiring b dev blockno) q = s.proc q :=
    fun q hq => Function.update_of_ne hq _ _
  have hsync : ∀ q x, Function.update s.proc p (.acquiring b dev blockno) q = .syncing x →
      s.proc q = .syncing x := fun q x hq => by
    by_cases hqp : q = p
    · subst hqp
      rw [Function.update_self] at hq
      cases hq
    · rwa [hother q hqp] at hq
  rcases h.bget_cases hb with ⟨hx, rfl⟩ | ⟨hx, hy, rfl⟩
  · -- a hit: `refcnt++`
    refine ⟨hkeys, fun x => ?_, fun q x d n hq => ?_, fun q x hq => ?_, fun x hq => ?_, h.nodup⟩
    all_goals dsimp only at *
    · rw [Sys.refs, hacq]
      by_cases hxb : x = b
      · subst hxb
        have := h.refcnt_le x
        rw [BCache.set_buf_self, Buf.incref, CInt.toNat_add_one (by omega), h.refs x, Sys.refs]
        simp only [if_true]
        omega
      · rw [BCache.set_buf_of_ne _ _ hxb, h.refs x, Sys.refs, if_neg (Ne.symm hxb), Nat.add_zero]
    · by_cases hqp : q = p
      · subst hqp
        rw [Function.update_self] at hq
        cases hq
        rw [BCache.set_buf_self, Buf.key_incref]
        exact holds_eq_true.mp (List.find?_some hx)
      · rw [hother q hqp] at hq
        rw [BCache.set_buf_apply (v := (s.cache.buf b).incref) Buf.key rfl]
        exact h.acquiring q x d n hq
    · rw [BCache.set_buf_apply (v := (s.cache.buf b).incref) Buf.lock rfl]
      exact h.syncing q x (hsync q x hq)
    · obtain ⟨⟨q, hq'⟩, hf⟩ := h.queued x hq
      have hqp : q ≠ p := by rintro rfl; rw [hp] at hq'; cases hq'
      exact ⟨⟨q, by rwa [hother q hqp]⟩, by rwa [BCache.set_buf_apply (v := (s.cache.buf b).incref) Buf.flags rfl]⟩
  · -- a miss: the free buffer recycled had no reference and no lock
    have hfree := free_eq_true.mp (List.find?_some hy)
    have h0 : s.refs b = 0 := by rw [← h.refs b, hfree.1]; rfl
    have hnacq : acquirers s.proc b = 0 := by rw [Sys.refs] at h0; omega
    have hnlock : (s.cache.buf b).lock = none := by
      rw [Sys.refs] at h0
      cases hl : (s.cache.buf b).lock
      · rfl
      · simp [hl] at h0
    refine ⟨hkeys, fun x => ?_, fun q x d n hq => ?_, fun q x hq => ?_, fun x hq => ?_, h.nodup⟩
    all_goals dsimp only at *
    · rw [Sys.refs, hacq]
      by_cases hxb : x = b
      · subst hxb
        rw [BCache.set_buf_self]
        simp [Buf.recycle, hnacq, hnlock]
      · rw [BCache.set_buf_of_ne _ _ hxb, h.refs x, Sys.refs, if_neg (Ne.symm hxb), Nat.add_zero]
    · by_cases hqp : q = p
      · subst hqp
        rw [Function.update_self] at hq
        cases hq
        rw [BCache.set_buf_self, Buf.key_recycle]
      · rw [hother q hqp] at hq
        have hxb : x ≠ b := by
          rintro rfl
          have := @acquirers_pos s.proc q x (by simp [hq, PState.waitsFor])
          omega
        rw [BCache.set_buf_of_ne _ _ hxb]
        exact h.acquiring q x d n hq
    · rw [BCache.set_buf_apply (v := (s.cache.buf b).recycle dev blockno) Buf.lock rfl]
      exact h.syncing q x (hsync q x hq)
    · obtain ⟨⟨q, hq'⟩, hf⟩ := h.queued x hq
      have hqp : q ≠ p := by rintro rfl; rw [hp] at hq'; cases hq'
      have hxb : x ≠ b := by
        rintro rfl
        rw [h.syncing q x hq'] at hnlock
        cases hnlock
      exact ⟨⟨q, by rwa [hother q hqp]⟩, by rwa [BCache.set_buf_of_ne _ _ hxb]⟩

/-- `acquiresleep` returns: the reference the slot waited with is now its lock. -/
theorem Inv.take (h : Inv s l) {p : Fin 64} {b : Fin NBUF} (hw : (s.proc p).waitsFor b = true)
    (hl : (s.cache.buf b).lock = none) : Inv (s.take p b) l := by
  obtain ⟨dev, blockno, hpb⟩ : ∃ dev blockno, s.proc p = .acquiring b dev blockno := by
    cases hps : s.proc p with
    | acquiring b' dev blockno =>
      rw [hps, PState.waitsFor, beq_iff_eq] at hw
      exact ⟨dev, blockno, by rw [hw]⟩
    | running => rw [hps] at hw; cases hw
    | syncing _ => rw [hps] at hw; cases hw
  have hacq : ∀ x, acquirers (Function.update s.proc p .running) x + (if b = x then 1 else 0) =
      acquirers s.proc x := fun x => by
    have := acquirers_update s.proc p .running x
    simpa [hpb, PState.waitsFor] using this
  have hother : ∀ q, q ≠ p → Function.update s.proc p .running q = s.proc q :=
    fun q hq => Function.update_of_ne hq _ _
  have hqueue : b ∉ s.idequeue := h.not_queued fun q hq => by rw [hl] at hq; cases hq
  have hnb : ¬(s.cache.buf b).Blank := fun hb => by
    have := @acquirers_pos s.proc _ _ hw
    have := h.refs b
    rw [hb.1, Sys.refs] at this
    simp at this
    omega
  refine ⟨h.toKeys.set rfl fun _ hk => h.first b hk hnb, fun x => ?_, fun q x d n hq => ?_,
    fun q x hq => ?_, fun x hq => ?_, h.nodup⟩
  all_goals simp only [Sys.take, Sys.setBuf_cache] at *
  · have := hacq x
    rw [Sys.refs]
    by_cases hxb : x = b
    · subst hxb
      rw [BCache.set_buf_self, h.refs x, Sys.refs, hl]
      simp at this ⊢
      omega
    · rw [BCache.set_buf_of_ne _ _ hxb, h.refs x, Sys.refs]
      simp only [if_neg (Ne.symm hxb), Nat.add_zero] at this
      rw [this]
  · have hqp : q ≠ p := by rintro rfl; rw [Function.update_self] at hq; cases hq
    rw [hother q hqp] at hq
    rw [BCache.set_buf_apply (v := { s.cache.buf b with lock := some p }) Buf.key rfl]
    exact h.acquiring q x d n hq
  · have hqp : q ≠ p := by rintro rfl; rw [Function.update_self] at hq; cases hq
    rw [hother q hqp] at hq
    have hxb : x ≠ b := by
      rintro rfl
      rw [h.syncing q x hq] at hl
      cases hl
    rw [BCache.set_buf_of_ne _ _ hxb]
    exact h.syncing q x hq
  · obtain ⟨⟨q, hq'⟩, hf⟩ := h.queued x hq
    have hqp : q ≠ p := by rintro rfl; rw [hpb] at hq'; cases hq'
    exact ⟨⟨q, by rwa [hother q hqp]⟩,
      by rwa [BCache.set_buf_apply (v := { s.cache.buf b with lock := some p }) Buf.flags rfl]⟩

/-- `iderw` by a running slot that holds the buffer: it is queued, and the slot sleeps on it. -/
theorem Inv.iderw (h : Inv s l) {p : Fin 64} {b : Fin NBUF} (hp : s.proc p = .running)
    (hrun : iderw p b s = .ok s') : Inv s' l := by
  obtain ⟨hl, hf, rfl⟩ := iderw_ok hrun
  have hacq : ∀ x, acquirers (Function.update s.proc p (.syncing b)) x = acquirers s.proc x :=
    acquirers_update_of_not (fun x => by simp [hp, PState.waitsFor])
      (fun x => by simp [PState.waitsFor])
  have hother : ∀ q, q ≠ p → Function.update s.proc p (.syncing b) q = s.proc q :=
    fun q hq => Function.update_of_ne hq _ _
  have hqueue : b ∉ s.idequeue := h.not_queued fun q hq => by
    rw [hl] at hq
    cases hq
    rw [hp]
    exact fun e => by cases e
  refine ⟨h.toKeys, fun x => ?_, fun q x d n hq => ?_, fun q x hq => ?_, fun x hq => ?_, ?_⟩
  all_goals dsimp only at *
  · rw [h.refs x, Sys.refs, Sys.refs, hacq]
  · have hqp : q ≠ p := by rintro rfl; rw [Function.update_self] at hq; cases hq
    rw [hother q hqp] at hq
    exact h.acquiring q x d n hq
  · by_cases hqp : q = p
    · subst hqp
      rw [Function.update_self] at hq
      cases hq
      exact hl
    · rw [hother q hqp] at hq
      exact h.syncing q x hq
  · rcases List.mem_append.mp hq with hq | hq
    · obtain ⟨⟨q, hq'⟩, hf'⟩ := h.queued x hq
      have hqp : q ≠ p := by rintro rfl; rw [hp] at hq'; cases hq'
      exact ⟨⟨q, by rwa [hother q hqp]⟩, hf'⟩
    · rw [List.mem_singleton] at hq
      subst hq
      exact ⟨⟨p, Function.update_self _ _ _⟩, hf⟩
  · exact List.nodup_append.mpr ⟨h.nodup, List.nodup_singleton _,
      fun a ha c hc => by rw [List.mem_singleton] at hc; subst hc; exact fun e => hqueue (e ▸ ha)⟩

/-- A field that `b->flags |= B_DIRTY` keeps. -/
theorem Sys.dirty_apply {α : Type} (f : Buf → α)
    (hf : ∀ v : Buf, f { v with flags := { v.flags with dirty := true } } = f v)
    (s : Sys) (b x : Fin NBUF) : f ((s.dirty b).cache.buf x) = f (s.cache.buf x) :=
  BCache.set_buf_apply f (hf _) x

/-- `b->flags |= B_DIRTY` by the running slot that holds `b`. -/
theorem Inv.dirty (h : Inv s l) {p : Fin 64} {b : Fin NBUF} (hp : s.proc p = .running)
    (hl : (s.cache.buf b).lock = some p) : Inv (s.dirty b) l := by
  have hqueue : b ∉ s.idequeue := h.not_queued fun q hq => by
    rw [hl] at hq
    cases hq
    rw [hp]
    exact fun e => by cases e
  refine ⟨h.toKeys.set rfl fun _ hk => h.first b hk (h.not_blank hl), fun x => ?_,
    fun q x d n hq => ?_, fun q x hq => ?_, fun x hq => ?_, h.nodup⟩
  · rw [Sys.dirty_apply Buf.refcnt (fun _ => rfl), h.refs x, Sys.refs, Sys.refs,
      Sys.dirty_apply Buf.lock (fun _ => rfl)]
    rfl
  · rw [Sys.dirty_apply Buf.key (fun _ => rfl)]
    exact h.acquiring q x d n hq
  · rw [Sys.dirty_apply Buf.lock (fun _ => rfl)]
    exact h.syncing q x hq
  · have hxb : x ≠ b := fun e => hqueue (e ▸ hq)
    simp only [Sys.dirty, Sys.setBuf_cache, BCache.set_buf_of_ne _ _ hxb]
    exact h.queued x hq

/-- `brelse` by the running slot that holds `b`: the lock and the reference are given back, and
the list is `Lru.release`'s. -/
theorem Inv.brelse (h : Inv s l) {p : Fin 64} {b : Fin NBUF} (hp : s.proc p = .running)
    (hrun : (Call.brelse p b).run s = .ok s') :
    Inv s' (if (s.cache.buf b).refcnt - 1 = 0 then b :: l.erase b else l) := by
  obtain ⟨hl, rfl⟩ := run_brelse hrun
  have hnb := h.not_blank hl
  have hpos := h.refcnt_pos hl
  set v : Buf := { s.cache.buf b with lock := none } with hv
  have hkeys := (h.toKeys.set (v := v) rfl fun _ hk => h.first b hk hnb).brelse
    (b := b) (by rwa [BCache.set_buf_self])
  rw [BCache.set_buf_self] at hkeys
  -- every field but the lock and the count of `b` is kept
  have hkeep : ∀ {α : Type} (f : Buf → α), (∀ w : Buf, f { w with refcnt := w.refcnt - 1 } = f w) →
      f v = f (s.cache.buf b) → ∀ x, f ((Bio.brelse (s.cache.set b v) b).buf x) = f (s.cache.buf x) :=
    fun f hf hfv x => (brelse_buf_apply f hf _ b x).trans (BCache.set_buf_apply f hfv x)
  refine ⟨hkeys, fun x => ?_, fun q x d n hq => ?_, fun q x hq => ?_, fun x hq => ?_, h.nodup⟩
  all_goals dsimp only at *
  · rw [Sys.refs]
    dsimp only
    rw [brelse_buf]
    by_cases hxb : x = b
    · subst hxb
      have := h.refs x
      rw [Sys.refs, hl] at this
      simp only [Function.update_self, BCache.set_buf_self, hv]
      rw [CInt.toNat_sub_one hpos]
      simp at this ⊢
      omega
    · rw [Function.update_of_ne hxb, BCache.set_buf_of_ne _ _ hxb, h.refs x, Sys.refs]
  · rw [hkeep Buf.key (fun _ => rfl) rfl]
    exact h.acquiring q x d n hq
  · have hxb : x ≠ b := by
      rintro rfl
      rw [h.syncing q x hq] at hl
      cases hl
      rw [hp] at hq
      cases hq
    rw [brelse_buf, Function.update_of_ne hxb, BCache.set_buf_of_ne _ _ hxb]
    exact h.syncing q x hq
  · rw [hkeep Buf.flags (fun _ => rfl) rfl]
    exact h.queued x hq

/-- `ideintr` completes the request at the head of the queue. -/
theorem Inv.ideintr (h : Inv s l) (hrun : Call.ideintr.run s = .ok s') : Inv s' l := by
  rcases run_ideintr hrun with ⟨-, rfl⟩ | ⟨b, q, hq, rfl⟩
  · exact h
  · have hbq : b ∈ s.idequeue := by rw [hq]; exact List.mem_cons_self
    obtain ⟨⟨p, hp⟩, -⟩ := h.queued b hbq
    have hl := h.syncing p b hp
    have hnodup : (b :: q).Nodup := hq ▸ h.nodup
    set v : Buf := { s.cache.buf b with flags := ⟨true, false⟩ }
    refine ⟨h.toKeys.set (v := v) rfl fun _ hk => h.first b hk (h.not_blank hl), fun x => ?_,
      fun q x d n hq => ?_, fun q x hq => ?_, fun x hx => ?_, (List.nodup_cons.mp hnodup).2⟩
    all_goals simp only [Sys.setBuf_cache, Sys.setBuf_proc] at *
    · rw [Sys.refs, BCache.set_buf_apply (v := v) Buf.refcnt rfl,
        BCache.set_buf_apply (v := v) Buf.lock rfl, h.refs x, Sys.refs]
    · rw [BCache.set_buf_apply (v := v) Buf.key rfl]
      exact h.acquiring q x d n hq
    · rw [BCache.set_buf_apply (v := v) Buf.lock rfl]
      exact h.syncing q x hq
    · have hxb : x ≠ b := fun e => (List.nodup_cons.mp hnodup).1 (e ▸ hx)
      rw [BCache.set_buf_of_ne _ _ hxb]
      exact h.queued x (by rw [hq]; exact List.mem_cons_of_mem _ hx)

/-- A slot asleep in `iderw` sees its buffer synced and runs again. -/
theorem Inv.wake (h : Inv s l) {p : Fin 64} {b : Fin NBUF} (hp : s.proc p = .syncing b)
    (hf : (s.cache.buf b).flags = ⟨true, false⟩) (hrun : (Call.wake p b).run s = .ok s') :
    Inv s' l := by
  rw [run_wake hrun]
  have hacq : ∀ x, acquirers (Function.update s.proc p .running) x = acquirers s.proc x :=
    acquirers_update_of_not (fun x => by simp [hp, PState.waitsFor])
      (fun x => by simp [PState.waitsFor])
  have hother : ∀ q, q ≠ p → Function.update s.proc p .running q = s.proc q :=
    fun q hq => Function.update_of_ne hq _ _
  -- a synced buffer is no longer queued
  have hbq : b ∉ s.idequeue := fun hq => (h.queued b hq).2 hf
  refine ⟨h.toKeys, fun x => ?_, fun q x d n hq => ?_, fun q x hq => ?_, fun x hx => ?_, h.nodup⟩
  all_goals dsimp only at *
  · rw [h.refs x, Sys.refs, Sys.refs, hacq]
  · have hqp : q ≠ p := by rintro rfl; rw [Function.update_self] at hq; cases hq
    rw [hother q hqp] at hq
    exact h.acquiring q x d n hq
  · have hqp : q ≠ p := by rintro rfl; rw [Function.update_self] at hq; cases hq
    rw [hother q hqp] at hq
    exact h.syncing q x hq
  · obtain ⟨⟨q, hq⟩, hf'⟩ := h.queued x hx
    have hqp : q ≠ p := by
      rintro rfl
      rw [hp] at hq
      cases hq
      exact hbq hx
    exact ⟨⟨q, by rwa [hother q hqp]⟩, hf'⟩

/-- **Every step keeps the invariant**, the list changing only by `brelse`. -/
theorem Inv.step (h : Inv s l) {c : Call} (hc : c.enabled s) (hrun : c.run s = .ok s') :
    ∃ l', Inv s' l' := by
  cases c with
  | bget p dev blockno => exact ⟨l, h.bget hc hrun⟩
  | acquire p b =>
    rcases run_acquire hrun with rfl | hrun'
    · exact ⟨l, h.take hc.1 hc.2⟩
    · exact ⟨l, (h.take hc.1 hc.2).iderw (Function.update_self _ _ _) hrun'⟩
  | bwrite p b =>
    obtain ⟨hl, hrun'⟩ := run_bwrite hrun
    exact ⟨l, (h.dirty hc hl).iderw hc hrun'⟩
  | logWrite p b =>
    rw [run_logWrite hrun]
    exact ⟨l, h.dirty hc.1 hc.2⟩
  | brelse p b => exact ⟨_, h.brelse hc hrun⟩
  | ideintr => exact ⟨l, h.ideintr hrun⟩
  | wake p b => exact ⟨l, h.wake hc.1 hc.2 hrun⟩

/-- After `binit` every buffer is blank and holds `(0, 0)`, the last one first in the list. -/
theorem inv_boot (havedisk1 : Bool) : Inv (Sys.boot havedisk1) (List.finRange NBUF).reverse := by
  have habs := abs_binit BCache.zero
  have hbuf : ∀ b, (binit BCache.zero).buf b = ⟨⟨false, false⟩, 0, 0, none, 0⟩ := fun b => by
    rw [habs.buf]
    rfl
  have hnone : ∀ b, acquirers (fun _ => PState.running) b = 0 := fun b => by
    simp [acquirers, PState.waitsFor]
  refine ⟨⟨⟨rfl, habs.ring, habs.perm⟩, fun i j _ hi => ?_, fun j _ hj => ?_⟩, fun b => ?_,
    fun q x d n hq => ?_, fun q x hq => ?_, fun x hx => ?_, List.nodup_nil⟩
  · exact absurd (by rw [Sys.boot, hbuf]; rfl) hi
  · exact absurd ⟨by rw [Sys.boot, hbuf], by rw [Sys.boot, hbuf]⟩ hj
  · simp [Sys.refs, Sys.boot, hbuf, hnone]
  · cases hq
  · cases hq
  · cases hx

/-- Every reachable state keeps the invariant, for some list order of the ring. -/
theorem Reach.inv (h : Reach s) : ∃ l, Inv s l := by
  induction h with
  | boot havedisk1 => exact ⟨_, inv_boot havedisk1⟩
  | step c _ hc hrun ih =>
    obtain ⟨l, hl⟩ := ih
    exact hl.step hc hrun

/-! ## What the invariant says -/

/-- `x->next->prev == x` and `x->prev->next == x` for every node. -/
theorem Inv.inverse (h : Inv s l) (x : Option (Fin NBUF)) :
    s.cache.link.prev (s.cache.link.next x) = x ∧ s.cache.link.next (s.cache.link.prev x) = x :=
  h.abs.ring.inverse fun b _ => h.abs.mem b

/-- Two buffers hold one block only if it is `(0, 0)` and one of them is blank. -/
theorem Inv.key_unique (h : Inv s l) {i j : Fin NBUF} (hij : i ≠ j)
    (hk : (s.cache.buf i).key = (s.cache.buf j).key) :
    (s.cache.buf i).key = (0, 0) ∧ ((s.cache.buf i).Blank ∨ (s.cache.buf j).Blank) := by
  by_cases h0 : (s.cache.buf i).key = (0, 0)
  · refine ⟨h0, ?_⟩
    by_contra hb
    obtain ⟨hbi, hbj⟩ := not_or.mp hb
    -- both in use: both are the first in the list that holds `(0, 0)`
    have hi := h.first i h0 hbi
    rw [h.first j (hk ▸ h0) hbj] at hi
    exact hij (Option.some_injective _ hi).symm
  · exact absurd (h.uniq i j hk h0) hij

/-- `bget` on a block no buffer holds recycles the free buffer last in the list. -/
theorem Inv.bget_miss (h : Inv s l) {dev blockno : UInt32} {b : Fin NBUF} {c : BCache}
    (hb : Bio.bget s.cache dev blockno = .ok (b, c))
    (hmiss : ∀ x, (s.cache.buf x).key ≠ (dev, blockno)) :
    free s.cache.buf b = true ∧
      ∃ pre post, l = pre ++ b :: post ∧ ∀ x ∈ post, free s.cache.buf x = false := by
  have hnone : l.find? (holds s.cache.buf dev blockno) = none :=
    List.find?_eq_none.mpr fun x _ hx => hmiss x (holds_eq_true.mp (by simpa using hx))
  rcases h.bget_cases hb with ⟨hx, -⟩ | ⟨-, hy, -⟩
  · rw [hnone] at hx
    cases hx
  · obtain ⟨hfree, as, bs, hrev, has⟩ := List.find?_eq_some_iff_append.mp hy
    refine ⟨hfree, bs.reverse, as.reverse, ?_, fun x hx => by simpa using has x (by simpa using hx)⟩
    rw [← List.reverse_reverse l, hrev]
    simp

/-- The ring after `brelse`: the buffer is at the front once its count drops to 0. -/
theorem Inv.brelse_ring (h : Inv s l) {p : Fin 64} {b : Fin NBUF}
    (hrun : (Call.brelse p b).run s = .ok s') :
    Ring s'.cache.link (if (s.cache.buf b).refcnt - 1 = 0 then b :: l.erase b else l) := by
  obtain ⟨-, rfl⟩ := run_brelse hrun
  have habs : Abs (s.cache.set b { s.cache.buf b with lock := none })
      ⟨l, (s.cache.set b { s.cache.buf b with lock := none }).buf⟩ :=
    ⟨rfl, h.abs.ring, h.abs.perm⟩
  have := habs.brelse b
  have hring := this.ring
  rw [Lru.release_order] at hring
  simpa using hring

/-- `bget` changes the block of the buffer it recycles only, and that one is free. -/
theorem bget_key {c c' : BCache} {dev blockno : UInt32} {b : Fin NBUF}
    (h : Bio.bget c dev blockno = .ok (b, c')) {x : Fin NBUF}
    (hx : (c'.buf x).key ≠ (c.buf x).key) : free c.buf x = true := by
  unfold Bio.bget at h
  split at h
  · cases h
  · cases h
    exact absurd (BCache.set_buf_apply (v := (c.buf b).incref) Buf.key rfl x) hx
  · split at h
    · cases h
    · rename_i hy
      cases h
      by_cases hxb : x = b
      · subst hxb
        exact find_test hy
      · exact absurd (by rw [BCache.set_buf_of_ne _ _ hxb]) hx
    · cases h

/-- **Only a free buffer gets a new block.** Every step but `bget` keeps every buffer's block,
and `bget` only recycles a buffer with no reference and no `B_DIRTY`. -/
theorem Call.run_key {c : Call} (hrun : c.run s = .ok s') {x : Fin NBUF}
    (hx : (s'.cache.buf x).key ≠ (s.cache.buf x).key) : free s.cache.buf x = true := by
  cases c with
  | bget p dev blockno =>
    obtain ⟨b, c, hb, rfl⟩ := run_bget hrun
    exact bget_key hb hx
  | acquire p b =>
    have htake : ((s.take p b).cache.buf x).key = (s.cache.buf x).key :=
      BCache.set_buf_apply (v := { s.cache.buf b with lock := some p }) Buf.key rfl x
    rcases run_acquire hrun with rfl | hrun'
    · exact absurd htake hx
    · obtain ⟨-, -, rfl⟩ := iderw_ok hrun'
      exact absurd htake hx
  | bwrite p b =>
    obtain ⟨-, hrun'⟩ := run_bwrite hrun
    obtain ⟨-, -, rfl⟩ := iderw_ok hrun'
    exact absurd (Sys.dirty_apply Buf.key (fun _ => rfl) s b x) hx
  | logWrite p b =>
    rw [run_logWrite hrun] at hx
    exact absurd (Sys.dirty_apply Buf.key (fun _ => rfl) s b x) hx
  | brelse p b =>
    obtain ⟨-, rfl⟩ := run_brelse hrun
    exact absurd ((brelse_buf_apply Buf.key (fun _ => rfl) _ b x).trans
      (BCache.set_buf_apply (v := { s.cache.buf b with lock := none }) Buf.key rfl x)) hx
  | ideintr =>
    rcases run_ideintr hrun with ⟨-, rfl⟩ | ⟨b, q, -, rfl⟩
    · exact absurd rfl hx
    · exact absurd (BCache.set_buf_apply (v := { s.cache.buf b with flags := ⟨true, false⟩ })
        Buf.key rfl x) hx
  | wake p b =>
    rw [run_wake hrun] at hx
    exact absurd rfl hx

/-- **The buffer cache** in every state that an interleaving of `bread`, `bwrite`,
`log_write`, `brelse` and disk completions reaches from `binit`: the list through
`bcache.head` is a ring of all `NBUF` buffers, linked both ways; two buffers hold one block
only if it is `(0, 0)` and one of them is still as `binit` left it; a buffer with a reference
or `B_DIRTY` keeps its block in every step; `brelse` moves a buffer whose count drops to 0 to
the front; and `bget` recycles the last free buffer in the list. -/
theorem bcache_lru (h : Reach s) :
    ∃ l : List (Fin NBUF), l.Perm (List.finRange NBUF) ∧ Ring s.cache.link l ∧
      (∀ x, s.cache.link.prev (s.cache.link.next x) = x ∧
        s.cache.link.next (s.cache.link.prev x) = x) ∧
      (∀ i j, i ≠ j → (s.cache.buf i).key = (s.cache.buf j).key →
        (s.cache.buf i).key = (0, 0) ∧ ((s.cache.buf i).Blank ∨ (s.cache.buf j).Blank)) ∧
      (∀ (c : Call) s', c.run s = .ok s' → ∀ b,
        (s.cache.buf b).refcnt ≠ 0 ∨ (s.cache.buf b).flags.dirty = true →
        (s'.cache.buf b).key = (s.cache.buf b).key) ∧
      (∀ p b s', (Call.brelse p b).run s = .ok s' →
        Ring s'.cache.link (if (s.cache.buf b).refcnt - 1 = 0 then b :: l.erase b else l)) ∧
      (∀ dev blockno b c, Bio.bget s.cache dev blockno = .ok (b, c) →
        (∀ x, (s.cache.buf x).key ≠ (dev, blockno)) →
        free s.cache.buf b = true ∧
          ∃ pre post, l = pre ++ b :: post ∧ ∀ x ∈ post, free s.cache.buf x = false) := by
  obtain ⟨l, hl⟩ := h.inv
  refine ⟨l, hl.abs.perm, hl.abs.ring, hl.inverse, fun i j hij hk => hl.key_unique hij hk,
    fun c s' hrun b hb => ?_, fun p b s' hrun => hl.brelse_ring hrun,
    fun dev blockno b c hb hmiss => hl.bget_miss hb hmiss⟩
  by_contra hk
  have := free_eq_true.mp (Call.run_key hrun hk)
  rcases hb with hb | hb
  · exact hb this.1
  · rw [this.2] at hb
    cases hb

/-- At boot `bget` of a block no buffer holds recycles buffer 0, the last in the list. -/
theorem bcache_lru_recycles_last :
    ∃ l : List (Fin NBUF), Ring (Sys.boot true).cache.link l ∧ ∃ pre, l = pre ++ [0] := by
  obtain ⟨l, -, hring, -, -, -, -, hget⟩ := bcache_lru (Reach.boot true)
  obtain ⟨-, pre, post, hl, hpost⟩ := hget 1 5 0 _ rfl (by decide)
  refine ⟨l, hring, pre, ?_⟩
  cases post with
  | nil => exact hl
  | cons x post =>
    have hfree : ∀ y, free (Sys.boot true).cache.buf y = true := by decide
    have := hpost x List.mem_cons_self
    rw [hfree x] at this
    cases this

/-- `bcache` is zeroed, so after `binit` every buffer holds `(0, 0)`. -/
theorem boot_buffers_share_block :
    Reach (Sys.boot true) ∧ ((Sys.boot true).cache.buf 0).key = ((Sys.boot true).cache.buf 1).key :=
  ⟨Reach.boot true, by decide⟩

/-- **`bread` gets the block it asked for.** When the sleep-lock `bget`'s caller waits for is
acquired, the caller holds the buffer and the buffer holds the block: the reference `bget`
gave out keeps it from being recycled in between. -/
theorem Reach.acquire_block (h : Reach s) {p : Fin 64} {b : Fin NBUF} {dev blockno : UInt32}
    (hp : s.proc p = .acquiring b dev blockno) (hrun : (Call.acquire p b).run s = .ok s') :
    (s'.cache.buf b).lock = some p ∧ (s'.cache.buf b).key = (dev, blockno) := by
  obtain ⟨l, hl⟩ := h.inv
  have htake : ((s.take p b).cache.buf b).lock = some p ∧
      ((s.take p b).cache.buf b).key = (dev, blockno) := by
    refine ⟨by simp [Sys.take], ?_⟩
    simp only [Sys.take, Sys.setBuf_cache, BCache.set_buf_self]
    exact hl.acquiring p b dev blockno hp
  rcases run_acquire hrun with rfl | hrun'
  · exact htake
  · obtain ⟨-, -, rfl⟩ := iderw_ok hrun'
    exact htake

/-- The state after `bget(1, 5)` by slot 0 at boot: buffer 0 recycled for it. -/
theorem acquire_block_after_boot :
    ∃ s s', Reach s ∧ s.proc 0 = .acquiring 0 1 5 ∧ (Call.acquire 0 0).run s = .ok s' ∧
      (s'.cache.buf 0).lock = some 0 ∧ (s'.cache.buf 0).key = (1, 5) := by
  let s₁ : Sys := ⟨(Sys.boot true).cache.set 0 (((Sys.boot true).cache.buf 0).recycle 1 5), [],
    Function.update (Sys.boot true).proc 0 (.acquiring 0 1 5), true⟩
  have hreach : Reach s₁ := Reach.step (Call.bget 0 1 5) (Reach.boot true) rfl rfl
  have hp : s₁.proc 0 = .acquiring 0 1 5 := rfl
  obtain ⟨s₂, hrun₂⟩ : ∃ s₂, (Call.acquire 0 0).run s₁ = .ok s₂ := ⟨_, rfl⟩
  exact ⟨s₁, s₂, hreach, hp, hrun₂, Reach.acquire_block hreach hp hrun₂⟩

/-- **`bget` never loops**, and it panics only when every buffer has a reference or is dirty:
with the ring, both walks come back to `bcache.head`. -/
theorem Reach.bget_ok (h : Reach s) (dev blockno : UInt32) :
    Bio.bget s.cache dev blockno ≠ .error .diverge ∧
      ((∃ b, free s.cache.buf b = true) → ∃ b c, Bio.bget s.cache dev blockno = .ok (b, c)) := by
  obtain ⟨l, hl⟩ := h.inv
  rw [hl.abs.bget]
  unfold Lru.get
  dsimp only
  split
  · exact ⟨fun e => (by cases e), fun _ => ⟨_, _, rfl⟩⟩
  · split
    · exact ⟨fun e => (by cases e), fun _ => ⟨_, _, rfl⟩⟩
    · rename_i hnone
      refine ⟨fun e => (by cases e), fun ⟨b, hb⟩ => ?_⟩
      -- a free buffer is in the list, so the backward walk finds one
      have := List.find?_eq_none.mp hnone b (List.mem_reverse.mpr (hl.abs.mem b))
      simp [hb] at this

/-- At boot every buffer is free, so `bget` returns one. -/
theorem bget_ok_at_boot : ∃ b c, Bio.bget (Sys.boot true).cache 1 5 = .ok (b, c) :=
  (Reach.bget_ok (Reach.boot true) 1 5).2 ⟨0, by decide⟩

end Xv6.Bio
