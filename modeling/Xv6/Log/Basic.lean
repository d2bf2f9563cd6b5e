import Xv6.Lib.Disk

/-!
# The file-system log

`log.c` groups the block writes of concurrent file-system calls into one
transaction. A call brackets its `log_write`s between `begin_op` and `end_op`;
`begin_op` waits while a commit runs or while the log might not hold one more
call's `MAXOPBLOCKS` blocks; the last `end_op` commits. `log_write` only
records the block number in the in-memory header `log.lh` and pins the buffer
(`B_DIRTY`), so until the commit the new contents live in the buffer cache.

`commit()` then writes, one block at a time: the log blocks
`start + 1 + tail` (`write_log`), the header at `start` (`write_head`, the
commit point), the home blocks (`install_trans`) and the cleared header. After
a crash, `initlog` runs `recover_from_log`, which installs whatever the header
on the disk names and clears it.

The disk holds blocks of any type `α`; `Codec` says how `struct logheader`
sits in a block. The buffer cache is modelled by its pinned buffers only
(`dirty`): a clean buffer holds what the disk holds.
-/

namespace Xv6.FsLog

open Disk

variable {α : Type}

/-- `MAXOPBLOCKS`. -/
abbrev maxOpBlocks : Nat := 10

/-- `LOGSIZE`. -/
abbrev logSize : Nat := maxOpBlocks * 3

/-- `struct logheader` in the first bytes of a block: `enc` stores `n` and `block[0..n)` and
leaves the rest of the block, `dec` reads them back; a header of at most `LOGSIZE` entries
reads back as written. -/
structure Codec (α : Type) where
  enc : List Nat → α → α
  dec : α → List Nat
  dec_enc : ∀ bs b, bs.length ≤ logSize → dec (enc bs b) = bs

/-- `struct log` without its lock and `dev`; `lh` is `log.lh`, with `n = lh.length`. -/
structure Log where
  start : Nat
  size : Nat
  outstanding : Int
  committing : Bool
  lh : List Nat
  deriving DecidableEq, Repr

/-- The disk, the buffers the log has pinned with `B_DIRTY`, and `log`. -/
structure LogSys (α : Type) where
  disk : Nat → α
  dirty : Nat → Option α
  log : Log

/-- The log's blocks: the header at `start` and the log blocks after it. -/
def InLog (start size a : Nat) : Prop := start ≤ a ∧ a < start + size

/-- `bread(dev, b)->data` over the disk `d`: the pinned buffer, or the disk's block. -/
def LogSys.read (st : LogSys α) (d : Nat → α) (b : Nat) : α := (st.dirty b).getD (d b)

/-- `begin_op`; `none` while it sleeps. -/
def beginOp (st : LogSys α) : Option (LogSys α) :=
  if st.log.committing then none
  else if (st.log.lh.length : Int) + (st.log.outstanding + 1) * maxOpBlocks > logSize then none
  else some { st with log := { st.log with outstanding := st.log.outstanding + 1 } }

/-- The absorption loop of `log_write`: a block already in the header keeps its entry, a new
one is appended. -/
def absorb (b : Nat) (lh : List Nat) : List Nat := if b ∈ lh then lh else lh ++ [b]

/-- `log_write(b)`, after the caller has set `b->data` to `v`. -/
def logWrite (b : Nat) (v : α) (st : LogSys α) : Except String (LogSys α) :=
  if st.log.lh.length ≥ logSize ∨ (st.log.lh.length : Int) ≥ st.log.size - 1 then
    .error "too big a transaction"
  else if st.log.outstanding < 1 then .error "log_write outside of trans"
  else .ok ⟨st.disk, Function.update st.dirty b (some v), { st.log with lh := absorb b st.log.lh }⟩

/-- `write_log`: block `lh[tail]`, from its buffer, to log block `start + tail + 1`. -/
def writeLog (st : LogSys α) : List (Write α) :=
  st.log.lh.mapIdx fun tail b => (st.log.start + tail + 1, fun d => st.read d b)

/-- `write_head` of the header `bs`. -/
def writeHead (codec : Codec α) (start : Nat) (bs : List Nat) : Write α :=
  (start, fun d => codec.enc bs (d start))

/-- `install_trans` of the header `bs`: log block `start + tail + 1` to block `bs[tail]`. -/
def installTrans (start : Nat) (bs : List Nat) : List (Write α) :=
  bs.mapIdx fun tail b => (b, fun d => d (start + tail + 1))

/-- The block writes of `commit()`, in order. -/
def commitWrites (codec : Codec α) (st : LogSys α) : List (Write α) :=
  if 0 < st.log.lh.length then
    writeLog st ++ [writeHead codec st.log.start st.log.lh] ++ installTrans st.log.start st.log.lh ++
      [writeHead codec st.log.start []]
  else []

/-- `commit()`: the writes, then the installed buffers unpinned (`bwrite` clears `B_DIRTY`)
and `log.lh.n = 0`. -/
def commit (codec : Codec α) (st : LogSys α) : LogSys α :=
  ⟨run st.disk (commitWrites codec st), fun b => if b ∈ st.log.lh then none else st.dirty b,
    { st.log with lh := [] }⟩

/-- `end_op`: the last outstanding call commits, between setting and clearing
`log.committing`. -/
def endOp (codec : Codec α) (st : LogSys α) : Except String (LogSys α) :=
  let log := { st.log with outstanding := st.log.outstanding - 1 }
  if log.committing then .error "log.committing"
  else if log.outstanding = 0 then .ok (commit codec { st with log := log })
  else .ok { st with log := log }

/-- `recover_from_log` over the disk `d`: `read_head`, `install_trans` of the header read,
and `write_head` of the cleared header. -/
def recoverFromLog (codec : Codec α) (start : Nat) (d : Nat → α) : List (Write α) :=
  installTrans start (codec.dec (d start)) ++ [writeHead codec start []]

/-- What `initlog` leaves over the disk `d`, with the superblock's `logstart` and `nlog`:
nothing pinned, no call in progress, `log.lh.n = 0`. -/
def LogSys.boot (start size : Nat) (d : Nat → α) : LogSys α :=
  ⟨d, fun _ => none, ⟨start, size, 0, false, []⟩⟩

@[simp] theorem length_absorb_le (b : Nat) (lh : List Nat) : (absorb b lh).length ≤ lh.length + 1 := by
  unfold absorb
  split <;> simp

theorem mem_absorb {b c : Nat} {lh : List Nat} : c ∈ absorb b lh ↔ c = b ∨ c ∈ lh := by
  unfold absorb
  split <;> simp_all [or_comm]

@[simp] theorem writeHead_fst (codec : Codec α) (start : Nat) (bs : List Nat) :
    (writeHead codec start bs).1 = start := rfl

@[simp] theorem length_writeLog (st : LogSys α) : (writeLog st).length = st.log.lh.length := by
  simp [writeLog]

@[simp] theorem installTrans_nil (start : Nat) : (installTrans start [] : List (Write α)) = [] := rfl

@[simp] theorem length_installTrans (start : Nat) (bs : List Nat) :
    (installTrans start bs : List (Write α)).length = bs.length := by
  simp [installTrans]

theorem mem_writeLog {st : LogSys α} {w : Write α} (h : w ∈ writeLog st) :
    ∃ tail, ∃ ht : tail < st.log.lh.length,
      w = (st.log.start + tail + 1, fun d => st.read d st.log.lh[tail]) := by
  obtain ⟨tail, htail, rfl⟩ := List.mem_iff_getElem.mp h
  have ht : tail < st.log.lh.length := by simpa using htail
  exact ⟨tail, ht, by simp [writeLog]⟩

theorem mem_installTrans {start : Nat} {bs : List Nat} {w : Write α}
    (h : w ∈ installTrans start bs) :
    ∃ tail, ∃ ht : tail < bs.length, w = (bs[tail], fun d => d (start + tail + 1)) := by
  obtain ⟨tail, htail, rfl⟩ := List.mem_iff_getElem.mp h
  have ht : tail < bs.length := by simpa using htail
  exact ⟨tail, ht, by simp [installTrans]⟩

theorem map_fst_writeLog (st : LogSys α) :
    (writeLog st).map Prod.fst = (List.range st.log.lh.length).map (st.log.start + · + 1) := by
  refine List.ext_getElem (by simp) fun i h1 h2 => ?_
  simp [writeLog]

theorem map_fst_installTrans (start : Nat) (bs : List Nat) :
    (installTrans start bs : List (Write α)).map Prod.fst = bs := by
  refine List.ext_getElem (by simp) fun i h1 h2 => ?_
  simp [installTrans]

end Xv6.FsLog
