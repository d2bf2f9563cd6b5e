import Xv6.Lib.LinkRing

/-!
# The buffer cache

`bio.c`: `bcache` holds `NBUF` buffers, each with `flags`, `dev`, `blockno`, a sleep-lock and
`refcnt`, threaded through `prev` and `next` into a ring closed by `bcache.head`, the most
recently used buffer first. The links of all nodes are `link`, a `LinkRing.Ptrs` with
`&bcache.head` as `none`; the rest of each buffer is `buf`. The data bytes and `qnext` are
left out (the disk queue is a list in `Xv6.Bio.System`), and of `flags` only the two bits the
code sets are kept.

`binit` builds the ring; `bget` and `brelse` are their parts under `bcache.lock`. The loops
over the ring are `LinkRing.find`, run at most `NBUF` times: a walk that is not back at the
head by then is `Stop.diverge`, a C loop that would not end, which the ring rules out.

What the ring is for is an `Lru`: the buffers as a list, most recently used first, where a
lookup takes the first buffer that holds the block, a miss recycles the last free buffer, and
a buffer whose count drops to 0 goes to the front. `Abs c a` says the ring of `c` links all
buffers in the order of `a`; `Abs.bget`, `Abs.brelse` and `abs_binit` show that the pointer
code computes the list operations.

`Keys c l` adds what the lookup keeps of the blocks: no two buffers hold one block, but for
`(0, 0)`, which every buffer holds after `binit` (`bcache` is zeroed) and which only the
first of them in the list holds once it is in use.
-/

namespace Xv6.Bio

open LinkRing

/-- `NBUF` (`param.h`: `MAXOPBLOCKS*3`). -/
abbrev NBUF : Nat := 30

/-- `flags`, as its bits `B_VALID` and `B_DIRTY`. -/
structure Flags where
  valid : Bool
  dirty : Bool
  deriving DecidableEq, Repr

/-- `struct buf` without its links, `qnext` and `data`. `lock` is the sleep-lock, as the
process slot that holds it. -/
structure Buf where
  flags : Flags
  dev : UInt32
  blockno : UInt32
  lock : Option (Fin 64)
  refcnt : UInt32
  deriving DecidableEq, Repr

/-- `bcache` without its spin-lock. -/
structure BCache where
  buf : Fin NBUF → Buf
  link : Ptrs (Fin NBUF)

/-- Why a run stops: a `panic` of the source, or a loop over the list that is not back at
`bcache.head` after `NBUF` buffers, where the C loop would go on. -/
inductive Stop where
  | panic (msg : String)
  | diverge
  deriving DecidableEq, Repr

/-- Buffer `b` overwritten. -/
def BCache.set (c : BCache) (b : Fin NBUF) (v : Buf) : BCache :=
  { c with buf := Function.update c.buf b v }

@[simp] theorem BCache.set_buf_self (c : BCache) (b : Fin NBUF) (v : Buf) :
    (c.set b v).buf b = v := by
  simp [BCache.set]

theorem BCache.set_buf_of_ne (c : BCache) {b b' : Fin NBUF} (v : Buf) (h : b' ≠ b) :
    (c.set b v).buf b' = c.buf b' := by
  simp [BCache.set, h]

@[simp] theorem BCache.set_link (c : BCache) (b : Fin NBUF) (v : Buf) :
    (c.set b v).link = c.link := rfl

/-- A field the new buffer keeps is kept by every buffer. -/
theorem BCache.set_buf_apply {α : Type} (f : Buf → α) {c : BCache} {b : Fin NBUF} {v : Buf}
    (hv : f v = f (c.buf b)) (x : Fin NBUF) : f ((c.set b v).buf x) = f (c.buf x) := by
  by_cases hx : x = b
  · subst hx
    rw [BCache.set_buf_self, hv]
  · rw [BCache.set_buf_of_ne _ _ hx]

/-- The global `bcache` before `binit`: every field zero. A null link is no node; `binit`
stores every link before it reads it, so here they all point at the head. -/
def BCache.zero : BCache :=
  ⟨fun _ => ⟨⟨false, false⟩, 0, 0, none, 0⟩, ⟨fun _ => none, fun _ => none⟩⟩

/-- One turn of `binit`'s loop: `b` linked in after the head, its sleep-lock made free. -/
def binitOne (c : BCache) (b : Fin NBUF) : BCache :=
  { c.set b { c.buf b with lock := none } with link := c.link.pushFront (some b) }

/-- `binit()`. -/
def binit (c : BCache) : BCache :=
  -- `bcache.head.prev = &bcache.head; bcache.head.next = &bcache.head;`
  let c := { c with link := ⟨Function.update c.link.next none none,
    Function.update c.link.prev none none⟩ }
  (List.finRange NBUF).foldl binitOne c

/-- `bget`'s first test: `b->dev == dev && b->blockno == blockno`. -/
def holds (buf : Fin NBUF → Buf) (dev blockno : UInt32) (b : Fin NBUF) : Bool :=
  (buf b).dev == dev && (buf b).blockno == blockno

/-- `bget`'s second test: `b->refcnt == 0 && (b->flags & B_DIRTY) == 0`. -/
def free (buf : Fin NBUF → Buf) (b : Fin NBUF) : Bool :=
  (buf b).refcnt == 0 && !(buf b).flags.dirty

/-- `b->refcnt++`. -/
def Buf.incref (v : Buf) : Buf := { v with refcnt := v.refcnt + 1 }

/-- A recycled buffer: `b->dev = dev; b->blockno = blockno; b->flags = 0; b->refcnt = 1;` -/
def Buf.recycle (v : Buf) (dev blockno : UInt32) : Buf :=
  { v with dev, blockno, flags := ⟨false, false⟩, refcnt := 1 }

/-- `bget(dev, blockno)` up to `release(&bcache.lock)`: the buffer, and the cache after. The
caller then waits for the buffer's sleep-lock. -/
def bget (c : BCache) (dev blockno : UInt32) : Except Stop (Fin NBUF × BCache) :=
  -- Is the block already cached?
  match find c.link.next (holds c.buf dev blockno) NBUF (c.link.next none) with
  | none => .error .diverge
  | some (some b) => .ok (b, c.set b (c.buf b).incref)
  | some none =>
    -- Not cached; recycle an unused buffer.
    match find c.link.prev (free c.buf) NBUF (c.link.prev none) with
    | none => .error .diverge
    | some (some b) => .ok (b, c.set b ((c.buf b).recycle dev blockno))
    | some none => .error (.panic "bget: no buffers")

/-- `brelse(b)` from `acquire(&bcache.lock)` on: `refcnt` drops, and a buffer it drops to 0
moves to the most recently used end. -/
def brelse (c : BCache) (b : Fin NBUF) : BCache :=
  let c := c.set b { c.buf b with refcnt := (c.buf b).refcnt - 1 }
  if (c.buf b).refcnt = 0 then
    -- no one is waiting for it.
    { c with link := (c.link.unlink (some b)).pushFront (some b) }
  else c

/-! ## The list the ring stands for -/

/-- The cache as its buffers in list order, most recently used first. -/
structure Lru where
  order : List (Fin NBUF)
  buf : Fin NBUF → Buf

/-- A lookup on the list: the first buffer that holds the block, else the last free one. -/
def Lru.get (a : Lru) (dev blockno : UInt32) : Except Stop (Fin NBUF × Lru) :=
  match a.order.find? (holds a.buf dev blockno) with
  | some b => .ok (b, { a with buf := Function.update a.buf b (a.buf b).incref })
  | none =>
    match a.order.reverse.find? (free a.buf) with
    | some b => .ok (b, { a with buf := Function.update a.buf b ((a.buf b).recycle dev blockno) })
    | none => .error (.panic "bget: no buffers")

/-- A release on the list: a buffer whose count drops to 0 goes to the front. -/
def Lru.release (a : Lru) (b : Fin NBUF) : Lru :=
  let buf := Function.update a.buf b { a.buf b with refcnt := (a.buf b).refcnt - 1 }
  if (buf b).refcnt = 0 then ⟨b :: a.order.erase b, buf⟩ else ⟨a.order, buf⟩

/-- The ring of `c` links every buffer, in the order of `a`, and the buffers are `a`'s. -/
structure Abs (c : BCache) (a : Lru) : Prop where
  buf : c.buf = a.buf
  ring : Ring c.link a.order
  perm : a.order.Perm (List.finRange NBUF)

variable {c : BCache} {a : Lru}

theorem Abs.nodup (h : Abs c a) : a.order.Nodup := h.perm.nodup_iff.mpr (List.nodup_finRange _)

theorem Abs.length (h : Abs c a) : a.order.length = NBUF := by
  simpa using h.perm.length_eq

theorem Abs.mem (h : Abs c a) (b : Fin NBUF) : b ∈ a.order :=
  h.perm.mem_iff.mpr (List.mem_finRange b)

/-- **`bget` computes the list lookup.** -/
theorem Abs.bget (h : Abs c a) (dev blockno : UInt32) :
    Bio.bget c dev blockno = (a.get dev blockno).map fun r => (r.1, ⟨r.2.buf, c.link⟩) := by
  have hnext := h.ring.find_next (holds a.buf dev blockno) h.length.le
  have hprev := h.ring.find_prev (free a.buf) h.length.le
  unfold Bio.bget Lru.get
  rw [h.buf, hnext, hprev]
  cases a.order.find? (holds a.buf dev blockno) with
  | some b => simp only [BCache.set, h.buf]; rfl
  | none =>
    cases a.order.reverse.find? (free a.buf) with
    | some b => simp only [BCache.set, h.buf]; rfl
    | none => rfl

/-- A lookup keeps the order. -/
theorem Lru.get_order {a a' : Lru} {dev blockno : UInt32} {b : Fin NBUF}
    (h : a.get dev blockno = .ok (b, a')) : a'.order = a.order := by
  unfold Lru.get at h
  split at h
  · cases h; rfl
  · split at h
    · cases h; rfl
    · cases h

/-- The cache `bget` leaves stands for the list the lookup leaves. -/
theorem Abs.of_bget (h : Abs c a) {dev blockno : UInt32} {b : Fin NBUF} {c' : BCache}
    (hb : Bio.bget c dev blockno = .ok (b, c')) :
    ∃ a', a.get dev blockno = .ok (b, a') ∧ Abs c' a' := by
  rw [h.bget] at hb
  cases hg : a.get dev blockno with
  | error e => rw [hg] at hb; cases hb
  | ok r =>
    rw [hg] at hb
    obtain ⟨b', a'⟩ := r
    cases hb
    exact ⟨a', rfl, ⟨rfl, (Lru.get_order hg).symm ▸ h.ring, (Lru.get_order hg).symm ▸ h.perm⟩⟩

theorem brelse_buf (c : BCache) (b : Fin NBUF) :
    (brelse c b).buf = Function.update c.buf b { c.buf b with refcnt := (c.buf b).refcnt - 1 } := by
  unfold brelse
  dsimp only
  split <;> rfl

/-- A field that dropping `refcnt` keeps is kept by `brelse` for every buffer. -/
theorem brelse_buf_apply {α : Type} (f : Buf → α)
    (hf : ∀ v : Buf, f { v with refcnt := v.refcnt - 1 } = f v) (c : BCache) (b x : Fin NBUF) :
    f ((brelse c b).buf x) = f (c.buf x) := by
  rw [brelse_buf]
  by_cases hx : x = b
  · subst hx
    rw [Function.update_self, hf]
  · rw [Function.update_of_ne hx]

theorem brelse_link (c : BCache) (b : Fin NBUF) :
    (brelse c b).link = if (c.buf b).refcnt - 1 = 0
      then (c.link.unlink (some b)).pushFront (some b) else c.link := by
  unfold brelse
  split <;> simp_all

theorem Lru.release_buf (a : Lru) (b : Fin NBUF) :
    (a.release b).buf = Function.update a.buf b { a.buf b with refcnt := (a.buf b).refcnt - 1 } := by
  unfold Lru.release
  dsimp only
  split <;> rfl

theorem Lru.release_order (a : Lru) (b : Fin NBUF) :
    (a.release b).order = if (a.buf b).refcnt - 1 = 0 then b :: a.order.erase b else a.order := by
  unfold Lru.release
  split <;> simp_all

/-- **`brelse` computes the list release.** -/
theorem Abs.brelse (h : Abs c a) (b : Fin NBUF) : Abs (Bio.brelse c b) (a.release b) := by
  refine ⟨by rw [brelse_buf, Lru.release_buf, h.buf], ?_, ?_⟩
  · rw [brelse_link, Lru.release_order, h.buf]
    split
    · exact h.ring.moveFront h.nodup (h.mem b)
    · exact h.ring
  · rw [Lru.release_order]
    split
    · exact (List.perm_cons_erase (h.mem b)).symm.trans h.perm
    · exact h.perm

theorem foldl_binitOne_link (l : List (Fin NBUF)) (c : BCache) :
    (l.foldl binitOne c).link = l.foldl (fun p b => p.pushFront (some b)) c.link := by
  induction l generalizing c with
  | nil => rfl
  | cons b l ih => exact ih (binitOne c b)

theorem foldl_binitOne_buf (l : List (Fin NBUF)) (c : BCache) (b : Fin NBUF) :
    (l.foldl binitOne c).buf b = if b ∈ l then { c.buf b with lock := none } else c.buf b := by
  induction l generalizing c with
  | nil => rfl
  | cons x l ih =>
    rw [List.foldl_cons, ih]
    by_cases hb : b = x
    · subst hb
      simp [binitOne]
    · simp [binitOne, BCache.set_buf_of_ne _ _ hb, hb]

/-- After `binit` the ring links every buffer, the last one first. -/
theorem abs_binit (c : BCache) :
    Abs (binit c) ⟨(List.finRange NBUF).reverse, fun b => { c.buf b with lock := none }⟩ := by
  have h0 : Ring (⟨Function.update c.link.next none none, Function.update c.link.prev none none⟩ :
      Ptrs (Fin NBUF)) [] := ring_nil_iff.mpr ⟨by simp, by simp⟩
  refine ⟨funext fun b => ?_, ?_, List.reverse_perm _⟩
  · simp [binit, foldl_binitOne_buf]
  · have := h0.foldl_pushFront (l := List.finRange NBUF) (by simp [List.nodup_finRange])
    rw [List.append_nil] at this
    simpa [binit, foldl_binitOne_link] using this

/-! ## The blocks the buffers hold -/

/-- `(dev, blockno)`. -/
def Buf.key (v : Buf) : UInt32 × UInt32 := (v.dev, v.blockno)

/-- As `binit` leaves a buffer: no reference and no flag. -/
def Buf.Blank (v : Buf) : Prop := v.refcnt = 0 ∧ v.flags = ⟨false, false⟩

theorem holds_eq_true {buf : Fin NBUF → Buf} {dev blockno : UInt32} {b : Fin NBUF} :
    holds buf dev blockno b = true ↔ (buf b).key = (dev, blockno) := by
  simp [holds, Buf.key]

theorem free_eq_true {buf : Fin NBUF → Buf} {b : Fin NBUF} :
    free buf b = true ↔ (buf b).refcnt = 0 ∧ (buf b).flags.dirty = false := by
  simp [free]

@[simp] theorem Buf.key_incref (v : Buf) : v.incref.key = v.key := rfl

@[simp] theorem Buf.key_recycle (v : Buf) (dev blockno : UInt32) :
    (v.recycle dev blockno).key = (dev, blockno) := rfl

theorem Buf.not_blank_recycle (v : Buf) (dev blockno : UInt32) : ¬(v.recycle dev blockno).Blank :=
  fun h => absurd (show (1 : UInt32) = 0 from h.1) (by decide)

/-- The first member a test picks, when it is the only one. -/
theorem find?_of_unique {α : Type} {p : α → Bool} {l : List α} {b : α} (hb : b ∈ l)
    (hp : p b = true) (hu : ∀ x ∈ l, p x = true → x = b) : l.find? p = some b := by
  cases hf : l.find? p with
  | none => exact absurd hp (by simpa using List.find?_eq_none.mp hf b hb)
  | some x => rw [hu x (List.mem_of_find?_eq_some hf) (List.find?_some hf)]

/-- A test that picks no more than another on the list, and picks its first member. -/
theorem find?_of_le {α : Type} {p p' : α → Bool} {l : List α} {j : α}
    (h : l.find? p = some j) (hj : p' j = true) (hle : ∀ x ∈ l, p' x = true → p x = true) :
    l.find? p' = some j := by
  obtain ⟨-, as, bs, rfl, has⟩ := List.find?_eq_some_iff_append.mp h
  refine List.find?_eq_some_iff_append.mpr ⟨hj, as, bs, rfl, fun a ha => ?_⟩
  have h1 : p a = false := by simpa using has a ha
  have h2 : p' a = true → p a = true := hle a (List.mem_append_left _ ha)
  cases hp' : p' a <;> simp_all

/-- Taking out a member the test does not pick. -/
theorem find?_erase_of_false {α : Type} [DecidableEq α] {p : α → Bool} {b : α} (hb : p b = false) :
    ∀ l : List α, (l.erase b).find? p = l.find? p
  | [] => rfl
  | x :: l => by
    by_cases hx : x = b
    · subst hx
      rw [List.erase_cons_head, List.find?_cons_of_neg (by simp [hb])]
    · rw [List.erase_cons_tail (by simpa using hx)]
      by_cases hpx : p x = true
      · rw [List.find?_cons_of_pos hpx, List.find?_cons_of_pos hpx]
      · rw [List.find?_cons_of_neg hpx, List.find?_cons_of_neg hpx, find?_erase_of_false hb l]

/-- The ring links every buffer in the order `l`; a block other than `(0, 0)` is held by one
buffer at most, and a buffer in use that holds `(0, 0)` is the first in `l` that holds it. -/
structure Keys (c : BCache) (l : List (Fin NBUF)) : Prop where
  abs : Abs c ⟨l, c.buf⟩
  uniq : ∀ i j, (c.buf i).key = (c.buf j).key → (c.buf i).key ≠ (0, 0) → i = j
  first : ∀ j, (c.buf j).key = (0, 0) → ¬(c.buf j).Blank → l.find? (holds c.buf 0 0) = some j

variable {l : List (Fin NBUF)}

/-- A buffer changed without a new block. Unless it is blank afterwards, it must be the first
that holds `(0, 0)` if it holds that. -/
theorem Keys.set (h : Keys c l) {b : Fin NBUF} {v : Buf} (hk : v.key = (c.buf b).key)
    (hb : ¬v.Blank → v.key = (0, 0) → l.find? (holds c.buf 0 0) = some b) : Keys (c.set b v) l := by
  have hkey : ∀ j, ((c.set b v).buf j).key = (c.buf j).key := fun j => by
    by_cases hj : j = b
    · subst hj; rw [BCache.set_buf_self, hk]
    · rw [BCache.set_buf_of_ne _ _ hj]
  have hholds : holds (c.set b v).buf 0 0 = holds c.buf 0 0 := funext fun j => by
    rw [Bool.eq_iff_iff, holds_eq_true, holds_eq_true, hkey]
  refine ⟨⟨rfl, h.abs.ring, h.abs.perm⟩, fun i j hij hi => ?_, fun j hj hnb => ?_⟩
  · rw [hkey, hkey] at hij
    exact h.uniq i j hij (by rwa [hkey] at hi)
  · rw [hholds]
    by_cases hjb : j = b
    · subst hjb
      rw [BCache.set_buf_self] at hj hnb
      exact hb hnb hj
    · rw [BCache.set_buf_of_ne _ _ hjb] at hj hnb
      exact h.first j hj hnb

/-- A buffer recycled for a block no buffer holds. -/
theorem Keys.recycle (h : Keys c l) {dev blockno : UInt32} {b : Fin NBUF}
    (hmiss : l.find? (holds c.buf dev blockno) = none) :
    Keys (c.set b ((c.buf b).recycle dev blockno)) l := by
  have hnone : ∀ x, (c.buf x).key ≠ (dev, blockno) := fun x hx =>
    absurd (holds_eq_true.mpr hx) (by simpa using List.find?_eq_none.mp hmiss x (h.abs.mem x))
  have hkey : ∀ j, j ≠ b → ((c.set b ((c.buf b).recycle dev blockno)).buf j).key = (c.buf j).key :=
    fun j hj => by rw [BCache.set_buf_of_ne _ _ hj]
  refine ⟨⟨rfl, h.abs.ring, h.abs.perm⟩, fun i j hij hi => ?_, fun j hj hnb => ?_⟩
  · -- the recycled buffer holds a block no other buffer holds
    by_cases hib : i = b <;> by_cases hjb : j = b
    · rw [hib, hjb]
    · subst hib
      rw [BCache.set_buf_self, Buf.key_recycle, hkey j hjb] at hij
      exact absurd hij.symm (hnone j)
    · subst hjb
      rw [BCache.set_buf_self, Buf.key_recycle, hkey i hib] at hij
      exact absurd hij (hnone i)
    · rw [hkey i hib, hkey j hjb] at hij
      exact h.uniq i j hij (by rwa [hkey i hib] at hi)
  · by_cases hjb : j = b
    · -- recycled for `(0, 0)`: then it is the only buffer that holds it
      subst hjb
      rw [BCache.set_buf_self, Buf.key_recycle] at hj
      refine find?_of_unique (h.abs.mem j) (holds_eq_true.mpr (by simp [hj])) fun x _ hx => ?_
      by_contra hxj
      rw [holds_eq_true, hkey x hxj, ← hj] at hx
      exact hnone x hx
    · rw [hkey j hjb] at hj
      rw [BCache.set_buf_of_ne _ _ hjb] at hnb
      refine find?_of_le (h.first j hj hnb) (holds_eq_true.mpr (by rw [hkey j hjb, hj]))
        fun x _ hx => ?_
      by_cases hxb : x = b
      · subst hxb
        rw [holds_eq_true, BCache.set_buf_self, Buf.key_recycle] at hx
        exact absurd (hx ▸ hj) (hnone j)
      · rwa [holds_eq_true, hkey x hxb, ← holds_eq_true] at hx

/-- `bget`'s two outcomes: the first buffer in the list that holds the block gets one more
reference, or, if none does, the last free one is recycled. -/
theorem Keys.bget_cases (h : Keys c l) {dev blockno : UInt32} {b : Fin NBUF} {c' : BCache}
    (hb : Bio.bget c dev blockno = .ok (b, c')) :
    (l.find? (holds c.buf dev blockno) = some b ∧ c' = c.set b (c.buf b).incref) ∨
      (l.find? (holds c.buf dev blockno) = none ∧ l.reverse.find? (free c.buf) = some b ∧
        c' = c.set b ((c.buf b).recycle dev blockno)) := by
  rw [h.abs.bget] at hb
  unfold Lru.get at hb
  dsimp only at hb
  split at hb
  · rename_i x hx
    cases hb
    exact .inl ⟨hx, rfl⟩
  · rename_i hx
    split at hb
    · rename_i y hy
      cases hb
      exact .inr ⟨hx, hy, rfl⟩
    · cases hb

/-- `bget` keeps `Keys`, with the list as it was. -/
theorem Keys.bget (h : Keys c l) {dev blockno : UInt32} {b : Fin NBUF} {c' : BCache}
    (hb : Bio.bget c dev blockno = .ok (b, c')) : Keys c' l := by
  rcases h.bget_cases hb with ⟨hx, rfl⟩ | ⟨hx, -, rfl⟩
  · refine h.set (Buf.key_incref _) fun _ hk => ?_
    -- the buffer found holds the block asked for
    have hkb := holds_eq_true.mp (List.find?_some hx)
    rw [Buf.key_incref, hkb] at hk
    obtain ⟨rfl, rfl⟩ := Prod.mk.inj hk
    exact hx
  · exact h.recycle hx

/-- `brelse` keeps `Keys` for a buffer in use, with the list of `Lru.release`. -/
theorem Keys.brelse (h : Keys c l) {b : Fin NBUF} (hb : ¬(c.buf b).Blank) :
    Keys (Bio.brelse c b) (if (c.buf b).refcnt - 1 = 0 then b :: l.erase b else l) := by
  have hring := (h.abs.brelse b).ring
  have hperm := (h.abs.brelse b).perm
  rw [Lru.release_order] at hring hperm
  dsimp only at hring hperm
  have hkey : ∀ j, ((Bio.brelse c b).buf j).key = (c.buf j).key :=
    brelse_buf_apply Buf.key (fun _ => rfl) c b
  have hholds : holds (Bio.brelse c b).buf 0 0 = holds c.buf 0 0 := funext fun j => by
    rw [Bool.eq_iff_iff, holds_eq_true, holds_eq_true, hkey]
  refine ⟨⟨rfl, hring, hperm⟩, fun i j hij hi => ?_, fun j hj hnb => ?_⟩
  · rw [hkey, hkey] at hij
    exact h.uniq i j hij (by rwa [hkey] at hi)
  · rw [hholds]
    rw [hkey] at hj
    -- in use before: the first that holds `(0, 0)`, if it holds it
    have hfirst : ∀ x, (c.buf x).key = (0, 0) → x = b ∨ ¬(c.buf x).Blank →
        l.find? (holds c.buf 0 0) = some x := by
      rintro x hx (rfl | hx')
      · exact h.first x hx hb
      · exact h.first x hx hx'
    have hj' : l.find? (holds c.buf 0 0) = some j := by
      refine hfirst j hj ?_
      by_cases hjb : j = b
      · exact .inl hjb
      · right
        rwa [brelse_buf, Function.update_of_ne hjb] at hnb
    split
    · by_cases hkb : (c.buf b).key = (0, 0)
      · -- the buffer moved to the front is itself the first that holds `(0, 0)`
        have := hfirst b hkb (.inl rfl)
        rw [hj'] at this
        cases this
        exact List.find?_cons_of_pos (holds_eq_true.mpr hkb)
      · have hnb' : holds c.buf 0 0 b = false :=
          Bool.eq_false_iff.mpr fun e => hkb (holds_eq_true.mp e)
        rw [List.find?_cons_of_neg (by simp [hnb']), find?_erase_of_false hnb']
        exact hj'
    · exact hj'

end Xv6.Bio
