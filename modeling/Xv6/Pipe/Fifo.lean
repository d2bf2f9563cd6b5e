import Xv6.Pipe.Basic

/-!
# A pipe is a bounded FIFO

The counters differ by at most `PIPESIZE` as `uint`s, however often they wrap, so the
ring's `count = nwrite - nread` bytes from `nread` on are the bytes stored and not yet read:
a store appends one (`contents_store`), the copy loop of `piperead` takes a prefix
(`readLoop_eq`). Along every interleaving the bytes returned by `piperead`, followed by what
is left in the ring, are the bytes `pipewrite` stored, in order (`Inv.fifo`), and a writer's
loop counter counts the bytes it stored (`Inv.writer`).
-/

namespace Xv6.Pipes

open RingBuf

variable {p p' : Pipe}

/-! ## The counters -/

theorem full_iff (hb : p.count ≤ pipesize) : p.nwrite = p.nread + 512 ↔ p.count = pipesize := by
  unfold Pipe.count at *
  rw [← UInt32.toNat_inj]
  simp only [pipesize, UInt32.toNat_add, UInt32.toNat_sub, UInt32.toNat_ofNat] at *
  have := p.nread.toNat_lt; have := p.nwrite.toNat_lt
  omega

theorem empty_iff : p.nread = p.nwrite ↔ p.count = 0 := by
  unfold Pipe.count
  rw [← UInt32.toNat_inj]
  simp only [UInt32.toNat_sub]
  have := p.nread.toNat_lt; have := p.nwrite.toNat_lt
  omega

/-- `nwrite` is the position just past the ring's bytes. -/
theorem nwrite_mod : p.nwrite.toNat % pipesize = (p.nread.toNat + p.count) % pipesize := by
  unfold Pipe.count
  simp only [pipesize, UInt32.toNat_sub]
  have := p.nread.toNat_lt; have := p.nwrite.toNat_lt
  omega

theorem add_ofNat_succ (x : UInt32) (m : Nat) : x + 1 + UInt32.ofNat m = x + UInt32.ofNat (m + 1) := by
  apply UInt32.toNat_inj.mp
  simp only [UInt32.toNat_add, UInt32.toNat_ofNat', UInt32.toNat_one]
  omega

/-! ## Storing and taking bytes -/

section Store

variable (b : UInt8)

theorem count_store (hb : p.count < pipesize) :
    ({ p with data := set p.data p.nwrite.toNat b, nwrite := p.nwrite + 1 } : Pipe).count =
      p.count + 1 := by
  unfold Pipe.count at *
  simp only [pipesize, UInt32.toNat_add, UInt32.toNat_sub, UInt32.toNat_one] at *
  have := p.nread.toNat_lt; have := p.nwrite.toNat_lt
  omega

theorem contents_store (hb : p.count < pipesize) :
    ({ p with data := set p.data p.nwrite.toNat b, nwrite := p.nwrite + 1 } : Pipe).contents =
      p.contents ++ [b] := by
  unfold Pipe.contents
  rw [count_store b hb]
  exact window_set_last p.data b hb nwrite_mod

end Store

theorem count_next (hne : p.count ≠ 0) : ({ p with nread := p.nread + 1 } : Pipe).count = p.count - 1 := by
  unfold Pipe.count at *
  simp only [UInt32.toNat_add, UInt32.toNat_sub, UInt32.toNat_one] at *
  have := p.nread.toNat_lt; have := p.nwrite.toNat_lt
  omega

/-- A nonempty ring starts with the byte at `nread`; advancing `nread` drops it. -/
theorem contents_next (hne : p.count ≠ 0) :
    p.contents = get p.data p.nread.toNat :: ({ p with nread := p.nread + 1 } : Pipe).contents := by
  obtain ⟨m, hm⟩ := Nat.exists_eq_succ_of_ne_zero hne
  unfold Pipe.contents
  rw [count_next hne, hm, window_succ, Nat.succ_sub_one]
  congr 1
  apply window_congr_mod
  simp only [pipesize, UInt32.toNat_add, UInt32.toNat_one]
  omega

/-- The copy loop of `piperead` takes the first `k` bytes of the ring. -/
theorem readLoop_eq (k : Nat) (p : Pipe) :
    readLoop k p = (p.contents.take k, { p with nread := p.nread + .ofNat (min k p.count) }) := by
  induction k generalizing p with
  | zero => simp [readLoop]
  | succ k ih =>
    unfold readLoop
    split
    case isTrue he =>
      have h0 := empty_iff.mp he
      simp [Pipe.contents, h0]
    case isFalse he =>
      have hne : p.count ≠ 0 := fun h => he (empty_iff.mpr h)
      rw [ih, count_next hne, contents_next hne, List.take_succ_cons, add_ofNat_succ,
        show min k (p.count - 1) + 1 = min (k + 1) p.count by omega]

@[simp] theorem length_contents (p : Pipe) : p.contents.length = p.count := by
  simp [Pipe.contents]

theorem Pipe.count_lt (p : Pipe) : p.count < 2 ^ 32 := UInt32.toNat_lt _

theorem count_advance {m : Nat} (hm : m ≤ p.count) :
    ({ p with nread := p.nread + .ofNat m } : Pipe).count = p.count - m := by
  unfold Pipe.count at *
  simp only [UInt32.toNat_add, UInt32.toNat_sub, UInt32.toNat_ofNat'] at *
  have := p.nread.toNat_lt; have := p.nwrite.toNat_lt
  omega

theorem contents_advance {m : Nat} (hm : m ≤ p.count) :
    ({ p with nread := p.nread + .ofNat m } : Pipe).contents = p.contents.drop m := by
  unfold Pipe.contents
  rw [count_advance hm, drop_window]
  apply window_congr_mod
  have := p.count_lt
  simp only [pipesize, UInt32.toNat_add, UInt32.toNat_ofNat']
  omega

@[simp] theorem count_pipeclose (w : Bool) (p : Pipe) : (pipeclose w p).count = p.count := by
  cases w <;> rfl

@[simp] theorem contents_pipeclose (w : Bool) (p : Pipe) : (pipeclose w p).contents = p.contents := by
  cases w <;> rfl

/-! ## What a step can do -/

section Steps

variable {killed : Bool} {addr : Nat → UInt8} {n : Int} {i : Nat}

theorem pipewrite_store (h : pipewrite killed addr n i p = .store p') (hb : p.count ≤ pipesize) :
    (i : Int) < n ∧ p.count < pipesize ∧
      p' = { p with data := set p.data p.nwrite.toNat (addr i), nwrite := p.nwrite + 1 } := by
  unfold pipewrite at h
  split_ifs at h with hi hfull hk
  cases h
  have hne : p.count ≠ pipesize := fun he => hfull ((full_iff hb).mpr he)
  exact ⟨hi, by omega, rfl⟩

theorem pipewrite_ret {v : Int} (h : pipewrite killed addr n i p = .ret v p') :
    p' = p ∧ (v = n ∧ ¬(i : Int) < n ∨ v = -1 ∧ (i : Int) < n) := by
  unfold pipewrite at h
  split_ifs at h with hi hfull hk <;> cases h
  · exact ⟨rfl, .inr ⟨rfl, hi⟩⟩
  · exact ⟨rfl, .inl ⟨rfl, hi⟩⟩

theorem piperead_ret {v : Int} {out : List UInt8} (h : piperead killed n p = .ret v out p') :
    (v = -1 ∧ out = [] ∧ p' = p) ∨
      (¬(p.nread = p.nwrite ∧ p.writeopen) ∧ out = p.contents.take n.toNat ∧
        p' = { p with nread := p.nread + .ofNat (min n.toNat p.count) } ∧ v = out.length) := by
  unfold piperead at h
  split_ifs at h with he hk <;> cases h
  · exact .inl ⟨rfl, rfl, rfl⟩
  · rw [readLoop_eq]
    exact .inr ⟨he, rfl, rfl, rfl⟩

end Steps

/-! ## Every interleaving -/

theorem mine_store (s : Sys) (p : Pipe) (calls : Nat → Option Call) (t t' : Nat) (b : UInt8) :
    Sys.mine ⟨p, calls, s.stored ++ [(t, b)], s.got⟩ t' =
      if t = t' then s.mine t' ++ [b] else s.mine t' := by
  unfold Sys.mine
  split <;> simp_all

/-- The counters at most `PIPESIZE` apart; the bytes read, then the ring's, are the bytes
stored; a writer's loop counter is at most `n`, and its last bytes stored are `addr[0..i)`. -/
structure Inv (s : Sys) : Prop where
  bound : s.pipe.count ≤ pipesize
  fifo : s.got ++ s.pipe.contents = s.stored.map Prod.snd
  writer : ∀ t addr n i, s.calls t = some (.write addr n i) →
    i ≤ n.toNat ∧ ∃ pre, s.mine t = pre ++ (List.range i).map addr

theorem Inv.alloc (data : Fin pipesize → UInt8) : Inv ⟨Pipe.alloc data, fun _ => none, [], []⟩ :=
  ⟨by simp [Pipe.count, Pipe.alloc], by simp [Pipe.contents, Pipe.count, Pipe.alloc],
    fun _ _ _ _ h => by cases h⟩

section Preservation

variable {s : Sys}

/-- The writers other than `t` are as they were. -/
theorem Inv.writer_update (h : Inv s) {t : Nat} {c : Option Call}
    (hc : ∀ addr n i, c = some (.write addr n i) → i ≤ n.toNat ∧ ∃ pre, s.mine t = pre ++ (List.range i).map addr)
    (t' : Nat) (addr : Nat → UInt8) (n : Int) (i : Nat)
    (h' : Function.update s.calls t c t' = some (.write addr n i)) :
    i ≤ n.toNat ∧ ∃ pre, s.mine t' = pre ++ (List.range i).map addr := by
  rw [Function.update_apply] at h'
  split at h'
  case isTrue he => subst he; exact hc addr n i h'
  case isFalse => exact h.writer t' addr n i h'

theorem Inv.store (h : Inv s) {t : Nat} {addr : Nat → UInt8} {n : Int} {i : Nat} {p : Pipe}
    {killed : Bool} (hc : s.calls t = some (.write addr n i))
    (hw : pipewrite killed addr n i s.pipe = .store p) :
    Inv ⟨p, Function.update s.calls t (some (.write addr n (i + 1))), s.stored ++ [(t, addr i)],
      s.got⟩ := by
  obtain ⟨hi, hlt, rfl⟩ := pipewrite_store hw h.bound
  obtain ⟨-, pre, hpre⟩ := h.writer t addr n i hc
  refine ⟨by rw [count_store _ hlt]; omega, ?_, fun t' addr' n' i' h' => ?_⟩
  · rw [contents_store _ hlt, ← List.append_assoc, h.fifo, List.map_append]
    rfl
  · dsimp only at h'
    rw [Function.update_apply] at h'
    split at h'
    case isTrue he =>
      -- the storing thread: one more byte of `addr`
      subst he
      cases h'
      refine ⟨by omega, pre, ?_⟩
      rw [mine_store, if_pos rfl, hpre, List.range_succ, List.map_append, List.append_assoc]
      rfl
    case isFalse hne =>
      obtain ⟨hle, pre', hpre'⟩ := h.writer t' addr' n' i' h'
      refine ⟨hle, pre', ?_⟩
      rw [mine_store, if_neg (Ne.symm hne), hpre']

theorem Inv.readRet (h : Inv s) {t : Nat} {n v : Int} {out : List UInt8} {p : Pipe}
    {killed : Bool} (hr : piperead killed n s.pipe = .ret v out p) :
    Inv ⟨p, Function.update s.calls t none, s.stored, s.got ++ out⟩ := by
  have hw : ∀ addr n i, (none : Option Call) = some (.write addr n i) →
      i ≤ n.toNat ∧ ∃ pre, s.mine t = pre ++ (List.range i).map addr := fun _ _ _ h => by cases h
  rcases piperead_ret hr with ⟨-, rfl, rfl⟩ | ⟨-, rfl, rfl, -⟩
  · exact ⟨h.bound, by rw [List.append_nil]; exact h.fifo, h.writer_update hw⟩
  · have hm : min n.toNat s.pipe.count ≤ s.pipe.count := Nat.min_le_right _ _
    refine ⟨by rw [count_advance hm]; exact le_trans (Nat.sub_le _ _) h.bound, ?_,
      h.writer_update hw⟩
    have hd : s.pipe.contents.drop (min n.toNat s.pipe.count) = s.pipe.contents.drop n.toNat := by
      rcases Nat.le_total n.toNat s.pipe.count with hk | hk
      · rw [Nat.min_eq_left hk]
      · rw [Nat.min_eq_right hk, List.drop_eq_nil_of_le (by simp),
          List.drop_eq_nil_of_le (by simp; omega)]
    show (s.got ++ s.pipe.contents.take n.toNat) ++ _ = _
    rw [contents_advance hm, hd, List.append_assoc, List.take_append_drop, h.fifo]

theorem Inv.step (h : Inv s) {s' : Sys} (hs : Step s s') : Inv s' := by
  cases hs with
  | beginWrite t addr n _ =>
    refine ⟨h.bound, h.fifo, h.writer_update fun addr' n' i' hc => ?_⟩
    cases hc
    exact ⟨Nat.zero_le _, s.mine t, by simp⟩
  | beginRead t n _ => exact ⟨h.bound, h.fifo, h.writer_update fun _ _ _ hc => by cases hc⟩
  | store killed hc hw => exact h.store hc hw
  | writeRet killed hc hw =>
    obtain ⟨rfl, -⟩ := pipewrite_ret hw
    exact ⟨h.bound, h.fifo, h.writer_update fun _ _ _ hc => by cases hc⟩
  | readRet killed hc hr => exact h.readRet hr
  | close w => exact ⟨by simpa using h.bound, by simpa using h.fifo, h.writer⟩

end Preservation

theorem Reach.inv {s : Sys} (hr : Reach s) : Inv s := by
  induction hr with
  | alloc data => exact Inv.alloc data
  | step _ hs ih => exact ih.step hs

/-- Along every interleaving of `pipewrite`, `piperead` and `pipeclose`: `nwrite - nread` is
at most `PIPESIZE`; the bytes `piperead` returned, followed by the ring's, are the bytes
`pipewrite` stored, in order; a `piperead` of `n > 0` bytes returns `0` only from an empty
ring whose write end is closed; and a `pipewrite` returns `n` only once its loop counter is
`n`, its last bytes stored being `addr[0..n)`. -/
theorem pipe_fifo {s : Sys} (hr : Reach s) :
    s.pipe.count ≤ pipesize ∧
      s.got ++ s.pipe.contents = s.stored.map Prod.snd ∧
      (∀ t n killed v out p, s.calls t = some (.read n) → piperead killed n s.pipe = .ret v out p →
        0 < n → v = 0 → s.pipe.nread = s.pipe.nwrite ∧ s.pipe.writeopen = false) ∧
      (∀ t addr n i killed p, s.calls t = some (.write addr n i) →
        pipewrite killed addr n i s.pipe = .ret n p →
        i = n.toNat ∧ ∃ pre, s.mine t = pre ++ (List.range n.toNat).map addr) := by
  have h := hr.inv
  refine ⟨h.bound, h.fifo, fun t n killed v out p _ hrd hn hv => ?_,
    fun t addr n i killed p hc hw => ?_⟩
  · rcases piperead_ret hrd with ⟨rfl, -, -⟩ | ⟨hopen, rfl, -, rfl⟩
    · omega
    · -- nothing was copied though `n > 0` bytes were asked for: the ring was empty
      have h0 : s.pipe.count = 0 := by
        simp only [List.length_take, length_contents] at hv
        omega
      have he := empty_iff.mpr h0
      exact ⟨he, by simpa [he] using hopen⟩
  · obtain ⟨hle, pre, hpre⟩ := h.writer t addr n i hc
    obtain ⟨-, ⟨-, hi⟩ | ⟨hn, hi⟩⟩ := pipewrite_ret hw
    · have hin : i = n.toNat := by omega
      exact ⟨hin, pre, by rw [← hin]; exact hpre⟩
    · omega

/-- A writer stores byte `7` and returns; a reader asks for `4` bytes and gets it. -/
theorem pipe_fifo_one_byte :
    ∃ s, Reach s ∧ s.got = [7] ∧ s.got ++ s.pipe.contents = s.stored.map Prod.snd := by
  have h0 := Reach.alloc fun _ => 0
  have h1 := h0.step (.beginWrite 0 (fun _ => 7) 1 rfl)
  have h2 := h1.step (.store (t := 0) false rfl rfl)
  have h3 := h2.step (.writeRet (t := 0) false rfl rfl)
  have h4 := h3.step (.beginRead 1 4 rfl)
  have h5 := h4.step (.readRet (t := 1) false rfl rfl)
  exact ⟨_, h5, rfl, (pipe_fifo h5).2.1⟩

end Xv6.Pipes
