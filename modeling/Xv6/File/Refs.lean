import Xv6.File.Basic
import Xv6.Lib.Sat

/-!
# Reference counts and pipe ends

Between two calls, each entry's `ref` is the number of descriptors, over all process slots,
that point to it (`holders`); inside a call the entries it holds itself count as well
(`Inv`'s `held`). An entry with `ref == 0` is `FD_NONE`, so `filealloc` hands out an entry
that no descriptor holds and whose last `fileclose` has nothing left to release. The pipe
ends are tracked by `PipeEnds`: an end is open exactly while one referenced entry holds it,
its `pipeclose` calls since `pipealloc` are 0 while it is open and 1 once it is closed, and a
page that holds a pipe has an open end, so `pipeclose` frees it with the second end.

Each call is built from `filealloc`, `fdalloc`, clearing a descriptor, `filedup`,
`fileclose` and the setting of an entry's type; `Inv.alloc`, `Inv.install`, `Inv.uninstall`,
`Inv.dup`, `Inv.close`, `Inv.setInode` and `Inv.setPipes` say what each does to the
invariant.
-/

namespace Xv6.Files

open Pipes CLoop

/-! ## Counting descriptors -/

/-- The descriptors, over all process slots, that point to `f`. -/
def holders (o : Ofile) (f : Fin nfile) : Nat :=
  ∑ x : Fin 64 × Fin nofile, if o x.1 x.2 = some f then 1 else 0

@[simp] theorem setOfile_self (o : Ofile) (i : Fin 64) (d : Fin nofile) (v : Option (Fin nfile)) :
    setOfile o i d v i d = v := by
  simp [setOfile]

theorem setOfile_of_ne (o : Ofile) {i j : Fin 64} {d e : Fin nofile} (v : Option (Fin nfile))
    (h : (j, e) ≠ (i, d)) : setOfile o i d v j e = o j e := by
  unfold setOfile
  by_cases hj : j = i
  · subst hj
    have he : e ≠ d := fun he => h (by rw [he])
    simp [he]
  · simp [hj]

/-- Setting one descriptor of `s` moves one count from its old file to its new one. The
sum is over any set of slots: over `Finset.univ` of `Fin 64 × Fin nofile` itself the
unifier unfolds the set. -/
theorem sum_setOfile (s : Finset (Fin 64 × Fin nofile)) (o : Ofile) {i : Fin 64} {d : Fin nofile}
    (hs : (i, d) ∈ s) (v : Option (Fin nfile)) (f : Fin nfile) :
    (∑ x ∈ s, if setOfile o i d v x.1 x.2 = some f then 1 else 0) +
        (if o i d = some f then 1 else 0) =
      (∑ x ∈ s, if o x.1 x.2 = some f then 1 else 0) + (if v = some f then 1 else 0) := by
  rw [← Finset.add_sum_erase _ _ hs, ← Finset.add_sum_erase _ _ hs]
  have hrest : ∑ x ∈ s.erase (i, d), (if setOfile o i d v x.1 x.2 = some f then 1 else 0) =
      ∑ x ∈ s.erase (i, d), (if o x.1 x.2 = some f then 1 else 0) := by
    refine Finset.sum_congr rfl fun x hx => ?_
    rw [setOfile_of_ne o v (Finset.ne_of_mem_erase hx)]
  rw [hrest]
  dsimp only
  rw [setOfile_self]
  omega

theorem holders_setOfile (o : Ofile) (i : Fin 64) (d : Fin nofile) (v : Option (Fin nfile))
    (f : Fin nfile) :
    holders (setOfile o i d v) f + (if o i d = some f then 1 else 0) =
      holders o f + (if v = some f then 1 else 0) :=
  sum_setOfile _ o (Finset.mem_univ _) v f

theorem holders_pos {o : Ofile} {i : Fin 64} {d : Fin nofile} {f : Fin nfile}
    (h : o i d = some f) : 0 < holders o f := by
  have := Finset.single_le_sum (f := fun x : Fin 64 × Fin nofile => if o x.1 x.2 = some f then 1 else 0)
    (fun _ _ => Nat.zero_le _) (Finset.mem_univ (i, d))
  simp only [h, if_true] at this
  exact this

/-! ## Pipe ends -/

/-- End `w` of the pipe is open: `writeopen` for the write end, `readopen` for the read end. -/
def endOpen (p : Pipe) (w : Bool) : Bool := if w then p.writeopen else p.readopen

@[simp] theorem endOpen_pipeclose (p : Pipe) (w w' : Bool) :
    endOpen (Pipes.pipeclose w p) w' = (endOpen p w' && w' != w) := by
  cases w <;> cases w' <;> simp [endOpen, Pipes.pipeclose]

@[simp] theorem endOpen_alloc (data : Fin pipesize → UInt8) (w : Bool) :
    endOpen (Pipe.alloc data) w = true := by
  cases w <;> rfl

/-- `ends f` is the pipe end entry `f` holds. Each end is held by at most one entry, and it
is open exactly while one holds it; a page holding a pipe has an open end; and `closes`
counts the `pipeclose` calls on each end: none while it is open, one once it is closed, and
alike for both ends of a page that holds no pipe. -/
structure PipeEnds (ends : Fin nfile → Option (Nat × Bool)) (pages : Nat → Option Pipe)
    (closes : Nat → Bool → Nat) : Prop where
  end_open : ∀ f k w, ends f = some (k, w) → ∃ p, pages k = some p ∧ endOpen p w = true
  end_inj : ∀ f g e, ends f = some e → ends g = some e → f = g
  open_end : ∀ k p w, pages k = some p → endOpen p w = true → ∃ f, ends f = some (k, w)
  page_live : ∀ k p, pages k = some p → p.readopen = true ∨ p.writeopen = true
  closes_eq : ∀ k p w, pages k = some p → closes k w = if endOpen p w then 0 else 1
  closes_le : ∀ k w, closes k w ≤ 1
  freed_eq : ∀ k, pages k = none → closes k false = closes k true

section Ends

variable {ends : Fin nfile → Option (Nat × Bool)} {pages : Nat → Option Pipe}
  {closes : Nat → Bool → Nat}

/-- `pipeclose` of the end entry `f` held, with `kfree` once both ends are closed. -/
theorem PipeEnds.close (h : PipeEnds ends pages closes) {f : Fin nfile} {k : Nat} {w : Bool}
    {p : Pipe} (hf : ends f = some (k, w)) (hp : pages k = some p) :
    PipeEnds (Function.update ends f none)
      (Function.update pages k
        (if !(Pipes.pipeclose w p).readopen && !(Pipes.pipeclose w p).writeopen then none
          else some (Pipes.pipeclose w p)))
      (Function.update closes k (Function.update (closes k) w (closes k w + 1))) := by
  obtain ⟨p₀, hp₀, hw⟩ := h.end_open f k w hf
  rw [hp] at hp₀
  cases hp₀
  -- another entry holds another end, or the other end of this pipe
  have hother : ∀ g k' w', Function.update ends f none g = some (k', w') →
      ends g = some (k', w') ∧ g ≠ f ∧ (k' = k → w' = !w) := by
    intro g k' w' hg
    by_cases hgf : g = f
    · subst hgf; simp at hg
    · rw [Function.update_of_ne hgf] at hg
      refine ⟨hg, hgf, fun hk => ?_⟩
      subst hk
      have hne : w' ≠ w := fun hww => hgf (h.end_inj g f _ hg (by rw [hf, hww]))
      cases w <;> cases w' <;> simp_all
  -- the end `w` was open, so the page stays while the other end is open
  have hkeep : endOpen p (!w) = true →
      (if !(Pipes.pipeclose w p).readopen && !(Pipes.pipeclose w p).writeopen then none
        else some (Pipes.pipeclose w p)) = some (Pipes.pipeclose w p) := by
    intro ho
    cases w <;> simp_all [endOpen, Pipes.pipeclose]
  refine ⟨fun g k' w' hg => ?_, fun g g' e hg hg' => ?_, fun k' p' w' hk' ho => ?_,
    fun k' p' hk' => ?_, fun k' p' w' hk' => ?_, fun k' w' => ?_, fun k' hk' => ?_⟩
  · obtain ⟨hg, -, hkw⟩ := hother g k' w' hg
    obtain ⟨p', hp', ho⟩ := h.end_open g k' w' hg
    by_cases hk : k' = k
    · subst hk
      rw [hp] at hp'
      cases hp'
      rw [hkw rfl] at ho ⊢
      rw [Function.update_self, hkeep ho]
      exact ⟨_, rfl, by simp [ho]⟩
    · rw [Function.update_of_ne hk]
      exact ⟨p', hp', ho⟩
  · exact h.end_inj g g' e (hother g _ _ (by rw [hg])).1 (hother g' _ _ (by rw [hg'])).1
  · by_cases hk : k' = k
    · subst hk
      rw [Function.update_self] at hk'
      split at hk'
      · cases hk'
      · cases hk'
        simp only [endOpen_pipeclose, Bool.and_eq_true, bne_iff_ne, ne_eq] at ho
        obtain ⟨g, hg⟩ := h.open_end k' p w' hp ho.1
        have hgf : g ≠ f := fun hgf => ho.2 (by rw [hgf, hf] at hg; cases hg; rfl)
        exact ⟨g, by rw [Function.update_of_ne hgf]; exact hg⟩
    · rw [Function.update_of_ne hk] at hk'
      obtain ⟨g, hg⟩ := h.open_end k' p' w' hk' ho
      have hgf : g ≠ f := fun hgf => hk (by rw [hgf, hf] at hg; cases hg; rfl)
      exact ⟨g, by rw [Function.update_of_ne hgf]; exact hg⟩
  · by_cases hk : k' = k
    · subst hk
      rw [Function.update_self] at hk'
      split at hk'
      · cases hk'
      · rename_i hn
        cases hk'
        rcases Bool.eq_false_or_eq_true (Pipes.pipeclose w p).readopen with hr | hr
        · exact .inl hr
        · right
          simpa [hr] using hn
    · rw [Function.update_of_ne hk] at hk'
      exact h.page_live k' p' hk'
  · by_cases hk : k' = k
    · subst hk
      rw [Function.update_self] at hk'
      split at hk'
      · cases hk'
      · cases hk'
        rw [Function.update_self]
        by_cases hww : w' = w
        · subst hww
          rw [Function.update_self, h.closes_eq k' p w' hp, hw]
          simp
        · rw [Function.update_of_ne hww, h.closes_eq k' p w' hp]
          simp [hww]
    · rw [Function.update_of_ne hk] at hk' ⊢
      exact h.closes_eq k' p' w' hk'
  · by_cases hk : k' = k
    · subst hk
      rw [Function.update_self]
      by_cases hww : w' = w
      · subst hww
        rw [Function.update_self, h.closes_eq k' p w' hp, hw]
        simp
      · rw [Function.update_of_ne hww]
        exact h.closes_le k' w'
    · rw [Function.update_of_ne hk]
      exact h.closes_le k' w'
  · by_cases hk : k' = k
    · subst hk
      rw [Function.update_self] at hk'
      split at hk'
      · rename_i hn
        -- the page goes with its second end: the end `w` now, the other one before
        have hother : endOpen p (!w) = false := by
          cases w <;> simpa [endOpen, Pipes.pipeclose] using hn
        have hc := h.closes_eq k' p (!w) hp
        have hcw := h.closes_eq k' p w hp
        rw [hother] at hc
        rw [hw] at hcw
        simp only [Bool.false_eq_true, if_false, if_true] at hc hcw
        rw [Function.update_self]
        cases w <;> simp only [Bool.not_false, Bool.not_true] at hc <;>
          simp [hc, hcw]
      · cases hk'
    · rw [Function.update_of_ne hk] at hk' ⊢
      exact h.freed_eq k' hk'

/-- `pipealloc` of page `k`, which held no pipe, for the entries `rf` and `wf`, which held no
end. -/
theorem PipeEnds.alloc (h : PipeEnds ends pages closes) {rf wf : Fin nfile} {k : Nat}
    (hrw : rf ≠ wf) (hr : ends rf = none) (hw : ends wf = none) (hk : pages k = none)
    (data : Fin pipesize → UInt8) :
    PipeEnds (Function.update (Function.update ends rf (some (k, false))) wf (some (k, true)))
      (Function.update pages k (some (Pipe.alloc data)))
      (Function.update closes k fun _ => 0) := by
  -- no entry held an end of a pipe in page `k`
  have hold : ∀ g k' w', ends g = some (k', w') → k' ≠ k := by
    intro g k' w' hg hk'
    obtain ⟨p, hp, -⟩ := h.end_open g k' w' hg
    rw [hk', hk] at hp
    cases hp
  have hchar : ∀ g k' w',
      Function.update (Function.update ends rf (some (k, false))) wf (some (k, true)) g =
        some (k', w') ↔ (k' = k ∧ g = if w' then wf else rf) ∨ (k' ≠ k ∧ ends g = some (k', w')) := by
    intro g k' w'
    by_cases hgw : g = wf
    · subst hgw
      rw [Function.update_self]
      constructor
      · intro he; cases he; exact .inl ⟨rfl, rfl⟩
      · rintro (⟨rfl, hg⟩ | ⟨-, hg⟩)
        · cases w'
          · simp only [Bool.false_eq_true, if_false] at hg
            exact absurd hg.symm hrw
          · rfl
        · rw [hw] at hg; cases hg
    · rw [Function.update_of_ne hgw]
      by_cases hgr : g = rf
      · subst hgr
        rw [Function.update_self]
        constructor
        · intro he; cases he; exact .inl ⟨rfl, rfl⟩
        · rintro (⟨rfl, hg⟩ | ⟨-, hg⟩)
          · cases w'
            · rfl
            · simp only [if_true] at hg
              exact absurd hg hrw
          · rw [hr] at hg; cases hg
      · rw [Function.update_of_ne hgr]
        constructor
        · intro hg; exact .inr ⟨hold g k' w' hg, hg⟩
        · rintro (⟨rfl, hg⟩ | ⟨-, hg⟩)
          · cases w'
            · exact absurd hg hgr
            · exact absurd hg hgw
          · exact hg
  refine ⟨fun g k' w' hg => ?_, fun g g' e hg hg' => ?_, fun k' p w' hk' ho => ?_,
    fun k' p hk' => ?_, fun k' p w' hk' => ?_, fun k' w' => ?_, fun k' hk' => ?_⟩
  · rcases (hchar g k' w').mp hg with ⟨rfl, -⟩ | ⟨hne, hg⟩
    · exact ⟨_, Function.update_self .., endOpen_alloc data w'⟩
    · rw [Function.update_of_ne hne]
      exact h.end_open g k' w' hg
  · obtain ⟨k', w'⟩ := e
    rcases (hchar g k' w').mp hg with ⟨hk1, rfl⟩ | ⟨hne1, hg⟩ <;>
      rcases (hchar g' k' w').mp hg' with ⟨hk2, rfl⟩ | ⟨hne2, hg'⟩
    · rfl
    · exact absurd hk1 hne2
    · exact absurd hk2 hne1
    · exact h.end_inj g g' _ hg hg'
  · by_cases hkk : k' = k
    · exact ⟨_, (hchar _ k' w').mpr (.inl ⟨hkk, rfl⟩)⟩
    · rw [Function.update_of_ne hkk] at hk'
      obtain ⟨g, hg⟩ := h.open_end k' p w' hk' ho
      exact ⟨g, (hchar g k' w').mpr (.inr ⟨hkk, hg⟩)⟩
  · by_cases hkk : k' = k
    · subst hkk
      rw [Function.update_self] at hk'
      cases hk'
      exact .inl rfl
    · rw [Function.update_of_ne hkk] at hk'
      exact h.page_live k' p hk'
  · by_cases hkk : k' = k
    · subst hkk
      rw [Function.update_self] at hk' ⊢
      cases hk'
      simp
    · rw [Function.update_of_ne hkk] at hk' ⊢
      exact h.closes_eq k' p w' hk'
  · by_cases hkk : k' = k
    · subst hkk
      rw [Function.update_self]
      exact Nat.zero_le 1
    · rw [Function.update_of_ne hkk]
      exact h.closes_le k' w'
  · by_cases hkk : k' = k
    · subst hkk
      rw [Function.update_self] at hk'
      cases hk'
    · rw [Function.update_of_ne hkk] at hk' ⊢
      exact h.freed_eq k' hk'

theorem PipeEnds.congr {ends' : Fin nfile → Option (Nat × Bool)} (h : PipeEnds ends pages closes)
    (he : ∀ f, ends' f = ends f) : PipeEnds ends' pages closes := by
  rw [show ends' = ends from funext he]
  exact h

end Ends

/-! ## The invariant -/

/-- The end of a pipe an entry holds while it is referenced. -/
def File.pipeEnd (fl : File) : Option (Nat × Bool) :=
  if 0 < fl.ref ∧ fl.type = .pipe then some (fl.pipe, fl.writable) else none

theorem File.pipeEnd_of_type {fl : File} (h : fl.type ≠ .pipe) : fl.pipeEnd = none := by
  simp [File.pipeEnd, h]

/-- Every reference is a descriptor or one of those `held` by the call in progress; a free
entry is `FD_NONE`; and an entry's `pipeclose` or `iput` comes at most once, after its last
reference. -/
structure Counted (s : Sys) (held : List (Fin nfile)) : Prop where
  ref : ∀ f, (s.ft f).ref = holders s.ofile f + held.count f
  free : ∀ f, (s.ft f).ref = 0 → (s.ft f).type = .none
  unreleased : ∀ f, 0 < (s.ft f).ref → s.released f = 0
  released_le : ∀ f, s.released f ≤ 1

/-- `Counted`, and `PipeEnds` for the ends the entries hold. -/
structure Inv (s : Sys) (held : List (Fin nfile)) : Prop extends Counted s held where
  ends : PipeEnds (fun f => (s.ft f).pipeEnd) s.pages s.closes

theorem inv_boot : Inv Sys.boot [] where
  ref f := by simp [Sys.boot, holders, File.zero]
  free _ _ := rfl
  unreleased _ _ := rfl
  released_le _ := Nat.zero_le 1
  ends := ⟨fun _ _ _ h => by simp [Sys.boot, File.pipeEnd, File.zero] at h,
    fun _ _ _ h => by simp [Sys.boot, File.pipeEnd, File.zero] at h,
    fun _ _ _ h => by simp [Sys.boot] at h, fun _ _ h => by simp [Sys.boot] at h,
    fun _ _ _ h => by simp [Sys.boot] at h, fun _ _ => Nat.zero_le 1, fun _ _ => rfl⟩

variable {s : Sys} {held : List (Fin nfile)}

theorem Inv.ref_pos (h : Inv s held) {f : Fin nfile} (hf : f ∈ held) : 0 < (s.ft f).ref := by
  have := List.count_pos_iff.mpr hf
  rw [h.ref f]
  omega

/-! ## The steps of a call -/

/-- Entry `f` replaced, with its ghost count, keeping the other entries' counts. -/
theorem Counted.setEntry (h : Counted s held) {f : Fin nfile} {fl : File} {r : Nat}
    {held' : List (Fin nfile)} (hcount : ∀ g, g ≠ f → held'.count g = held.count g)
    (href : fl.ref = holders s.ofile f + held'.count f) (hfree : fl.ref = 0 → fl.type = .none)
    (hr : r ≤ 1) (hrel : 0 < fl.ref → r = 0) :
    Counted { s with
      ft := Function.update s.ft f fl
      released := Function.update s.released f r } held' := by
  refine ⟨fun g => ?_, fun g hg => ?_, fun g hg => ?_, fun g => ?_⟩ <;>
    dsimp only at * <;> by_cases hgf : g = f
  · subst hgf; rw [Function.update_self]; exact href
  · rw [Function.update_of_ne hgf, hcount g hgf]; exact h.ref g
  · subst hgf; rw [Function.update_self] at hg ⊢; exact hfree hg
  · rw [Function.update_of_ne hgf] at hg ⊢; exact h.free g hg
  · subst hgf; rw [Function.update_self] at hg ⊢; exact hrel hg
  · rw [Function.update_of_ne hgf] at hg ⊢; exact h.unreleased g hg
  · subst hgf; rw [Function.update_self]; exact hr
  · rw [Function.update_of_ne hgf]; exact h.released_le g

/-- `Counted` does not look at the pages. -/
theorem Counted.pages (h : Counted s held) (pg : Nat → Option Pipe) (cl : Nat → Bool → Nat) :
    Counted { s with pages := pg, closes := cl } held :=
  ⟨h.ref, h.free, h.unreleased, h.released_le⟩

/-- `Counted.setEntry` with every pipe end kept. -/
theorem Inv.setEntry (h : Inv s held) {f : Fin nfile} {fl : File} {r : Nat}
    {held' : List (Fin nfile)} (hcount : ∀ g, g ≠ f → held'.count g = held.count g)
    (href : fl.ref = holders s.ofile f + held'.count f) (hfree : fl.ref = 0 → fl.type = .none)
    (hr : r ≤ 1) (hrel : 0 < fl.ref → r = 0) (hend : fl.pipeEnd = (s.ft f).pipeEnd) :
    Inv { s with
      ft := Function.update s.ft f fl
      released := Function.update s.released f r } held' := by
  refine ⟨h.toCounted.setEntry hcount href hfree hr hrel, h.ends.congr fun g => ?_⟩
  by_cases hgf : g = f
  · subst hgf
    dsimp only
    rw [Function.update_self]
    exact hend
  · dsimp only
    rw [Function.update_of_ne hgf]

/-- `Inv.setEntry` for a change that leaves the ghost count alone. -/
theorem Inv.setRef (h : Inv s held) {f : Fin nfile} {fl : File} {held' : List (Fin nfile)}
    (hcount : ∀ g, g ≠ f → held'.count g = held.count g)
    (href : fl.ref = holders s.ofile f + held'.count f) (hfree : fl.ref = 0 → fl.type = .none)
    (hrel : 0 < fl.ref → s.released f = 0) (hend : fl.pipeEnd = (s.ft f).pipeEnd) :
    Inv { s with ft := Function.update s.ft f fl } held' := by
  have h' := h.setEntry hcount href hfree (h.released_le f) hrel hend
  rwa [Function.update_eq_self] at h'

/-- `filealloc`'s entry `f`, taken by the call. -/
theorem Inv.alloc (h : Inv s held) {f : Fin nfile} (hf : (s.ft f).ref = 0) :
    Inv { s with
      ft := Function.update s.ft f { s.ft f with ref := 1 }
      released := Function.update s.released f 0 } (f :: held) := by
  have := h.ref f
  have htype := h.free f hf
  refine h.setEntry (fun g hg => List.count_cons_of_ne (Ne.symm hg)) ?_
    (fun h1 => absurd h1 (by dsimp only; decide)) (Nat.zero_le 1) (fun _ => rfl) ?_
  · rw [List.count_cons_self]
    push_cast
    omega
  · rw [File.pipeEnd_of_type (by dsimp only; rw [htype]; decide),
      File.pipeEnd_of_type (by rw [htype]; decide)]

/-- A change of the descriptors and of the held references that keeps every count. -/
theorem Inv.recount (h : Inv s held) {o : Ofile} {held' : List (Fin nfile)}
    (hc : ∀ f, holders o f + held'.count f = holders s.ofile f + held.count f) :
    Inv { s with ofile := o } held' := by
  refine ⟨⟨fun f => ?_, h.free, h.unreleased, h.released_le⟩, h.ends⟩
  have := hc f
  have := h.ref f
  dsimp only
  omega

/-- `fdalloc` puts a held entry in the empty descriptor `d`. -/
theorem Inv.install (h : Inv s held) {cur : Fin 64} {d : Fin nofile} {f : Fin nfile}
    (hd : s.ofile cur d = none) (hf : f ∈ held) :
    Inv { s with ofile := setOfile s.ofile cur d (some f) } (held.erase f) := by
  refine h.recount fun g => ?_
  have hs := holders_setOfile s.ofile cur d (some f) g
  rw [hd] at hs
  by_cases hgf : g = f
  · subst hgf
    have := List.count_pos_iff.mpr hf
    rw [List.count_erase_self]
    simp only [reduceCtorEq, if_false, if_true] at hs
    omega
  · rw [List.count_erase_of_ne hgf]
    simp only [reduceCtorEq, if_false, Option.some.injEq, Ne.symm hgf] at hs
    omega

/-- Descriptor `d` cleared: its entry is held by the call. -/
theorem Inv.uninstall (h : Inv s held) {cur : Fin 64} {d : Fin nofile} {f : Fin nfile}
    (hd : s.ofile cur d = some f) :
    Inv { s with ofile := setOfile s.ofile cur d none } (f :: held) := by
  refine h.recount fun g => ?_
  have hs := holders_setOfile s.ofile cur d none g
  rw [hd] at hs
  by_cases hgf : g = f
  · subst hgf
    rw [List.count_cons_self]
    simp only [reduceCtorEq, if_false, if_true] at hs
    omega
  · rw [List.count_cons_of_ne (Ne.symm hgf)]
    simp only [reduceCtorEq, if_false, Option.some.injEq, Ne.symm hgf] at hs
    omega

theorem filedup_eq {ft : Fin nfile → File} {f : Fin nfile} (h : 0 < (ft f).ref) :
    filedup f ft = .ok (Function.update ft f { ft f with ref := (ft f).ref + 1 }) := by
  unfold filedup
  rw [if_neg (by omega)]

/-- `filedup` of an entry with a reference: the new one is held by the call. -/
theorem Inv.dup (h : Inv s held) {f : Fin nfile} (hf : 0 < (s.ft f).ref) :
    Inv { s with ft := Function.update s.ft f { s.ft f with ref := (s.ft f).ref + 1 } }
      (f :: held) := by
  have := h.ref f
  refine h.setRef (fun g hg => List.count_cons_of_ne (Ne.symm hg)) ?_
    (fun h0 => absurd h0 (by dsimp only; omega)) (fun _ => h.unreleased f hf) ?_
  · rw [List.count_cons_self]
    push_cast
    omega
  · simp only [File.pipeEnd]
    congr 1
    simp only [eq_iff_iff, and_congr_left_iff]
    intro _
    omega

/-- What the last `fileclose` of an entry releases. -/
def File.release (fl : File) : Release :=
  match fl.type with
  | .pipe => .pipe fl.pipe fl.writable
  | .inode => .iput fl.ip
  | .none => .none

theorem fileclose_of_gt {ft : Fin nfile → File} {f : Fin nfile} (h : 1 < (ft f).ref) :
    Files.fileclose f ft =
      .ok (.none, Function.update ft f { ft f with ref := (ft f).ref - 1 }) := by
  unfold Files.fileclose
  rw [if_neg (by omega), if_pos (by omega)]

theorem fileclose_of_eq {ft : Fin nfile → File} {f : Fin nfile} (h : (ft f).ref = 1) :
    Files.fileclose f ft =
      .ok ((ft f).release, Function.update ft f { ft f with ref := 0, type := .none }) := by
  unfold Files.fileclose
  rw [if_neg (by omega), if_neg (by omega)]
  cases ht : (ft f).type <;> simp [File.release, ht]

/-- `fileclose` of a held entry: the call no longer holds it, and the last reference releases
the entry's pipe end or inode. -/
theorem Inv.close (h : Inv s held) {f : Fin nfile} (hf : f ∈ held) :
    ∃ s', s.fileclose f = .ok s' ∧ Inv s' (held.erase f) ∧ s'.ofile = s.ofile := by
  have hpos := h.ref_pos hf
  have href := h.ref f
  have hcnt := List.count_pos_iff.mpr hf
  have hc : ∀ g, g ≠ f → (held.erase f).count g = held.count g :=
    fun g hg => List.count_erase_of_ne hg
  have hcf : (held.erase f).count f = held.count f - 1 := List.count_erase_self
  rcases lt_or_eq_of_le (show 1 ≤ (s.ft f).ref by omega) with hgt | heq
  · -- other references remain
    refine ⟨_, by rw [Sys.fileclose, fileclose_of_gt hgt]; rfl,
      h.setRef hc ?_ (fun h0 => absurd h0 (by dsimp only; omega)) (fun _ => h.unreleased f hpos) ?_,
      rfl⟩
    · dsimp only
      rw [hcf]
      omega
    · simp only [File.pipeEnd]
      congr 1
      simp only [eq_iff_iff, and_congr_left_iff]
      intro _
      omega
  · -- the last reference: the entry is free again
    have hfl : (held.erase f).count f = 0 ∧ holders s.ofile f = 0 := by omega
    have hcount : Counted { s with
        ft := Function.update s.ft f { s.ft f with ref := 0, type := .none }
        released := Function.update s.released f
          (if (s.ft f).type = .none then s.released f else s.released f + 1) } (held.erase f) :=
      h.toCounted.setEntry hc (by dsimp only; omega) (fun _ => rfl)
        (by have := h.unreleased f hpos; split <;> omega)
        (fun h0 => absurd h0 (by dsimp only; decide))
    -- the entry's end after the close: none, and elsewhere as before
    have hend : ∀ g, (Function.update s.ft f { s.ft f with ref := 0, type := .none } g).pipeEnd =
        Function.update (fun g => (s.ft g).pipeEnd) f none g := by
      intro g
      by_cases hgf : g = f
      · subst hgf
        rw [Function.update_self, Function.update_self,
          File.pipeEnd_of_type (by dsimp only; decide)]
      · rw [Function.update_of_ne hgf, Function.update_of_ne hgf]
    cases ht : (s.ft f).type with
    | none =>
      simp only [ht, if_true, Function.update_eq_self] at hcount
      refine ⟨_, by rw [Sys.fileclose, fileclose_of_eq heq.symm, File.release, ht]; rfl,
        ⟨hcount, h.ends.congr fun g => ?_⟩, rfl⟩
      rw [hend g]
      by_cases hgf : g = f
      · subst hgf
        rw [Function.update_self, File.pipeEnd_of_type (by rw [ht]; decide)]
      · rw [Function.update_of_ne hgf]
    | inode =>
      simp only [ht, reduceCtorEq, if_false] at hcount
      refine ⟨_, by rw [Sys.fileclose, fileclose_of_eq heq.symm, File.release, ht]; rfl,
        ⟨hcount, h.ends.congr fun g => ?_⟩, rfl⟩
      rw [hend g]
      by_cases hgf : g = f
      · subst hgf
        rw [Function.update_self, File.pipeEnd_of_type (by rw [ht]; decide)]
      · rw [Function.update_of_ne hgf]
    | pipe =>
      simp only [ht, reduceCtorEq, if_false] at hcount
      have hf' : (s.ft f).pipeEnd = some ((s.ft f).pipe, (s.ft f).writable) := by
        simp [File.pipeEnd, ht, hpos]
      obtain ⟨p, hp, -⟩ := h.ends.end_open f _ _ hf'
      refine ⟨?s', ?run, ?inv, ?ofile⟩
      case run =>
        rw [Sys.fileclose, fileclose_of_eq heq.symm, ok_bind]
        simp only [File.release, ht, Sys.pipeclose, hp]
        rfl
      case inv => exact ⟨hcount.pages _ _, (h.ends.close hf' hp).congr hend⟩
      case ofile => rfl

/-- New types for entries, with every `ref` kept and no free entry given a type. -/
theorem Counted.retype (h : Counted s held) {ft : Fin nfile → File}
    (href : ∀ g, (ft g).ref = (s.ft g).ref) (hfree : ∀ g, (ft g).ref = 0 → (ft g).type = .none) :
    Counted { s with ft := ft } held :=
  ⟨fun g => (href g).trans (h.ref g), hfree, fun g hg => h.unreleased g ((href g) ▸ hg),
    h.released_le⟩

/-- `sys_open` gives its entry the inode. -/
theorem Inv.setInode (h : Inv s held) {f : Fin nfile} (hpos : 0 < (s.ft f).ref)
    (htype : (s.ft f).type = .none) (ip : Nat) (r w : Bool) :
    Inv { s with
      ft := Function.update s.ft f
        { s.ft f with type := .inode, ip := ip, readable := r, writable := w } } held := by
  refine h.setRef (fun _ _ => rfl) (h.ref f) (fun h0 => absurd h0 (by dsimp only; omega))
    (fun _ => h.unreleased f hpos) ?_
  rw [File.pipeEnd_of_type (by dsimp only; decide), File.pipeEnd_of_type (by rw [htype]; decide)]

theorem setPipeEnd_self (ft : Fin nfile → File) (f : Fin nfile) (w : Bool) (k : Nat) :
    setPipeEnd ft f w k f = { ft f with type := .pipe, readable := !w, writable := w, pipe := k } :=
  Function.update_self ..

theorem setPipeEnd_of_ne (ft : Fin nfile → File) {f g : Fin nfile} (w : Bool) (k : Nat)
    (h : g ≠ f) : setPipeEnd ft f w k g = ft g :=
  Function.update_of_ne h ..

/-- `pipealloc` makes its two entries the ends of a pipe in the page `k`. -/
theorem Inv.setPipes (h : Inv s held) {rf wf : Fin nfile} {k : Nat} (hrw : rf ≠ wf)
    (hr : 0 < (s.ft rf).ref ∧ (s.ft rf).type = .none)
    (hw : 0 < (s.ft wf).ref ∧ (s.ft wf).type = .none) (hk : s.pages k = none)
    (data : Fin pipesize → UInt8) :
    Inv { s with
      ft := setPipeEnd (setPipeEnd s.ft rf false k) wf true k
      pages := Function.update s.pages k (some (Pipe.alloc data))
      closes := Function.update s.closes k fun _ => 0 } held := by
  have hwr : wf ≠ rf := Ne.symm hrw
  -- the two entries, and the others as they were
  have hft : ∀ g, setPipeEnd (setPipeEnd s.ft rf false k) wf true k g =
      if g = wf then { s.ft wf with type := .pipe, readable := false, writable := true, pipe := k }
      else if g = rf then
        { s.ft rf with type := .pipe, readable := true, writable := false, pipe := k }
      else s.ft g := by
    intro g
    by_cases hgw : g = wf
    · subst hgw
      rw [setPipeEnd_self, setPipeEnd_of_ne _ _ _ hwr, if_pos rfl]
      rfl
    · rw [setPipeEnd_of_ne _ _ _ hgw, if_neg hgw]
      by_cases hgr : g = rf
      · subst hgr
        rw [setPipeEnd_self, if_pos rfl]
        rfl
      · rw [setPipeEnd_of_ne _ _ _ hgr, if_neg hgr]
  refine ⟨(h.toCounted.retype (fun g => ?_) (fun g hg => ?_)).pages _ _, ?_⟩
  · show (setPipeEnd (setPipeEnd s.ft rf false k) wf true k g).ref = (s.ft g).ref
    rw [hft g]
    split_ifs with h1 h2
    · subst h1; rfl
    · subst h2; rfl
    · rfl
  · change (setPipeEnd (setPipeEnd s.ft rf false k) wf true k g).ref = 0 at hg
    show (setPipeEnd (setPipeEnd s.ft rf false k) wf true k g).type = .none
    rw [hft g] at hg ⊢
    split_ifs at hg ⊢ with h1 h2
    · subst h1; exact absurd hg (by dsimp only; omega)
    · subst h2; exact absurd hg (by dsimp only; omega)
    · exact h.free g hg
  · refine (h.ends.alloc hrw (File.pipeEnd_of_type (by rw [hr.2]; decide))
      (File.pipeEnd_of_type (by rw [hw.2]; decide)) hk data).congr fun g => ?_
    show (setPipeEnd (setPipeEnd s.ft rf false k) wf true k g).pipeEnd = _
    rw [hft g]
    by_cases hgw : g = wf
    · subst hgw
      rw [if_pos rfl, Function.update_self]
      simp [File.pipeEnd, hw.1]
    · rw [if_neg hgw, Function.update_of_ne hgw]
      by_cases hgr : g = rf
      · subst hgr
        rw [if_pos rfl, Function.update_self]
        simp [File.pipeEnd, hr.1]
      · rw [if_neg hgr, Function.update_of_ne hgr]

end Xv6.Files
