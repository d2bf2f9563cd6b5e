import Xv6.Proc.Table

/-!
# `kill` and slot reuse

`kill(pid)` matches `pid` against every slot, `UNUSED` ones included, and
`allocproc` never writes `killed`. A fresh slot holds `pid = 0`, and a slot
that `fork` gave back after a failed `copyuvm` keeps the pid it was given, so
`kill` can succeed on a slot no process holds (`kill_eq_zero_iff`), and the
flag it sets there is inherited by the next process `allocproc` puts in the
slot (`fork_spec`, `kill_then_fork_child_killed`). From `userinit`, `kill(0)`
followed by a `fork` does it.
-/

namespace Xv6.Process

theorem PTable.first_congr {t t' : PTable} {f g : Proc → Bool}
    (h : ∀ j, f (t.proc j) = g (t'.proc j)) : t.first f = t'.first g := by
  simp only [PTable.first, h]

/-! ## `kill` -/

/-- `kill` returns `0` exactly when some slot, in any state, holds the pid. -/
theorem kill_eq_zero_iff (pid : Int32) (t : PTable) :
    (kill pid t).1 = 0 ↔ ∃ i, (t.proc i).pid = pid := by
  unfold kill
  split
  case h_1 i hi =>
    exact ⟨fun _ => ⟨i, by simpa using PTable.first_spec hi⟩, fun _ => rfl⟩
  case h_2 hn =>
    refine ⟨fun h => absurd (show (-1 : Int32) = 0 from h) (by decide), fun ⟨i, hi⟩ => ?_⟩
    have := PTable.first_eq_none.mp hn i
    simp [hi] at this

/-- `kill` sets `killed` on the first slot holding the pid and on no other. -/
theorem kill_killed (pid : Int32) (t : PTable) (j : Fin 64) :
    ((kill pid t).2.proc j).killed =
      if t.first (·.pid = pid) = some j then 1 else (t.proc j).killed := by
  unfold kill
  split
  case h_1 i hi =>
    by_cases hj : j = i
    · subst hj; simp [hi]
    · rw [PTable.set_proc_ne _ _ hj, if_neg (by rw [hi]; exact fun h => hj (Option.some_inj.mp h).symm)]
  case h_2 hn => simp [hn]

theorem kill_state_unused (pid : Int32) (t : PTable) (j : Fin 64) :
    ((kill pid t).2.proc j).state = .unused ↔ (t.proc j).state = .unused := by
  unfold kill
  split
  case h_1 i hi =>
    by_cases hj : j = i
    · subst hj
      simp only [PTable.set_proc_self]
      split <;> simp_all
    · rw [PTable.set_proc_ne _ _ hj]
  case h_2 => rfl

theorem kill_first_unused (pid : Int32) (t : PTable) :
    (kill pid t).2.first (·.state = .unused) = t.first (·.state = .unused) := by
  refine PTable.first_congr fun j => ?_
  simp only [decide_eq_decide]
  exact kill_state_unused pid t j

theorem kill_nextpid (pid : Int32) (t : PTable) : (kill pid t).2.nextpid = t.nextpid := by
  unfold kill
  split <;> rfl

/-! ## `allocproc` and `fork` -/

/-- `allocproc` writes `state` and `pid`, never `killed`. -/
theorem allocproc_killed (kallocOk : Bool) (t : PTable) (j : Fin 64) :
    ((allocproc kallocOk t).2.proc j).killed = (t.proc j).killed := by
  unfold allocproc
  split
  case h_1 => rfl
  case h_2 i hi =>
    by_cases hj : j = i
    · subst hj; cases kallocOk <;> simp [PTable.set]
    · cases kallocOk <;> simp [PTable.set, hj]

/-- A `fork` that succeeds puts the child in the first `UNUSED` slot with the next pid, and
keeps every other field of the slot, `killed` among them. -/
theorem fork_spec (cur : Fin 64) {t : PTable} {i : Fin 64}
    (hi : t.first (·.state = .unused) = some i) :
    fork cur true true t = (t.nextpid,
      { t.set i { t.proc i with state := .runnable, pid := t.nextpid, parent := some cur } with
        nextpid := t.nextpid + 1 }) := by
  simp only [fork, allocproc, hi, if_true, PTable.set_proc_self]
  refine Prod.ext rfl ?_
  simp only [PTable.set, Function.update_idem]

theorem fork_killed (cur : Fin 64) (kallocOk copyuvmOk : Bool) (t : PTable) (j : Fin 64) :
    ((fork cur kallocOk copyuvmOk t).2.proc j).killed = (t.proc j).killed := by
  have ha := allocproc_killed kallocOk t j
  unfold fork
  split
  case h_1 t' heq => rw [heq] at ha; exact ha
  case h_2 i t' heq =>
    rw [heq] at ha
    by_cases hj : j = i
    · subst hj; split <;> simpa using ha
    · split <;> rwa [PTable.set_proc_ne _ _ hj]

/-- A `kill` of the pid a free slot holds, then a `fork` that fills that slot: the child
starts killed. -/
theorem kill_then_fork_child_killed (cur : Fin 64) {pid : Int32} {t : PTable} {i : Fin 64}
    (hu : t.first (·.state = .unused) = some i) (hp : t.first (·.pid = pid) = some i) :
    (fork cur true true (kill pid t).2).1 = t.nextpid ∧
      ((fork cur true true (kill pid t).2).2.proc i).killed = 1 := by
  have hu' : (kill pid t).2.first (·.state = .unused) = some i := by
    rw [kill_first_unused, hu]
  have hk : ((kill pid t).2.proc i).killed = 1 := by rw [kill_killed, if_pos hp]
  rw [fork_spec cur hu', kill_nextpid]
  exact ⟨rfl, by simpa using hk⟩

/-- From `userinit`, with `initproc` running: no process holds pid `0`, yet `kill(0)` returns
`0`, and the next `fork` creates pid `2` in slot `1` with `killed = 1`. -/
theorem kill_zero_marks_next_child :
    ∃ t, Reachable t ∧ (∀ i, (t.proc i).state ≠ .unused → (t.proc i).pid ≠ 0) ∧
      (kill 0 t).1 = 0 ∧ (fork 0 true true (kill 0 t).2).1 = 2 ∧
      ((fork 0 true true (kill 0 t).2).2.proc 1).killed = 1 := by
  have h0 : Reachable (schedule 0 ((userinit PTable.boot).getD PTable.boot)) :=
    .step (.schedule 0) (.init rfl) rfl
  -- slot 1 is both the first free slot and the first slot holding pid 0
  have hu : (schedule 0 ((userinit PTable.boot).getD PTable.boot)).first (·.state = .unused) =
      some 1 := by decide
  have hp : (schedule 0 ((userinit PTable.boot).getD PTable.boot)).first (·.pid = 0) = some 1 := by
    decide
  obtain ⟨hpid, hkilled⟩ := kill_then_fork_child_killed 0 hu hp
  exact ⟨_, h0, by decide, (kill_eq_zero_iff 0 _).mpr ⟨1, rfl⟩, hpid, hkilled⟩

end Xv6.Process
