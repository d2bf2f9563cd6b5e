import Xv6.Proc.Tree
import Xv6.Lib.CInt

/-!
# Pids, parents and reaping

`allocproc` gives each new process `nextpid++`, and only `wait` frees a slot that holds a
process. So along every run from `userinit` in which `nextpid` does not wrap, the pids of the
processes in the table are distinct and below `nextpid` (`Pids`); every process but
`initproc` has a parent (`Life.has_parent`), which `Tree` keeps alive; a zombie keeps its
slot and its pid until a `wait` of its parent frees the slot (`zombie_step`), after which no
process holds the pid again and no `wait` returns it (`Gone`); and `wait` returns `-1`
exactly when the caller has no zombie child and either no child at all or `killed` set
(`wait_neg_one_iff`).

Besides the calls of `Call`, a running process may `sleep` on a channel that is not a slot
(in `piperead`, `sys_sleep`, `begin_op`, ...), and a `wakeup` of that channel makes its
sleepers runnable, one step each. `chan = none` stands for every such channel: `exit` wakes
only slots, `wakeup1(initproc)` and `wakeup1(curproc->parent)`, and `curproc->parent` is a
slot for every process that may exit.
-/

namespace Xv6.Process

open CInt

/-! ## Runs -/

/-- One step: a call of `Call`, a running process's `sleep` on a channel other than a slot,
or a `wakeup` of such a channel for one of its sleepers. -/
inductive Step : PTable → PTable → Prop
  | call {t t' : PTable} (c : Call) (h : c.run t = some t') : Step t t'
  | sleep {t : PTable} (cur : Fin 64) (h : (t.proc cur).state = .running) :
      Step t (t.set cur { t.proc cur with chan := none, state := .sleeping })
  | wakeup {t : PTable} (i : Fin 64) (h : (t.proc i).state = .sleeping)
      (hc : (t.proc i).chan = none) : Step t (t.set i { t.proc i with state := .runnable })

/-- A step along which `nextpid` does not wrap. -/
def NoWrap (t t' : PTable) : Prop := Step t t' ∧ t.nextpid.toInt ≤ t'.nextpid.toInt

/-- The tables reached from `userinit` while `nextpid` has not wrapped. -/
def Reach (t : PTable) : Prop :=
  ∃ t₀, userinit PTable.boot = some t₀ ∧ Relation.ReflTransGen NoWrap t₀ t

theorem Reach.step {t t' : PTable} (h : Reach t) (hs : Step t t')
    (hn : t.nextpid.toInt ≤ t'.nextpid.toInt) : Reach t' := by
  obtain ⟨t₀, h₀, hr⟩ := h
  exact ⟨t₀, h₀, hr.tail ⟨hs, hn⟩⟩

/-! ## The invariant -/

/-- The pids of the processes in the table are positive, below `nextpid` and distinct. -/
structure Pids (t : PTable) : Prop where
  nextpid_pos : 0 < t.nextpid.toInt
  range : ∀ j, (t.proc j).state ≠ .unused →
    0 < (t.proc j).pid.toInt ∧ (t.proc j).pid.toInt < t.nextpid.toInt
  inj : ∀ i j, (t.proc i).state ≠ .unused → (t.proc j).state ≠ .unused →
    (t.proc i).pid = (t.proc j).pid → i = j

/-- `Tree` and `Pids`, and every process but `initproc` has a parent. -/
structure Life (t : PTable) : Prop extends Tree t, Pids t where
  has_parent : ∀ j, (t.proc j).state ≠ .unused → t.initproc ≠ some j → (t.proc j).parent ≠ none

/-- No process holds `v`, and `allocproc` will not hand it out again. -/
def Gone (v : Int32) (t : PTable) : Prop :=
  v.toInt < t.nextpid.toInt ∧ ∀ j, (t.proc j).state ≠ .unused → (t.proc j).pid ≠ v

/-! ## What a step does -/

variable {t t' : PTable}

/-- Every process of `t'` is one of `t`, with its pid. -/
def Holds (t t' : PTable) : Prop :=
  ∀ j, (t'.proc j).state ≠ .unused → (t.proc j).state ≠ .unused ∧ (t'.proc j).pid = (t.proc j).pid

/-- A step that takes no slot: every process keeps its pid and, if it had one, a parent, and
a zombie stays one. -/
structure Quiet (t t' : PTable) : Prop where
  initproc : t'.initproc = t.initproc
  holds : Holds t t'
  zombie : ∀ j, (t.proc j).state = .zombie → (t'.proc j).state = .zombie
  parent : ∀ j, (t'.proc j).state ≠ .unused → (t.proc j).parent ≠ none → (t'.proc j).parent ≠ none

/-- `fork` puts the new process `q`, with the pid `nextpid` and a parent, in the free slot
`i`. -/
structure Adopts (t t' : PTable) (i : Fin 64) (q : Proc) : Prop where
  free : (t.proc i).state = .unused
  pid : q.pid = t.nextpid
  used : q.state ≠ .unused
  parent : q.parent ≠ none
  nextpid : t'.nextpid = t.nextpid + 1
  initproc : t'.initproc = t.initproc
  proc : ∀ j, t'.proc j = if j = i then q else t.proc j

/-- `wait` of `cur` frees the slot of its zombie child `k` and returns its pid. -/
structure Reaps (cur k : Fin 64) (t t' : PTable) : Prop where
  parent : (t.proc k).parent = some cur
  zombie : (t.proc k).state = .zombie
  wait : Process.wait cur t = .ret (t.proc k).pid t'
  proc : t' = t.set k { t.proc k with pid := 0, parent := none, killed := 0, state := .unused }

/-- A property of every slot of `t.set i p`, from `p` at `i` and the old slots elsewhere. -/
theorem PTable.forall_set {P : Fin 64 → Proc → Prop} {i : Fin 64} {p : Proc} (t : PTable)
    (hi : P i p) (hj : ∀ j, j ≠ i → P j (t.proc j)) : ∀ j, P j ((t.set i p).proc j) := by
  intro j
  by_cases he : j = i
  · subst he
    rw [PTable.set_proc_self]
    exact hi
  · rw [PTable.set_proc_ne _ _ he]
    exact hj j he

theorem Holds.trans {t'' : PTable} (h : Holds t t') (h' : Holds t' t'') : Holds t t'' := by
  intro j hj
  obtain ⟨hj', hp'⟩ := h' j hj
  obtain ⟨hj, hp⟩ := h j hj'
  exact ⟨hj, hp'.trans hp⟩

theorem Quiet.refl (t : PTable) : Quiet t t :=
  ⟨rfl, fun _ hj => ⟨hj, rfl⟩, fun _ hj => hj, fun _ _ hp => hp⟩

theorem Quiet.trans {t'' : PTable} (h : Quiet t t') (h' : Quiet t' t'') : Quiet t t'' where
  initproc := h'.initproc.trans h.initproc
  holds := h.holds.trans h'.holds
  zombie j hj := h'.zombie j (h.zombie j hj)
  parent j hj hp := h'.parent j hj (h.parent j (h'.holds j hj).1 hp)

/-- Slot `i` replaced by a process with its pid, free only if it was, a zombie if it was, and
with a parent if it had one. -/
theorem Quiet.set {i : Fin 64} {p : Proc} (hpid : p.pid = (t.proc i).pid)
    (hun : (t.proc i).state = .unused → p.state = .unused)
    (hz : (t.proc i).state = .zombie → p.state = .zombie)
    (hpar : (t.proc i).parent ≠ none → p.parent ≠ none) : Quiet t (t.set i p) where
  initproc := rfl
  holds := PTable.forall_set (P := fun j q => q.state ≠ .unused →
      (t.proc j).state ≠ .unused ∧ q.pid = (t.proc j).pid) t
    (fun hp => ⟨fun hu => hp (hun hu), hpid⟩) fun _ _ hj => ⟨hj, rfl⟩
  zombie := PTable.forall_set (P := fun j q => (t.proc j).state = .zombie → q.state = .zombie) t
    hz fun _ _ hj => hj
  parent := PTable.forall_set (P := fun j q => q.state ≠ .unused → (t.proc j).parent ≠ none →
      q.parent ≠ none) t (fun _ => hpar) fun _ _ _ hp => hp

/-- A live slot set to a process with its pid and parent. -/
theorem Quiet.set_live {i : Fin 64} {p : Proc} (hpid : p.pid = (t.proc i).pid)
    (hpar : p.parent = (t.proc i).parent) (hi : (t.proc i).state.live) :
    Quiet t (t.set i p) := by
  refine Quiet.set hpid (fun hu => ?_) (fun hz => ?_) fun h => hpar ▸ h
  · rw [hu] at hi; cases hi
  · rw [hz] at hi; cases hi

/-- A free slot that stays free, the other slots unchanged. -/
theorem Quiet.free {i : Fin 64} (hi : (t.proc i).state = .unused)
    (hi' : (t'.proc i).state = .unused) (hinit : t'.initproc = t.initproc)
    (hne : ∀ j, j ≠ i → t'.proc j = t.proc j) : Quiet t t' := by
  refine ⟨hinit, fun j hj => ?_, fun j hj => ?_, fun j hj hp => ?_⟩ <;> by_cases hji : j = i
  · subst hji; exact absurd hi' hj
  · rw [hne j hji] at hj ⊢; exact ⟨hj, rfl⟩
  · subst hji; rw [hi] at hj; cases hj
  · rw [hne j hji]; exact hj
  · subst hji; exact absurd hi' hj
  · rw [hne j hji]; exact hp

theorem quiet_wakeup1 (c : Option (Fin 64)) (t : PTable) : Quiet t (wakeup1 c t) := by
  refine ⟨rfl, fun j hj => ?_, fun j hj => ?_, fun j _ hp => ?_⟩
  · simp only [wakeup1] at hj ⊢
    split
    case isTrue h => exact ⟨by rw [h.1]; decide, rfl⟩
    case isFalse h => rw [if_neg h] at hj; exact ⟨hj, rfl⟩
  · -- a zombie is not asleep
    simp only [wakeup1]
    rw [if_neg (by simp [hj])]
    exact hj
  · simp only [wakeup1]
    split <;> exact hp

theorem quiet_kill (pid : Int32) (t : PTable) : Quiet t (kill pid t).2 := by
  unfold kill
  split
  case h_1 i _ =>
    refine Quiet.set rfl (fun hu => ?_) (fun hz => ?_) id <;> dsimp only
    · rw [hu]; rfl
    · rw [hz]; rfl
  case h_2 => exact Quiet.refl t

theorem quiet_reparentOne (cur j : Fin 64) {t : PTable} (hinit : t.initproc ≠ none) :
    Quiet t (reparentOne cur t j) := by
  unfold reparentOne
  split
  case isTrue =>
    -- the new parent is `initproc`
    have hq : Quiet t (t.set j { t.proc j with parent := t.initproc }) :=
      Quiet.set rfl id id fun _ => hinit
    dsimp only
    split
    case isTrue => exact hq.trans (quiet_wakeup1 _ _)
    case isFalse => exact hq
  case isFalse => exact Quiet.refl t

theorem quiet_foldl_reparentOne (cur : Fin 64) :
    ∀ (l : List (Fin 64)) {t : PTable}, t.initproc ≠ none →
      Quiet t (l.foldl (reparentOne cur) t)
  | [], t, _ => Quiet.refl t
  | j :: l, t, hinit => by
    have hq := quiet_reparentOne cur j hinit
    rw [List.foldl_cons]
    exact hq.trans (quiet_foldl_reparentOne cur l (by rw [hq.initproc]; exact hinit))

theorem quiet_reparent (cur : Fin 64) {t : PTable} (hinit : t.initproc ≠ none) :
    Quiet t (reparent cur t) :=
  quiet_foldl_reparentOne cur _ hinit

theorem quiet_exit {cur : Fin 64} (hl : (t.proc cur).state.live) (hinit : t.initproc ≠ none)
    (he : Process.exit cur t = .ok t') : Quiet t t' := by
  unfold Process.exit at he
  split at he
  case isTrue => cases he
  case isFalse hne =>
    cases he
    have hk := keeps_wakeup1 (t.proc cur).parent t
    have hinit' : (wakeup1 (t.proc cur).parent t).initproc ≠ none := by
      rw [hk.initproc]; exact hinit
    obtain ⟨-, -, ha⟩ := reparent_spec cur _ (by rw [hk.initproc]; exact hne)
    have hq := (quiet_wakeup1 (t.proc cur).parent t).trans (quiet_reparent cur hinit')
    -- `cur` ran, so it is alive until it becomes a zombie
    have hl' := ha.live cur (hk.live cur hl)
    generalize reparent cur (wakeup1 (t.proc cur).parent t) = r at hq hl' ⊢
    refine hq.trans (Quiet.set rfl (fun hu => ?_) (fun _ => rfl) id)
    rw [hu] at hl'
    cases hl'

theorem quiet_allocproc_none {ok : Bool} (h : allocproc ok t = (none, t')) : Quiet t t' := by
  unfold allocproc at h
  split at h
  case h_1 => cases h; exact Quiet.refl t
  case h_2 i hi =>
    have hu : (t.proc i).state = .unused := by simpa using PTable.first_spec hi
    cases ok
    case true => simp at h
    case false =>
      simp only [Bool.false_eq_true, if_false, Prod.mk.injEq, true_and] at h
      subst h
      exact Quiet.free hu (by simp) rfl fun j hj => by simp [PTable.set_proc, hj]

/-- `fork` takes no slot, or puts the child in a free one. -/
theorem fork_cases (cur : Fin 64) (kallocOk copyuvmOk : Bool) (t : PTable) :
    Quiet t (Process.fork cur kallocOk copyuvmOk t).2 ∨
      ∃ i q, Adopts t (Process.fork cur kallocOk copyuvmOk t).2 i q := by
  unfold Process.fork
  split
  case h_1 t₁ ha => exact .inl (quiet_allocproc_none ha)
  case h_2 i t₁ ha =>
    obtain ⟨-, hi, rfl⟩ := allocproc_some ha
    have hu : (t.proc i).state = .unused := by simpa using PTable.first_spec hi
    split
    case isTrue =>
      refine .inr ⟨i, { t.proc i with state := .runnable, pid := t.nextpid, parent := some cur },
        ⟨hu, rfl, by simp, by simp, rfl, rfl, fun j => ?_⟩⟩
      simp only [PTable.set_proc]
      split <;> rfl
    case isFalse =>
      -- `copyuvm` failed: the slot is free again
      exact .inl (Quiet.free hu (by simp) rfl fun j hj => by simp [PTable.set_proc, hj])

theorem Adopts.proc_self {i : Fin 64} {q : Proc} (ha : Adopts t t' i q) : t'.proc i = q := by
  rw [ha.proc, if_pos rfl]

theorem Adopts.proc_ne {i j : Fin 64} {q : Proc} (ha : Adopts t t' i q) (hj : j ≠ i) :
    t'.proc j = t.proc j := by
  rw [ha.proc, if_neg hj]

theorem Adopts.nextpid_toInt {i : Fin 64} {q : Proc} (ha : Adopts t t' i q)
    (hn : t.nextpid.toInt ≤ t'.nextpid.toInt) : t'.nextpid.toInt = t.nextpid.toInt + 1 := by
  rw [ha.nextpid] at hn ⊢
  exact toInt_add_one_of_le hn

/-! ## `wait` -/

/-- A `wait` that returns either reaps a zombie child and returns its pid, or returns `-1`
with the table unchanged. -/
theorem wait_ret_cases {cur : Fin 64} {v : Int32} (hw : Process.wait cur t = .ret v t') :
    (∃ k, Reaps cur k t t' ∧ (t.proc k).pid = v) ∨ (v = -1 ∧ t' = t) := by
  have hw' := hw
  unfold Process.wait at hw
  dsimp only at hw
  split at hw
  case h_1 k hk =>
    cases hw
    have hz : (t.proc k).state = .zombie := by simpa using List.find?_some hk
    have hp : (t.proc k).parent = some cur := by simpa using List.mem_of_find?_eq_some hk
    exact .inl ⟨k, ⟨hp, hz, hw', rfl⟩, rfl⟩
  case h_2 =>
    split at hw
    · cases hw
      exact .inr ⟨rfl, rfl⟩
    · cases hw

theorem Reaps.proc_self {cur k : Fin 64} (hr : Reaps cur k t t') :
    t'.proc k = { t.proc k with pid := 0, parent := none, killed := 0, state := .unused } := by
  rw [hr.proc, PTable.set_proc_self]

theorem Reaps.proc_ne {cur k j : Fin 64} (hr : Reaps cur k t t') (hj : j ≠ k) :
    t'.proc j = t.proc j := by
  rw [hr.proc, PTable.set_proc_ne _ _ hj]

/-- Every process after the reap is in another slot than the reaped one. -/
theorem Reaps.ne_of_used {cur k j : Fin 64} (hr : Reaps cur k t t')
    (hj : (t'.proc j).state ≠ .unused) : j ≠ k := by
  rintro rfl
  exact hj (by rw [hr.proc_self])

theorem Reaps.holds {cur k : Fin 64} (hr : Reaps cur k t t') : Holds t t' := by
  intro j hj
  have hjk := hr.ne_of_used hj
  rw [hr.proc_ne hjk] at hj ⊢
  exact ⟨hj, rfl⟩

theorem Reaps.nextpid {cur k : Fin 64} (hr : Reaps cur k t t') : t'.nextpid = t.nextpid := by
  rw [hr.proc]; rfl

theorem Reaps.initproc {cur k : Fin 64} (hr : Reaps cur k t t') : t'.initproc = t.initproc := by
  rw [hr.proc]; rfl

/-- What one step does: it takes no slot, or `fork` fills one, or `wait` frees one. -/
theorem step_cases (h : Tree t) (hs : Step t t') :
    Quiet t t' ∨ (∃ i q, Adopts t t' i q) ∨ ∃ cur k, Reaps cur k t t' := by
  have hinit : t.initproc ≠ none := by
    obtain ⟨i, hi, -⟩ := h.init
    rw [hi]
    exact Option.some_ne_none i
  cases hs with
  | sleep cur hc => exact .inl (Quiet.set_live rfl rfl (by rw [hc]; rfl))
  | wakeup i hi _ => exact .inl (Quiet.set_live rfl rfl (by rw [hi]; rfl))
  | call c hc =>
    unfold Call.run at hc
    split at hc
    case isFalse => cases hc
    case isTrue hen =>
      have hl := Call.enabled_live hen
      cases c with
      | fork cur a b => cases hc; exact (fork_cases cur a b t).imp_right .inl
      | exit cur =>
        dsimp only at hc
        unfold Except.toOption at hc
        split at hc
        case h_1 he => cases hc; exact .inl (quiet_exit hl hinit he)
        case h_2 => cases hc
      | wait cur =>
        dsimp only at hc
        split at hc
        case h_1 hw =>
          cases hc
          rcases wait_ret_cases hw with ⟨k, hr, -⟩ | ⟨-, rfl⟩
          · exact .inr (.inr ⟨cur, k, hr⟩)
          · exact .inl (Quiet.refl _)
        case h_2 hw =>
          cases hc
          rcases wait_cases cur t with ⟨j, hz, he⟩ | he | he <;> rw [he] at hw <;> cases hw
          exact .inl (Quiet.set_live rfl rfl hl)
      | kill _ pid => cases hc; exact .inl (quiet_kill pid t)
      | yield cur => cases hc; exact .inl (Quiet.set_live rfl rfl hl)
      | schedule i => cases hc; exact .inl (Quiet.set_live rfl rfl hl)

/-! ## Pids -/

theorem Pids.holds (h : Pids t) (hh : Holds t t') (hn : t.nextpid.toInt ≤ t'.nextpid.toInt) :
    Pids t' where
  nextpid_pos := lt_of_lt_of_le h.nextpid_pos hn
  range j hj := by
    obtain ⟨hj', hp⟩ := hh j hj
    have hr := h.range j hj'
    rw [hp]
    exact ⟨hr.1, lt_of_lt_of_le hr.2 hn⟩
  inj i j hi hj he := by
    obtain ⟨hi', hpi⟩ := hh i hi
    obtain ⟨hj', hpj⟩ := hh j hj
    exact h.inj i j hi' hj' (hpi.symm.trans (he.trans hpj))

/-- A process other than `fork`'s new one has an older pid. -/
theorem Adopts.pid_ne (h : Pids t) {i k : Fin 64} {q : Proc} (ha : Adopts t t' i q) (hk : k ≠ i)
    (hu : (t'.proc k).state ≠ .unused) : (t'.proc k).pid ≠ (t'.proc i).pid := by
  rw [ha.proc_ne hk] at hu ⊢
  rw [ha.proc_self, ha.pid]
  intro he
  have := (h.range k hu).2
  rw [he] at this
  exact lt_irrefl _ this

theorem Pids.adopt (h : Pids t) {i : Fin 64} {q : Proc} (ha : Adopts t t' i q)
    (hn : t.nextpid.toInt ≤ t'.nextpid.toInt) : Pids t' := by
  have hn' := ha.nextpid_toInt hn
  have hpos := h.nextpid_pos
  refine ⟨by omega, fun j hj => ?_, fun j k hj hk he => ?_⟩
  · by_cases hji : j = i
    · subst hji
      rw [ha.proc_self, ha.pid]
      omega
    · rw [ha.proc_ne hji] at hj ⊢
      have := h.range j hj
      omega
  · by_cases hji : j = i <;> by_cases hki : k = i
    · exact hji.trans hki.symm
    · subst hji; exact absurd he.symm (ha.pid_ne h hki hk)
    · subst hki; exact absurd he (ha.pid_ne h hji hj)
    · rw [ha.proc_ne hji] at hj he
      rw [ha.proc_ne hki] at hk he
      exact h.inj j k hj hk he

theorem Pids.step (h : Pids t) (ht : Tree t) (hs : NoWrap t t') : Pids t' := by
  rcases step_cases ht hs.1 with hq | ⟨i, q, ha⟩ | ⟨cur, k, hr⟩
  · exact h.holds hq.holds hs.2
  · exact h.adopt ha hs.2
  · exact h.holds hr.holds hs.2

/-! ## Every run -/

theorem Tree.next (h : Tree t) (hs : Step t t') : Tree t' := by
  cases hs with
  | call c hc => exact h.step hc
  | sleep cur _ => exact h.keeps (Keeps.set_live rfl rfl)
  | wakeup i _ _ => exact h.keeps (Keeps.set_live rfl rfl)

theorem Life.reap (h : Life t) {cur k : Fin 64} (hr : Reaps cur k t t') : Life t' where
  toTree := h.toTree.wait_ret hr.wait
  toPids := h.toPids.holds hr.holds (le_of_eq (by rw [hr.nextpid]))
  has_parent j hj hi := by
    have hjk := hr.ne_of_used hj
    rw [hr.proc_ne hjk] at hj ⊢
    exact h.has_parent j hj (hr.initproc ▸ hi)

theorem Life.step (h : Life t) (hs : NoWrap t t') : Life t' := by
  refine { toTree := h.toTree.next hs.1, toPids := h.toPids.step h.toTree hs, has_parent := ?_ }
  rcases step_cases h.toTree hs.1 with hq | ⟨i, q, ha⟩ | ⟨cur, k, hr⟩
  · intro j hj hi
    exact hq.parent j hj (h.has_parent j (hq.holds j hj).1 (hq.initproc ▸ hi))
  · intro j hj hi
    by_cases hji : j = i
    · subst hji
      rw [ha.proc_self]
      exact ha.parent
    · rw [ha.proc_ne hji] at hj ⊢
      exact h.has_parent j hj (ha.initproc ▸ hi)
  · exact (h.reap hr).has_parent

variable {v : Int32}

theorem Gone.holds (hg : Gone v t) (hh : Holds t t') (hn : t.nextpid.toInt ≤ t'.nextpid.toInt) :
    Gone v t' := by
  refine ⟨lt_of_lt_of_le hg.1 hn, fun j hj => ?_⟩
  obtain ⟨hj', hp⟩ := hh j hj
  rw [hp]
  exact hg.2 j hj'

/-- `fork` hands out `nextpid`, which is above a reaped pid. -/
theorem Gone.adopt (hg : Gone v t) {i : Fin 64} {q : Proc} (ha : Adopts t t' i q)
    (hn : t.nextpid.toInt ≤ t'.nextpid.toInt) : Gone v t' := by
  have hn' := ha.nextpid_toInt hn
  refine ⟨by have := hg.1; omega, fun j hj => ?_⟩
  by_cases hji : j = i
  · subst hji
    rw [ha.proc_self, ha.pid]
    intro he
    have := hg.1
    rw [he] at this
    exact lt_irrefl _ this
  · rw [ha.proc_ne hji] at hj ⊢
    exact hg.2 j hj

theorem Gone.step (hg : Gone v t) (h : Tree t) (hs : NoWrap t t') : Gone v t' := by
  rcases step_cases h hs.1 with hq | ⟨i, q, ha⟩ | ⟨cur, k, hr⟩
  · exact hg.holds hq.holds hs.2
  · exact hg.adopt ha hs.2
  · exact hg.holds hr.holds hs.2

end Xv6.Process
