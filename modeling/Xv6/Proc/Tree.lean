import Xv6.Proc.Kill

/-!
# Every parent is alive

`exit` passes the children of a dying process to `initproc` before it becomes a
zombie, and `wait` frees only a zombie, which has no children left. `initproc`
itself never exits (`exit` panics) and is nobody's child, so no `wait` frees it.
So along every interleaving of the calls every `parent` pointer names a process
that has not exited (`Reachable.parent_live`), and `initproc` stays alive
(`Reachable.init_live`): a process whose parent exits always has a parent left
to reap it.

`Tree` is the invariant; `Keeps` is a change of the table that frees no slot,
ends no process and moves no parent pointer, which is what most calls do.
-/

namespace Xv6.Process

/-- A slot whose process has not exited. -/
def ProcState.live : ProcState → Bool
  | .unused | .zombie => false
  | _ => true

/-- `initproc` is alive and nobody's child, every parent is alive, and a free slot has no
parent. -/
structure Tree (t : PTable) : Prop where
  init : ∃ i, t.initproc = some i ∧ (t.proc i).state.live ∧ (t.proc i).parent = none
  parent_live : ∀ j p, (t.proc j).parent = some p → (t.proc p).state.live
  unused_orphan : ∀ j, (t.proc j).state = .unused → (t.proc j).parent = none

/-- No slot is freed and no process ends. -/
structure Alive (t t' : PTable) : Prop where
  live : ∀ j, (t.proc j).state.live → (t'.proc j).state.live
  unused : ∀ j, (t'.proc j).state = .unused → (t.proc j).state = .unused

/-- No slot is freed, no process ends, and `initproc` and every parent stay. -/
structure Keeps (t t' : PTable) : Prop extends Alive t t' where
  initproc : t'.initproc = t.initproc
  parent : ∀ j, (t'.proc j).parent = (t.proc j).parent

variable {t t' : PTable}

theorem Alive.refl (t : PTable) : Alive t t := ⟨fun _ h => h, fun _ h => h⟩

theorem Keeps.refl (t : PTable) : Keeps t t := ⟨Alive.refl t, rfl, fun _ => rfl⟩

theorem Alive.trans {t'' : PTable} (h : Alive t t') (h' : Alive t' t'') : Alive t t'' :=
  ⟨fun j hj => h'.live j (h.live j hj), fun j hj => h.unused j (h'.unused j hj)⟩

theorem Keeps.trans {t'' : PTable} (h : Keeps t t') (h' : Keeps t' t'') : Keeps t t'' :=
  { toAlive := h.toAlive.trans h'.toAlive
    initproc := h'.initproc.trans h.initproc
    parent := fun j => (h'.parent j).trans (h.parent j) }

theorem Tree.keeps (h : Tree t) (hk : Keeps t t') : Tree t' := by
  obtain ⟨i, hi, hl, hp⟩ := h.init
  refine ⟨⟨i, hk.initproc.trans hi, hk.live i hl, (hk.parent i).trans hp⟩, fun j p hj => ?_,
    fun j hj => ?_⟩
  · exact hk.live p (h.parent_live j p ((hk.parent j).symm.trans hj))
  · exact (hk.parent j).trans (h.unused_orphan j (hk.unused j hj))

theorem ne_of_live {k i : Fin 64} (hk : (t.proc k).state.live) (hi : (t.proc i).state.live = false) :
    k ≠ i := by
  rintro rfl
  rw [hi] at hk
  cases hk

theorem Alive.set {i : Fin 64} {p : Proc} (hlive : (t.proc i).state.live → p.state.live)
    (hun : p.state = .unused → (t.proc i).state = .unused) : Alive t (t.set i p) := by
  refine ⟨fun j hj => ?_, fun j hj => ?_⟩
  · rw [PTable.set_proc]
    split
    case isTrue he => subst he; exact hlive hj
    case isFalse => exact hj
  · rw [PTable.set_proc] at hj
    split at hj
    case isTrue he => subst he; exact hun hj
    case isFalse => exact hj

/-- Replacing one slot by a process with the same parent, alive if it was, free only if it
was. -/
theorem Keeps.set {i : Fin 64} {p : Proc} (hpar : p.parent = (t.proc i).parent)
    (hlive : (t.proc i).state.live → p.state.live)
    (hun : p.state = .unused → (t.proc i).state = .unused) : Keeps t (t.set i p) := by
  refine { toAlive := Alive.set hlive hun, initproc := rfl, parent := fun j => ?_ }
  rw [PTable.set_proc]
  split
  case isTrue he => subst he; exact hpar
  case isFalse => rfl

/-- A slot set to a live process with the parent it had. -/
theorem Keeps.set_live {i : Fin 64} {p : Proc} (hpar : p.parent = (t.proc i).parent)
    (hs : p.state.live) : Keeps t (t.set i p) :=
  Keeps.set hpar (fun _ => hs) fun hu => by rw [hu] at hs; cases hs

/-- A free slot that stays free, with the parent it had, the other slots unchanged. -/
theorem Keeps.free {i : Fin 64} (hi : (t.proc i).state = .unused)
    (hi' : (t'.proc i).state = .unused) (hpar : (t'.proc i).parent = (t.proc i).parent)
    (hinit : t'.initproc = t.initproc) (hne : ∀ j, j ≠ i → t'.proc j = t.proc j) : Keeps t t' := by
  refine ⟨⟨fun j hj => ?_, fun j hj => ?_⟩, hinit, fun j => ?_⟩
  · rw [hne j (ne_of_live hj (by rw [hi]; rfl))]; exact hj
  · by_cases hji : j = i
    · subst hji; exact hi
    · rwa [hne j hji] at hj
  · by_cases hji : j = i
    · subst hji; exact hpar
    · rw [hne j hji]

@[simp] theorem parent_setState (t : PTable) (i j : Fin 64) (s : ProcState) :
    ((t.set i { t.proc i with state := s }).proc j).parent = (t.proc j).parent := by
  rw [PTable.set_proc]
  split
  case isTrue he => subst he; rfl
  case isFalse => rfl

/-! ## One call -/

theorem keeps_wakeup1 (c : Option (Fin 64)) (t : PTable) : Keeps t (wakeup1 c t) := by
  refine ⟨⟨fun j hj => ?_, fun j hj => ?_⟩, rfl, fun j => ?_⟩
  · simp only [wakeup1]
    split
    · rfl
    · exact hj
  · simp only [wakeup1] at hj
    split at hj
    · cases hj
    · exact hj
  · simp only [wakeup1]
    split <;> rfl

theorem keeps_kill (pid : Int32) (t : PTable) : Keeps t (kill pid t).2 := by
  unfold kill
  split
  case h_1 i _ =>
    refine Keeps.set rfl (fun hl => ?_) (fun hu => ?_) <;> dsimp only at *
    · split
      · rfl
      · exact hl
    · split at hu
      · cases hu
      · exact hu
  case h_2 => exact Keeps.refl t

/-- A failed `allocproc` gives its slot back with the parent it had. -/
theorem keeps_allocproc_none {ok : Bool} (h : allocproc ok t = (none, t')) : Keeps t t' := by
  unfold allocproc at h
  split at h
  case h_1 => cases h; exact Keeps.refl t
  case h_2 i hi =>
    have hu : (t.proc i).state = .unused := by simpa using PTable.first_spec hi
    cases ok
    case true => simp at h
    case false =>
      simp only [Bool.false_eq_true, if_false, Prod.mk.injEq, true_and] at h
      subst h
      exact Keeps.free hu (by simp) (by simp) rfl fun j hj => by simp [PTable.set_proc, hj]

theorem allocproc_some {ok : Bool} {i : Fin 64} (h : allocproc ok t = (some i, t')) :
    ok = true ∧ t.first (·.state = .unused) = some i ∧
      t' = { t.set i { t.proc i with state := .embryo, pid := t.nextpid } with
        nextpid := t.nextpid + 1 } := by
  unfold allocproc at h
  split at h
  case h_1 => cases h
  case h_2 j hj =>
    cases ok
    case false => simp at h
    case true =>
      simp only [if_true, Prod.mk.injEq, Option.some.injEq] at h
      obtain ⟨rfl, rfl⟩ := h
      exact ⟨rfl, hj, rfl⟩

theorem parent_allocproc {ok : Bool} {i : Fin 64} (h : allocproc ok t = (some i, t'))
    (j : Fin 64) : (t'.proc j).parent = (t.proc j).parent := by
  obtain ⟨-, -, rfl⟩ := allocproc_some h
  dsimp only
  rw [PTable.set_proc]
  split
  case isTrue he => subst he; rfl
  case isFalse => rfl

/-- A free slot filled by a live process whose parent is alive. -/
theorem Tree.adopt (h : Tree t) {i cur : Fin 64} (hi : (t.proc i).state = .unused)
    (hcur : (t.proc cur).state.live) (q : Proc) (hq : q.parent = some cur) (hs : q.state.live)
    (ht : t'.initproc = t.initproc) (hproc : ∀ j, t'.proc j = if j = i then q else t.proc j) :
    Tree t' := by
  have hne : ∀ {k}, (t.proc k).state.live → k ≠ i := fun hk => ne_of_live hk (by rw [hi]; rfl)
  obtain ⟨k, hk, hl, hp⟩ := h.init
  refine ⟨⟨k, ht.trans hk, ?_, ?_⟩, fun j p hj => ?_, fun j hj => ?_⟩
  · rw [hproc, if_neg (hne hl)]; exact hl
  · rw [hproc, if_neg (hne hl)]; exact hp
  · rw [hproc] at hj
    split at hj
    case isTrue =>
      rw [hq] at hj; cases hj
      rw [hproc, if_neg (hne hcur)]; exact hcur
    case isFalse =>
      have hp := h.parent_live j p hj
      rw [hproc, if_neg (hne hp)]; exact hp
  · rw [hproc] at hj ⊢
    split at hj
    case isTrue => rw [hj] at hs; cases hs
    case isFalse hji => rw [if_neg hji]; exact h.unused_orphan j hj

theorem Tree.fork (h : Tree t) {cur : Fin 64} (hcur : (t.proc cur).state.live)
    (kallocOk copyuvmOk : Bool) : Tree (Process.fork cur kallocOk copyuvmOk t).2 := by
  unfold Process.fork
  split
  case h_1 t' ha => exact h.keeps (keeps_allocproc_none ha)
  case h_2 i t' ha =>
    obtain ⟨-, hi, rfl⟩ := allocproc_some ha
    have hu : (t.proc i).state = .unused := by simpa using PTable.first_spec hi
    split
    case isTrue =>
      -- the child: runnable, its parent the caller
      refine h.adopt hu hcur { t.proc i with state := .runnable, pid := t.nextpid, parent := some cur }
        rfl rfl rfl fun j => ?_
      simp only [PTable.set_proc]
      split <;> rfl
    case isFalse =>
      -- `copyuvm` failed: the slot is free again, with the parent it had
      exact h.keeps (Keeps.free hu (by simp) (by simp) rfl fun j hj => by simp [PTable.set_proc, hj])

/-- A zombie's slot freed. -/
theorem Tree.free (h : Tree t) {j : Fin 64} (hj : (t.proc j).state = .zombie) {q : Proc}
    (hq : q.parent = none) : Tree (t.set j q) := by
  have hne : ∀ {k}, (t.proc k).state.live → k ≠ j := fun hk => ne_of_live hk (by rw [hj]; rfl)
  obtain ⟨k, hk, hl, hp⟩ := h.init
  refine ⟨⟨k, hk, ?_, ?_⟩, fun i p hi => ?_, fun i hi => ?_⟩
  · rw [PTable.set_proc, if_neg (hne hl)]; exact hl
  · rw [PTable.set_proc, if_neg (hne hl)]; exact hp
  · rw [PTable.set_proc] at hi
    split at hi
    case isTrue => rw [hq] at hi; cases hi
    case isFalse =>
      have hp := h.parent_live i p hi
      rw [PTable.set_proc, if_neg (hne hp)]; exact hp
  · rw [PTable.set_proc] at hi ⊢
    split
    case isTrue => exact hq
    case isFalse hij => rw [if_neg hij] at hi; exact h.unused_orphan i hi

/-- What one pass of `wait` can do: reap a zombie child, return `-1`, or sleep. -/
theorem wait_cases (cur : Fin 64) (t : PTable) :
    (∃ j, (t.proc j).state = .zombie ∧ Process.wait cur t = .ret (t.proc j).pid
      (t.set j { t.proc j with pid := 0, parent := none, killed := 0, state := .unused })) ∨
    Process.wait cur t = .ret (-1) t ∨
    Process.wait cur t = .sleep (t.set cur { t.proc cur with chan := some cur, state := .sleeping }) := by
  unfold Process.wait
  dsimp only
  split
  case h_1 j hj =>
    exact .inl ⟨j, by simpa using List.find?_some hj, rfl⟩
  case h_2 =>
    split
    · exact .inr (.inl rfl)
    · exact .inr (.inr rfl)

theorem Tree.wait_ret (h : Tree t) {cur : Fin 64} {v : Int32}
    (hw : Process.wait cur t = .ret v t') : Tree t' := by
  rcases wait_cases cur t with ⟨j, hz, he⟩ | he | he <;> rw [he] at hw <;> cases hw
  · exact h.free hz rfl
  · exact h

theorem Tree.wait_sleep (h : Tree t) {cur : Fin 64} (hw : Process.wait cur t = .sleep t') :
    Tree t' := by
  rcases wait_cases cur t with ⟨j, hz, he⟩ | he | he <;> rw [he] at hw <;> cases hw
  exact h.keeps (Keeps.set_live rfl rfl)

/-- One turn of the loop of `exit`: slot `j` moves to `initproc` if it was a child of `cur`,
and sleepers may wake. -/
theorem reparentOne_spec (cur j : Fin 64) (t : PTable) :
    (reparentOne cur t j).initproc = t.initproc ∧
      (∀ k, ((reparentOne cur t j).proc k).parent =
        if k = j ∧ (t.proc k).parent = some cur then t.initproc else (t.proc k).parent) ∧
      Alive t (reparentOne cur t j) := by
  have hset : ∀ k, ((t.set j { t.proc j with parent := t.initproc }).proc k).parent =
      if k = j then t.initproc else (t.proc k).parent := by
    intro k
    rw [PTable.set_proc]
    split <;> rfl
  have ha : Alive t (t.set j { t.proc j with parent := t.initproc }) := Alive.set id id
  unfold reparentOne
  split
  case isTrue hj =>
    have hif : ∀ k, (if k = j then t.initproc else (t.proc k).parent) =
        if k = j ∧ (t.proc k).parent = some cur then t.initproc else (t.proc k).parent := by
      intro k
      by_cases hkj : k = j
      · subst hkj; simp [hj]
      · simp [hkj]
    dsimp only
    split
    case isTrue =>
      have hk := keeps_wakeup1 t.initproc (t.set j { t.proc j with parent := t.initproc })
      exact ⟨hk.initproc, fun k => (hk.parent k).trans ((hset k).trans (hif k)),
        ha.trans hk.toAlive⟩
    case isFalse => exact ⟨rfl, fun k => (hset k).trans (hif k), ha⟩
  case isFalse hj =>
    refine ⟨rfl, fun k => ?_, Alive.refl t⟩
    by_cases hkj : k = j
    · subst hkj; simp [hj]
    · simp [hkj]

/-- The loop of `exit` moves the parent pointers of `cur`'s children, and only those, to
`initproc`, and wakes sleepers. -/
theorem foldl_reparentOne {cur : Fin 64} (l : List (Fin 64)) {t : PTable}
    (hne : t.initproc ≠ some cur) :
    (l.foldl (reparentOne cur) t).initproc = t.initproc ∧
      (∀ k, ((l.foldl (reparentOne cur) t).proc k).parent =
        if k ∈ l ∧ (t.proc k).parent = some cur then t.initproc else (t.proc k).parent) ∧
      Alive t (l.foldl (reparentOne cur) t) := by
  induction l generalizing t with
  | nil => exact ⟨rfl, fun k => by simp, Alive.refl t⟩
  | cons j l ih =>
    obtain ⟨hi, hp, ha⟩ := reparentOne_spec cur j t
    obtain ⟨hi', hp', ha'⟩ := @ih (reparentOne cur t j) (by rw [hi]; exact hne)
    refine ⟨hi'.trans hi, fun k => ?_, ha.trans ha'⟩
    rw [List.foldl_cons, hp', hp, hi]
    by_cases hc : (t.proc k).parent = some cur
    · by_cases hkj : k = j
      · subst hkj; simp [hc, hne]
      · simp [hc, hkj]
    · simp [hc]

theorem reparent_spec (cur : Fin 64) (t : PTable) (hne : t.initproc ≠ some cur) :
    (reparent cur t).initproc = t.initproc ∧
      (∀ k, ((reparent cur t).proc k).parent =
        if (t.proc k).parent = some cur then t.initproc else (t.proc k).parent) ∧
      Alive t (reparent cur t) := by
  obtain ⟨hi, hp, ha⟩ := foldl_reparentOne (List.finRange 64) hne
  refine ⟨hi, fun k => ?_, ha⟩
  rw [reparent, hp]
  simp only [List.mem_finRange, true_and]

/-- A table where `cur` has ended and its children, and only they, have moved to `initproc`,
the other processes alive as they were. -/
theorem Tree.orphan (h : Tree t) {cur : Fin 64} (hne : t.initproc ≠ some cur)
    (hinit : t'.initproc = t.initproc)
    (hpar : ∀ k, (t'.proc k).parent =
      if (t.proc k).parent = some cur then t.initproc else (t.proc k).parent)
    (hlive : ∀ k, k ≠ cur → (t.proc k).state.live → (t'.proc k).state.live)
    (hun : ∀ k, (t'.proc k).state = .unused → (t.proc k).state = .unused) : Tree t' := by
  obtain ⟨i, hi, hl, hp⟩ := h.init
  have hic : i ≠ cur := fun he => hne (by rw [hi, he])
  refine ⟨⟨i, hinit.trans hi, hlive i hic hl, ?_⟩, fun j p hj => ?_, fun j hj => ?_⟩
  · rw [hpar, hp, if_neg (by simp)]
  · rw [hpar] at hj
    split at hj
    case isTrue =>
      -- an orphan's new parent is `initproc`
      rw [hi] at hj
      cases hj
      exact hlive i hic hl
    case isFalse hc =>
      have hpc : p ≠ cur := fun he => hc (by rw [hj, he])
      exact hlive p hpc (h.parent_live j p hj)
  · rw [hpar, h.unused_orphan j (hun j hj), if_neg (by simp)]

theorem Tree.exit (h : Tree t) {cur : Fin 64} (he : Process.exit cur t = .ok t') : Tree t' := by
  unfold Process.exit at he
  split at he
  case isTrue => cases he
  case isFalse hne =>
    cases he
    have hk := keeps_wakeup1 (t.proc cur).parent t
    obtain ⟨hi, hp, ha⟩ := reparent_spec cur (wakeup1 (t.proc cur).parent t) (by rw [hk.initproc]; exact hne)
    refine h.orphan hne ?_ (fun k => ?_) (fun k hkc hl => ?_) (fun k hk' => ?_)
    · rw [PTable.set_initproc, hi, hk.initproc]
    · rw [parent_setState, hp, hk.parent, hk.initproc]
    · rw [PTable.set_proc_ne _ _ hkc]
      exact ha.live k (hk.live k hl)
    · rw [PTable.set_proc] at hk'
      split at hk'
      case isTrue => cases hk'
      case isFalse => exact hk.unused k (ha.unused k hk')

/-! ## Every run -/

theorem Call.enabled_live {c : Call} (h : c.enabled t) : (t.proc c.slot).state.live := by
  cases c <;> simp only [Call.enabled, Call.slot] at h ⊢ <;> rw [of_decide_eq_true h] <;> rfl

theorem Tree.step (h : Tree t) {c : Call} (hc : c.run t = some t') : Tree t' := by
  unfold Call.run at hc
  split at hc
  case isFalse => cases hc
  case isTrue hen =>
    have hl := Call.enabled_live hen
    cases c with
    | fork cur a b => cases hc; exact h.fork hl a b
    | exit cur =>
      dsimp only at hc
      unfold Except.toOption at hc
      split at hc
      case h_1 he => cases hc; exact h.exit he
      case h_2 => cases hc
    | wait cur =>
      dsimp only at hc
      split at hc
      case h_1 hw => cases hc; exact h.wait_ret hw
      case h_2 hw => cases hc; exact h.wait_sleep hw
    | kill _ pid => cases hc; exact h.keeps (keeps_kill pid t)
    | yield cur => cases hc; exact h.keeps (Keeps.set_live rfl rfl)
    | schedule i => cases hc; exact h.keeps (Keeps.set_live rfl rfl)

theorem tree_userinit (h : userinit PTable.boot = some t) : Tree t := by
  unfold userinit at h
  split at h
  case h_2 => cases h
  case h_1 i t₁ ha =>
    cases h
    have hnone : ∀ j, (t₁.proc j).parent = none := fun j => parent_allocproc ha j
    refine ⟨⟨i, rfl, ?_, ?_⟩, fun j p hj => ?_, fun j _ => ?_⟩ <;> dsimp only at *
    · rw [PTable.set_proc_self]; rfl
    · rw [parent_setState]; exact hnone i
    · rw [parent_setState, hnone] at hj; cases hj
    · rw [parent_setState]; exact hnone j

theorem Reachable.tree (h : Reachable t) : Tree t := by
  induction h with
  | init h => exact tree_userinit h
  | step c _ hc ih => exact ih.step hc

/-- Along every interleaving, the parent of every process has not exited. -/
theorem Reachable.parent_live (h : Reachable t) {j p : Fin 64} (hj : (t.proc j).parent = some p) :
    (t.proc p).state.live :=
  h.tree.parent_live j p hj

/-- `userinit`, the scheduler picks slot `0`, which forks: the child in slot `1` has a live
parent. -/
theorem forked_child_parent_live :
    ∃ t, Reachable t ∧ (t.proc 1).parent = some 0 ∧ (t.proc 0).state.live := by
  have h0 : Reachable _ := .step (.schedule 0) (.init rfl) rfl
  have h1 : Reachable _ := .step (.fork 0 true true) h0 rfl
  refine ⟨_, h1, ?hp, h1.parent_live ?hp⟩
  decide

/-- Along every interleaving, `initproc` is alive and nobody's child. -/
theorem Reachable.init_live (h : Reachable t) :
    ∃ i, t.initproc = some i ∧ (t.proc i).state.live ∧ (t.proc i).parent = none :=
  h.tree.init

/-- `initproc` forks a child, which runs and exits: `initproc` is still alive. -/
theorem init_live_after_child_exit :
    ∃ t, Reachable t ∧ (t.proc 1).state = .zombie ∧
      ∃ i, t.initproc = some i ∧ (t.proc i).state.live ∧ (t.proc i).parent = none := by
  have h0 : Reachable _ := .step (.schedule 0) (.init rfl) rfl
  have h1 : Reachable _ := .step (.fork 0 true true) h0 rfl
  have h2 : Reachable _ := .step (.yield 0) h1 rfl
  have h3 : Reachable _ := .step (.schedule 1) h2 rfl
  have h4 : Reachable _ := .step (.exit 1) h3 rfl
  exact ⟨_, h4, by decide, h4.init_live⟩

end Xv6.Process
