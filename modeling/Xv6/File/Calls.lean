import Xv6.File.Refs

/-!
# The calls keep the reference counts

Each of `sys_open`, `sys_dup`, `sys_close`, `sys_pipe`, `fork` and `exit` (`Call.run`), from a
state where every reference is a descriptor, runs to its end without a `panic` and without a
`pipeclose` of a freed page, and leaves every reference a descriptor again (`Inv.step`). The
error paths of `sys_open` and `sys_pipe` give back what they took; `exit` closes each file
before it clears the descriptor, which `fileclose` never reads (`Sys.fileclose_ofile`).
`file_refcounts` collects what this gives of every state reachable from boot.
-/

namespace Xv6.Files

open Pipes CLoop

variable {s s' : Sys}

/-! ## The allocators -/

theorem filealloc_some {ft ft' : Fin nfile → File} {f : Fin nfile}
    (h : Files.filealloc ft = (some f, ft')) :
    (ft f).ref = 0 ∧ ft' = Function.update ft f { ft f with ref := 1 } := by
  unfold Files.filealloc at h
  split at h
  · rename_i g hg
    cases h
    exact ⟨by simpa using List.find?_some hg, rfl⟩
  · cases h

theorem filealloc_none {ft ft' : Fin nfile → File} (h : Files.filealloc ft = (none, ft')) :
    ft' = ft := by
  unfold Files.filealloc at h
  split at h
  · cases h
  · cases h; rfl

theorem Sys.filealloc_some {f : Fin nfile} (h : s.filealloc = (some f, s')) :
    (s.ft f).ref = 0 ∧ s' = { s with
      ft := Function.update s.ft f { s.ft f with ref := 1 }
      released := Function.update s.released f 0 } := by
  unfold Sys.filealloc at h
  split at h
  · rename_i g ft hg
    cases h
    obtain ⟨h0, rfl⟩ := filealloc_some hg
    exact ⟨h0, rfl⟩
  · cases h

theorem Sys.filealloc_none (h : s.filealloc = (none, s')) : s' = s := by
  unfold Sys.filealloc at h
  split at h
  · cases h
  · rename_i ft hft
    cases h
    rw [filealloc_none hft]

theorem fdalloc_some {cur : Fin 64} {f : Fin nfile} {o o' : Ofile} {d : Fin nofile}
    (h : fdalloc cur f o = (some d, o')) : o cur d = none ∧ o' = setOfile o cur d (some f) := by
  unfold fdalloc at h
  split at h
  · rename_i e he
    cases h
    exact ⟨by simpa using List.find?_some he, rfl⟩
  · cases h

theorem argfd_some {cur : Fin 64} {fd : Int} {o : Ofile} {d : Fin nofile} {f : Fin nfile}
    (h : argfd cur fd o = some (d, f)) : o cur d = some f := by
  unfold argfd at h
  split at h
  · obtain ⟨g, hg, he⟩ := Option.map_eq_some_iff.mp h
    cases he
    exact hg
  · cases h

/-- `fileclose` neither reads nor changes the descriptors. -/
theorem Sys.fileclose_ofile (s : Sys) (o : Ofile) (f : Fin nfile) :
    { s with ofile := o }.fileclose f = (s.fileclose f).map fun s' => { s' with ofile := o } := by
  unfold Sys.fileclose
  cases Files.fileclose f s.ft with
  | error e => rfl
  | ok rf =>
    obtain ⟨r, ft⟩ := rf
    cases r with
    | none => rfl
    | iput ip => rfl
    | pipe k w =>
      simp only [ok_bind, Sys.pipeclose]
      cases s.pages k <;> rfl

theorem Sys.ofile_fileclose {f : Fin nfile} (h : s.fileclose f = .ok s') : s'.ofile = s.ofile := by
  have hc := Sys.fileclose_ofile s s.ofile f
  rw [show ({ s with ofile := s.ofile } : Sys) = s from rfl, h] at hc
  have hc' : Except.ok s' = (Except.ok { s' with ofile := s.ofile } : Except String Sys) := hc
  rw [Except.ok.inj hc']

/-! ## The calls -/

variable {held : List (Fin nfile)}

/-- Between calls, every reference is a descriptor. -/
theorem Inv.ref_nil (h : Inv s []) (f : Fin nfile) : (s.ft f).ref = holders s.ofile f := by
  rw [h.ref f, List.count_nil, Nat.cast_zero, add_zero]

theorem Inv.ref_of_holder (h : Inv s []) {cur : Fin 64} {d : Fin nofile} {f : Fin nfile}
    (hd : s.ofile cur d = some f) : 0 < (s.ft f).ref := by
  rw [h.ref_nil f]
  have := holders_pos hd
  omega

theorem erase_pair {a b : Fin nfile} (h : a ≠ b) : [a, b].erase b = [a] := by
  simp [h]

theorem Inv.sysOpen (h : Inv s []) (cur : Fin 64) (ip : Option Nat) (omode : Int32) :
    ∃ s', sysOpen cur ip omode s = .ok s' ∧ Inv s' [] := by
  rcases ip with _ | ip
  · exact ⟨s, rfl, h⟩
  unfold Files.sysOpen
  dsimp only
  split
  · rename_i s₁ ha
    rw [Sys.filealloc_none ha]
    exact ⟨s, rfl, h⟩
  · rename_i f s₁ ha
    obtain ⟨hf0, rfl⟩ := Sys.filealloc_some ha
    have h₁ := h.alloc hf0
    split
    · -- no descriptor: the entry is closed again
      obtain ⟨s₂, hs₂, h₂, -⟩ := h₁.close (List.mem_singleton_self f)
      rw [List.erase_cons_head] at h₂
      exact ⟨s₂, hs₂, h₂⟩
    · rename_i d o hd
      obtain ⟨hnone, rfl⟩ := fdalloc_some hd
      have h₂ := h₁.install hnone (List.mem_singleton_self f)
      rw [List.erase_cons_head] at h₂
      refine ⟨_, rfl, h₂.setInode (by simp) ?_ ip _ _⟩
      simp [h.free f hf0]

theorem Inv.sysDup (h : Inv s []) (cur : Fin 64) (fd : Int) :
    ∃ s', sysDup cur fd s = .ok s' ∧ Inv s' [] := by
  unfold Files.sysDup
  split
  · exact ⟨s, rfl, h⟩
  · rename_i d f ha
    have hpos := h.ref_of_holder (argfd_some ha)
    split
    · exact ⟨s, rfl, h⟩
    · rename_i d' o hd
      obtain ⟨hnone, rfl⟩ := fdalloc_some hd
      rw [filedup_eq hpos]
      have h₂ := (h.dup hpos).install hnone (List.mem_singleton_self f)
      rw [List.erase_cons_head] at h₂
      exact ⟨_, rfl, h₂⟩

theorem Inv.sysClose (h : Inv s []) (cur : Fin 64) (fd : Int) :
    ∃ s', sysClose cur fd s = .ok s' ∧ Inv s' [] := by
  unfold Files.sysClose
  split
  · exact ⟨s, rfl, h⟩
  · rename_i d f ha
    obtain ⟨s', hs', h', -⟩ := (h.uninstall (argfd_some ha)).close (List.mem_singleton_self f)
    rw [List.erase_cons_head] at h'
    exact ⟨s', hs', h'⟩

/-- `pipealloc` with a page that holds no pipe: it gives back what it took, or the call holds
the two new entries. -/
theorem Inv.pipealloc (h : Inv s []) (page : Option Nat) (data : Fin pipesize → UInt8)
    (hpage : ∀ k, page = some k → s.pages k = none) :
    (∃ s', s.pipealloc page data = .ok (none, s') ∧ Inv s' []) ∨
      ∃ rf wf s', s.pipealloc page data = .ok (some (rf, wf), s') ∧ Inv s' [wf, rf] ∧ wf ≠ rf := by
  unfold Sys.pipealloc
  split
  · rename_i s₁ ha
    rw [Sys.filealloc_none ha]
    exact .inl ⟨s, rfl, h⟩
  · rename_i rf s₁ ha
    obtain ⟨hr0, rfl⟩ := Sys.filealloc_some ha
    have h₁ := h.alloc hr0
    split
    · rename_i s₂ hb
      obtain rfl := Sys.filealloc_none hb
      obtain ⟨s₃, hs₃, h₃, -⟩ := h₁.close (List.mem_singleton_self rf)
      rw [List.erase_cons_head] at h₃
      exact .inl ⟨s₃, bind_eq_ok.mpr ⟨s₃, hs₃, rfl⟩, h₃⟩
    · rename_i wf s₂ hb
      obtain ⟨hw0, rfl⟩ := Sys.filealloc_some hb
      have h₂ := h₁.alloc hw0
      -- `rf` has its reference, so the second `filealloc` takes another entry
      have hwr : wf ≠ rf := by
        rintro rfl
        simp at hw0
      rcases page with _ | k
      · obtain ⟨s₃, hs₃, h₃, -⟩ := h₂.close (show rf ∈ [wf, rf] by simp)
        rw [erase_pair hwr] at h₃
        obtain ⟨s₄, hs₄, h₄, -⟩ := h₃.close (List.mem_singleton_self wf)
        rw [List.erase_cons_head] at h₄
        exact .inl ⟨s₄, bind_eq_ok.mpr ⟨s₃, hs₃, bind_eq_ok.mpr ⟨s₄, hs₄, rfl⟩⟩, h₄⟩
      · refine .inr ⟨rf, wf, _, rfl, h₂.setPipes (Ne.symm hwr) ?_ ?_ (hpage k rfl) data, hwr⟩
        · simp [Function.update_apply, Ne.symm hwr, h.free rf hr0]
        · simpa using h₁.free wf hw0

theorem Inv.sysPipe (h : Inv s []) (cur : Fin 64) (page : Option Nat)
    (data : Fin pipesize → UInt8) (hpage : ∀ k, page = some k → s.pages k = none) :
    ∃ s', sysPipe cur page data s = .ok s' ∧ Inv s' [] := by
  rcases h.pipealloc page data hpage with ⟨s₁, hrun, h₁⟩ | ⟨rf, wf, s₁, hrun, h₁, hwr⟩
  · exact ⟨s₁, by rw [Files.sysPipe, hrun]; rfl, h₁⟩
  rw [Files.sysPipe, hrun, ok_bind]
  dsimp only
  split
  · -- no descriptor for the read end: both entries are closed again
    obtain ⟨s₂, hs₂, h₂, -⟩ := h₁.close (show rf ∈ [wf, rf] by simp)
    rw [erase_pair hwr] at h₂
    obtain ⟨s₃, hs₃, h₃, -⟩ := h₂.close (List.mem_singleton_self wf)
    rw [List.erase_cons_head] at h₃
    exact ⟨s₃, bind_eq_ok.mpr ⟨s₂, hs₂, hs₃⟩, h₃⟩
  · rename_i fd0 o hd
    obtain ⟨hnone, rfl⟩ := fdalloc_some hd
    have h₂ := h₁.install hnone (show rf ∈ [wf, rf] by simp)
    rw [erase_pair hwr] at h₂
    split
    · -- no descriptor for the write end: the read end's is cleared, then both are closed
      have h₃ := h₂.uninstall (setOfile_self s₁.ofile cur fd0 (some rf))
      obtain ⟨s₄, hs₄, h₄, -⟩ := h₃.close (List.mem_cons_self ..)
      rw [List.erase_cons_head] at h₄
      obtain ⟨s₅, hs₅, h₅, -⟩ := h₄.close (List.mem_singleton_self wf)
      rw [List.erase_cons_head] at h₅
      exact ⟨s₅, bind_eq_ok.mpr ⟨s₄, hs₄, hs₅⟩, h₅⟩
    · rename_i fd1 o' hd'
      obtain ⟨hnone', rfl⟩ := fdalloc_some hd'
      have h₃ := h₂.install hnone' (List.mem_singleton_self wf)
      rw [List.erase_cons_head] at h₃
      exact ⟨_, rfl, h₃⟩

/-- One turn of `fork`'s loop, into an empty descriptor of the child. -/
theorem Inv.forkFile (h : Inv s []) (cur : Fin 64) {child : Fin 64} {fd : Fin nofile}
    (hd : s.ofile child fd = none) :
    ∃ s', forkFile cur child s fd = .ok s' ∧ Inv s' [] ∧
      ∀ e, e ≠ fd → s'.ofile child e = s.ofile child e := by
  unfold Files.forkFile
  split
  · exact ⟨s, rfl, h, fun _ _ => rfl⟩
  · rename_i f hf
    have hpos := h.ref_of_holder hf
    rw [filedup_eq hpos]
    have h₂ := (h.dup hpos).install hd (List.mem_singleton_self f)
    rw [List.erase_cons_head] at h₂
    exact ⟨_, rfl, h₂, fun e he => setOfile_of_ne _ _ (by simp [he])⟩

/-- `fork`'s loop into a slot with no open descriptor; the descriptors it has yet to visit
stay empty. -/
theorem Inv.forkFiles (h : Inv s []) (cur : Fin 64) {child : Fin 64}
    (hfree : ∀ fd, s.ofile child fd = none) :
    ∃ s', forkFiles cur child s = .ok s' ∧ Inv s' [] := by
  have hstep : ∀ fd l s₁, (Inv s₁ [] ∧ (fd :: l).Nodup ∧ ∀ e ∈ fd :: l, s₁.ofile child e = none) →
      Sat (fun _ => False) (fun s₂ => Inv s₂ [] ∧ l.Nodup ∧ ∀ e ∈ l, s₂.ofile child e = none)
        (Files.forkFile cur child s₁ fd) := by
    rintro fd l s₁ ⟨h₁, hnd, hl⟩
    obtain ⟨hfd, hnd'⟩ := List.nodup_cons.mp hnd
    obtain ⟨s₂, hs₂, h₂, hkeep⟩ := h₁.forkFile cur (hl fd List.mem_cons_self)
    rw [hs₂]
    refine ⟨h₂, hnd', fun e he => ?_⟩
    rw [hkeep e (fun hef => hfd (hef ▸ he))]
    exact hl e (List.mem_cons_of_mem _ he)
  obtain ⟨s', hs', h', -⟩ := sat_false_iff.mp (sat_foldlM_rest
    (fun l s₁ => Inv s₁ [] ∧ l.Nodup ∧ ∀ e ∈ l, s₁.ofile child e = none) hstep
    ⟨h, List.nodup_finRange nofile, fun fd _ => hfree fd⟩)
  exact ⟨s', hs', h'⟩

/-- One turn of `exit`'s loop. `exit` closes the file before it clears the descriptor;
`Inv.close` is for the other order, which `fileclose` cannot tell apart. -/
theorem Inv.exitFile (h : Inv s []) (cur : Fin 64) (fd : Fin nofile) :
    ∃ s', exitFile cur s fd = .ok s' ∧ Inv s' [] := by
  unfold Files.exitFile
  split
  · exact ⟨s, rfl, h⟩
  · rename_i f hf
    obtain ⟨s₁, hs₁, h₁, -⟩ := (h.uninstall hf).close (List.mem_singleton_self f)
    rw [List.erase_cons_head] at h₁
    rw [Sys.fileclose_ofile] at hs₁
    cases hc : s.fileclose f with
    | error e =>
      rw [hc] at hs₁
      cases hs₁
    | ok s₂ =>
      rw [hc] at hs₁
      cases hs₁
      rw [ok_bind, Sys.ofile_fileclose hc]
      exact ⟨_, rfl, h₁⟩

theorem Inv.exitFiles (h : Inv s []) (cur : Fin 64) :
    ∃ s', exitFiles cur s = .ok s' ∧ Inv s' [] :=
  sat_false_iff.mp (sat_foldlM (fun s₁ => Inv s₁ [])
    (fun fd _ _ h₁ => sat_false_iff.mpr (h₁.exitFile cur fd)) h)

/-- Every enabled call runs to its end and keeps the invariant. -/
theorem Inv.step (h : Inv s []) {c : Call} (hc : c.enabled s) :
    ∃ s', c.run s = .ok s' ∧ Inv s' [] := by
  cases c with
  | openCall cur ip omode => exact h.sysOpen cur ip omode
  | dup cur fd => exact h.sysDup cur fd
  | close cur fd => exact h.sysClose cur fd
  | pipe cur page data =>
    refine h.sysPipe cur page data fun k hk => ?_
    subst hk
    exact hc
  | fork cur child => exact h.forkFiles cur hc.2
  | exit cur => exact h.exitFiles cur

theorem Reach.inv (h : Reach s) : Inv s [] := by
  induction h with
  | boot => exact inv_boot
  | step c _ hc hrun ih =>
    obtain ⟨s', hs', h'⟩ := ih.step hc
    rw [hrun] at hs'
    cases hs'
    exact h'

/-- The last `fileclose` of an entry with a type makes its one `pipeclose` or `iput`. -/
theorem Inv.release_last (h : Inv s held) {f : Fin nfile} (h1 : (s.ft f).ref = 1)
    (ht : (s.ft f).type ≠ .none) : ∃ s', s.fileclose f = .ok s' ∧ s'.released f = 1 := by
  have h0 := h.unreleased f (by omega)
  cases hty : (s.ft f).type with
  | none => exact absurd hty ht
  | inode =>
    refine ⟨_, by rw [Sys.fileclose, fileclose_of_eq h1, File.release, hty]; rfl, ?_⟩
    simp [Sys.countRelease, h0]
  | pipe =>
    have hf : (s.ft f).pipeEnd = some ((s.ft f).pipe, (s.ft f).writable) := by
      simp [File.pipeEnd, hty, h1]
    obtain ⟨p, hp, -⟩ := h.ends.end_open f _ _ hf
    refine ⟨?s', ?run, ?rel⟩
    case run =>
      rw [Sys.fileclose, fileclose_of_eq h1, ok_bind]
      simp only [File.release, hty, Sys.pipeclose, hp]
      rfl
    case rel => simp [Sys.countRelease, h0]

/-- In every state reachable from boot: each entry's `ref` counts the descriptors that point
to it; `filealloc` takes an entry no descriptor points to; no call stops in a `panic` or
closes a pipe in a freed page; each entry makes at most one release, none while it is
referenced, and makes it at its last `fileclose`; each pipe end is closed at most once, is
open exactly while an entry holds it, and a page is freed exactly when its second end is
closed. -/
theorem file_refcounts (h : Reach s) :
    (∀ f, (s.ft f).ref = holders s.ofile f) ∧
    (∀ f s', s.filealloc = (some f, s') →
      (s.ft f).ref = 0 ∧ holders s.ofile f = 0 ∧ (s.ft f).type = .none) ∧
    (∀ c : Call, c.enabled s → ∃ s', c.run s = .ok s') ∧
    (∀ f, s.released f ≤ 1 ∧ (0 < (s.ft f).ref → s.released f = 0)) ∧
    (∀ f, (s.ft f).ref = 1 → (s.ft f).type ≠ .none →
      ∃ s', s.fileclose f = .ok s' ∧ s'.released f = 1) ∧
    (∀ k w, s.closes k w ≤ 1) ∧
    (∀ k p, s.pages k = some p → (p.readopen = true ∨ p.writeopen = true) ∧
      ∀ w, s.closes k w = (if endOpen p w then 0 else 1) ∧
        (endOpen p w = true ↔ ∃ f, (s.ft f).pipeEnd = some (k, w))) ∧
    (∀ k, s.pages k = none → s.closes k false = s.closes k true) := by
  have hi := h.inv
  refine ⟨hi.ref_nil, fun f s' ha => ?_, fun c hc => ?_,
    fun f => ⟨hi.released_le f, hi.unreleased f⟩, fun f h1 ht => hi.release_last h1 ht,
    hi.ends.closes_le, fun k p hp => ⟨hi.ends.page_live k p hp, fun w => ⟨hi.ends.closes_eq k p w hp,
      hi.ends.open_end k p w hp, fun ⟨f, hf⟩ => ?_⟩⟩, hi.ends.freed_eq⟩
  · obtain ⟨h0, -⟩ := Sys.filealloc_some ha
    have href := hi.ref_nil f
    exact ⟨h0, by omega, hi.free f h0⟩
  · obtain ⟨s', hs', -⟩ := hi.step hc
    exact ⟨s', hs'⟩
  · obtain ⟨p', hp', ho⟩ := hi.ends.end_open f k w hf
    rw [hp] at hp'
    cases hp'
    exact ho

theorem file_refcounts_after_pipe :
    ∃ s, Reach s ∧ (s.ft 0).ref = holders s.ofile 0 ∧ s.ofile 0 0 = some 0 := by
  have h1 : Reach _ := Reach.boot.step (.pipe 0 (some 5) fun _ => 0) rfl rfl
  exact ⟨_, h1, (file_refcounts h1).1 0, rfl⟩

end Xv6.Files
