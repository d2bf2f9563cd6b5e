import Xv6.Vm.Own

/-!
# Freeing an address space: `freevm`

`freevm(pgdir)` frees the user part with `deallocuvm(pgdir, KERNBASE, 0)`, then the page table of
every present directory entry, those `setupkvm` made for the kernel's half included, and last the
directory itself. Its loop over the entries is a counted loop of `CLoop`, and each run of it
frees one table (`TablesFreed.step`).

`freevm_ok`: on a well-formed directory, `freevm` succeeds and `Released` the process's pages,
that is its user pages, its page tables and its directory: they stand once each in front of the
old free list, and no other page changes. So the free list after still holds no page twice and
only pages `kfree` takes (`freevm_frees_once`).
-/

namespace Xv6.Vm

section Code

variable (kend : Nat)

/-- One run of `freevm`'s loop: the page table of entry `i`, if present, freed. -/
def freeTable (pgdir i : Nat) (m : Mach) : Except String Mach :=
  if m.mem pgdir i &&& PTE_P ≠ 0 then kfree kend m (PTE_ADDR (m.mem pgdir i)) else .ok m

/-- `freevm(pgdir)`. -/
def freevm (m : Mach) (pgdir : Nat) : Except String Mach :=
  if pgdir = 0 then .error "freevm: no pgdir"
  else do
    let (_, m) ← deallocuvm kend m pgdir KERNBASE 0
    let m ← CLoop.loop (· + 1) (freeTable kend pgdir) NPDENTRIES 0 m
    kfree kend m pgdir

end Code

section Released

variable {kend : Nat} {m₀ m : Mach} {pgdir : Nat}

/-- From `m₀`, the pages `L` freed: in front of the free list once each, and every other page as
it was. -/
structure Released (m₀ m : Mach) (L : List Nat) : Prop where
  freelist : m.freelist = L ++ m₀.freelist
  nodup : L.Nodup
  frame : ∀ q, q ∉ L → m.mem q = m₀.mem q

theorem Released.nil (m : Mach) : Released m m [] := ⟨rfl, List.nodup_nil, fun _ _ => rfl⟩

/-- Freeing one more page `p`, not freed yet, with `kfree`. -/
theorem Released.kfree {L : List Nat} (h : Released m₀ m L) {p : Nat} (hp : p ∉ L) :
    Released m₀ { m.fill p 0x01010101 with freelist := p :: m.freelist } (p :: L) := by
  refine ⟨by simp [h.freelist], List.nodup_cons.mpr ⟨hp, h.nodup⟩, fun q hq => ?_⟩
  rw [List.mem_cons, not_or] at hq
  show (m.fill p 0x01010101).mem q = _
  rw [Mach.fill_mem, if_neg hq.1, h.frame q hq.2]

/-- A run that changes no page that was not free, with a free list of distinct pages that were
free, leaves a process's directory, its tables, its translations and its user pages. -/
theorem Uvm.keep_free (h : Uvm kend m pgdir) {m' : Mach} (hnd : m'.freelist.Nodup)
    (hsub : ∀ p ∈ m'.freelist, p ∈ m.freelist) (hframe : ∀ q, q ∉ m.freelist → m'.mem q = m.mem q) :
    Uvm kend m' pgdir ∧ m'.table pgdir = m.table pgdir ∧ m'.trans pgdir = m.trans pgdir ∧
      ∀ p, UserPage m pgdir p → m'.mem p = m.mem p := by
  have hkeep : ∀ q, UserPage m pgdir q ∨ Walked m pgdir q → m'.mem q = m.mem q :=
    fun q hq => hframe q (h.owned hq).1
  obtain ⟨hu, htab, htr⟩ := h.keep hnd hsub hkeep
  exact ⟨hu, htab, htr, fun p hp => hkeep p (.inl hp)⟩

/-- Pages freed that were the process's own keep the allocator's invariant: the free list holds no
page twice and only pages `kfree` takes. -/
theorem Released.free_ok (h₀ : Uvm kend m₀ pgdir) {L : List Nat} (h : Released m₀ m L)
    (hL : ∀ p ∈ L, UserPage m₀ pgdir p ∨ Walked m₀ pgdir p) :
    m.freelist.Nodup ∧ ∀ p ∈ m.freelist, Alloc kend p := by
  rw [h.freelist]
  refine ⟨List.nodup_append.mpr ⟨h.nodup, h₀.nodup, fun a ha b hb hab => ?_⟩, fun p hp => ?_⟩
  · exact (h₀.owned (hL a ha)).1 (hab ▸ hb)
  · rcases List.mem_append.mp hp with hp | hp
    · exact (h₀.owned (hL p hp)).2
    · exact h₀.free_alloc p hp

end Released

/-! ## The loop over the directory -/

section Tables

variable {kend : Nat} {m₀ m : Mach} {pgdir : Nat}

theorem freeTable_none {i : Nat} (h : m.table pgdir i = none) : freeTable kend pgdir i m = .ok m := by
  rw [freeTable, if_neg (not_not.mpr (table_eq_none.mp h))]

theorem freeTable_some {i t : Nat} (h : m.table pgdir i = some t) :
    freeTable kend pgdir i m = kfree kend m t := by
  obtain ⟨hp, ht⟩ := table_eq_some.mp h
  rw [freeTable, if_pos hp, ht]

/-- The first `k` entries done, from `m₀`: the directory's words as they were, and exactly the page
tables of those entries released. -/
structure TablesFreed (m₀ m : Mach) (pgdir k : Nat) : Prop where
  dir : m.mem pgdir = m₀.mem pgdir
  freed : ∃ T, Released m₀ m T ∧ ∀ p, p ∈ T ↔ ∃ i < k, m₀.table pgdir i = some p

theorem TablesFreed.zero (m : Mach) (pgdir : Nat) : TablesFreed m m pgdir 0 :=
  ⟨rfl, [], Released.nil m, fun p => by simp⟩

/-- One run of the loop: entry `k`'s table, if any, is freed, and it is none of the tables freed
before since the directory's tables are distinct. -/
theorem TablesFreed.step (h₀ : Uvm kend m₀ pgdir) {k : Nat} (hk : k < NPDENTRIES)
    (h : TablesFreed m₀ m pgdir k) :
    ∃ m', freeTable kend pgdir k m = .ok m' ∧ TablesFreed m₀ m' pgdir (k + 1) := by
  obtain ⟨T, hT, hmem⟩ := h.freed
  have htab : m.table pgdir k = m₀.table pgdir k := table_congr h.dir k
  cases ht : m₀.table pgdir k with
  | none =>
    refine ⟨m, freeTable_none (htab.trans ht), h.dir, T, hT, fun p => ?_⟩
    rw [hmem p]
    constructor
    · rintro ⟨i, hi, hp⟩
      exact ⟨i, by omega, hp⟩
    · rintro ⟨i, hi, hp⟩
      have hik : i ≠ k := by
        rintro rfl
        rw [ht] at hp
        cases hp
      exact ⟨i, by omega, hp⟩
  | some t =>
    have hne : t ≠ pgdir := fun e => h₀.table_ne k hk (e ▸ ht)
    have htT : t ∉ T := by
      intro htT
      obtain ⟨i, hi, hp⟩ := (hmem t).mp htT
      have := h₀.table_inj i (by omega) k hk t hp ht
      omega
    refine ⟨_, (freeTable_some (htab.trans ht)).trans
      (kfree_of_alloc (h₀.walked_alloc t (Walked.table hk ht)) m), ?_, t :: T, hT.kfree htT,
      fun p => ?_⟩
    · show (m.fill t 0x01010101).mem pgdir = _
      rw [Mach.fill_mem, if_neg (Ne.symm hne), h.dir]
    · rw [List.mem_cons, hmem p]
      constructor
      · rintro (rfl | ⟨i, hi, hp⟩)
        · exact ⟨k, by omega, ht⟩
        · exact ⟨i, by omega, hp⟩
      · rintro ⟨i, hi, hp⟩
        by_cases hik : i = k
        · subst hik
          rw [ht, Option.some.injEq] at hp
          exact .inl hp.symm
        · exact .inr ⟨i, by omega, hp⟩

/-- The loop frees the page table of every present entry, once each. -/
theorem freeTables_spec (h₀ : Uvm kend m₀ pgdir) :
    ∃ m, CLoop.loop (· + 1) (freeTable kend pgdir) NPDENTRIES 0 m₀ = .ok m ∧
      TablesFreed m₀ m pgdir NPDENTRIES := by
  refine CLoop.loop_ok (fun k m => TablesFreed m₀ m pgdir k) (fun k m hk h => ?_)
    (TablesFreed.zero m₀ pgdir)
  have hiter : (fun i : Nat => i + 1)^[k] 0 = k := by simp
  rw [hiter]
  exact h.step h₀ hk

end Tables

/-! ## `freevm` -/

section Freevm

variable {kend : Nat} {m : Mach} {pgdir : Nat}

/-- `freevm` releases exactly the pages the process owns. -/
theorem freevm_ok (hk : 0 < kend) (h : Uvm kend m pgdir) :
    ∃ m' L, freevm kend m pgdir = .ok m' ∧ Released m m' L ∧
      ∀ p, p ∈ L ↔ UserPage m pgdir p ∨ Walked m pgdir p := by
  have hd : Alloc kend pgdir := h.walked_alloc pgdir (Walked.dir m pgdir)
  have hd0 : pgdir ≠ 0 := by
    have := hd.2.1
    omega
  -- the user pages
  obtain ⟨m₁, hrun₁, hF⟩ := deallocuvm_freed hk h (show 0 < KERNBASE by decide) le_rfl
  obtain ⟨U, hU, hUnd, hUmem, hUframe⟩ := hF.range (PGROUNDUP_aligned 0) le_rfl
  have hU' : ∀ p, p ∈ U ↔ UserPage m pgdir p := fun p => by
    rw [hUmem p]
    unfold UserPage
    constructor
    · rintro ⟨va, -, hva, f, hp⟩
      exact ⟨va, hva, f, hp⟩
    · rintro ⟨va, hva, f, hp⟩
      exact ⟨va, by rw [show PGROUNDUP 0 = 0 by decide]; exact Nat.zero_le va, hva, f, hp⟩
  -- the page tables, which `deallocuvm` left in place
  obtain ⟨m₂, hrun₂, hT⟩ := freeTables_spec hF.uvm
  obtain ⟨T, hTrel, hTmem⟩ := hT.freed
  have hT' : ∀ p, p ∈ T ↔ ∃ i < NPDENTRIES, m.table pgdir i = some p := fun p => by
    rw [hTmem p, hF.table]
  have hTw : ∀ p ∈ T, Walked m pgdir p := fun p hp => .inr ((hT' p).mp hp)
  have hUu : ∀ p ∈ U, ¬Walked m pgdir p := fun p hp => h.user_walked p ((hU' p).mp hp)
  have hdT : pgdir ∉ T := by
    intro hp
    obtain ⟨i, hi, ht⟩ := (hT' pgdir).mp hp
    exact h.table_ne i hi ht
  have hdU : pgdir ∉ U := fun hp => hUu pgdir hp (Walked.dir m pgdir)
  have hnd : (T ++ U).Nodup :=
    List.nodup_append.mpr ⟨hTrel.nodup, hUnd, fun a ha b hb hab => hUu b hb (hab ▸ hTw a ha)⟩
  -- and last the directory
  refine ⟨{ m₂.fill pgdir 0x01010101 with freelist := pgdir :: m₂.freelist }, pgdir :: (T ++ U), ?_,
    ⟨?_, List.nodup_cons.mpr ⟨?_, hnd⟩, fun q hq => ?_⟩, fun p => ?_⟩
  · rw [freevm, if_neg hd0, hrun₁, CLoop.ok_bind]
    dsimp only
    rw [hrun₂, CLoop.ok_bind, kfree_of_alloc hd]
  · simp [hTrel.freelist, hU]
  · rw [List.mem_append, not_or]
    exact ⟨hdT, hdU⟩
  · rw [List.mem_cons, List.mem_append, not_or, not_or] at hq
    obtain ⟨hqd, hqT, hqU⟩ := hq
    -- neither the directory nor one of its tables, so the walk of `deallocuvm` did not touch `q`
    have hqw : ¬Walked m pgdir q := by
      rintro (rfl | ⟨i, hi, ht⟩)
      · exact hqd rfl
      · exact hqT ((hT' q).mpr ⟨i, hi, ht⟩)
    show (m₂.fill pgdir 0x01010101).mem q = _
    rw [Mach.fill_mem, if_neg hqd, hTrel.frame q hqT, hUframe q hqU hqw]
  · rw [List.mem_cons, List.mem_append, hT', hU']
    unfold Walked
    exact or_assoc.symm.trans or_comm

/-- **`freevm` frees every page of the process once.** On a well-formed directory `freevm`
succeeds and puts in front of the old free list, once each, exactly the process's user pages, its
page tables and its directory, and changes no other page. The free list after holds no page twice
and only pages `kfree` takes. -/
theorem freevm_frees_once (hk : 0 < kend) (h : Uvm kend m pgdir) :
    ∃ m' L, freevm kend m pgdir = .ok m' ∧ m'.freelist = L ++ m.freelist ∧ L.Nodup ∧
      (∀ p, p ∈ L ↔ UserPage m pgdir p ∨ Walked m pgdir p) ∧
      (∀ q, q ∉ L → m'.mem q = m.mem q) ∧ m'.freelist.Nodup ∧ ∀ p ∈ m'.freelist, Alloc kend p := by
  obtain ⟨m', L, hrun, hR, hmem⟩ := freevm_ok hk h
  obtain ⟨hnd, halloc⟩ := hR.free_ok h fun p hp => (hmem p).mp hp
  exact ⟨m', L, hrun, hR.freelist, hR.nodup, hmem, hR.frame, hnd, halloc⟩

theorem freevm_frees_once_empty :
    ∃ m' L, freevm 0x100000 emptyProc 0x200000 = .ok m' ∧ m'.freelist = L ++ emptyProc.freelist ∧
      L.Nodup ∧ (∀ p, p ∈ L ↔ UserPage emptyProc 0x200000 p ∨ Walked emptyProc 0x200000 p) ∧
      (∀ q, q ∉ L → m'.mem q = emptyProc.mem q) ∧ m'.freelist.Nodup ∧
      ∀ p ∈ m'.freelist, Alloc 0x100000 p :=
  freevm_frees_once (by decide) emptyProc_uvm

/-- From `m₀`, all that `freevm` leaves of a directory grown by page tables: every page the
directory owned at `m₀` and every page then free is free, once each, and every other page is as it
was. -/
structure Undone (m₀ m : Mach) (pgdir : Nat) : Prop where
  free : ∀ q, q ∈ m.freelist ↔ q ∈ m₀.freelist ∨ UserPage m₀ pgdir q ∨ Walked m₀ pgdir q
  nodup : m.freelist.Nodup
  frame : ∀ q, q ∉ m₀.freelist → ¬UserPage m₀ pgdir q → ¬Walked m₀ pgdir q → m.mem q = m₀.mem q

/-- `freevm` undoes every page the directory owns. -/
theorem Uvm.freevm_undone (hk : 0 < kend) (h : Uvm kend m pgdir) :
    ∃ m', freevm kend m pgdir = .ok m' ∧ Undone m m' pgdir := by
  obtain ⟨m', L, hrun, hR, hL⟩ := freevm_ok hk h
  obtain ⟨hnd, -⟩ := hR.free_ok h fun p hp => (hL p).mp hp
  refine ⟨m', hrun, fun q => ?_, hnd, fun q _ hqu hqw => hR.frame q fun hq => ?_⟩
  · rw [hR.freelist, List.mem_append, hL]
    exact or_comm
  · rcases (hL q).mp hq with hp | hp
    · exact hqu hp
    · exact hqw hp

/-- What a grown directory starts from is what is undone after it: a page free at `m₀` and not
now is one the directory took. -/
theorem Grows.undone {m₀ m' : Mach} (hG : Grows kend m₀ m pgdir) (h : Undone m m' pgdir) :
    Undone m₀ m' pgdir := by
  refine ⟨fun q => ?_, h.nodup, fun q hq hqu hqw => ?_⟩
  · rw [h.free, hG.owned]
    by_cases hq : q ∈ m.freelist
    · have := hG.suffix.subset hq
      tauto
    · tauto
  · have hq₁ : q ∉ m.freelist := fun h => hq (hG.suffix.subset h)
    have ho : ¬(UserPage m pgdir q ∨ Walked m pgdir q) := by
      rw [hG.owned]
      rintro ((h | h) | h)
      · exact hqu h
      · exact hqw h
      · exact hq h.1
    rw [h.frame q hq₁ (fun h => ho (.inl h)) (fun h => ho (.inr h)), hG.frame q hq hqu hqw]

/-- `freevm` of a grown directory gives back what it owned at `m₀` and all it took since. -/
theorem Grows.freevm {m₀ : Mach} (hk : 0 < kend) (hG : Grows kend m₀ m pgdir) :
    ∃ m', freevm kend m pgdir = .ok m' ∧ Undone m₀ m' pgdir := by
  obtain ⟨m', hrun, hU⟩ := hG.uvm.freevm_undone hk
  exact ⟨m', hrun, hG.undone hU⟩

end Freevm

end Xv6.Vm
