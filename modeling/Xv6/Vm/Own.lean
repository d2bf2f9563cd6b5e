import Xv6.Vm.Uvm

/-!
# What a directory owns, and runs confined to it

A directory owns the pages it maps below `KERNBASE` and the pages it walks (`Owned`). The kernel's
calls on one address space move pages between the free list and the directory and write no other
page: `Confined` says this of a run, as a conservation law (the pages free or owned are the same
pages before and after) and a frame (every other page is as it was). Runs compose
(`Confined.trans`), and each kind of run the calls make is confined: a directory grown by pages off
the free list (`Grows.confined`), with `Uvm.grows_enter` for one page entered; `deallocuvm`
(`Freed.confined`); and a roll back that frees a range and gives back the page in hand
(`Uvm.confined_undo`).
-/

namespace Xv6.Vm

/-- The directory at `d` maps `q` below `KERNBASE`, or walks it. -/
def Owned (m : Mach) (d q : Nat) : Prop := UserPage m d q ∨ Walked m d q

section Owned

variable {kend : Nat} {m m' : Mach} {pgdir : Nat}

/-- A page the process owns, a user page or a page of its directory, is off the free list and is
one `kfree` takes. -/
theorem Uvm.owned (h : Uvm kend m pgdir) {p : Nat} (hp : UserPage m pgdir p ∨ Walked m pgdir p) :
    p ∉ m.freelist ∧ Alloc kend p := by
  rcases hp with hp | hp
  · exact ⟨h.user_free p hp, h.user_alloc p hp⟩
  · exact ⟨h.walked_free p hp, h.walked_alloc p hp⟩

end Owned

/-! ## Confined runs -/

section Confined

variable {m₀ m m₁ m₂ : Mach} {d : Nat}

/-- From `m₀`, a run on the directory at `d` alone: the pages free or owned by `d` are the same
pages, on a free list of distinct pages, and every other page is as it was. -/
structure Confined (m₀ m : Mach) (d : Nat) : Prop where
  nodup : m.freelist.Nodup
  pool : ∀ q, q ∈ m.freelist ∨ Owned m d q ↔ q ∈ m₀.freelist ∨ Owned m₀ d q
  frame : ∀ q, q ∉ m₀.freelist → ¬Owned m₀ d q → m.mem q = m₀.mem q

theorem Confined.refl (hnd : m.freelist.Nodup) : Confined m m d :=
  ⟨hnd, fun _ => Iff.rfl, fun _ _ _ => rfl⟩

theorem Confined.trans (h₁ : Confined m₀ m₁ d) (h₂ : Confined m₁ m₂ d) : Confined m₀ m₂ d := by
  refine ⟨h₂.nodup, fun q => (h₂.pool q).trans (h₁.pool q), fun q hq ho => ?_⟩
  have h : ¬(q ∈ m₁.freelist ∨ Owned m₁ d q) := fun h => ((h₁.pool q).mp h).elim hq ho
  rw [h₂.frame q (fun h' => h (.inl h')) (fun h' => h (.inr h')), h₁.frame q hq ho]

end Confined

/-! ## Growing a directory -/

section Grows

variable {kend : Nat} {m₀ m m' : Mach} {pgdir d : Nat}

/-- From `m₀`, a directory grown by pages off the free list: the invariant, every page it owns, a
user page or a page it walks, owned at `m₀` or taken off the list since, and every other page off
the list that it did not own untouched. -/
structure Grows (kend : Nat) (m₀ m : Mach) (pgdir : Nat) : Prop where
  uvm : Uvm kend m pgdir
  suffix : m.freelist <:+ m₀.freelist
  owned : ∀ q, UserPage m pgdir q ∨ Walked m pgdir q ↔
    (UserPage m₀ pgdir q ∨ Walked m₀ pgdir q) ∨ (q ∈ m₀.freelist ∧ q ∉ m.freelist)
  frame : ∀ q, q ∉ m₀.freelist → ¬UserPage m₀ pgdir q → ¬Walked m₀ pgdir q → m.mem q = m₀.mem q

/-- Two runs that grow the directory, one after the other. -/
theorem Grows.then {m₀ m₁ m₂ : Mach} (h₁ : Grows kend m₀ m₁ pgdir) (h₂ : Grows kend m₁ m₂ pgdir) :
    Grows kend m₀ m₂ pgdir := by
  have hs₁ := h₁.suffix.subset
  have hs₂ := h₂.suffix.subset
  refine ⟨h₂.uvm, h₂.suffix.trans h₁.suffix, fun q => ?_, fun q hq hqu hqw => ?_⟩
  · rw [h₂.owned, h₁.owned]
    constructor
    · rintro ((ho | ⟨hq, hq₁⟩) | ⟨hq₁, hq₂⟩)
      · exact .inl ho
      · exact .inr ⟨hq, fun h => hq₁ (hs₂ h)⟩
      · exact .inr ⟨hs₁ hq₁, hq₂⟩
    · rintro (ho | ⟨hq, hq₂⟩)
      · exact .inl (.inl ho)
      · by_cases hq₁ : q ∈ m₁.freelist
        · exact .inr ⟨hq₁, hq₂⟩
        · exact .inl (.inr ⟨hq, hq₁⟩)
  · have hq₁ : q ∉ m₁.freelist := fun h => hq (hs₁ h)
    have ho₁ : ¬(UserPage m₁ pgdir q ∨ Walked m₁ pgdir q) := by
      rw [h₁.owned]
      rintro ((h | h) | h)
      · exact hqu h
      · exact hqw h
      · exact hq h.1
    rw [h₂.frame q hq₁ (fun h => ho₁ (.inl h)) (fun h => ho₁ (.inr h)), h₁.frame q hq hqu hqw]

/-- A page-table run that leaves the user addresses grows the directory. -/
theorem Takes.grows {m₀ : Mach} (hT : Takes kend m₀ m pgdir)
    (hu : ∀ va < KERNBASE, m.trans pgdir va = m₀.trans pgdir va) : Grows kend m₀ m pgdir := by
  refine ⟨hT.uvm, hT.suffix, fun q => ?_, fun q hq _ hqw => hT.frame q hq hqw⟩
  rw [userPage_congr_user hu, hT.walked]
  exact or_assoc.symm

/-- A grown directory is confined: the pages it took were free. -/
theorem Grows.confined (h : Grows kend m₀ m pgdir) : Confined m₀ m pgdir := by
  refine ⟨h.uvm.nodup, fun q => ?_, fun q hq ho => h.frame q hq (fun h => ho (.inl h))
    (fun h => ho (.inr h))⟩
  unfold Owned
  rw [h.owned]
  by_cases hq : q ∈ m.freelist
  · have := h.suffix.subset hq
    tauto
  · tauto

/-- A run that writes only free pages and keeps the free list grows the directory by nothing. -/
theorem Uvm.grows_free (h : Uvm kend m d) (hf : m'.freelist = m.freelist)
    (hmem : ∀ q, q ∉ m.freelist → m'.mem q = m.mem q) : Grows kend m m' d := by
  have hkeep : ∀ q, UserPage m d q ∨ Walked m d q → m'.mem q = m.mem q :=
    fun q hq => hmem q (h.owned hq).1
  obtain ⟨hu, htab, htr⟩ := h.keep (hf ▸ h.nodup) (fun q hq => hf ▸ hq) hkeep
  refine ⟨hu, by rw [hf], fun q => ?_, fun q hq _ _ => hmem q hq⟩
  rw [userPage_congr htr, walked_congr htab, hf]
  tauto

/-- The head `x` of the free list taken, written, and entered at an unmapped user address `a`: the
directory grows by `x` and the page tables `mappages` took. -/
theorem Uvm.grows_enter (h : Uvm kend m d) {x : Nat} {rest : List Nat} (hf : m.freelist = x :: rest)
    {m₁ : Mach} (hf₁ : m₁.freelist = rest) (hmem : ∀ q, q ≠ x → m₁.mem q = m.mem q) {a : Nat}
    {perm : UInt32} (hK : a < KERNBASE) (hnone : m.trans d a = none)
    (hE : Entered kend m₁ m' d a x perm) : Grows kend m m' d := by
  obtain ⟨-, htr₁, htab₁⟩ := h.take hf hf₁ hmem
  obtain ⟨-, hxr, -, -⟩ := h.head_fresh hf
  have hx' : x ∉ m'.freelist := fun hx => hxr (hf₁ ▸ hE.suffix.subset hx)
  -- the user pages after are those before and `x`
  have huser : ∀ q, UserPage m' d q ↔ UserPage m d q ∨ q = x := by
    intro q
    constructor
    · rintro ⟨va, hva, f, hq⟩
      rw [hE.trans va] at hq
      split_ifs at hq with hs
      · exact .inr (Prod.mk.inj (Option.some.inj hq)).1.symm
      · exact .inl ⟨va, hva, f, by rw [← htr₁]; exact hq⟩
    · rintro (⟨va, hva, f, hq⟩ | rfl)
      · have hs : ¬(PDX va = PDX a ∧ PTX va = PTX a) := fun hs => by
          rw [trans_of_same hs, hnone] at hq
          cases hq
        exact ⟨va, hva, f, by rw [hE.trans va, if_neg hs, htr₁]; exact hq⟩
      · exact ⟨a, hK, perm ||| PTE_P, by rw [hE.trans a, if_pos ⟨rfl, rfl⟩]⟩
  refine ⟨hE.uvm, ?_, fun q => ?_, fun q hq hqu hqw => ?_⟩
  · rw [hf]
    exact hE.suffix.trans (hf₁ ▸ List.suffix_cons x rest)
  · rw [huser, hE.walked, walked_congr htab₁, hf₁, hf, List.mem_cons]
    by_cases hqx : q = x
    · subst hqx
      tauto
    · tauto
  · have hqx : q ≠ x := fun e => hq (by rw [hf, e]; exact List.mem_cons_self)
    have hqr : q ∉ m₁.freelist := fun h => hq (by rw [hf]; exact List.mem_cons_of_mem x (hf₁ ▸ h))
    rw [hE.frame q hqr (by rw [walked_congr htab₁]; exact hqw), hmem q hqx]

end Grows

/-! ## Freeing a range -/

section Freed

variable {kend : Nat} {m₀ m m₁ m₂ : Mach} {pgdir lo hi : Nat}

/-- The pages a freed range leaves the directory: the user pages not freed, and the same tables. -/
theorem Freed.owned (h : Freed kend m₀ m pgdir lo hi) (q : Nat) :
    Owned m pgdir q ↔ (UserPage m₀ pgdir q ∧ q ∉ m.freelist) ∨ Walked m₀ pgdir q := by
  obtain ⟨L, hL, hmemL, -⟩ := h.freed
  unfold Owned
  rw [walked_congr h.table]
  constructor
  · rintro (⟨va, hva, f, hq⟩ | hw)
    · have hva32 : va < 2 ^ 32 := lt_two_pow_of_lt_KERNBASE hva
      have hm : m.trans pgdir va = some (q, f) := hq
      rw [h.trans va hva32] at hq
      split_ifs at hq
      exact .inl ⟨⟨va, hva, f, hq⟩, h.uvm.user_free q ⟨va, hva, f, hm⟩⟩
    · exact .inr hw
  · rintro (⟨⟨va, hva, f, hq⟩, hqf⟩ | hw)
    · have hva32 : va < 2 ^ 32 := lt_two_pow_of_lt_KERNBASE hva
      -- a page mapped in the range is freed, so `q` is mapped outside it
      by_cases hin : lo ≤ va / PGSIZE * PGSIZE ∧ va / PGSIZE * PGSIZE < hi
      · have hqL : q ∈ L := (hmemL q).mpr ⟨va, hva32, f, hq, by rw [h.trans va hva32, if_pos hin]⟩
        exact absurd (hL ▸ List.mem_append_left _ hqL) hqf
      · exact .inl ⟨va, hva, f, by rw [h.trans va hva32, if_neg hin]; exact hq⟩
    · exact .inr hw

/-- `deallocuvm` of a range below `KERNBASE` is confined: the pages it frees were the directory's
user pages. -/
theorem Freed.confined (h : Freed kend m₀ m pgdir lo hi) (hhi : hi ≤ KERNBASE) :
    Confined m₀ m pgdir := by
  obtain ⟨L, hL, hmemL, hframe⟩ := h.freed
  -- a freed page was mapped, below `hi`, at `m₀`
  have hLu : ∀ q ∈ L, UserPage m₀ pgdir q := by
    intro q hq
    obtain ⟨va, hva, f, h₀, hn⟩ := (hmemL q).mp hq
    rw [h.trans va hva] at hn
    split_ifs at hn with hin
    · have hb : va / PGSIZE * PGSIZE < KERNBASE := lt_of_lt_of_le hin.2 hhi
      refine ⟨va, ?_, f, h₀⟩
      simp only [PGSIZE, KERNBASE] at hb ⊢
      omega
    · rw [h₀] at hn
      cases hn
  refine ⟨h.uvm.nodup, fun q => ?_, fun q hq ho => hframe q (fun hqL => ho (.inl (hLu q hqL)))
    (fun hw => ho (.inr hw))⟩
  rw [h.owned q, hL, List.mem_append]
  unfold Owned
  by_cases hqL : q ∈ L
  · have := hLu q hqL
    tauto
  · tauto

/-- The head `x` of the free list taken and written, a range below `KERNBASE` freed, and `x` given
back by `kfree`: the roll back of `allocuvm` after `mappages` fails, confined to the directory. -/
theorem Uvm.confined_undo (h : Uvm kend m pgdir) {x : Nat} {rest : List Nat}
    (hf : m.freelist = x :: rest) (hf₁ : m₁.freelist = rest) (hmem : ∀ q, q ≠ x → m₁.mem q = m.mem q)
    (hF : Freed kend m₁ m₂ pgdir lo hi) (hhi : hi ≤ KERNBASE) (hx₂ : x ∉ m₂.freelist) (w : UInt32) :
    Confined m { m₂.fill x w with freelist := x :: m₂.freelist } pgdir := by
  obtain ⟨hu₁, htr₁, htab₁⟩ := h.take hf hf₁ hmem
  obtain ⟨-, hxr, hxw, hxu⟩ := h.head_fresh hf
  have hC := hF.confined hhi
  -- `x` is neither read nor mapped by the directory after the range is freed
  have hxw₂ : ¬Walked m₂ pgdir x := by
    rw [walked_congr (hF.table.trans htab₁)]
    exact hxw
  have hxd : x ≠ pgdir := fun e => hxw₂ (e ▸ Walked.dir m₂ pgdir)
  have htr₃ : ({ m₂.fill x w with freelist := x :: m₂.freelist } : Mach).trans pgdir =
      m₂.trans pgdir :=
    funext (trans_fill hxd (fun i hi e => hxw₂ (.table hi e)) w)
  have hd₃ : ({ m₂.fill x w with freelist := x :: m₂.freelist } : Mach).mem pgdir = m₂.mem pgdir := by
    funext j
    simp [Ne.symm hxd]
  have hown₃ : ∀ q, Owned { m₂.fill x w with freelist := x :: m₂.freelist } pgdir q ↔
      Owned m₂ pgdir q := fun q => by
    unfold Owned
    rw [userPage_congr htr₃, walked_congr (funext (table_congr hd₃))]
  have hown₁ : ∀ q, Owned m₁ pgdir q ↔ Owned m pgdir q := fun q => by
    unfold Owned
    rw [userPage_congr htr₁, walked_congr htab₁]
  have hxo : ¬Owned m pgdir x := fun ho => ho.elim hxu hxw
  refine ⟨List.nodup_cons.mpr ⟨hx₂, hC.nodup⟩, fun q => ?_, fun q hq ho => ?_⟩
  · rw [hown₃, List.mem_cons, or_assoc, hC.pool q, hf₁, hown₁, hf, List.mem_cons, or_assoc]
  · have hqx : q ≠ x := fun e => hq (by rw [hf, e]; exact List.mem_cons_self)
    have hqr : q ∉ m₁.freelist := fun hq' => hq (by rw [hf]; exact List.mem_cons_of_mem x (hf₁ ▸ hq'))
    show (m₂.fill x w).mem q = m.mem q
    rw [Mach.fill_mem, if_neg hqx, hC.frame q hqr (fun h => ho ((hown₁ q).mp h)), hmem q hqx]

end Freed

end Xv6.Vm
