import Xv6.Vm.Own

/-!
# `allocuvm`, and what `growproc` and `sbrk` do

`allocuvm(pgdir, oldsz, newsz)` maps a cleared page at each page base of
`[PGROUNDUP(oldsz), newsz)`. On a well-formed directory with nothing mapped there it either
succeeds, with each page of the range mapped user-writable to a cleared page that was free
(`Grown`), or runs out of memory and rolls back with `deallocuvm(pgdir, newsz, oldsz)` (and
`kfree` of the page in hand): every translation is as before, and every page that was free is
free again or has become a page table of the directory (`RolledBack`); the page tables that
`walkpgdir` created stay. `allocuvm_post` says this for every run, by one lemma for each case of
the loop's body: a page taken (`Grown.take`), a page entered (`Grown.enter`), the roll back
(`Grown.undo`).
-/

namespace Xv6.Vm

section Grown

variable {kend : Nat} {m₀ m : Mach} {pgdir lo hi : Nat}

/-- What mapping fresh pages over `[lo, hi)` leaves, from `m₀`: the invariant; each page of the
range mapped, user-writable, to a cleared page that was free in `m₀`; every other translation as
before; pages only taken off the free list, the new page tables among them; and every page `m₀`
maps keeping its contents. -/
structure Grown (kend : Nat) (m₀ m : Mach) (pgdir lo hi : Nat) : Prop where
  uvm : Uvm kend m pgdir
  fresh : ∀ va < 2 ^ 32, lo ≤ va / PGSIZE * PGSIZE → va / PGSIZE * PGSIZE < hi →
    ∃ p ∈ m₀.freelist, m.trans pgdir va = some (p, PTE_W ||| PTE_U ||| PTE_P) ∧
      m.mem p = fun _ => 0
  trans : ∀ va < 2 ^ 32, ¬(lo ≤ va / PGSIZE * PGSIZE ∧ va / PGSIZE * PGSIZE < hi) →
    m.trans pgdir va = m₀.trans pgdir va
  suffix : m.freelist <:+ m₀.freelist
  walked : ∀ q, Walked m pgdir q → Walked m₀ pgdir q ∨ q ∈ m₀.freelist
  mem : ∀ p, UserPage m₀ pgdir p → m.mem p = m₀.mem p

theorem Grown.refl (h : Uvm kend m pgdir) (lo : Nat) : Grown kend m m pgdir lo lo where
  uvm := h
  fresh _ _ h₁ h₂ := absurd h₂ (Nat.not_lt.mpr h₁)
  trans _ _ _ := rfl
  suffix := List.suffix_refl _
  walked _ hq := .inl hq
  mem _ _ := rfl

/-- Only page bases count: two bounds with the same page bases below them grow the same range. -/
theorem Grown.congr_hi (h : Grown kend m₀ m pgdir lo hi) {hi' : Nat}
    (hiff : ∀ b, b % PGSIZE = 0 → (b < hi ↔ b < hi')) : Grown kend m₀ m pgdir lo hi' where
  uvm := h.uvm
  fresh va hva h₁ h₂ := h.fresh va hva h₁ ((hiff _ (Nat.mul_mod_left _ _)).mpr h₂)
  trans va hva hn := h.trans va hva fun hr => hn ⟨hr.1, (hiff _ (Nat.mul_mod_left _ _)).mp hr.2⟩
  suffix := h.suffix
  walked := h.walked
  mem := h.mem

/-- The head `x` of the free list taken and written: the range is as it was. -/
theorem Grown.take (h₀ : Uvm kend m₀ pgdir) (h : Grown kend m₀ m pgdir lo hi) (hhi : hi ≤ KERNBASE)
    {x : Nat} {rest : List Nat} (hf : m.freelist = x :: rest) {m₁ : Mach}
    (hf₁ : m₁.freelist = rest) (hmem : ∀ q, q ≠ x → m₁.mem q = m.mem q) :
    Grown kend m₀ m₁ pgdir lo hi := by
  obtain ⟨hu, htr, htab⟩ := h.uvm.take hf hf₁ hmem
  obtain ⟨-, -, -, hxu⟩ := h.uvm.head_fresh hf
  have hx₀ : x ∈ m₀.freelist := h.suffix.subset (hf ▸ List.mem_cons_self)
  refine { uvm := hu, fresh := fun va hva h₁ h₂ => ?_, trans := fun va hva hn => ?_,
           suffix := ?_, walked := fun q hq => h.walked q (walked_congr htab ▸ hq),
           mem := fun p hp => ?_ }
  · obtain ⟨p, hp₀, hp, hz⟩ := h.fresh va hva h₁ h₂
    have hva' : va < KERNBASE := by
      simp only [PGSIZE, KERNBASE] at h₂ hhi ⊢
      omega
    have hpx : p ≠ x := fun e => hxu ⟨va, hva', _, e ▸ hp⟩
    exact ⟨p, hp₀, by rw [htr]; exact hp, by rw [hmem p hpx]; exact hz⟩
  · rw [htr]
    exact h.trans va hva hn
  · rw [hf₁]
    exact (List.suffix_cons x rest).trans (hf ▸ h.suffix)
  · have hpx : p ≠ x := fun e => h₀.user_free p hp (e ▸ hx₀)
    rw [hmem p hpx]
    exact h.mem p hp

/-- The page at `a`, the top of the range, entered with a cleared page `x` that was free. -/
theorem Grown.enter (h₀ : Uvm kend m₀ pgdir) {a : Nat} (h : Grown kend m₀ m pgdir lo a)
    (hal : a % PGSIZE = 0) (hlo : lo ≤ a) (hK : a < KERNBASE) {x : Nat} (hx₀ : x ∈ m₀.freelist)
    (hxf : x ∉ m.freelist) (hxw : ¬Walked m pgdir x) (hz : m.mem x = fun _ => 0) {m' : Mach}
    (hE : Entered kend m m' pgdir a x (PTE_W ||| PTE_U)) :
    Grown kend m₀ m' pgdir lo (a + PGSIZE) := by
  have hK32 : a < 2 ^ 32 := by simp only [KERNBASE] at hK; omega
  have hbase : ∀ va < 2 ^ 32, PDX va = PDX a ∧ PTX va = PTX a ↔ va / PGSIZE * PGSIZE = a :=
    fun va hva => same_entry_iff_base hva hK32 hal
  refine { uvm := hE.uvm, fresh := fun va hva h₁ h₂ => ?_, trans := fun va hva hn => ?_,
           suffix := hE.suffix.trans h.suffix, walked := fun q hq => ?_, mem := fun p hp => ?_ }
  · rw [hE.trans va]
    by_cases hs : va / PGSIZE * PGSIZE = a
    · rw [if_pos ((hbase va hva).mpr hs)]
      exact ⟨x, hx₀, rfl, by rw [hE.frame x hxf hxw]; exact hz⟩
    · rw [if_neg (fun e => hs ((hbase va hva).mp e))]
      have h₂' : va / PGSIZE * PGSIZE < a := by
        simp only [PGSIZE] at hal h₂ hs ⊢
        omega
      obtain ⟨p, hp₀, hp, hzp⟩ := h.fresh va hva h₁ h₂'
      have hpu : UserPage m pgdir p := ⟨va, by simp only [PGSIZE, KERNBASE] at h₂' hK ⊢; omega, _, hp⟩
      refine ⟨p, hp₀, hp, ?_⟩
      rw [hE.frame p (h.uvm.user_free p hpu) (h.uvm.user_walked p hpu)]
      exact hzp
  · have hs : va / PGSIZE * PGSIZE ≠ a := by
      intro e
      apply hn
      simp only [PGSIZE] at e ⊢
      exact ⟨by omega, by omega⟩
    rw [hE.trans va, if_neg (fun e => hs ((hbase va hva).mp e))]
    exact h.trans va hva fun hr => hn ⟨hr.1, Nat.lt_add_right _ hr.2⟩
  · rcases (hE.walked q).mp hq with hq | ⟨hq, -⟩
    · exact h.walked q hq
    · exact .inr (h.suffix.subset hq)
  · have hpf : p ∉ m.freelist := fun hpf => h₀.user_free p hp (h.suffix.subset hpf)
    have hpw : ¬Walked m pgdir p := fun hw =>
      (h.walked p hw).elim (h₀.user_walked p hp) (h₀.user_free p hp)
    rw [hE.frame p hpf hpw]
    exact h.mem p hp

/-- **Roll back.** From a state that has grown `[lo, a)`, where `m₀` mapped nothing over
`[lo, hi)`, freeing `[lo, hi)` restores every translation of `m₀` and every page it mapped; what
is on the free list after was free in `m₀`, and every page the state mapped is freed or was
`m₀`'s. -/
theorem Grown.undo {a : Nat} (h : Grown kend m₀ m pgdir lo a) (ha : a ≤ hi)
    (hempty : ∀ va < 2 ^ 32, lo ≤ va / PGSIZE * PGSIZE → va / PGSIZE * PGSIZE < hi →
      m₀.trans pgdir va = none)
    {m' : Mach} (hF : Freed kend m m' pgdir lo hi) :
    m'.trans pgdir = m₀.trans pgdir ∧ (∀ p, UserPage m₀ pgdir p → m'.mem p = m₀.mem p) ∧
      (∀ p ∈ m'.freelist, p ∈ m₀.freelist) ∧
      ∀ p, UserPage m pgdir p → p ∈ m'.freelist ∨ UserPage m₀ pgdir p := by
  have htr : m'.trans pgdir = m₀.trans pgdir := by
    apply trans_ext
    intro va hva
    rw [hF.trans va hva]
    split
    · rename_i hin
      exact (hempty va hva hin.1 hin.2).symm
    · rename_i hn
      exact h.trans va hva fun hr => hn ⟨hr.1, lt_of_lt_of_le hr.2 ha⟩
  obtain ⟨L, hL, hmemL, -⟩ := hF.freed
  refine ⟨htr, fun p hp => ?_, fun p hp => ?_, fun p hp => ?_⟩
  · rw [hF.mem (by rw [userPage_congr htr]; exact hp)]
    exact h.mem p hp
  · rw [hL] at hp
    rcases List.mem_append.mp hp with hp | hp
    · obtain ⟨va, hva, f, hm, hn⟩ := (hmemL p).mp hp
      rw [hF.trans va hva] at hn
      split at hn
      · rename_i hin
        by_cases hlt : va / PGSIZE * PGSIZE < a
        · obtain ⟨q, hq₀, hq, -⟩ := h.fresh va hva hin.1 hlt
          rw [hq, Option.some.injEq, Prod.mk.injEq] at hm
          exact hm.1 ▸ hq₀
        · -- above `a` the state maps what `m₀` does, which is nothing
          rw [h.trans va hva (fun hr => hlt hr.2), hempty va hva hin.1 hin.2] at hm
          cases hm
      · rw [hm] at hn
        cases hn
    · exact h.suffix.subset hp
  · obtain ⟨va, hva, f, hp'⟩ := hp
    have hva32 : va < 2 ^ 32 := by simp only [KERNBASE] at hva; omega
    by_cases hin : lo ≤ va / PGSIZE * PGSIZE ∧ va / PGSIZE * PGSIZE < hi
    · left
      rw [hL]
      refine List.mem_append_left _ ((hmemL p).mpr ⟨va, hva32, f, hp', ?_⟩)
      rw [hF.trans va hva32, if_pos hin]
    · right
      have : m.trans pgdir va = m₀.trans pgdir va :=
        h.trans va hva32 fun hr => hin ⟨hr.1, lt_of_lt_of_le hr.2 ha⟩
      exact ⟨va, hva, f, this ▸ hp'⟩

end Grown

/-- What a failed `allocuvm` leaves, from `m₀`: the invariant, every translation and every page
`m₀` mapped as before, nothing on the free list that was not free, and every page that was free
free again or a page table of the directory. -/
structure RolledBack (kend : Nat) (m₀ m : Mach) (pgdir : Nat) : Prop where
  uvm : Uvm kend m pgdir
  trans : m.trans pgdir = m₀.trans pgdir
  mem : ∀ p, UserPage m₀ pgdir p → m.mem p = m₀.mem p
  free_sub : ∀ p ∈ m.freelist, p ∈ m₀.freelist
  free_back : ∀ p ∈ m₀.freelist, p ∈ m.freelist ∨ Walked m pgdir p

/-- The two outcomes of `allocuvm` growing `[lo, newsz)`: `newsz` with the range grown, or `0`
rolled back. -/
inductive AllocRes (kend : Nat) (m₀ : Mach) (pgdir lo newsz : Nat) : Nat → Mach → Prop
  | grown {m : Mach} : Grown kend m₀ m pgdir lo newsz → AllocRes kend m₀ pgdir lo newsz newsz m
  | rolledBack {m : Mach} : RolledBack kend m₀ m pgdir → AllocRes kend m₀ pgdir lo newsz 0 m

section Loop

variable {kend : Nat} {m₀ : Mach} {pgdir oldsz newsz : Nat}

/-- The state of `allocuvm`'s loop at `a`, started from `m₀`: `[PGROUNDUP(oldsz), a)` grown, and
every page free at the start free still, a page table, or mapped. -/
structure AllocInv (kend : Nat) (m₀ : Mach) (pgdir oldsz newsz a : Nat) (m : Mach) : Prop
    extends Grown kend m₀ m pgdir (PGROUNDUP oldsz) a where
  aligned : a % PGSIZE = 0
  lo_le : PGROUNDUP oldsz ≤ a
  below : a < newsz + PGSIZE
  taken : ∀ p ∈ m₀.freelist, p ∈ m.freelist ∨ Walked m pgdir p ∨ UserPage m pgdir p

variable (hk : 0 < kend) (h₀ : Uvm kend m₀ pgdir) (hsz : oldsz ≤ newsz) (hK : newsz < KERNBASE)
  (hempty : ∀ va < 2 ^ 32, PGROUNDUP oldsz ≤ va / PGSIZE * PGSIZE → va / PGSIZE * PGSIZE < newsz →
    m₀.trans pgdir va = none)

/-- Past `newsz` the loop has grown exactly the range. -/
theorem AllocInv.done {a : Nat} {m : Mach} (h : AllocInv kend m₀ pgdir oldsz newsz a m)
    (ha : newsz ≤ a) : Grown kend m₀ m pgdir (PGROUNDUP oldsz) newsz := by
  have hal := h.aligned
  have hb := h.below
  refine h.toGrown.congr_hi fun b hb' => ?_
  simp only [PGSIZE] at hal hb hb' ⊢
  omega

include hK hempty in
/-- The page at `a` is not mapped yet. -/
theorem AllocInv.trans_top {a : Nat} {m : Mach} (h : AllocInv kend m₀ pgdir oldsz newsz a m)
    (ha : a < newsz) : m.trans pgdir a = none := by
  have hal := h.aligned
  have ha32 : a < 2 ^ 32 := by simp only [KERNBASE] at hK; omega
  have hbase : a / PGSIZE * PGSIZE = a := by simp only [PGSIZE] at hal ⊢; omega
  rw [h.trans a ha32 (by rw [hbase]; omega), hempty a ha32 (by rw [hbase]; exact h.lo_le)
    (by rw [hbase]; exact ha)]

include hsz hK in
theorem AllocInv.oldsz_lt {a : Nat} {m : Mach} (h : AllocInv kend m₀ pgdir oldsz newsz a m)
    (ha : a < newsz) : oldsz < newsz := by
  have hlo := h.lo_le
  rw [PGROUNDUP_eq, Nat.mod_eq_of_lt (by simp only [KERNBASE] at hK; omega)] at hlo
  omega

include hk h₀ hsz hK hempty in
/-- `kalloc` fails: the roll back. -/
theorem AllocInv.rollback_nil {a : Nat} {m : Mach} (h : AllocInv kend m₀ pgdir oldsz newsz a m)
    (ha : a < newsz) (hf : m.freelist = []) :
    ∃ m', deallocuvm kend m pgdir newsz oldsz = .ok (oldsz, m') ∧ RolledBack kend m₀ m' pgdir ∧
      Confined m m' pgdir := by
  obtain ⟨m', hrun, hF⟩ := deallocuvm_freed hk h.uvm (h.oldsz_lt hsz hK ha) hK.le
  obtain ⟨htr, hmem, hsub, huser⟩ := h.toGrown.undo ha.le hempty hF
  refine ⟨m', hrun, ?_, hF.confined hK.le⟩
  refine { uvm := hF.uvm, trans := htr, mem := hmem, free_sub := hsub, free_back := fun p hp => ?_ }
  rcases h.taken p hp with hpf | hpw | hpu
  · rw [hf] at hpf
    cases hpf
  · exact .inr (by rw [walked_congr hF.table]; exact hpw)
  · exact (huser p hpu).imp id fun hu => absurd hp (h₀.user_free p hu)

include hk h₀ hsz hK hempty in
/-- `mappages` fails after `kalloc` gave `x`: the roll back, then `kfree(x)`. -/
theorem AllocInv.rollback_map {a : Nat} {m : Mach} (h : AllocInv kend m₀ pgdir oldsz newsz a m)
    (ha : a < newsz) {x : Nat} {rest : List Nat} (hf : m.freelist = x :: rest) :
    ∃ m₂, deallocuvm kend ({ m with freelist := rest }.fill x 0) pgdir newsz oldsz = .ok (oldsz, m₂) ∧
      kfree kend m₂ x = .ok { m₂.fill x 0x01010101 with freelist := x :: m₂.freelist } ∧
      RolledBack kend m₀ { m₂.fill x 0x01010101 with freelist := x :: m₂.freelist } pgdir ∧
      Confined m { m₂.fill x 0x01010101 with freelist := x :: m₂.freelist } pgdir := by
  have hmem₁ : ∀ q, q ≠ x → ({ m with freelist := rest }.fill x 0).mem q = m.mem q := by
    intro q hq
    funext j
    simp [hq]
  have hG₁ := h.toGrown.take h₀ (by have := h.below; simp only [PGSIZE, KERNBASE] at this hK ⊢; omega)
    hf rfl hmem₁
  obtain ⟨hxa, hxr, hxw, hxu⟩ := h.uvm.head_fresh hf
  obtain ⟨-, htr₁, htab₁⟩ := h.uvm.take hf rfl hmem₁
  obtain ⟨m₂, hrun, hF⟩ := deallocuvm_freed hk hG₁.uvm (h.oldsz_lt hsz hK ha) hK.le
  obtain ⟨htr, hmem, hsub, huser⟩ := hG₁.undo ha.le hempty hF
  obtain ⟨L, hL, hLm, -⟩ := hF.freed
  -- `x` was mapped nowhere, so the roll back does not free it
  have hxu₁ : ¬UserPage ({ m with freelist := rest }.fill x 0) pgdir x := by
    rw [userPage_congr htr₁]
    exact hxu
  have hxL : x ∉ L := fun hxL => by
    obtain ⟨va, hva, f, hm, hn⟩ := (hLm x).mp hxL
    rw [hF.trans va hva] at hn
    split at hn
    · rename_i hin
      exact hxu₁ ⟨va, by simp only [PGSIZE, KERNBASE] at hin hK ⊢; omega, f, hm⟩
    · rw [hm] at hn
      cases hn
  have hx₂ : x ∉ m₂.freelist := by
    rw [hL]
    simp [hxL, hxr]
  have htab₂ : m₂.table pgdir = m.table pgdir := hF.table.trans htab₁
  have hxw₂ : ¬Walked m₂ pgdir x := by
    rw [walked_congr htab₂]
    exact hxw
  have hxu₂ : ¬UserPage m₂ pgdir x := by
    rintro ⟨va, hva, f, hm⟩
    have hva32 : va < 2 ^ 32 := by simp only [KERNBASE] at hva; omega
    rw [hF.trans va hva32] at hm
    split at hm
    · cases hm
    · exact hxu₁ ⟨va, hva, f, hm⟩
  have hx₀ : x ∈ m₀.freelist := h.suffix.subset (hf ▸ List.mem_cons_self)
  have hxd : x ≠ pgdir := fun e => hxw (e ▸ Walked.dir m pgdir)
  have htr₃ : ({ m₂.fill x 0x01010101 with freelist := x :: m₂.freelist } : Mach).trans pgdir =
      m₂.trans pgdir :=
    funext (trans_fill hxd (fun i hi e => hxw₂ (.table hi e)) 0x01010101)
  refine ⟨m₂, hrun, kfree_of_alloc hxa m₂, ?_, h.uvm.confined_undo hf rfl hmem₁ hF hK.le hx₂ 0x01010101⟩
  refine { uvm := hF.uvm.push hxa hx₂ hxw₂ hxu₂ 0x01010101, trans := htr₃.trans htr,
           mem := fun p hp => ?_, free_sub := fun p hp => ?_, free_back := fun p hp => ?_ }
  · have hpx : p ≠ x := fun e => h₀.user_free p hp (e ▸ hx₀)
    show (m₂.fill x 0x01010101).mem p = m₀.mem p
    rw [Mach.fill_mem, if_neg hpx]
    exact hmem p hp
  · rcases List.mem_cons.mp hp with rfl | hp
    · exact hx₀
    · exact hsub p hp
  · have hw : ∀ q, Walked m pgdir q →
        Walked ({ m₂.fill x 0x01010101 with freelist := x :: m₂.freelist } : Mach) pgdir q := by
      intro q hq
      have hd : ({ m₂.fill x 0x01010101 with freelist := x :: m₂.freelist } : Mach).mem pgdir =
          m₂.mem pgdir := by
        funext j
        simp [Ne.symm hxd]
      rw [walked_congr ((funext (table_congr hd)).trans htab₂)]
      exact hq
    rcases h.taken p hp with hpf | hpw | hpu
    · rw [hf] at hpf
      rcases List.mem_cons.mp hpf with rfl | hpr
      · exact .inl List.mem_cons_self
      · exact .inl (List.mem_cons_of_mem _ (by rw [hL]; exact List.mem_append_right _ hpr))
    · exact .inr (hw p hpw)
    · rcases huser p (by rw [userPage_congr htr₁]; exact hpu) with hp₂ | hu
      · exact .inl (List.mem_cons_of_mem _ hp₂)
      · exact absurd hp (h₀.user_free p hu)

include h₀ hK hempty in
/-- `mappages` entered `x` at `a`: the loop's state at `a + PGSIZE`. -/
theorem AllocInv.step {a : Nat} {m : Mach} (h : AllocInv kend m₀ pgdir oldsz newsz a m)
    (ha : a < newsz) {x : Nat} {rest : List Nat} (hf : m.freelist = x :: rest) {m₂ : Mach}
    (hE : Entered kend ({ m with freelist := rest }.fill x 0) m₂ pgdir a x (PTE_W ||| PTE_U)) :
    AllocInv kend m₀ pgdir oldsz newsz (a + PGSIZE) m₂ := by
  have hal := h.aligned
  have haK : a < KERNBASE := by simp only [KERNBASE] at hK ⊢; omega
  have hmem₁ : ∀ q, q ≠ x → ({ m with freelist := rest }.fill x 0).mem q = m.mem q := by
    intro q hq
    funext j
    simp [hq]
  have hG₁ := h.toGrown.take h₀ haK.le hf rfl hmem₁
  obtain ⟨-, hxr, hxw, -⟩ := h.uvm.head_fresh hf
  obtain ⟨-, htr₁, htab₁⟩ := h.uvm.take hf rfl hmem₁
  have hnone := h.trans_top hK hempty ha
  refine { toGrown := hG₁.enter h₀ hal h.lo_le haK (h.suffix.subset (hf ▸ List.mem_cons_self)) hxr
             (by rw [walked_congr htab₁]; exact hxw) (by funext j; simp) hE,
           aligned := by simp only [PGSIZE] at hal ⊢; omega, lo_le := by have := h.lo_le; omega,
           below := by omega, taken := fun p hp => ?_ }
  rcases h.taken p hp with hpf | hpw | hpu
  · rw [hf] at hpf
    rcases List.mem_cons.mp hpf with rfl | hpr
    · -- the page just entered
      exact .inr (.inr ⟨a, haK, _, by rw [hE.trans a, if_pos ⟨rfl, rfl⟩]⟩)
    · by_cases h₂ : p ∈ m₂.freelist
      · exact .inl h₂
      · exact .inr (.inl ((hE.walked p).mpr (.inr ⟨hpr, h₂⟩)))
  · exact .inr (.inl ((hE.walked p).mpr (.inl (by rw [walked_congr htab₁]; exact hpw))))
  · obtain ⟨va, hva, f, hp'⟩ := hpu
    refine .inr (.inr ⟨va, hva, f, ?_⟩)
    rw [hE.trans va, if_neg, htr₁]
    · exact hp'
    · intro hs
      rw [trans_of_same hs, hnone] at hp'
      cases hp'

include hk h₀ hsz hK hempty in
/-- **Run.** With enough fuel for the pages left below `newsz`, the loop ends in one of the two
outcomes, confined to the directory. By induction on the fuel: a run either ends, rolls back, or
enters a page and goes on. -/
theorem allocLoop_spec :
    ∀ (fuel a : Nat) (m : Mach), AllocInv kend m₀ pgdir oldsz newsz a m → Confined m₀ m pgdir →
      newsz ≤ a + fuel * PGSIZE →
      ∃ r m', allocLoop kend pgdir oldsz newsz fuel a m = .ok (r, m') ∧
        AllocRes kend m₀ pgdir (PGROUNDUP oldsz) newsz r m' ∧ Confined m₀ m' pgdir
  | 0, a, m, h, hC, hfuel => ⟨newsz, m, rfl, .grown (h.done (by omega)), hC⟩
  | fuel + 1, a, m, h, hC, hfuel => by
    by_cases ha : a < newsz
    · cases hf : m.freelist with
      | nil =>
        obtain ⟨m', hrun, hR, hC'⟩ := h.rollback_nil hk h₀ hsz hK hempty ha hf
        refine ⟨0, m', ?_, .rolledBack hR, hC.trans hC'⟩
        rw [allocLoop, if_pos ha, kalloc_nil hf]
        dsimp only
        rw [hrun]
        rfl
      | cons x rest =>
        have hmem₁ : ∀ q, q ≠ x → ({ m with freelist := rest }.fill x 0).mem q = m.mem q := by
          intro q hq
          funext j
          simp [hq]
        obtain ⟨hxa, hxr, hxw, hxu⟩ := h.uvm.head_fresh hf
        obtain ⟨hu₁, htr₁, htab₁⟩ := h.uvm.take hf rfl hmem₁
        have hnone : ({ m with freelist := rest }.fill x 0).trans pgdir a = none := by
          rw [htr₁]
          exact h.trans_top hK hempty ha
        rcases hu₁.mappages_one h.aligned (by simp only [KERNBASE] at hK ⊢; omega) hnone hxa hxr
          (by rw [walked_congr htab₁]; exact hxw) (by rw [userPage_congr htr₁]; exact hxu)
          (show (PTE_W ||| PTE_U).toNat < 4096 by decide) with ⟨-, hmap⟩ | ⟨m₂, hmap, hE⟩
        · obtain ⟨m₂, hd, hkf, hR, hC'⟩ := h.rollback_map hk h₀ hsz hK hempty ha hf
          refine ⟨0, _, ?_, .rolledBack hR, hC.trans hC'⟩
          rw [allocLoop, if_pos ha, kalloc_cons hf]
          dsimp only
          rw [hmap, CLoop.ok_bind]
          dsimp only
          rw [if_pos (by decide), hd, CLoop.ok_bind]
          dsimp only
          rw [hkf]
          rfl
        · have hC₂ : Confined m m₂ pgdir :=
            (h.uvm.grows_enter hf rfl hmem₁ (lt_trans ha hK) (h.trans_top hK hempty ha) hE).confined
          obtain ⟨r, m', hrun, hres, hC'⟩ := allocLoop_spec fuel (a + PGSIZE) m₂
            (h.step h₀ hK hempty ha hf hE) (hC.trans hC₂) (by rw [Nat.add_mul] at hfuel; omega)
          refine ⟨r, m', ?_, hres, hC'⟩
          rw [allocLoop, if_pos ha, kalloc_cons hf]
          dsimp only
          rw [hmap, CLoop.ok_bind]
          dsimp only
          rw [if_neg (by decide), hrun]
    · exact ⟨newsz, m, by rw [allocLoop, if_neg ha], .grown (h.done (by omega)), hC⟩

end Loop

/-- `allocuvm` with `oldsz ≤ newsz < KERNBASE` on a well-formed directory that maps nothing over
`[PGROUNDUP(oldsz), newsz)` ends in one of the two outcomes. -/
theorem allocuvm_post {kend : Nat} (hk : 0 < kend) {m : Mach} {pgdir oldsz newsz : Nat}
    (h : Uvm kend m pgdir) (hsz : oldsz ≤ newsz) (hK : newsz < KERNBASE)
    (hempty : ∀ va < 2 ^ 32, PGROUNDUP oldsz ≤ va / PGSIZE * PGSIZE →
      va / PGSIZE * PGSIZE < newsz → m.trans pgdir va = none) :
    ∃ r m', allocuvm kend m pgdir oldsz newsz = .ok (r, m') ∧
      AllocRes kend m pgdir (PGROUNDUP oldsz) newsz r m' ∧ Confined m m' pgdir := by
  have hup : PGROUNDUP oldsz = (oldsz + 4095) / 4096 * 4096 := by
    rw [PGROUNDUP_eq, Nat.mod_eq_of_lt (by simp only [KERNBASE] at hK; omega)]
  have h0 : AllocInv kend m pgdir oldsz newsz (PGROUNDUP oldsz) m :=
    { toGrown := Grown.refl h _, aligned := by rw [hup, PGSIZE]; omega, lo_le := le_rfl,
      below := by rw [hup, PGSIZE]; omega, taken := fun p hp => .inl hp }
  obtain ⟨r, m', hrun, hres, hC⟩ := allocLoop_spec hk h hsz hK hempty (newsz / PGSIZE + 1) _ m h0
    (Confined.refl h.nodup) (by simp only [PGSIZE]; omega)
  refine ⟨r, m', ?_, hres, hC⟩
  rw [allocuvm, if_neg (by omega), if_neg (by omega), hrun]

/-- **`allocuvm` is all or nothing.** On a well-formed directory that maps nothing over
`[PGROUNDUP(oldsz), newsz)`, with `oldsz ≤ newsz < KERNBASE`, `allocuvm` keeps the invariant and
the contents of every page mapped before, and either returns `newsz` with every address of the
range mapped user-writable to a cleared page that was free, and every address below
`PGROUNDUP(oldsz)` or from `PGROUNDUP(newsz)` on translated as before; or returns `0` with every
translation as before, nothing free that was not, and every page that was free free again or a
page table of the directory. -/
theorem allocuvm_all_or_nothing {kend : Nat} (hk : 0 < kend) {m : Mach} {pgdir oldsz newsz : Nat}
    (h : Uvm kend m pgdir) (hsz : oldsz ≤ newsz) (hK : newsz < KERNBASE)
    (hempty : ∀ va, PGROUNDUP oldsz ≤ va → va < newsz → m.trans pgdir va = none) :
    ∃ r m', allocuvm kend m pgdir oldsz newsz = .ok (r, m') ∧ Uvm kend m' pgdir ∧
      (∀ p, UserPage m pgdir p → m'.mem p = m.mem p) ∧
      ((r = newsz ∧
          (∀ va, PGROUNDUP oldsz ≤ va → va < newsz → ∃ p ∈ m.freelist,
            m'.trans pgdir va = some (p, PTE_W ||| PTE_U ||| PTE_P) ∧ m'.mem p = fun _ => 0) ∧
          ∀ va < 2 ^ 32, va < PGROUNDUP oldsz ∨ PGROUNDUP newsz ≤ va →
            m'.trans pgdir va = m.trans pgdir va) ∨
       (r = 0 ∧ m'.trans pgdir = m.trans pgdir ∧ (∀ p ∈ m'.freelist, p ∈ m.freelist) ∧
          ∀ p ∈ m.freelist, p ∈ m'.freelist ∨ Walked m' pgdir p)) := by
  have hlo := PGROUNDUP_of_le (show oldsz ≤ KERNBASE by omega)
  have hhi := PGROUNDUP_of_le hK.le
  have hbase : ∀ va, va / PGSIZE * PGSIZE ≤ va := fun va => Nat.div_mul_le_self va PGSIZE
  -- nothing is mapped at a page base of the range either
  have hempty' : ∀ va < 2 ^ 32, PGROUNDUP oldsz ≤ va / PGSIZE * PGSIZE →
      va / PGSIZE * PGSIZE < newsz → m.trans pgdir va = none := by
    intro va hva h₁ h₂
    have hb : va / PGSIZE * PGSIZE < 2 ^ 32 := lt_of_le_of_lt (hbase va) hva
    rw [trans_of_same ((same_entry_iff_base hva hb (Nat.mul_mod_left _ _)).mpr rfl)]
    exact hempty _ h₁ h₂
  obtain ⟨r, m', hrun, hres, -⟩ := allocuvm_post hk h hsz hK hempty'
  refine ⟨r, m', hrun, ?_⟩
  cases hres with
  | grown hG =>
    refine ⟨hG.uvm, hG.mem, .inl ⟨rfl, fun va h₁ h₂ => ?_, fun va hva hout => ?_⟩⟩
    · have hva : va < 2 ^ 32 := by simp only [KERNBASE] at hK; omega
      have hb := hbase va
      have h₁' : PGROUNDUP oldsz ≤ va / PGSIZE * PGSIZE := by
        rw [hlo] at h₁ ⊢
        simp only [PGSIZE]
        omega
      exact hG.fresh va hva h₁' (lt_of_le_of_lt hb h₂)
    · refine hG.trans va hva fun hr => ?_
      obtain ⟨h₁, h₂⟩ := hr
      rw [hlo, hhi] at hout
      rw [hlo] at h₁
      simp only [PGSIZE] at h₁ h₂
      omega
  | rolledBack hR => exact ⟨hR.uvm, hR.mem, .inr ⟨rfl, hR.trans, hR.free_sub, hR.free_back⟩⟩

theorem allocuvm_all_or_nothing_empty :
    ∃ r m', allocuvm 0x100000 emptyProc 0x200000 0 4096 = .ok (r, m') ∧
      Uvm 0x100000 m' 0x200000 ∧
      (∀ p, UserPage emptyProc 0x200000 p → m'.mem p = emptyProc.mem p) ∧
      ((r = 4096 ∧
          (∀ va, PGROUNDUP 0 ≤ va → va < 4096 → ∃ p ∈ emptyProc.freelist,
            m'.trans 0x200000 va = some (p, PTE_W ||| PTE_U ||| PTE_P) ∧ m'.mem p = fun _ => 0) ∧
          ∀ va < 2 ^ 32, va < PGROUNDUP 0 ∨ PGROUNDUP 4096 ≤ va →
            m'.trans 0x200000 va = emptyProc.trans 0x200000 va) ∨
       (r = 0 ∧ m'.trans 0x200000 = emptyProc.trans 0x200000 ∧
          (∀ p ∈ m'.freelist, p ∈ emptyProc.freelist) ∧
          ∀ p ∈ emptyProc.freelist, p ∈ m'.freelist ∨ Walked m' 0x200000 p)) :=
  allocuvm_all_or_nothing (by decide) emptyProc_uvm (by decide) (by decide)
    fun va _ _ => emptyProc_trans va

/-! ## `growproc` and `sys_sbrk` -/

section Sbrk

variable {kend : Nat} {m m' : Mach} {pgdir sz sz' : Nat}

/-- Below `KERNBASE` the directory maps exactly `[0, PGROUNDUP(sz))`: a process of size `sz`. -/
def MapsUpTo (m : Mach) (pgdir sz : Nat) : Prop :=
  ∀ va < KERNBASE, (m.trans pgdir va).isSome ↔ va < PGROUNDUP sz

/-- A process resized from `sz` to `sz'`: it maps the pages of the new size; an address mapped at
both sizes keeps its translation, and a page mapped at both its contents; the kernel half is as
before; and every address added is mapped user-writable to a cleared page that was free. -/
structure Resized (m m' : Mach) (pgdir sz sz' : Nat) : Prop where
  maps : MapsUpTo m' pgdir sz'
  kept : ∀ va, va < PGROUNDUP sz → va < PGROUNDUP sz' → m'.trans pgdir va = m.trans pgdir va
  above : ∀ va, KERNBASE ≤ va → va < 2 ^ 32 → m'.trans pgdir va = m.trans pgdir va
  mem : ∀ p, UserPage m pgdir p → UserPage m' pgdir p → m'.mem p = m.mem p
  added : ∀ va, PGROUNDUP sz ≤ va → va < PGROUNDUP sz' → ∃ p ∈ m.freelist,
    m'.trans pgdir va = some (p, PTE_W ||| PTE_U ||| PTE_P) ∧ m'.mem p = fun _ => 0

/-- A resize that did nothing: every translation, and the contents of every page mapped. -/
structure Unmoved (m m' : Mach) (pgdir : Nat) : Prop where
  trans : m'.trans pgdir = m.trans pgdir
  mem : ∀ p, UserPage m pgdir p → m'.mem p = m.mem p

theorem Unmoved.refl (m : Mach) (pgdir : Nat) : Unmoved m m pgdir := ⟨rfl, fun _ _ => rfl⟩

theorem MapsUpTo.trans_none (h : MapsUpTo m pgdir sz) {va : Nat} (hva : va < KERNBASE)
    (hup : PGROUNDUP sz ≤ va) : m.trans pgdir va = none :=
  Option.not_isSome_iff_eq_none.mp fun hs => absurd ((h va hva).mp hs) (not_lt.mpr hup)

theorem Resized.refl (h : MapsUpTo m pgdir sz) : Resized m m pgdir sz sz :=
  { maps := h, kept := fun _ _ _ => rfl, above := fun _ _ _ => rfl, mem := fun _ _ _ => rfl,
    added := fun _ h₁ h₂ => absurd h₂ (not_lt.mpr h₁) }

/-- `allocuvm` growing `[PGROUNDUP(sz), sz')` is a resize from `sz` to `sz'`. -/
theorem Resized.grow (hmap : MapsUpTo m pgdir sz) (hsz : sz ≤ sz') (hK : sz' < KERNBASE)
    (hG : Grown kend m m' pgdir (PGROUNDUP sz) sz') : Resized m m' pgdir sz sz' := by
  have hs : sz ≤ KERNBASE := by omega
  have hup := PGROUNDUP_le hK.le
  have hmono : PGROUNDUP sz ≤ PGROUNDUP sz' := by
    rw [PGROUNDUP_of_le hs, PGROUNDUP_of_le hK.le]
    omega
  -- outside `[PGROUNDUP(sz), PGROUNDUP(sz'))` no page base lies in the range grown
  have hout : ∀ va, va < PGROUNDUP sz ∨ PGROUNDUP sz' ≤ va →
      ¬(PGROUNDUP sz ≤ va / PGSIZE * PGSIZE ∧ va / PGSIZE * PGSIZE < sz') := by
    rintro va hva ⟨h₁, h₂⟩
    rw [le_base_iff hs] at h₁
    rw [base_lt_iff hK.le] at h₂
    omega
  have hin : ∀ va, PGROUNDUP sz ≤ va → va < PGROUNDUP sz' →
      PGROUNDUP sz ≤ va / PGSIZE * PGSIZE ∧ va / PGSIZE * PGSIZE < sz' := fun va h₁ h₂ =>
    ⟨(le_base_iff hs va).mpr h₁, (base_lt_iff hK.le va).mpr h₂⟩
  refine { maps := fun va hva => ?_, kept := fun va h₁ _ => ?_, above := fun va hva h32 => ?_,
           mem := fun p hp _ => hG.mem p hp, added := fun va h₁ h₂ => ?_ }
  · by_cases hr : PGROUNDUP sz ≤ va ∧ va < PGROUNDUP sz'
    · obtain ⟨p, -, hp, -⟩ :=
        hG.fresh va (lt_two_pow_of_lt_KERNBASE hva) (hin va hr.1 hr.2).1 (hin va hr.1 hr.2).2
      rw [hp, Option.isSome_some]
      exact iff_of_true rfl hr.2
    · have hnot : va < PGROUNDUP sz ∨ PGROUNDUP sz' ≤ va := by omega
      rw [hG.trans va (lt_two_pow_of_lt_KERNBASE hva) (hout va hnot), hmap va hva]
      omega
  · have hva : va < KERNBASE := by
      rw [PGROUNDUP_of_le hs] at h₁
      simp only [KERNBASE] at hs ⊢
      omega
    exact hG.trans va (lt_two_pow_of_lt_KERNBASE hva) (hout va (.inl h₁))
  · exact hG.trans va h32 (hout va (.inr (le_trans hup hva)))
  · exact hG.fresh va (lt_two_pow_of_lt_KERNBASE (lt_of_lt_of_le h₂ hup)) (hin va h₁ h₂).1
      (hin va h₁ h₂).2

/-- `deallocuvm` freeing `[PGROUNDUP(sz'), sz)` is a resize from `sz` to `sz'`. -/
theorem Resized.shrink (hmap : MapsUpTo m pgdir sz) (hnew : sz' < sz) (hK : sz ≤ KERNBASE)
    (hF : Freed kend m m' pgdir (PGROUNDUP sz') sz) : Resized m m' pgdir sz sz' := by
  have hs' : sz' ≤ KERNBASE := by omega
  have hup := PGROUNDUP_le hK
  have hmono : PGROUNDUP sz' ≤ PGROUNDUP sz := by
    rw [PGROUNDUP_of_le hs', PGROUNDUP_of_le hK]
    omega
  have hout : ∀ va, va < PGROUNDUP sz' ∨ PGROUNDUP sz ≤ va →
      ¬(PGROUNDUP sz' ≤ va / PGSIZE * PGSIZE ∧ va / PGSIZE * PGSIZE < sz) := by
    rintro va hva ⟨h₁, h₂⟩
    rw [le_base_iff hs'] at h₁
    rw [base_lt_iff hK] at h₂
    omega
  refine { maps := fun va hva => ?_, kept := fun va _ h₂ => ?_, above := fun va hva h32 => ?_,
           mem := fun p _ hp => hF.mem hp,
           added := fun _ h₁ h₂ => absurd (lt_of_lt_of_le h₂ hmono) (not_lt.mpr h₁) }
  · rw [hF.trans va (lt_two_pow_of_lt_KERNBASE hva)]
    split_ifs with hr
    · rw [Option.isSome_none]
      rw [le_base_iff hs'] at hr
      exact iff_of_false Bool.false_ne_true (not_lt.mpr hr.1)
    · rw [hmap va hva]
      rw [le_base_iff hs', base_lt_iff hK] at hr
      omega
  · have hva : va < 2 ^ 32 := by
      rw [PGROUNDUP_of_le hs'] at h₂
      simp only [KERNBASE] at hs'
      omega
    rw [hF.trans va hva, if_neg (hout va (.inl h₂))]
  · rw [hF.trans va h32, if_neg (hout va (.inr (le_trans hup hva)))]

variable (kend) in
/-- `growproc` with `n > 0` is `allocuvm(pgdir, sz, sz + n)`, a returned size of `0` read as
failure. -/
theorem growproc_of_pos {n : Int32} (hn : 0 < n.toInt) :
    growproc kend m pgdir sz n =
      (allocuvm kend m pgdir sz (((sz : Int) + n.toInt) % 2 ^ 32).toNat).bind fun r =>
        if r.1 = 0 then .ok (-1, sz, r.2) else .ok (0, r.1, r.2) := by
  have h₁ : n > 0 := Int32.lt_iff_toInt_lt.mpr (by simpa using hn)
  rw [growproc, if_pos h₁]
  rfl

theorem growproc_zero : growproc kend m pgdir sz 0 = .ok (0, sz, m) := by
  rw [growproc, if_neg (by decide), if_neg (by decide)]
  rfl

theorem sys_sbrk_of_growproc {n : Int32} {g : Int} (h : growproc kend m pgdir sz n = .ok (g, sz', m')) :
    sys_sbrk kend m pgdir sz n = .ok (if g < 0 then -1 else sz, sz', m') := by
  rw [sys_sbrk, h, CLoop.ok_bind]
  dsimp only
  split_ifs <;> rfl

/-- `growproc(n)` with `n > 0`: `sz + n` does not wrap, and `allocuvm` either grows the process
to it or, at or above `KERNBASE` or out of memory, fails and leaves the mapping. -/
theorem growproc_grow (hk : 0 < kend) (h : Uvm kend m pgdir) (hmap : MapsUpTo m pgdir sz)
    (hK : sz ≤ KERNBASE) {n : Int32} (hn : 0 < n.toInt) :
    ∃ g sz' m', growproc kend m pgdir sz n = .ok (g, sz', m') ∧ Uvm kend m' pgdir ∧
      ((g = 0 ∧ (sz' : Int) = sz + n.toInt ∧ Resized m m' pgdir sz sz') ∨
       (g = -1 ∧ sz' = sz ∧ Unmoved m m' pgdir)) := by
  have hlt := Int32.toInt_lt n
  have htarget : (((sz : Int) + n.toInt) % 2 ^ 32).toNat = sz + n.toInt.toNat := by
    simp only [KERNBASE] at hK
    omega
  rw [growproc_of_pos kend hn, htarget]
  by_cases hbig : KERNBASE ≤ sz + n.toInt.toNat
  · refine ⟨-1, sz, m, ?_, h, .inr ⟨rfl, rfl, Unmoved.refl m pgdir⟩⟩
    rw [allocuvm, if_pos hbig]
    rfl
  · have hK' : sz + n.toInt.toNat < KERNBASE := not_le.mp hbig
    have hempty : ∀ va < 2 ^ 32, PGROUNDUP sz ≤ va / PGSIZE * PGSIZE →
        va / PGSIZE * PGSIZE < sz + n.toInt.toNat → m.trans pgdir va = none := by
      intro va _ h₁ h₂
      have hva : va < KERNBASE :=
        lt_of_lt_of_le ((base_lt_iff hK'.le va).mp h₂) (PGROUNDUP_le hK'.le)
      exact hmap.trans_none hva (le_trans h₁ (Nat.div_mul_le_self va PGSIZE))
    obtain ⟨r, m', hrun, hres, -⟩ := allocuvm_post hk h (Nat.le_add_right _ _) hK' hempty
    rw [hrun]
    cases hres with
    | grown hG =>
      have hne : sz + n.toInt.toNat ≠ 0 := by omega
      refine ⟨0, _, m', if_neg hne, hG.uvm, .inl ⟨rfl, by omega, ?_⟩⟩
      exact Resized.grow hmap (Nat.le_add_right _ _) hK' hG
    | rolledBack hR => exact ⟨-1, sz, m', rfl, hR.uvm, .inr ⟨rfl, rfl, hR.trans, hR.mem⟩⟩

/-- `growproc(n)` with `-sz < n < 0`: `deallocuvm` shrinks the process to `sz + n`. -/
theorem growproc_shrink (hk : 0 < kend) (h : Uvm kend m pgdir) (hmap : MapsUpTo m pgdir sz)
    (hK : sz ≤ KERNBASE) {n : Int32} (hn : n.toInt < 0) (hpos : 0 < (sz : Int) + n.toInt) :
    ∃ sz' m', growproc kend m pgdir sz n = .ok (0, sz', m') ∧ Uvm kend m' pgdir ∧
      (sz' : Int) = sz + n.toInt ∧ Resized m m' pgdir sz sz' := by
  have htarget : (((sz : Int) + n.toInt) % 2 ^ 32).toNat = ((sz : Int) + n.toInt).toNat := by
    simp only [KERNBASE] at hK
    omega
  have hlt : ((sz : Int) + n.toInt).toNat < sz := by omega
  obtain ⟨m', hrun, hF⟩ := deallocuvm_freed hk h hlt hK
  have hne : ((sz : Int) + n.toInt).toNat ≠ 0 := by omega
  refine ⟨_, m', ?_, hF.uvm, by omega, Resized.shrink hmap hlt hK hF⟩
  rw [growproc_of_neg hn, htarget, hrun]
  exact if_neg hne

/-- `growproc(-sz)`: `deallocuvm` frees every page and returns `0`, read as failure. -/
theorem growproc_to_zero (hk : 0 < kend) (h : Uvm kend m pgdir) (hmap : MapsUpTo m pgdir sz)
    (hK : sz ≤ KERNBASE) {n : Int32} (hz : (sz : Int) + n.toInt = 0) (hsz : 0 < sz) :
    ∃ m', growproc kend m pgdir sz n = .ok (-1, sz, m') ∧ Uvm kend m' pgdir ∧
      MapsUpTo m' pgdir 0 := by
  have htarget : (((sz : Int) + n.toInt) % 2 ^ 32).toNat = 0 := by
    rw [hz]
    rfl
  obtain ⟨m', hrun, hF⟩ := deallocuvm_freed hk h hsz hK
  refine ⟨m', ?_, hF.uvm, (Resized.shrink hmap hsz hK hF).maps⟩
  rw [growproc_of_neg (by omega), htarget, hrun]
  rfl

/-- `growproc(n)` with `n < -sz`: `sz + n` wraps to a size above `sz`, which `deallocuvm` returns
unchanged; `growproc` fails only when that size is `0`. -/
theorem growproc_wrap {n : Int32} (hs : (sz : Int) + n.toInt < 0) (hK : sz ≤ KERNBASE) :
    growproc kend m pgdir sz n = .ok (if sz = 0 then -1 else 0, sz, m) := by
  have hge := Int32.le_toInt n
  have htarget : sz ≤ (((sz : Int) + n.toInt) % 2 ^ 32).toNat := by
    simp only [KERNBASE] at hK
    omega
  rw [growproc_of_neg (by omega), deallocuvm, if_pos htarget]
  show (if sz = 0 then Except.ok (-1, sz, m) else .ok (0, sz, m)) = _
  split_ifs <;> rfl

/-- **`sbrk(n)`.** On a well-formed process of size `sz ≤ KERNBASE` that maps exactly its pages,
`sbrk(n)` ends, for every `n`, in one of four ways: it returns the old size with the process
resized to `sz + n`; or it returns `-1` with the size and the mapping as they were; or, for
`n = -sz`, it returns `-1` and keeps the size `sz` with no user page mapped any more; or, for
`n < -sz`, it returns the old size as if it had succeeded, with nothing changed. -/
theorem sbrk_spec (hk : 0 < kend) (h : Uvm kend m pgdir) (hmap : MapsUpTo m pgdir sz)
    (hK : sz ≤ KERNBASE) (n : Int32) :
    ∃ r sz' m', sys_sbrk kend m pgdir sz n = .ok (r, sz', m') ∧ Uvm kend m' pgdir ∧
      ((r = sz ∧ (sz' : Int) = sz + n.toInt ∧ Resized m m' pgdir sz sz') ∨
       (r = -1 ∧ sz' = sz ∧ Unmoved m m' pgdir) ∨
       ((sz : Int) + n.toInt = 0 ∧ r = -1 ∧ sz' = sz ∧ MapsUpTo m' pgdir 0) ∨
       ((sz : Int) + n.toInt < 0 ∧ r = sz ∧ sz' = sz ∧ m' = m)) := by
  rcases lt_trichotomy n.toInt 0 with hn | hn | hn
  · rcases lt_trichotomy ((sz : Int) + n.toInt) 0 with hs | hs | hs
    · -- `sz + n` wraps
      have hg : growproc kend m pgdir sz n = .ok (if sz = 0 then -1 else 0, sz, m) :=
        growproc_wrap hs hK
      have hr := sys_sbrk_of_growproc hg
      by_cases hs0 : sz = 0
      · rw [if_pos hs0, if_pos (by decide)] at hr
        exact ⟨_, _, _, hr, h, .inr (.inl ⟨rfl, rfl, Unmoved.refl m pgdir⟩)⟩
      · rw [if_neg hs0, if_neg (by decide)] at hr
        exact ⟨_, _, _, hr, h, .inr (.inr (.inr ⟨hs, rfl, rfl, rfl⟩))⟩
    · obtain ⟨m', hg, h', hmap'⟩ := growproc_to_zero hk h hmap hK hs (by omega)
      exact ⟨_, _, _, sys_sbrk_of_growproc hg, h', .inr (.inr (.inl ⟨hs, rfl, rfl, hmap'⟩))⟩
    · obtain ⟨sz', m', hg, h', hsz', hR⟩ := growproc_shrink hk h hmap hK hn hs
      exact ⟨_, _, _, sys_sbrk_of_growproc hg, h', .inl ⟨rfl, hsz', hR⟩⟩
  · have h0 : n = 0 := Int32.toInt_inj.mp (by simpa using hn)
    subst h0
    refine ⟨_, _, _, sys_sbrk_of_growproc growproc_zero, h, .inl ⟨rfl, by simp, Resized.refl hmap⟩⟩
  · obtain ⟨g, sz', m', hg, h', hg' | hg'⟩ := growproc_grow hk h hmap hK hn
    · obtain ⟨rfl, hsz', hR⟩ := hg'
      exact ⟨_, _, _, sys_sbrk_of_growproc hg, h', .inl ⟨rfl, hsz', hR⟩⟩
    · obtain ⟨rfl, rfl, hU⟩ := hg'
      exact ⟨_, _, _, sys_sbrk_of_growproc hg, h', .inr (.inl ⟨rfl, rfl, hU⟩)⟩

theorem emptyProc_mapsUpTo : MapsUpTo emptyProc 0x200000 0 := fun va _ => by
  rw [emptyProc_trans, show PGROUNDUP 0 = 0 by decide]
  simp

theorem sbrk_spec_empty :
    ∃ r sz' m', sys_sbrk 0x100000 emptyProc 0x200000 0 4096 = .ok (r, sz', m') ∧
      Uvm 0x100000 m' 0x200000 ∧
      ((r = 0 ∧ (sz' : Int) = 0 + (4096 : Int32).toInt ∧ Resized emptyProc m' 0x200000 0 sz') ∨
       (r = -1 ∧ sz' = 0 ∧ Unmoved emptyProc m' 0x200000) ∨
       ((0 : Int) + (4096 : Int32).toInt = 0 ∧ r = -1 ∧ sz' = 0 ∧ MapsUpTo m' 0x200000 0) ∨
       ((0 : Int) + (4096 : Int32).toInt < 0 ∧ r = 0 ∧ sz' = 0 ∧ m' = emptyProc)) :=
  sbrk_spec (by decide) emptyProc_uvm emptyProc_mapsUpTo (by decide) 4096

end Sbrk

/-! ## `growproc` on a process that need not map all its pages -/

/-- Below `KERNBASE` the directory maps nothing from `PGROUNDUP(sz)` on: a process of size `sz`
whose pages need not all be mapped, as after `sbrk(-sz)`. -/
def Below (m : Mach) (pgdir sz : Nat) : Prop :=
  ∀ va < KERNBASE, PGROUNDUP sz ≤ va → m.trans pgdir va = none

section Below

variable {kend : Nat} {m m' : Mach} {pgdir sz sz' : Nat}

theorem MapsUpTo.below (h : MapsUpTo m pgdir sz) : Below m pgdir sz :=
  fun _ hva hup => h.trans_none hva hup

/-- Freeing `[PGROUNDUP(sz'), sz)`: nothing is mapped from `PGROUNDUP(sz')` on, and the kernel's
half is as it was. -/
theorem Freed.below (hF : Freed kend m m' pgdir (PGROUNDUP sz') sz) (hb : Below m pgdir sz)
    (hK : sz ≤ KERNBASE) (hs' : sz' ≤ KERNBASE) :
    Below m' pgdir sz' ∧
      ∀ va, KERNBASE ≤ va → va < 2 ^ 32 → m'.trans pgdir va = m.trans pgdir va := by
  refine ⟨fun va hva hup => ?_, fun va hva h32 => ?_⟩
  · rw [hF.trans va (lt_two_pow_of_lt_KERNBASE hva)]
    split_ifs with hin
    · rfl
    · -- past the range freed, so past `PGROUNDUP(sz)`
      have hlo : PGROUNDUP sz' ≤ va / PGSIZE * PGSIZE := (le_base_iff hs' va).mpr hup
      have hge : ¬va / PGSIZE * PGSIZE < sz := fun hlt => hin ⟨hlo, hlt⟩
      exact hb va hva (not_lt.mp fun h => hge ((base_lt_iff hK va).mpr h))
  · have hge : ¬va / PGSIZE * PGSIZE < sz := fun hlt =>
      not_lt.mpr (le_trans (PGROUNDUP_le hK) hva) ((base_lt_iff hK va).mp hlt)
    rw [hF.trans va h32, if_neg fun hin => hge hin.2]

/-- Growing `[PGROUNDUP(sz), sz')`: nothing is mapped from `PGROUNDUP(sz')` on, and the kernel's
half is as it was. -/
theorem Grown.below (hG : Grown kend m m' pgdir (PGROUNDUP sz) sz') (hb : Below m pgdir sz)
    (hsz : sz ≤ sz') (hK : sz' ≤ KERNBASE) :
    Below m' pgdir sz' ∧
      ∀ va, KERNBASE ≤ va → va < 2 ^ 32 → m'.trans pgdir va = m.trans pgdir va := by
  have hout : ∀ va, PGROUNDUP sz' ≤ va →
      ¬(PGROUNDUP sz ≤ va / PGSIZE * PGSIZE ∧ va / PGSIZE * PGSIZE < sz') :=
    fun va hva hin => not_lt.mpr hva ((base_lt_iff hK va).mp hin.2)
  have hmono : PGROUNDUP sz ≤ PGROUNDUP sz' := by
    rw [PGROUNDUP_of_le (le_trans hsz hK), PGROUNDUP_of_le hK]
    omega
  refine ⟨fun va hva hup => ?_, fun va hva h32 => ?_⟩
  · rw [hG.trans va (lt_two_pow_of_lt_KERNBASE hva) (hout va hup)]
    exact hb va hva (le_trans hmono hup)
  · exact hG.trans va h32 (hout va (le_trans (PGROUNDUP_le hK) hva))

/-- **`growproc(n)` on one address space.** On a well-formed directory that maps nothing from
`PGROUNDUP(sz)` on, `growproc(n)` returns for every `n`: it keeps the invariant and the kernel's
half, is confined to the directory, and leaves a size `sz' ≤ KERNBASE` from whose page bound on
nothing is mapped. -/
theorem growproc_confined (hk : 0 < kend) (h : Uvm kend m pgdir) (hb : Below m pgdir sz)
    (hK : sz ≤ KERNBASE) (n : Int32) :
    ∃ g sz' m', growproc kend m pgdir sz n = .ok (g, sz', m') ∧ Uvm kend m' pgdir ∧
      Confined m m' pgdir ∧ Below m' pgdir sz' ∧ sz' ≤ KERNBASE ∧
      ∀ va, KERNBASE ≤ va → va < 2 ^ 32 → m'.trans pgdir va = m.trans pgdir va := by
  have hsame : Confined m m pgdir := Confined.refl h.nodup
  rcases lt_trichotomy n.toInt 0 with hn | hn | hn
  · rcases lt_trichotomy ((sz : Int) + n.toInt) 0 with hs | hs | hs
    · -- `sz + n` wraps, and nothing changes
      exact ⟨_, sz, m, growproc_wrap hs hK, h, hsame, hb, hK, fun _ _ _ => rfl⟩
    · -- `sz + n = 0`: every page freed, and the size kept
      have htarget : (((sz : Int) + n.toInt) % 2 ^ 32).toNat = 0 := by
        rw [hs]
        rfl
      obtain ⟨m', hrun, hF⟩ := deallocuvm_freed hk h (show 0 < sz by omega) hK
      obtain ⟨hb', hker⟩ := hF.below hb hK (Nat.zero_le _)
      refine ⟨-1, sz, m', ?_, hF.uvm, hF.confined hK, fun va hva _ => hb' va hva
        (by rw [show PGROUNDUP 0 = 0 by decide]; exact Nat.zero_le va), hK, hker⟩
      rw [growproc_of_neg hn, htarget, hrun]
      rfl
    · have htarget : (((sz : Int) + n.toInt) % 2 ^ 32).toNat = ((sz : Int) + n.toInt).toNat := by
        simp only [KERNBASE] at hK
        omega
      have hlt : ((sz : Int) + n.toInt).toNat < sz := by omega
      obtain ⟨m', hrun, hF⟩ := deallocuvm_freed hk h hlt hK
      have hne : ((sz : Int) + n.toInt).toNat ≠ 0 := by omega
      obtain ⟨hb', hker⟩ := hF.below hb hK (by omega)
      refine ⟨0, _, m', ?_, hF.uvm, hF.confined hK, hb', by omega, hker⟩
      rw [growproc_of_neg hn, htarget, hrun]
      exact if_neg hne
  · have h0 : n = 0 := Int32.toInt_inj.mp (by simpa using hn)
    subst h0
    exact ⟨0, sz, m, growproc_zero, h, hsame, hb, hK, fun _ _ _ => rfl⟩
  · have hlt := Int32.toInt_lt n
    have htarget : (((sz : Int) + n.toInt) % 2 ^ 32).toNat = sz + n.toInt.toNat := by
      simp only [KERNBASE] at hK
      omega
    rw [growproc_of_pos kend hn, htarget]
    by_cases hbig : KERNBASE ≤ sz + n.toInt.toNat
    · refine ⟨-1, sz, m, ?_, h, hsame, hb, hK, fun _ _ _ => rfl⟩
      rw [allocuvm, if_pos hbig]
      rfl
    · have hK' : sz + n.toInt.toNat < KERNBASE := not_le.mp hbig
      have hempty : ∀ va < 2 ^ 32, PGROUNDUP sz ≤ va / PGSIZE * PGSIZE →
          va / PGSIZE * PGSIZE < sz + n.toInt.toNat → m.trans pgdir va = none := by
        intro va _ h₁ h₂
        have hva : va < KERNBASE :=
          lt_of_lt_of_le ((base_lt_iff hK'.le va).mp h₂) (PGROUNDUP_le hK'.le)
        exact hb va hva (le_trans h₁ (Nat.div_mul_le_self va PGSIZE))
      obtain ⟨r, m', hrun, hres, hC⟩ := allocuvm_post hk h (Nat.le_add_right _ _) hK' hempty
      rw [hrun]
      cases hres with
      | grown hG =>
        have hne : sz + n.toInt.toNat ≠ 0 := by omega
        obtain ⟨hb', hker⟩ := hG.below hb (Nat.le_add_right _ _) hK'.le
        exact ⟨0, _, m', if_neg hne, hG.uvm, hC, hb', hK'.le, hker⟩
      | rolledBack hR =>
        refine ⟨-1, sz, m', rfl, hR.uvm, hC, fun va hva hup => ?_, hK, fun va _ _ => by rw [hR.trans]⟩
        rw [hR.trans]
        exact hb va hva hup

/-- `growproc(n)` keeps a process that maps exactly its pages so, except for `n = -sz ≠ 0`, where
the pages go and the size stays. -/
theorem growproc_exact (hk : 0 < kend) (h : Uvm kend m pgdir) (hmap : MapsUpTo m pgdir sz)
    (hK : sz ≤ KERNBASE) {n : Int32} (hn : (sz : Int) + n.toInt = 0 → n.toInt = 0) {g : Int}
    (hg : growproc kend m pgdir sz n = .ok (g, sz', m')) : MapsUpTo m' pgdir sz' := by
  rcases lt_trichotomy n.toInt 0 with hn' | hn' | hn'
  · rcases lt_trichotomy ((sz : Int) + n.toInt) 0 with hs | hs | hs
    · rw [growproc_wrap hs hK, Except.ok.injEq, Prod.mk.injEq, Prod.mk.injEq] at hg
      obtain ⟨-, rfl, rfl⟩ := hg
      exact hmap
    · exact absurd (hn hs) (ne_of_lt hn')
    · obtain ⟨sz'', m'', hg', -, -, hR⟩ := growproc_shrink hk h hmap hK hn' hs
      rw [hg', Except.ok.injEq, Prod.mk.injEq, Prod.mk.injEq] at hg
      obtain ⟨-, rfl, rfl⟩ := hg
      exact hR.maps
  · have h0 : n = 0 := Int32.toInt_inj.mp (by simpa using hn')
    subst h0
    rw [growproc_zero, Except.ok.injEq, Prod.mk.injEq, Prod.mk.injEq] at hg
    obtain ⟨-, rfl, rfl⟩ := hg
    exact hmap
  · obtain ⟨g', sz'', m'', hg', -, ⟨-, -, hR⟩ | ⟨-, rfl, hU⟩⟩ := growproc_grow hk h hmap hK hn'
    · rw [hg', Except.ok.injEq, Prod.mk.injEq, Prod.mk.injEq] at hg
      obtain ⟨-, rfl, rfl⟩ := hg
      exact hR.maps
    · rw [hg', Except.ok.injEq, Prod.mk.injEq, Prod.mk.injEq] at hg
      obtain ⟨-, rfl, rfl⟩ := hg
      intro va hva
      rw [hU.trans]
      exact hmap va hva

end Below

end Xv6.Vm
