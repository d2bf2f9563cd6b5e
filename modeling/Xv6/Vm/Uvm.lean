import Xv6.Vm.Space
import Xv6.Lib.Loop

/-!
# Growing and shrinking a process: `allocuvm`, `deallocuvm`, `growproc`

`deallocuvm(pgdir, oldsz, newsz)` frees the pages from `PGROUNDUP(newsz)` up to `oldsz` and
clears their entries, skipping the rest of a 4 MB region whose page table is missing.
`allocuvm(pgdir, oldsz, newsz)` maps cleared pages from `PGROUNDUP(oldsz)` up to `newsz` and,
when `kalloc` or `mappages` fails, frees what it mapped with `deallocuvm(pgdir, newsz, oldsz)`;
it returns `0` on failure. `growproc(n)` calls one of them with `sz + n`, computed in `uint`, and
reads a returned size of `0` as failure.

The loops carry a `fuel` bound: one run for every page below the size they run up to, which is
enough because every run moves the counter forward by at least a page (`deallocLoop_spec`).

`deallocuvm_spec`: on a well-formed directory, `deallocuvm` unmaps exactly the pages of
`[PGROUNDUP(newsz), oldsz)`, leaving every other translation and the contents of every page still
mapped. So `growproc(-sz)` of a process of size `sz > 0` frees all of its memory and then returns
`-1`, since the new size `0` reads as failure (`growproc_shrink_to_zero`).
-/

namespace Xv6.Vm

section Code

-- `V2P(end)`
variable (kend : Nat)

/-- The body of `deallocuvm`'s loop at `a`: the counter the loop's increment starts from, and the
machine. With no page table for `a`, the counter moves to the last page of its 4 MB region. -/
def deallocStep (pgdir a : Nat) (m : Mach) : Except String (Nat × Mach) :=
  match walkpgdir m pgdir a false with
  | (none, m) => .ok ((PGADDR (PDX a + 1) 0 0 + 2 ^ 32 - PGSIZE) % 2 ^ 32, m)
  | (some (t, i), m) =>
    if m.mem t i &&& PTE_P ≠ 0 then
      let pa := PTE_ADDR (m.mem t i)
      if pa = 0 then .error "kfree"
      else do
        let m ← kfree kend m pa
        pure (a, m.write t i 0)
    else .ok (a, m)

/-- The loop `for(; a < oldsz; a += PGSIZE)` of `deallocuvm`, with at most `fuel` runs. -/
def deallocLoop (pgdir oldsz : Nat) : Nat → Nat → Mach → Except String Mach
  | 0, _, m => .ok m
  | fuel + 1, a, m =>
    if a < oldsz then do
      let (a, m) ← deallocStep kend pgdir a m
      deallocLoop pgdir oldsz fuel ((a + PGSIZE) % 2 ^ 32) m
    else .ok m

/-- `deallocuvm(pgdir, oldsz, newsz)`: the size returned, and the machine. -/
def deallocuvm (m : Mach) (pgdir oldsz newsz : Nat) : Except String (Nat × Mach) :=
  if newsz ≥ oldsz then .ok (oldsz, m)
  else do
    let m ← deallocLoop kend pgdir oldsz (oldsz / PGSIZE + 1) (PGROUNDUP newsz) m
    pure (newsz, m)

/-- The loop `for(; a < newsz; a += PGSIZE)` of `allocuvm`, with at most `fuel` runs; `a` stays
below `newsz < KERNBASE`, so the increment does not wrap. The messages of `cprintf` are not
modelled. -/
def allocLoop (pgdir oldsz newsz : Nat) : Nat → Nat → Mach → Except String (Nat × Mach)
  | 0, _, m => .ok (newsz, m)
  | fuel + 1, a, m =>
    if a < newsz then
      match kalloc m with
      | (none, m) => do
        let (_, m) ← deallocuvm kend m pgdir newsz oldsz
        pure (0, m)
      | (some mem, m) => do
        let m := m.fill mem 0
        let (r, m) ← mappages m pgdir a PGSIZE mem (PTE_W ||| PTE_U)
        if r < 0 then do
          let (_, m) ← deallocuvm kend m pgdir newsz oldsz
          let m ← kfree kend m mem
          pure (0, m)
        else allocLoop pgdir oldsz newsz fuel (a + PGSIZE) m
    else .ok (newsz, m)

/-- `allocuvm(pgdir, oldsz, newsz)`: the size returned (`0` on failure), and the machine. -/
def allocuvm (m : Mach) (pgdir oldsz newsz : Nat) : Except String (Nat × Mach) :=
  if newsz ≥ KERNBASE then .ok (0, m)
  else if newsz < oldsz then .ok (oldsz, m)
  else allocLoop kend pgdir oldsz newsz (newsz / PGSIZE + 1) (PGROUNDUP oldsz) m

/-- `growproc(n)` for the current process, with page directory `pgdir` and size `sz`: the value
returned, the process's size `curproc->sz` after, and the machine. `switchuvm` only reloads the
hardware's registers. -/
def growproc (m : Mach) (pgdir sz : Nat) (n : Int32) : Except String (Int × Nat × Mach) :=
  -- `sz + n`, in `uint`
  let target := (((sz : Int) + n.toInt) % 2 ^ 32).toNat
  if n > 0 then do
    let (sz', m) ← allocuvm kend m pgdir sz target
    if sz' = 0 then pure (-1, sz, m) else pure (0, sz', m)
  else if n < 0 then do
    let (sz', m) ← deallocuvm kend m pgdir sz target
    if sz' = 0 then pure (-1, sz, m) else pure (0, sz', m)
  else pure (0, sz, m)

/-- `sys_sbrk()` once `argint` has fetched `n`: the value returned (the old size, or `-1`), the
process's size after, and the machine. -/
def sys_sbrk (m : Mach) (pgdir sz : Nat) (n : Int32) : Except String (Int × Nat × Mach) := do
  let addr : Int := sz
  let (r, sz, m) ← growproc kend m pgdir sz n
  if r < 0 then pure (-1, sz, m) else pure (addr, sz, m)

end Code

/-! ## `deallocuvm` -/

section Freed

variable {kend : Nat} {m₀ m : Mach} {pgdir lo hi : Nat}

/-- What freeing the pages of `[lo, hi)` leaves, from `m₀`: the invariant; those pages unmapped and
every other translation as before; the directory's tables as they were; and, in front of the old
free list, exactly the pages `m₀` mapped where `m` maps nothing, with every other page the
directory does not read untouched. -/
structure Freed (kend : Nat) (m₀ m : Mach) (pgdir lo hi : Nat) : Prop where
  uvm : Uvm kend m pgdir
  trans : ∀ va < 2 ^ 32, m.trans pgdir va =
    if lo ≤ va / PGSIZE * PGSIZE ∧ va / PGSIZE * PGSIZE < hi then none else m₀.trans pgdir va
  table : m.table pgdir = m₀.table pgdir
  freed : ∃ L, m.freelist = L ++ m₀.freelist ∧
    (∀ p, p ∈ L ↔ ∃ va < 2 ^ 32, ∃ f, m₀.trans pgdir va = some (p, f) ∧ m.trans pgdir va = none) ∧
    ∀ q, q ∉ L → ¬Walked m₀ pgdir q → m.mem q = m₀.mem q

theorem Freed.refl (h : Uvm kend m pgdir) (hle : hi ≤ lo) : Freed kend m m pgdir lo hi where
  uvm := h
  trans va _ := by rw [if_neg (by omega)]
  table := rfl
  freed := ⟨[], rfl, fun p => ⟨fun hp => absurd hp List.not_mem_nil,
    fun hp => by obtain ⟨va, _, f, h₁, h₂⟩ := hp; rw [h₁] at h₂; cases h₂⟩,
    fun _ _ _ => rfl⟩

/-- A page still mapped keeps its contents. -/
theorem Freed.mem (h : Freed kend m₀ m pgdir lo hi) {p : Nat} (hp : UserPage m pgdir p) :
    m.mem p = m₀.mem p := by
  obtain ⟨L, hL, -, hframe⟩ := h.freed
  refine hframe p (fun hpL => h.uvm.user_free p hp (hL ▸ List.mem_append_left _ hpL)) fun hw => ?_
  exact h.uvm.user_walked p hp (by rw [walked_congr h.table]; exact hw)

/-- The freed range grows over pages that are unmapped already. -/
theorem Freed.extend (h : Freed kend m₀ m pgdir lo hi) (hlo : lo ≤ hi) {hi' : Nat} (hle : hi ≤ hi')
    (hnone : ∀ va < 2 ^ 32, hi ≤ va / PGSIZE * PGSIZE → va / PGSIZE * PGSIZE < hi' →
      m.trans pgdir va = none) : Freed kend m₀ m pgdir lo hi' where
  uvm := h.uvm
  trans va hva := by
    by_cases hin : hi ≤ va / PGSIZE * PGSIZE ∧ va / PGSIZE * PGSIZE < hi'
    · rw [if_pos ⟨by omega, hin.2⟩]
      exact hnone va hva hin.1 hin.2
    · rw [h.trans va hva]
      by_cases hb : va / PGSIZE * PGSIZE < hi
      · simp only [hb, show va / PGSIZE * PGSIZE < hi' by omega, and_true]
      · simp only [hb, show ¬va / PGSIZE * PGSIZE < hi' by omega, and_false, ↓reduceIte]
  table := h.table
  freed := h.freed

/-- One more page freed: the page at `hi`, which `m` maps to `p`, pushed on the free list and its
entry cleared. Below `hi'` the last page base is `hi`. -/
theorem Freed.remove (h : Freed kend m₀ m pgdir lo hi) (hlo : lo ≤ hi) (hal : hi % PGSIZE = 0)
    (hK : hi < KERNBASE) {t p : Nat} {f : UInt32} (htab : m.table pgdir (PDX hi) = some t)
    (hp : m.trans pgdir hi = some (p, f)) {hi' : Nat}
    (hhi' : ∀ b, b % PGSIZE = 0 → (b < hi' ↔ b ≤ hi)) :
    Freed kend m₀ ({ m.fill p 0x01010101 with freelist := p :: m.freelist }.write t (PTX hi) 0)
      pgdir lo hi' := by
  set m' := { m.fill p 0x01010101 with freelist := p :: m.freelist }.write t (PTX hi) 0
  have hK32 : hi < 2 ^ 32 := by simp only [KERNBASE] at hK; omega
  have hnew := h.uvm.trans_remove hK htab hp
  have hpw := h.uvm.user_walked p ⟨hi, hK, f, hp⟩
  have hpd : p ≠ pgdir := fun e => hpw (e ▸ Walked.dir m pgdir)
  have htw : Walked m pgdir t := .table (PDX_lt hi) htab
  have hne : t ≠ pgdir := fun e => h.uvm.table_ne _ (PDX_lt hi) (e ▸ htab)
  have hdir : m'.mem pgdir = m.mem pgdir := by
    funext k
    simp [m', Ne.symm hpd, Ne.symm hne]
  have hhi : hi / PGSIZE * PGSIZE = hi := by
    simp only [PGSIZE] at hal ⊢
    omega
  -- the page at `hi` is not freed yet, so `m₀` maps it as `m` does
  have hp₀ : m₀.trans pgdir hi = some (p, f) := by
    rw [← hp, h.trans hi hK32, hhi, if_neg (by omega)]
  refine { uvm := h.uvm.remove hK htab hp, trans := fun va hva => ?_,
           table := (funext (table_congr hdir)).trans h.table, freed := ?_ }
  · have hbase := same_entry_iff_base hva hK32 hal
    have hb : va / PGSIZE * PGSIZE % PGSIZE = 0 := Nat.mul_mod_left _ _
    rw [hnew va]
    by_cases hs : va / PGSIZE * PGSIZE = hi
    · rw [if_pos (hbase.mpr hs), if_pos ⟨hs ▸ hlo, (hhi' _ hb).mpr hs.le⟩]
    · rw [if_neg (fun e => hs (hbase.mp e)), h.trans va hva]
      have : va / PGSIZE * PGSIZE < hi ↔ va / PGSIZE * PGSIZE < hi' := by
        rw [hhi' _ hb]
        omega
      simp only [this]
  · obtain ⟨L, hL, hmem, hframe⟩ := h.freed
    refine ⟨p :: L, by simp [m', hL], fun q => ⟨fun hq => ?_, fun hq => ?_⟩,
      fun q hq hqw => ?_⟩
    · rcases List.mem_cons.mp hq with rfl | hq
      · exact ⟨hi, hK32, f, hp₀, by rw [hnew hi, if_pos ⟨rfl, rfl⟩]⟩
      · obtain ⟨va, hva, f', h₀, hn⟩ := (hmem q).mp hq
        refine ⟨va, hva, f', h₀, ?_⟩
        rw [hnew va]
        split
        · rfl
        · exact hn
    · obtain ⟨va, hva, f', h₀, hn⟩ := hq
      rw [hnew va] at hn
      split at hn
      · rename_i hs
        -- `va` is in the page at `hi`, which `m` still mapped to `p`
        have h₁ : m.trans pgdir va = m₀.trans pgdir va := by
          rw [h.trans va hva, ((same_entry_iff_base hva hK32 hal).mp hs), if_neg (by omega)]
        rw [trans_of_same hs, hp, h₀, Option.some.injEq, Prod.mk.injEq] at h₁
        exact h₁.1 ▸ List.mem_cons_self
      · exact List.mem_cons_of_mem _ ((hmem q).mpr ⟨va, hva, f', h₀, hn⟩)
    · have hqp : q ≠ p := fun e => hq (e ▸ List.mem_cons_self)
      have hqt : q ≠ t := fun e => hqw (by rw [← walked_congr h.table, e]; exact htw)
      have : m'.mem q = m.mem q := by
        funext j
        simp [m', hqp, hqt]
      rw [this]
      exact hframe q (fun e => hq (List.mem_cons_of_mem _ e)) hqw

/-- Freed from a page boundary `lo` up to `hi ≤ KERNBASE`: in front of the free list stand, once
each, exactly the pages mapped at an address of the range. -/
theorem Freed.range (h : Freed kend m₀ m pgdir lo hi) (hal : lo % PGSIZE = 0) (hhi : hi ≤ KERNBASE) :
    ∃ L, m.freelist = L ++ m₀.freelist ∧ L.Nodup ∧
      (∀ p, p ∈ L ↔ ∃ va, lo ≤ va ∧ va < hi ∧ ∃ f, m₀.trans pgdir va = some (p, f)) ∧
      ∀ q, q ∉ L → ¬Walked m₀ pgdir q → m.mem q = m₀.mem q := by
  obtain ⟨L, hL, hmem, hframe⟩ := h.freed
  refine ⟨L, hL, (List.nodup_append.mp (hL ▸ h.uvm.nodup)).1, fun p => ?_, hframe⟩
  rw [hmem p]
  constructor
  · rintro ⟨va, hva, f, h₀, hn⟩
    rw [h.trans va hva] at hn
    split at hn
    · rename_i hin
      -- the page base of `va` lies in the range and maps as `va` does
      have hb : va / PGSIZE * PGSIZE < 2 ^ 32 := lt_of_le_of_lt (Nat.div_mul_le_self va PGSIZE) hva
      have hs := (same_entry_iff_base hva hb (Nat.mul_mod_left _ _)).mpr rfl
      exact ⟨_, hin.1, hin.2, f, (trans_of_same hs).symm.trans h₀⟩
    · rw [h₀] at hn
      cases hn
  · rintro ⟨va, h₁, h₂, f, h₀⟩
    have hva : va < 2 ^ 32 := by simp only [KERNBASE] at hhi; omega
    have hlo : lo ≤ va / PGSIZE * PGSIZE := by
      simp only [PGSIZE] at hal ⊢
      omega
    have hin : lo ≤ va / PGSIZE * PGSIZE ∧ va / PGSIZE * PGSIZE < hi :=
      ⟨hlo, lt_of_le_of_lt (Nat.div_mul_le_self va PGSIZE) h₂⟩
    exact ⟨va, hva, f, h₀, by rw [h.trans va hva, if_pos hin]⟩

end Freed

section Dealloc

variable {kend : Nat} {m₀ : Mach} {pgdir start oldsz : Nat}

/-- The state of `deallocuvm`'s loop at `a`, started from `m₀` at `start`: the pages from `start` up
to `a` and below `oldsz` freed. -/
structure DeallocInv (kend : Nat) (m₀ : Mach) (pgdir start oldsz a : Nat) (m : Mach) : Prop
    extends Freed kend m₀ m pgdir start (min a oldsz) where
  aligned : a % PGSIZE = 0
  start_le : start ≤ a

/-- Without a page table the loop moves to the next 4 MB region; every page up to it reads as
unmapped. -/
theorem deallocStep_skip {a : Nat} {m : Mach} (ha : a < KERNBASE) (htab : m.table pgdir (PDX a) = none) :
    deallocStep kend pgdir a m = .ok ((a / 2 ^ 22 + 1) * 2 ^ 22 - PGSIZE, m) := by
  have hK : a < 2 ^ 31 := ha
  have hnext : (PGADDR (PDX a + 1) 0 0 + 2 ^ 32 - PGSIZE) % 2 ^ 32 = (a / 2 ^ 22 + 1) * 2 ^ 22 - PGSIZE := by
    rw [PGADDR_zero, PDX_eq, Nat.mod_eq_of_lt (show a < 2 ^ 32 by omega), PGSIZE]
    omega
  rw [deallocStep, walkpgdir_lookup htab]
  dsimp only
  rw [hnext]

theorem deallocStep_absent {a t : Nat} {m : Mach} (htab : m.table pgdir (PDX a) = some t)
    (hnp : ¬(m.mem t (PTX a) &&& PTE_P ≠ 0)) : deallocStep kend pgdir a m = .ok (a, m) := by
  rw [deallocStep, walkpgdir_of_table htab]
  dsimp only
  rw [if_neg hnp]

theorem deallocStep_free {a t : Nat} {m : Mach} (htab : m.table pgdir (PDX a) = some t)
    (hp : m.mem t (PTX a) &&& PTE_P ≠ 0) (halloc : Alloc kend (PTE_ADDR (m.mem t (PTX a))))
    (hpos : 0 < kend) :
    deallocStep kend pgdir a m = .ok (a, { m.fill (PTE_ADDR (m.mem t (PTX a))) 0x01010101 with
      freelist := PTE_ADDR (m.mem t (PTX a)) :: m.freelist }.write t (PTX a) 0) := by
  rw [deallocStep, walkpgdir_of_table htab]
  dsimp only
  rw [if_pos hp, if_neg (by have := halloc.2.1; omega), kfree_of_alloc halloc]
  rfl

/-- **Step.** One run of the loop below `oldsz ≤ KERNBASE` keeps the invariant, and moves the
counter forward by at least a page without passing `KERNBASE`. -/
theorem deallocStep_spec (hk : 0 < kend) (hold : oldsz ≤ KERNBASE) {a : Nat} {m : Mach}
    (h : DeallocInv kend m₀ pgdir start oldsz a m) (ha : a < oldsz) :
    ∃ a' m', deallocStep kend pgdir a m = .ok (a', m') ∧ a + PGSIZE ≤ a' + PGSIZE ∧
      a' + PGSIZE ≤ KERNBASE ∧ DeallocInv kend m₀ pgdir start oldsz (a' + PGSIZE) m' := by
  have hal := h.aligned
  have hsa := h.start_le
  have hK : a < 2 ^ 31 := by simp only [KERNBASE] at hold; omega
  have hpg : a + PGSIZE ≤ KERNBASE := by simp only [PGSIZE, KERNBASE] at hal hold ⊢; omega
  have hF : Freed kend m₀ m pgdir start a := min_eq_left ha.le ▸ h.toFreed
  have hnext : ∀ b, b % PGSIZE = 0 → (b < min (a + PGSIZE) oldsz ↔ b ≤ a) := by
    intro b hb
    simp only [PGSIZE] at hal hb ⊢
    omega
  cases htab : m.table pgdir (PDX a) with
  | none =>
    -- the whole 4 MB region of `a` is unmapped
    have hregion : ∀ va < 2 ^ 32, a ≤ va / PGSIZE * PGSIZE →
        va / PGSIZE * PGSIZE < (a / 2 ^ 22 + 1) * 2 ^ 22 → m.trans pgdir va = none := by
      intro va hva h₁ h₂
      have : PDX va = PDX a := by
        rw [PDX_eq, PDX_eq, Nat.mod_eq_of_lt hva, Nat.mod_eq_of_lt (show a < 2 ^ 32 by omega)]
        simp only [PGSIZE] at h₁ h₂
        omega
      rw [trans_eq_bind, this, htab]
      rfl
    have hend : (a / 2 ^ 22 + 1) * 2 ^ 22 - PGSIZE + PGSIZE = (a / 2 ^ 22 + 1) * 2 ^ 22 := by
      simp only [PGSIZE]
      omega
    refine ⟨_, m, deallocStep_skip (by exact hK) htab, ?_, ?_, ?_⟩
    · simp only [PGSIZE] at hal ⊢
      omega
    · rw [hend]
      simp only [KERNBASE]
      omega
    · rw [hend]
      have hle : a ≤ min ((a / 2 ^ 22 + 1) * 2 ^ 22) oldsz := by omega
      exact { toFreed := hF.extend hsa hle fun va hva h₁ h₂ =>
                hregion va hva h₁ (lt_of_lt_of_le h₂ (min_le_left _ _)),
              aligned := by simp only [PGSIZE]; omega, start_le := by omega }
  | some t =>
    have htrans : m.trans pgdir a = decode (m.mem t (PTX a)) := trans_of_table htab
    by_cases hp : m.mem t (PTX a) &&& PTE_P ≠ 0
    · -- the page at `a` is freed and its entry cleared
      have htr : m.trans pgdir a = some (PTE_ADDR (m.mem t (PTX a)), PTE_FLAGS (m.mem t (PTX a))) := by
        rw [htrans, decode, if_pos hp]
      have hpu : UserPage m pgdir (PTE_ADDR (m.mem t (PTX a))) := ⟨a, by omega, _, htr⟩
      refine ⟨a, _, deallocStep_free htab hp (h.uvm.user_alloc _ hpu) hk, le_rfl, hpg, ?_⟩
      exact { toFreed := hF.remove hsa hal (by omega) htab htr hnext,
              aligned := by simp only [PGSIZE] at hal ⊢; omega, start_le := by omega }
    · -- no page at `a`: the only page base in the new range is `a`
      have hnone : m.trans pgdir a = none := by
        rw [htrans, decode, if_neg hp]
      refine ⟨a, m, deallocStep_absent htab hp, le_rfl, hpg, ?_⟩
      refine { toFreed := hF.extend hsa (by omega) fun va hva h₁ h₂ => ?_,
               aligned := by simp only [PGSIZE] at hal ⊢; omega, start_le := by omega }
      have hb := (hnext _ (Nat.mul_mod_left _ _)).mp h₂
      rw [trans_of_same ((same_entry_iff_base hva (by omega) hal).mpr (by omega)), hnone]

/-- **Run.** With enough fuel for the pages left below `oldsz`, the loop succeeds at a counter
past `oldsz`, keeping the invariant. By induction on the fuel, one `deallocStep_spec` a run. -/
theorem deallocLoop_spec (hk : 0 < kend) (hold : oldsz ≤ KERNBASE) :
    ∀ (fuel a : Nat) (m : Mach), DeallocInv kend m₀ pgdir start oldsz a m →
      oldsz ≤ a + fuel * PGSIZE →
      ∃ a' m', deallocLoop kend pgdir oldsz fuel a m = .ok m' ∧ oldsz ≤ a' ∧
        DeallocInv kend m₀ pgdir start oldsz a' m'
  | 0, a, m, h, hfuel => ⟨a, m, rfl, by omega, h⟩
  | fuel + 1, a, m, h, hfuel => by
    by_cases ha : a < oldsz
    · obtain ⟨a', m', hstep, hle, hK, h'⟩ := deallocStep_spec hk hold h ha
      have hwrap : (a' + PGSIZE) % 2 ^ 32 = a' + PGSIZE :=
        Nat.mod_eq_of_lt (by simp only [KERNBASE] at hK; omega)
      obtain ⟨a'', m'', hrun, hend, h''⟩ :=
        deallocLoop_spec hk hold fuel (a' + PGSIZE) m' h' (by rw [Nat.add_mul] at hfuel; omega)
      refine ⟨a'', m'', ?_, hend, h''⟩
      rw [deallocLoop, if_pos ha, hstep, CLoop.ok_bind]
      dsimp only
      rw [hwrap, hrun]
    · exact ⟨a, m, by rw [deallocLoop, if_neg ha], by omega, h⟩

/-- `deallocuvm` with `newsz < oldsz ≤ KERNBASE` on a well-formed directory returns `newsz`,
having freed the pages of `[PGROUNDUP(newsz), oldsz)`. -/
theorem deallocuvm_freed (hk : 0 < kend) {m : Mach} {newsz : Nat} (h : Uvm kend m pgdir)
    (hnew : newsz < oldsz) (hold : oldsz ≤ KERNBASE) :
    ∃ m', deallocuvm kend m pgdir oldsz newsz = .ok (newsz, m') ∧
      Freed kend m m' pgdir (PGROUNDUP newsz) oldsz := by
  have hup : PGROUNDUP newsz = (newsz + 4095) / 4096 * 4096 := by
    rw [PGROUNDUP_eq, Nat.mod_eq_of_lt (by simp only [KERNBASE] at hold; omega)]
  have h0 : DeallocInv kend m pgdir (PGROUNDUP newsz) oldsz (PGROUNDUP newsz) m :=
    { toFreed := Freed.refl h (min_le_left _ _), aligned := by rw [hup, PGSIZE]; omega,
      start_le := le_rfl }
  obtain ⟨a', m', hrun, hend, h'⟩ :=
    deallocLoop_spec hk hold (oldsz / PGSIZE + 1) (PGROUNDUP newsz) m h0
      (by simp only [PGSIZE]; omega)
  refine ⟨m', ?_, min_eq_right hend ▸ h'.toFreed⟩
  rw [deallocuvm, if_neg (by omega), hrun]
  rfl

/-- **`deallocuvm`.** On a well-formed directory with `newsz < oldsz ≤ KERNBASE`, `deallocuvm`
returns `newsz` with exactly the pages of `[PGROUNDUP(newsz), oldsz)` unmapped, every other
translation as before, and every page still mapped with its contents. -/
theorem deallocuvm_spec (hk : 0 < kend) {m : Mach} {newsz : Nat} (h : Uvm kend m pgdir)
    (hnew : newsz < oldsz) (hold : oldsz ≤ KERNBASE) :
    ∃ m', deallocuvm kend m pgdir oldsz newsz = .ok (newsz, m') ∧ Uvm kend m' pgdir ∧
      (∀ va < 2 ^ 32, m'.trans pgdir va =
        if PGROUNDUP newsz ≤ va / PGSIZE * PGSIZE ∧ va / PGSIZE * PGSIZE < oldsz then none
        else m.trans pgdir va) ∧
      ∀ p, UserPage m' pgdir p → m'.mem p = m.mem p := by
  obtain ⟨m', hrun, hF⟩ := deallocuvm_freed hk h hnew hold
  exact ⟨m', hrun, hF.uvm, hF.trans, fun p hp => hF.mem hp⟩

/-- **`deallocuvm` frees exactly its range.** On a well-formed directory with
`newsz < oldsz ≤ KERNBASE`, `deallocuvm` returns `newsz`; the free list after is the old one
behind a list of distinct pages, exactly the pages mapped at an address of
`[PGROUNDUP(newsz), oldsz)`. Those addresses are unmapped, every other translation is as before,
and every page neither freed nor read by the walk keeps its contents. -/
theorem deallocuvm_frees_exactly (hk : 0 < kend) {m : Mach} {newsz : Nat} (h : Uvm kend m pgdir)
    (hnew : newsz < oldsz) (hold : oldsz ≤ KERNBASE) :
    ∃ m' L, deallocuvm kend m pgdir oldsz newsz = .ok (newsz, m') ∧ Uvm kend m' pgdir ∧
      m'.freelist = L ++ m.freelist ∧ L.Nodup ∧
      (∀ p, p ∈ L ↔ ∃ va, PGROUNDUP newsz ≤ va ∧ va < oldsz ∧ ∃ f, m.trans pgdir va = some (p, f)) ∧
      (∀ va < 2 ^ 32, m'.trans pgdir va =
        if PGROUNDUP newsz ≤ va / PGSIZE * PGSIZE ∧ va / PGSIZE * PGSIZE < oldsz then none
        else m.trans pgdir va) ∧
      ∀ q, q ∉ L → ¬Walked m pgdir q → m'.mem q = m.mem q := by
  obtain ⟨m', hrun, hF⟩ := deallocuvm_freed hk h hnew hold
  obtain ⟨L, hL, hnd, hmem, hframe⟩ := hF.range (PGROUNDUP_aligned newsz) hold
  exact ⟨m', L, hrun, hF.uvm, hL, hnd, hmem, hF.trans, hframe⟩

/-- A process of size `0`: a cleared directory at `0x200000`, and two free pages. -/
def emptyProc : Mach := { mem := fun _ _ => 0, freelist := [0x301000, 0x300000] }

theorem emptyProc_uvm : Uvm 0x100000 emptyProc 0x200000 :=
  Uvm.blank (fun _ => rfl) (by decide) (by decide) (by decide) (by decide)

theorem emptyProc_trans (va : Nat) : emptyProc.trans 0x200000 va = none := by
  have htab : ∀ i, emptyProc.table 0x200000 i = none := fun i =>
    table_eq_none.mpr (by simp [emptyProc])
  rw [trans_eq_bind, htab]
  rfl

theorem deallocuvm_frees_exactly_empty :
    ∃ m' L, deallocuvm 0x100000 emptyProc 0x200000 4096 0 = .ok (0, m') ∧
      Uvm 0x100000 m' 0x200000 ∧ m'.freelist = L ++ emptyProc.freelist ∧ L.Nodup ∧
      (∀ p, p ∈ L ↔ ∃ va, PGROUNDUP 0 ≤ va ∧ va < 4096 ∧ ∃ f,
        emptyProc.trans 0x200000 va = some (p, f)) ∧
      (∀ va < 2 ^ 32, m'.trans 0x200000 va =
        if PGROUNDUP 0 ≤ va / PGSIZE * PGSIZE ∧ va / PGSIZE * PGSIZE < 4096 then none
        else emptyProc.trans 0x200000 va) ∧
      ∀ q, q ∉ L → ¬Walked emptyProc 0x200000 q → m'.mem q = emptyProc.mem q :=
  deallocuvm_frees_exactly (by decide) emptyProc_uvm (by decide) (by decide)

end Dealloc

/-! ## `growproc` -/

section Grow

variable {kend : Nat}

theorem toInt_ofInt_neg {sz : Nat} (h : sz ≤ KERNBASE) : (Int32.ofInt (-sz)).toInt = -sz := by
  rw [Int32.toInt_ofInt]
  simp only [KERNBASE] at h
  exact Int.bmod_eq_of_le (by simp [Int32.size]; omega) (by simp [Int32.size]; omega)

/-- `growproc` with `n < 0` is `deallocuvm(pgdir, sz, sz + n)`, a returned size of `0` read as
failure. -/
theorem growproc_of_neg {m : Mach} {pgdir sz : Nat} {n : Int32} (hn : n.toInt < 0) :
    growproc kend m pgdir sz n =
      (deallocuvm kend m pgdir sz (((sz : Int) + n.toInt) % 2 ^ 32).toNat).bind fun r =>
        if r.1 = 0 then .ok (-1, sz, r.2) else .ok (0, r.1, r.2) := by
  have h₁ : ¬n > 0 := fun h => by have := Int32.lt_iff_toInt_lt.mp h; simp at this; omega
  have h₂ : n < 0 := Int32.lt_iff_toInt_lt.mpr (by simpa using hn)
  rw [growproc, if_neg h₁, if_pos h₂]
  rfl

/-- **`growproc(-sz)` frees the process and fails.** On a process of size `0 < sz ≤ KERNBASE`
that maps exactly `[0, PGROUNDUP(sz))`, `sz + n` is `0`: `deallocuvm` unmaps and frees every page
and returns `0`, which `growproc` reads as failure. It returns `-1` and leaves `curproc->sz`
at `sz`, with none of the pages below `sz`, all mapped before, mapped any more. -/
theorem growproc_shrink_to_zero (hk : 0 < kend) {m : Mach} {pgdir sz : Nat} (h : Uvm kend m pgdir)
    (hmap : ∀ va < KERNBASE, (m.trans pgdir va).isSome ↔ va < PGROUNDUP sz) (hsz : 0 < sz)
    (hK : sz ≤ KERNBASE) :
    ∃ m', growproc kend m pgdir sz (Int32.ofInt (-sz)) = .ok (-1, sz, m') ∧ Uvm kend m' pgdir ∧
      ∀ va < sz, (m.trans pgdir va).isSome ∧ m'.trans pgdir va = none := by
  have hn := toInt_ofInt_neg hK
  obtain ⟨m', hd, h', htr, -⟩ := deallocuvm_spec hk h hsz hK
  have htarget : (((sz : Int) + (Int32.ofInt (-sz)).toInt) % 2 ^ 32).toNat = 0 := by
    rw [hn]
    simp
  refine ⟨m', ?_, h', fun va hva => ⟨?_, ?_⟩⟩
  · rw [growproc_of_neg (by omega), htarget, hd]
    rfl
  · have : va < PGROUNDUP sz := by
      rw [PGROUNDUP_eq]
      simp only [KERNBASE] at hK
      omega
    exact (hmap va (by omega)).mpr this
  · rw [htr va (by simp only [KERNBASE] at hK; omega), if_pos]
    refine ⟨by simp [PGROUNDUP_eq], ?_⟩
    have : va / PGSIZE * PGSIZE ≤ va := Nat.div_mul_le_self va PGSIZE
    omega

/-- A process of one page: a cleared directory at `0x200000`, a page table at `0x201000` and the
page at `0x202000` entered at address `0`, as `allocuvm` enters it, with the free list empty. -/
def onePage : Mach :=
  ((({ mem := fun _ _ => 0, freelist := [] } : Mach).fill 0x201000 0).write 0x200000 0
    (tableEntry 0x201000)).write 0x201000 0 ((0x202000 : Nat).toUInt32 ||| (PTE_W ||| PTE_U) ||| PTE_P)

theorem growproc_shrink_to_zero_one_page :
    ∃ m', growproc 0x100000 onePage 0x200000 4096 (Int32.ofInt (-4096)) = .ok (-1, 4096, m') ∧
      Uvm 0x100000 m' 0x200000 ∧
      ∀ va < 4096, (onePage.trans 0x200000 va).isSome ∧ m'.trans 0x200000 va = none := by
  have hK : (4096 : Nat) ≤ KERNBASE := by decide
  set m₀ : Mach := { mem := fun _ _ => 0, freelist := [] }
  set m₁ := (m₀.fill 0x201000 0).write 0x200000 0 (tableEntry 0x201000)
  have h₀ : Uvm 0x100000 m₀ 0x200000 :=
    Uvm.blank (fun _ => rfl) (by decide) List.nodup_nil (by simp [m₀]) (by simp [m₀])
  have htab₀ : ∀ i, m₀.table 0x200000 i = none := fun i => table_eq_none.mpr (by simp [m₀])
  have htr₀ : ∀ va, m₀.trans 0x200000 va = none := fun va => by rw [trans_eq_bind, htab₀]; rfl
  have hwalk₀ : ∀ p, Walked m₀ 0x200000 p → p = 0x200000 := by
    rintro p (rfl | ⟨i, _, hi⟩)
    · rfl
    · rw [htab₀] at hi; cases hi
  have h₁ : Uvm 0x100000 m₁ 0x200000 :=
    h₀.install (by decide) (htab₀ 0) (by decide) (by simp [m₀])
      (fun hw => by have := hwalk₀ _ hw; omega) (fun ⟨va, _, f, hp⟩ => by rw [htr₀] at hp; cases hp)
  have htab₁ : m₁.table 0x200000 0 = some 0x201000 := by decide
  have htr₁ : ∀ va, m₁.trans 0x200000 va = none := fun va => by
    rw [show m₁.trans 0x200000 va = m₀.trans 0x200000 va from
      trans_install (htab₀ 0) (by decide) (by decide) (by decide)
        (fun i _ => by simp [htab₀]) (fun i _ => by simp [htab₀]) va, htr₀]
  have hwalk₁ : ¬Walked m₁ 0x200000 0x202000 := by
    rintro (h | ⟨i, hi, hti⟩)
    · omega
    · by_cases h0 : i = 0
      · subst h0
        rw [htab₁] at hti
        simp at hti
      · have : m₁.table 0x200000 i = none := table_eq_none.mpr (by simp [m₁, m₀, h0])
        rw [this] at hti
        cases hti
  have h₂ : Uvm 0x100000 onePage 0x200000 :=
    h₁.enter (by decide) htab₁ (by decide) (by decide) (by simp [m₁, m₀]) hwalk₁
      (fun ⟨va, _, f, hp⟩ => by rw [htr₁] at hp; cases hp) (by decide)
  have hmap : ∀ va < KERNBASE, (onePage.trans 0x200000 va).isSome ↔ va < PGROUNDUP 4096 := by
    intro va hva
    rw [show onePage = m₁.write 0x201000 0 ((0x202000 : Nat).toUInt32 ||| (PTE_W ||| PTE_U) ||| PTE_P)
      from rfl, h₁.trans_enter 0 (by decide) htab₁ (by decide) (by decide) (by decide), htr₁,
      show PGROUNDUP 4096 = 4096 by decide]
    have hsame := same_entry_iff (show va < 2 ^ 32 by simp only [KERNBASE] at hva; omega)
      (show (0 : Nat) < 2 ^ 32 by decide)
    rw [show PDX 0 = 0 from rfl, show PTX 0 = 0 from rfl] at hsame
    by_cases hz : PDX va = 0 ∧ PTX va = 0
    · rw [if_pos hz, Option.isSome_some]
      refine iff_of_true rfl ?_
      have := hsame.mp hz
      simp only [PGSIZE] at this
      omega
    · rw [if_neg hz, Option.isSome_none]
      refine iff_of_false Bool.false_ne_true fun hlt => ?_
      exact hz (hsame.mpr (by simp only [PGSIZE]; omega))
  exact growproc_shrink_to_zero (by decide) h₂ hmap (by decide) hK

end Grow

end Xv6.Vm
