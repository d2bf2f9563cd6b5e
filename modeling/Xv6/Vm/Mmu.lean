import Mathlib

/-!
# Physical pages and the two-level page table

`mmu.h`, `memlayout.h`, `kalloc.c` and the page-table walk of `vm.c`. Physical memory is a page
at each page-aligned physical address, read and written as 32-bit words: a page directory and a
page table are arrays of `pde_t` and `pte_t`, and every other access `vm.c` makes to a page
(`memset` and `memmove` of `PGSIZE` bytes) covers the whole page. The kernel reaches physical
memory through its direct map, `P2V(pa) = pa + KERNBASE`; the model names every page by its
physical address, so `P2V` and `V2P` disappear.

`kalloc` takes the page at the head of the free list, and `kfree` fills a page with junk and
pushes it back, stopping with `panic("kfree")` on a page outside `[end, PHYSTOP)`; `kend`, the
physical address of `end`, is a parameter. `walkpgdir` finds the entry for a virtual address,
creating its page table when asked to, and `mappages` enters a run of pages.

`Mach.trans m pgdir va` is what the MMU reads for `va` through the directory at `pgdir`: the
physical page of a present entry and its flags. A walk reads one word of the directory and one
of a page table, so `trans` changes only where those two words change (`trans_congr`).
-/

namespace Xv6.Vm

/-! ## `mmu.h` and `memlayout.h` -/

/-- `PGSIZE`. -/
def PGSIZE : Nat := 4096

/-- `NPDENTRIES`, which is also `NPTENTRIES`. -/
def NPDENTRIES : Nat := 1024

/-- `KERNBASE`. -/
def KERNBASE : Nat := 0x80000000

/-- `PHYSTOP`. -/
def PHYSTOP : Nat := 0xE000000

/-- `PTE_P`. -/
def PTE_P : UInt32 := 0x001

/-- `PTE_W`. -/
def PTE_W : UInt32 := 0x002

/-- `PTE_U`. -/
def PTE_U : UInt32 := 0x004

/-- `PDX(va)`. -/
def PDX (va : Nat) : Nat := ((va.toUInt32 >>> 22) &&& 0x3FF).toNat

/-- `PTX(va)`. -/
def PTX (va : Nat) : Nat := ((va.toUInt32 >>> 12) &&& 0x3FF).toNat

/-- `PGADDR(d, t, o)`. -/
def PGADDR (d t o : Nat) : Nat := (d.toUInt32 <<< 22 ||| t.toUInt32 <<< 12 ||| o.toUInt32).toNat

/-- `PGROUNDUP(sz)`, in `uint`. -/
def PGROUNDUP (sz : Nat) : Nat := ((sz.toUInt32 + 4096 - 1) &&& ~~~(4096 - 1)).toNat

/-- `PGROUNDDOWN(a)`. -/
def PGROUNDDOWN (a : Nat) : Nat := (a.toUInt32 &&& ~~~(4096 - 1)).toNat

/-- `PTE_ADDR(pte)`. -/
def PTE_ADDR (pte : UInt32) : Nat := (pte &&& ~~~0xFFF).toNat

/-- `PTE_FLAGS(pte)`. -/
def PTE_FLAGS (pte : UInt32) : UInt32 := pte &&& 0xFFF

/-! ## The macros as arithmetic -/

theorem toNat_and_not_fff (x : UInt32) : (x &&& ~~~0xFFF).toNat = x.toNat / 4096 * 4096 := by
  have h := x.toNat_lt
  rw [UInt32.toNat_and, UInt32.toNat_not, show x.toNat / 4096 * 4096 = (x.toNat >>> 12) <<< 12 by
    simp [Nat.shiftLeft_eq, Nat.shiftRight_eq_div_pow]]
  apply Nat.eq_of_testBit_eq
  intro i
  rw [Nat.testBit_and, Nat.testBit_shiftLeft, Nat.testBit_shiftRight,
    show UInt32.size - 1 - UInt32.toNat 4095 = 2 ^ 32 - (2 ^ 12 - 1 + 1) from rfl,
    Nat.testBit_two_pow_sub_succ (by norm_num), Nat.testBit_two_pow_sub_one]
  -- the mask keeps bits 12 to 31, and `x` has none above 31
  by_cases hi : i < 32
  · by_cases hi' : i < 12
    · simp [hi, hi']
    · simp only [hi, hi', decide_true, decide_false, Bool.not_false, Bool.and_true, ge_iff_le,
        show 12 ≤ i by omega, Bool.true_and, show 12 + (i - 12) = i by omega]
  · have : x.toNat.testBit i = false :=
      Nat.testBit_eq_false_of_lt (lt_of_lt_of_le h (Nat.pow_le_pow_right (by omega) (by omega)))
    simp [this, hi, show 12 + (i - 12) = i by omega]

theorem toNat_and_fff (x : UInt32) : (x &&& 0xFFF).toNat = x.toNat % 4096 := by
  rw [UInt32.toNat_and]
  exact Nat.and_two_pow_sub_one_eq_mod x.toNat 12

theorem toNat_toUInt32 (n : Nat) : n.toUInt32.toNat = n % 2 ^ 32 := by
  rw [Nat.toUInt32_eq, UInt32.toNat_ofNat']

@[simp] theorem PTE_ADDR_eq (pte : UInt32) : PTE_ADDR pte = pte.toNat / 4096 * 4096 :=
  toNat_and_not_fff pte

theorem PGROUNDUP_eq (sz : Nat) : PGROUNDUP sz = (sz + 4095) % 2 ^ 32 / 4096 * 4096 := by
  rw [PGROUNDUP, show (4096 : UInt32) - 1 = 0xFFF from rfl, toNat_and_not_fff, UInt32.toNat_sub,
    UInt32.toNat_add, toNat_toUInt32]
  simp only [UInt32.reduceToNat]
  omega

theorem PGROUNDUP_of_le {sz : Nat} (h : sz ≤ KERNBASE) : PGROUNDUP sz = (sz + 4095) / 4096 * 4096 := by
  rw [PGROUNDUP_eq, Nat.mod_eq_of_lt (by simp only [KERNBASE] at h; omega)]

theorem lt_two_pow_of_lt_KERNBASE {va : Nat} (h : va < KERNBASE) : va < 2 ^ 32 := by
  simp only [KERNBASE] at h
  omega

theorem PGROUNDUP_aligned (sz : Nat) : PGROUNDUP sz % PGSIZE = 0 := by
  rw [PGROUNDUP_eq]
  exact Nat.mul_mod_left _ _

theorem PGROUNDUP_le {sz : Nat} (h : sz ≤ KERNBASE) : PGROUNDUP sz ≤ KERNBASE := by
  rw [PGROUNDUP_of_le h]
  simp only [KERNBASE] at h ⊢
  omega

/-- The page of `va` starts below `sz` exactly when `va` lies below `PGROUNDUP(sz)`. -/
theorem base_lt_iff {sz : Nat} (h : sz ≤ KERNBASE) (va : Nat) :
    va / PGSIZE * PGSIZE < sz ↔ va < PGROUNDUP sz := by
  rw [PGROUNDUP_of_le h]
  simp only [PGSIZE]
  omega

theorem le_base_iff {sz : Nat} (h : sz ≤ KERNBASE) (va : Nat) :
    PGROUNDUP sz ≤ va / PGSIZE * PGSIZE ↔ PGROUNDUP sz ≤ va := by
  rw [PGROUNDUP_of_le h]
  simp only [PGSIZE]
  omega

theorem PGROUNDDOWN_eq (a : Nat) : PGROUNDDOWN a = a % 2 ^ 32 / 4096 * 4096 := by
  rw [PGROUNDDOWN, show (4096 : UInt32) - 1 = 0xFFF from rfl, toNat_and_not_fff, toNat_toUInt32]

theorem PDX_eq (va : Nat) : PDX va = va % 2 ^ 32 / 2 ^ 22 := by
  rw [PDX, UInt32.toNat_and, UInt32.toNat_shiftRight, toNat_toUInt32,
    show (0x3FF : UInt32).toNat = 2 ^ 10 - 1 from rfl, Nat.and_two_pow_sub_one_eq_mod,
    Nat.shiftRight_eq_div_pow]
  simp only [UInt32.reduceToNat, Nat.reduceMod, Nat.reducePow]
  omega

theorem PTX_eq (va : Nat) : PTX va = va % 2 ^ 32 / 4096 % 1024 := by
  rw [PTX, UInt32.toNat_and, UInt32.toNat_shiftRight, toNat_toUInt32,
    show (0x3FF : UInt32).toNat = 2 ^ 10 - 1 from rfl, Nat.and_two_pow_sub_one_eq_mod,
    Nat.shiftRight_eq_div_pow]
  simp only [UInt32.reduceToNat, Nat.reduceMod, Nat.reducePow]

theorem PGADDR_zero (d : Nat) : PGADDR d 0 0 = d * 2 ^ 22 % 2 ^ 32 := by
  rw [PGADDR, UInt32.toNat_or, UInt32.toNat_or, UInt32.toNat_shiftLeft, UInt32.toNat_shiftLeft]
  simp only [toNat_toUInt32]
  simp only [UInt32.reduceToNat, Nat.reduceMod, Nat.zero_mod, Nat.or_zero, Nat.shiftLeft_eq,
    Nat.zero_mul]
  omega

theorem PDX_lt (va : Nat) : PDX va < NPDENTRIES := by
  rw [PDX_eq, NPDENTRIES]
  omega

theorem PTX_lt (va : Nat) : PTX va < NPDENTRIES := by
  rw [PTX_eq, NPDENTRIES]
  omega

/-- Below `2^32`, two addresses share their directory and table entries exactly when they are in
the same page. -/
theorem same_entry_iff {va a : Nat} (hva : va < 2 ^ 32) (ha : a < 2 ^ 32) :
    PDX va = PDX a ∧ PTX va = PTX a ↔ va / PGSIZE = a / PGSIZE := by
  rw [PDX_eq, PDX_eq, PTX_eq, PTX_eq, Nat.mod_eq_of_lt hva, Nat.mod_eq_of_lt ha, PGSIZE]
  omega

/-- Below `2^32`, an address shares the entries of a page-aligned `a` exactly when its page base is
`a`. -/
theorem same_entry_iff_base {va a : Nat} (hva : va < 2 ^ 32) (ha : a < 2 ^ 32)
    (hal : a % PGSIZE = 0) : PDX va = PDX a ∧ PTX va = PTX a ↔ va / PGSIZE * PGSIZE = a := by
  rw [same_entry_iff hva ha]
  simp only [PGSIZE] at hal ⊢
  omega

/-! ## Entries -/

/-- An entry is a page-aligned address with the flags in its low twelve bits. -/
theorem toNat_entry {pa : Nat} {f : UInt32} (hpa : pa % PGSIZE = 0) (hlt : pa < 2 ^ 32)
    (hf : f.toNat < 4096) : (pa.toUInt32 ||| f).toNat = pa + f.toNat := by
  rw [UInt32.toNat_or, toNat_toUInt32, Nat.mod_eq_of_lt hlt]
  obtain ⟨k, rfl⟩ : ∃ k, pa = 4096 * k := ⟨pa / 4096, by simp [PGSIZE] at hpa; omega⟩
  rw [show 4096 * k = k <<< 12 by simp [Nat.shiftLeft_eq]; ring]
  exact (Nat.shiftLeft_add_eq_or_of_lt hf k).symm

theorem present_iff (x : UInt32) : x &&& PTE_P ≠ 0 ↔ x.toNat % 2 = 1 := by
  rw [ne_eq, ← UInt32.toNat_inj, UInt32.toNat_and, show PTE_P.toNat = 1 from rfl,
    Nat.and_one_is_mod, UInt32.toNat_zero]
  omega

theorem toNat_or_PTE_P {f : UInt32} (hf : f.toNat < 4096) : (f ||| PTE_P).toNat < 4096 := by
  rw [UInt32.toNat_or]
  exact Nat.or_lt_two_pow (n := 12) hf (by decide)

section Entry

variable {pa : Nat} {f : UInt32} (hpa : pa % PGSIZE = 0) (hlt : pa < 2 ^ 32) (hf : f.toNat < 4096)
include hpa hlt hf

theorem PTE_ADDR_entry : PTE_ADDR (pa.toUInt32 ||| f) = pa := by
  rw [PTE_ADDR_eq, toNat_entry hpa hlt hf]
  simp only [PGSIZE] at hpa
  omega

theorem PTE_FLAGS_entry : PTE_FLAGS (pa.toUInt32 ||| f) = f := by
  rw [PTE_FLAGS, ← UInt32.toNat_inj, toNat_and_fff, toNat_entry hpa hlt hf]
  simp only [PGSIZE] at hpa
  omega

theorem present_entry : (pa.toUInt32 ||| f) &&& PTE_P ≠ 0 ↔ f &&& PTE_P ≠ 0 := by
  rw [present_iff, present_iff, toNat_entry hpa hlt hf]
  simp only [PGSIZE] at hpa
  omega

end Entry

theorem PTE_FLAGS_lt (e : UInt32) : (PTE_FLAGS e).toNat < 4096 := by
  rw [PTE_FLAGS, toNat_and_fff]
  omega

/-- The flags of a present entry already hold `PTE_P`. -/
theorem PTE_FLAGS_or_P {e : UInt32} (he : e &&& PTE_P ≠ 0) : PTE_FLAGS e ||| PTE_P = PTE_FLAGS e := by
  rw [present_iff] at he
  rw [PTE_FLAGS, ← UInt32.toNat_inj, UInt32.toNat_or, toNat_and_fff, show PTE_P.toNat = 1 from rfl]
  apply Nat.eq_of_testBit_eq
  intro i
  rw [Nat.testBit_or]
  cases i with
  | zero =>
    simp only [Nat.testBit_zero, Nat.one_mod, decide_true, Bool.or_true, Bool.true_eq,
      decide_eq_true_eq]
    omega
  | succ i => simp [Nat.testBit_succ]

/-- A user address and a kernel address never share a directory entry. -/
theorem PDX_ne_of_lt_KERNBASE {va a : Nat} (hva : va < KERNBASE) (ha : KERNBASE ≤ a)
    (ha' : a < 2 ^ 32) : PDX va ≠ PDX a := by
  rw [PDX_eq, PDX_eq, Nat.mod_eq_of_lt (lt_trans hva (by decide)), Nat.mod_eq_of_lt ha']
  simp only [KERNBASE] at hva ha
  omega

/-! ## Physical memory and `kalloc.c` -/

/-- Physical memory, word `i` of the page at each physical address, and `kmem.freelist`. -/
structure Mach where
  mem : Nat → Nat → UInt32
  freelist : List Nat

/-- One word of a page written: an entry stored through a `pde_t*` or a `pte_t*`. -/
def Mach.write (m : Mach) (pa i : Nat) (w : UInt32) : Mach :=
  { m with mem := fun p j => if p = pa ∧ j = i then w else m.mem p j }

/-- `memset(P2V(pa), c, PGSIZE)`, with `w` the word of four bytes `c`. -/
def Mach.fill (m : Mach) (pa : Nat) (w : UInt32) : Mach :=
  { m with mem := fun p => if p = pa then fun _ => w else m.mem p }

/-- `memmove(P2V(dst), P2V(src), PGSIZE)`. -/
def Mach.copy (m : Mach) (dst src : Nat) : Mach :=
  { m with mem := fun p => if p = dst then m.mem src else m.mem p }

@[simp] theorem Mach.write_mem (m : Mach) (pa i : Nat) (w : UInt32) (p j : Nat) :
    (m.write pa i w).mem p j = if p = pa ∧ j = i then w else m.mem p j := rfl

@[simp] theorem Mach.write_freelist (m : Mach) (pa i : Nat) (w : UInt32) :
    (m.write pa i w).freelist = m.freelist := rfl

@[simp] theorem Mach.fill_mem (m : Mach) (pa : Nat) (w : UInt32) (p : Nat) :
    (m.fill pa w).mem p = if p = pa then fun _ => w else m.mem p := rfl

@[simp] theorem Mach.fill_freelist (m : Mach) (pa : Nat) (w : UInt32) :
    (m.fill pa w).freelist = m.freelist := rfl

@[simp] theorem Mach.copy_mem (m : Mach) (dst src p : Nat) :
    (m.copy dst src).mem p = if p = dst then m.mem src else m.mem p := rfl

@[simp] theorem Mach.copy_freelist (m : Mach) (dst src : Nat) :
    (m.copy dst src).freelist = m.freelist := rfl

/-- `kalloc()`: the page at the head of the free list, `none` for `0`. -/
def kalloc (m : Mach) : Option Nat × Mach :=
  match m.freelist with
  | [] => (none, m)
  | r :: rest => (some r, { m with freelist := rest })

theorem kalloc_nil {m : Mach} (h : m.freelist = []) : kalloc m = (none, m) := by
  rw [kalloc, h]

theorem kalloc_cons {m : Mach} {r : Nat} {rest : List Nat} (h : m.freelist = r :: rest) :
    kalloc m = (some r, { m with freelist := rest }) := by
  rw [kalloc, h]

section Kfree

-- `V2P(end)`, the first physical address after the kernel's image
variable (kend : Nat)

/-- A page `kfree` takes: page aligned, not in the kernel's image, below `PHYSTOP`. -/
def Alloc (pa : Nat) : Prop := pa % PGSIZE = 0 ∧ kend ≤ pa ∧ pa < PHYSTOP

instance (pa : Nat) : Decidable (Alloc kend pa) := inferInstanceAs (Decidable (_ ∧ _ ∧ _))

/-- `kfree(P2V(pa))`. -/
def kfree (m : Mach) (pa : Nat) : Except String Mach :=
  if pa % PGSIZE ≠ 0 ∨ pa < kend ∨ pa ≥ PHYSTOP then .error "kfree"
  else .ok { m.fill pa 0x01010101 with freelist := pa :: m.freelist }

variable {kend}

theorem kfree_of_alloc {pa : Nat} (h : Alloc kend pa) (m : Mach) :
    kfree kend m pa = .ok { m.fill pa 0x01010101 with freelist := pa :: m.freelist } := by
  obtain ⟨h₁, h₂, h₃⟩ := h
  rw [kfree, if_neg (by omega)]

end Kfree

/-! ## What the MMU reads -/

/-- The page table of entry `i` of the directory at `pgdir`, when the entry is present. -/
def Mach.table (m : Mach) (pgdir i : Nat) : Option Nat :=
  if m.mem pgdir i &&& PTE_P ≠ 0 then some (PTE_ADDR (m.mem pgdir i)) else none

/-- The physical page that `va` maps to through the directory at `pgdir`, with the flags of its
entry, when both the directory entry and the page table entry are present. -/
def Mach.trans (m : Mach) (pgdir va : Nat) : Option (Nat × UInt32) :=
  (m.table pgdir (PDX va)).bind fun t =>
    if m.mem t (PTX va) &&& PTE_P ≠ 0 then some (PTE_ADDR (m.mem t (PTX va)), PTE_FLAGS (m.mem t (PTX va)))
    else none

/-- A walk for `va` reads the directory's entry and the page table's entry, nothing else. -/
theorem trans_congr {m m' : Mach} {pgdir va : Nat}
    (hd : m'.mem pgdir (PDX va) = m.mem pgdir (PDX va))
    (ht : ∀ t, m.table pgdir (PDX va) = some t → m'.mem t (PTX va) = m.mem t (PTX va)) :
    m'.trans pgdir va = m.trans pgdir va := by
  have htab : m'.table pgdir (PDX va) = m.table pgdir (PDX va) := by
    rw [Mach.table, Mach.table, hd]
  rw [Mach.trans, Mach.trans, htab]
  cases h : m.table pgdir (PDX va) with
  | none => rfl
  | some t =>
    simp only [Option.bind_some]
    rw [ht t h]

/-! ## `walkpgdir` and `mappages` -/

/-- `walkpgdir(pgdir, va, alloc)`: the page table and the index of `va`'s entry in it (the
pointer `&pgtab[PTX(va)]`), or `none` for `0`. -/
def walkpgdir (m : Mach) (pgdir va : Nat) (alloc : Bool) : Option (Nat × Nat) × Mach :=
  let pde := m.mem pgdir (PDX va)
  if pde &&& PTE_P ≠ 0 then (some (PTE_ADDR pde, PTX va), m)
  else if !alloc then (none, m)
  else
    match kalloc m with
    | (none, m) => (none, m)
    | (some pgtab, m) =>
      -- the new table has no present entry; the directory entry's permissions are generous,
      -- the table's entries restrict them
      let m := m.fill pgtab 0
      (some (pgtab, PTX va), m.write pgdir (PDX va) (pgtab.toUInt32 ||| PTE_P ||| PTE_W ||| PTE_U))

/-- The `for(;;)` loop of `mappages` at `a` and `pa`, with `n` pages left to enter. -/
def mapLoop (pgdir : Nat) (perm : UInt32) : Nat → Nat → Nat → Mach → Except String (Int × Mach)
  | 0, _, _, m => .ok (0, m)
  | n + 1, a, pa, m =>
    match walkpgdir m pgdir a true with
    | (none, m) => .ok (-1, m)
    | (some (t, i), m) =>
      if m.mem t i &&& PTE_P ≠ 0 then .error "remap"
      else
        mapLoop pgdir perm n ((a + PGSIZE) % 2 ^ 32) ((pa + PGSIZE) % 2 ^ 32)
          (m.write t i (pa.toUInt32 ||| perm ||| PTE_P))

/-- `mappages(pgdir, va, size, pa, perm)`: the return value and the machine. The loop runs from
`a` to `last` a page at a time, so `(last - a) / PGSIZE + 1` times in `uint` arithmetic. -/
def mappages (m : Mach) (pgdir va size pa : Nat) (perm : UInt32) : Except String (Int × Mach) :=
  let a := PGROUNDDOWN va
  -- `(uint)va + size - 1`: `PGROUNDDOWN` takes it modulo `2^32`
  let last := PGROUNDDOWN (va + size + 0xFFFFFFFF)
  mapLoop pgdir perm ((last + 2 ^ 32 - a) % 2 ^ 32 / PGSIZE + 1) a pa m

/-- The entry `walkpgdir` writes for a new page table. -/
def tableEntry (t : Nat) : UInt32 := t.toUInt32 ||| PTE_P ||| PTE_W ||| PTE_U

section Walk

variable {m : Mach} {pgdir va : Nat}

theorem table_eq_some {i t : Nat} :
    m.table pgdir i = some t ↔ m.mem pgdir i &&& PTE_P ≠ 0 ∧ PTE_ADDR (m.mem pgdir i) = t := by
  unfold Mach.table
  split <;> simp_all

theorem table_eq_none {i : Nat} : m.table pgdir i = none ↔ m.mem pgdir i &&& PTE_P = 0 := by
  unfold Mach.table
  split <;> simp_all

theorem walkpgdir_of_table {t : Nat} (h : m.table pgdir (PDX va) = some t) (alloc : Bool) :
    walkpgdir m pgdir va alloc = (some (t, PTX va), m) := by
  obtain ⟨hp, rfl⟩ := table_eq_some.mp h
  rw [walkpgdir, if_pos hp]

theorem walkpgdir_lookup (h : m.table pgdir (PDX va) = none) :
    walkpgdir m pgdir va false = (none, m) := by
  rw [walkpgdir, if_neg (not_not.mpr (table_eq_none.mp h))]
  rfl

theorem walkpgdir_nil (h : m.table pgdir (PDX va) = none) (hf : m.freelist = []) :
    walkpgdir m pgdir va true = (none, m) := by
  rw [walkpgdir, if_neg (not_not.mpr (table_eq_none.mp h))]
  simp only [Bool.not_true, Bool.false_eq_true, if_false, kalloc_nil hf]

/-- A missing page table is created from the head of the free list. -/
theorem walkpgdir_cons {t : Nat} {rest : List Nat} (h : m.table pgdir (PDX va) = none)
    (hf : m.freelist = t :: rest) :
    walkpgdir m pgdir va true =
      (some (t, PTX va), ({ m with freelist := rest }.fill t 0).write pgdir (PDX va) (tableEntry t)) := by
  rw [walkpgdir, if_neg (not_not.mpr (table_eq_none.mp h))]
  simp only [Bool.not_true, Bool.false_eq_true, if_false, kalloc_cons hf]
  rfl

end Walk

/-- `mappages` of one page-aligned page runs its loop once. -/
theorem mappages_page {a : Nat} (ha : a % PGSIZE = 0) (hlt : a < 2 ^ 32) (m : Mach)
    (pgdir pa : Nat) (perm : UInt32) :
    mappages m pgdir a PGSIZE pa perm = mapLoop pgdir perm 1 a pa m := by
  have hdown : PGROUNDDOWN a = a := by
    rw [PGROUNDDOWN_eq]
    simp only [PGSIZE] at ha
    omega
  have hlast : PGROUNDDOWN (a + PGSIZE + 0xFFFFFFFF) = a := by
    rw [PGROUNDDOWN_eq]
    simp only [PGSIZE] at ha ⊢
    omega
  simp only [mappages, hdown, hlast]
  congr 1
  simp only [PGSIZE]
  omega

section Enter

variable {m : Mach} {pgdir a pa : Nat} {perm : UInt32}

theorem mapLoop_one_of_table {t : Nat} (h : m.table pgdir (PDX a) = some t) :
    mapLoop pgdir perm 1 a pa m =
      if m.mem t (PTX a) &&& PTE_P ≠ 0 then .error "remap"
      else .ok (0, m.write t (PTX a) (pa.toUInt32 ||| perm ||| PTE_P)) := by
  rw [mapLoop, walkpgdir_of_table h]
  dsimp only
  split <;> rfl

theorem mapLoop_one_nil (h : m.table pgdir (PDX a) = none) (hf : m.freelist = []) :
    mapLoop pgdir perm 1 a pa m = .ok (-1, m) := by
  rw [mapLoop, walkpgdir_nil h hf]

/-- Entering one page into a new page table: the table's entry is not present yet. -/
theorem mapLoop_one_cons {t : Nat} {rest : List Nat} (h : m.table pgdir (PDX a) = none)
    (hf : m.freelist = t :: rest) (ht : t ≠ pgdir) :
    mapLoop pgdir perm 1 a pa m = .ok (0,
      (({ m with freelist := rest }.fill t 0).write pgdir (PDX a) (tableEntry t)).write t (PTX a)
        (pa.toUInt32 ||| perm ||| PTE_P)) := by
  rw [mapLoop, walkpgdir_cons h hf]
  dsimp only
  rw [if_neg (by simp [ht])]
  rfl

theorem mapLoop_succ_of_table {n t : Nat} (h : m.table pgdir (PDX a) = some t) :
    mapLoop pgdir perm (n + 1) a pa m =
      if m.mem t (PTX a) &&& PTE_P ≠ 0 then .error "remap"
      else mapLoop pgdir perm n ((a + PGSIZE) % 2 ^ 32) ((pa + PGSIZE) % 2 ^ 32)
        (m.write t (PTX a) (pa.toUInt32 ||| perm ||| PTE_P)) := by
  rw [mapLoop, walkpgdir_of_table h]

theorem mapLoop_succ_nil {n : Nat} (h : m.table pgdir (PDX a) = none) (hf : m.freelist = []) :
    mapLoop pgdir perm (n + 1) a pa m = .ok (-1, m) := by
  rw [mapLoop, walkpgdir_nil h hf]

/-- A page entered into a new page table, the loop going on at the next page. -/
theorem mapLoop_succ_cons {n t : Nat} {rest : List Nat} (h : m.table pgdir (PDX a) = none)
    (hf : m.freelist = t :: rest) (ht : t ≠ pgdir) :
    mapLoop pgdir perm (n + 1) a pa m =
      mapLoop pgdir perm n ((a + PGSIZE) % 2 ^ 32) ((pa + PGSIZE) % 2 ^ 32)
        ((({ m with freelist := rest }.fill t 0).write pgdir (PDX a) (tableEntry t)).write t (PTX a)
          (pa.toUInt32 ||| perm ||| PTE_P)) := by
  rw [mapLoop, walkpgdir_cons h hf]
  dsimp only
  rw [if_neg (by simp [ht])]

end Enter

/-- `mappages` of `n` whole pages from a page-aligned `va`, ending at `2^32` at the latest, runs
its loop `n` times. -/
theorem mappages_pages {va n : Nat} (ha : va % PGSIZE = 0) (hn : 0 < n)
    (hlt : va + n * PGSIZE ≤ 2 ^ 32) (m : Mach) (pgdir pa : Nat) (perm : UInt32) :
    mappages m pgdir va (n * PGSIZE) pa perm = mapLoop pgdir perm n va pa m := by
  have hdown : PGROUNDDOWN va = va := by
    rw [PGROUNDDOWN_eq]
    simp only [PGSIZE] at ha hlt
    omega
  have hlast : PGROUNDDOWN (va + n * PGSIZE + 0xFFFFFFFF) = va + (n - 1) * PGSIZE := by
    rw [PGROUNDDOWN_eq]
    simp only [PGSIZE] at ha hlt ⊢
    omega
  simp only [mappages, hdown, hlast]
  congr 1
  simp only [PGSIZE] at hlt ⊢
  omega

/-! ## How writes change what the MMU reads -/

/-- What the MMU reads from an entry. -/
def decode (e : UInt32) : Option (Nat × UInt32) :=
  if e &&& PTE_P ≠ 0 then some (PTE_ADDR e, PTE_FLAGS e) else none

theorem present_or_PTE_P (f : UInt32) : (f ||| PTE_P) &&& PTE_P ≠ 0 := by
  rw [present_iff, UInt32.toNat_or, show PTE_P.toNat = 1 from rfl]
  have := Nat.testBit_or f.toNat 1 0
  simp only [Nat.testBit_zero, Nat.one_mod, decide_true, Bool.or_true, decide_eq_true_eq] at this
  exact this

/-- The entry `pa | perm | PTE_P` that `mappages` writes. -/
theorem decode_entry {pa : Nat} {perm : UInt32} (hpa : pa % PGSIZE = 0) (hlt : pa < 2 ^ 32)
    (hperm : perm.toNat < 4096) :
    decode (pa.toUInt32 ||| perm ||| PTE_P) = some (pa, perm ||| PTE_P) := by
  have hf := toNat_or_PTE_P hperm
  rw [decode, UInt32.or_assoc, if_pos ((present_entry hpa hlt hf).mpr (present_or_PTE_P perm)),
    PTE_ADDR_entry hpa hlt hf, PTE_FLAGS_entry hpa hlt hf]

@[simp] theorem decode_zero : decode 0 = none := rfl

theorem decode_eq_some {e : UInt32} {pa : Nat} {f : UInt32} :
    decode e = some (pa, f) ↔ e &&& PTE_P ≠ 0 ∧ PTE_ADDR e = pa ∧ PTE_FLAGS e = f := by
  unfold decode
  split <;> simp_all

theorem table_eq_decode (m : Mach) (pgdir i : Nat) :
    m.table pgdir i = (decode (m.mem pgdir i)).map Prod.fst := by
  unfold Mach.table decode
  split <;> rfl

theorem trans_eq_bind (m : Mach) (pgdir va : Nat) :
    m.trans pgdir va = (m.table pgdir (PDX va)).bind fun t => decode (m.mem t (PTX va)) := rfl

theorem trans_of_same {m : Mach} {pgdir va a : Nat} (h : PDX va = PDX a ∧ PTX va = PTX a) :
    m.trans pgdir va = m.trans pgdir a := by
  rw [trans_eq_bind, trans_eq_bind, h.1, h.2]

/-- A translation read back as the two entries the MMU reads. -/
theorem trans_eq_some {m : Mach} {pgdir va p : Nat} {f : UInt32} :
    m.trans pgdir va = some (p, f) ↔ ∃ t, m.table pgdir (PDX va) = some t ∧
      m.mem t (PTX va) &&& PTE_P ≠ 0 ∧ PTE_ADDR (m.mem t (PTX va)) = p ∧
      PTE_FLAGS (m.mem t (PTX va)) = f := by
  rw [trans_eq_bind, Option.bind_eq_some_iff]
  simp only [decode_eq_some]

/-- A walk reads `va` as the `uint` it is: translations repeat every `2^32`. -/
theorem trans_mod (m : Mach) (pgdir va : Nat) : m.trans pgdir (va % 2 ^ 32) = m.trans pgdir va := by
  have h₁ : PDX (va % 2 ^ 32) = PDX va := by rw [PDX_eq, PDX_eq, Nat.mod_mod]
  have h₂ : PTX (va % 2 ^ 32) = PTX va := by rw [PTX_eq, PTX_eq, Nat.mod_mod]
  exact trans_of_same ⟨h₁, h₂⟩

theorem trans_ext {m m' : Mach} {pgdir pgdir' : Nat}
    (h : ∀ va < 2 ^ 32, m'.trans pgdir' va = m.trans pgdir va) : m'.trans pgdir' = m.trans pgdir := by
  funext va
  rw [← trans_mod m', ← trans_mod m]
  exact h _ (Nat.mod_lt _ (by norm_num))

section Effects

variable {m : Mach} {pgdir : Nat}

/-- A directory's tables are unchanged off the directory page. -/
theorem table_congr {m' : Mach} (h : m'.mem pgdir = m.mem pgdir) (i : Nat) :
    m'.table pgdir i = m.table pgdir i := by
  rw [Mach.table, Mach.table, h]

/-- Filling a page that no walk through `pgdir` reads leaves every translation. -/
theorem trans_fill {p : Nat} (hd : p ≠ pgdir) (ht : ∀ i < NPDENTRIES, m.table pgdir i ≠ some p)
    (w : UInt32) (va : Nat) : (m.fill p w).trans pgdir va = m.trans pgdir va := by
  apply trans_congr
  · simp [Ne.symm hd]
  · intro t htab
    have : t ≠ p := fun h => ht _ (PDX_lt va) (h ▸ htab)
    simp [this]

/-- Copying into a page that no walk through `pgdir` reads leaves every translation. -/
theorem trans_copy {p : Nat} (hd : p ≠ pgdir) (ht : ∀ i < NPDENTRIES, m.table pgdir i ≠ some p)
    (src : Nat) (va : Nat) : (m.copy p src).trans pgdir va = m.trans pgdir va := by
  apply trans_congr
  · simp [Ne.symm hd]
  · intro t htab
    have : t ≠ p := fun h => ht _ (PDX_lt va) (h ▸ htab)
    simp [this]

/-- Writing entry `j` of the table of directory entry `i` changes the translation of the one page
that entry maps. -/
theorem trans_write_table {i t j : Nat} (htab : m.table pgdir i = some t) (hne : t ≠ pgdir)
    (hinj : ∀ i' < NPDENTRIES, m.table pgdir i' = some t → i' = i) (w : UInt32) (va : Nat) :
    (m.write t j w).trans pgdir va =
      if PDX va = i ∧ PTX va = j then decode w else m.trans pgdir va := by
  have hdir : (m.write t j w).mem pgdir = m.mem pgdir := by
    funext k
    simp [Ne.symm hne]
  rw [trans_eq_bind, trans_eq_bind, table_congr hdir]
  by_cases hi : PDX va = i
  · subst hi
    rw [htab]
    by_cases hj : PTX va = j <;> simp [hj]
  · rw [if_neg (fun h => hi h.1)]
    cases h' : m.table pgdir (PDX va) with
    | none => rfl
    | some t' =>
      have : t' ≠ t := fun h => hi (hinj _ (PDX_lt va) (h ▸ h'))
      simp [this]

theorem table_tableEntry {t : Nat} (ht : t % PGSIZE = 0) (hlt : t < 2 ^ 32) :
    decode (tableEntry t) = some (t, PTE_P ||| PTE_W ||| PTE_U) := by
  have hf : (PTE_P ||| PTE_W ||| PTE_U).toNat < 4096 := by decide
  rw [decode, tableEntry, UInt32.or_assoc, UInt32.or_assoc,
    ← UInt32.or_assoc PTE_P, if_pos ((present_entry ht hlt hf).mpr (by decide)),
    PTE_ADDR_entry ht hlt hf, PTE_FLAGS_entry ht hlt hf]

/-- A new, cleared page table for a missing directory entry leaves every translation: the pages
of that entry stay unmapped. -/
theorem trans_install {i t : Nat} (h0 : m.table pgdir i = none) (hne : t ≠ pgdir)
    (hal : t % PGSIZE = 0) (hlt : t < 2 ^ 32) (hfresh : ∀ i' < NPDENTRIES, m.table pgdir i' ≠ some t)
    (hself : ∀ i' < NPDENTRIES, m.table pgdir i' ≠ some pgdir) (va : Nat) :
    ((m.fill t 0).write pgdir i (tableEntry t)).trans pgdir va = m.trans pgdir va := by
  rw [trans_eq_bind, trans_eq_bind]
  by_cases hi : PDX va = i
  · subst hi
    have hnew : ((m.fill t 0).write pgdir (PDX va) (tableEntry t)).table pgdir (PDX va) = some t := by
      rw [table_eq_decode]
      simp [table_tableEntry hal hlt]
    rw [h0, hnew]
    simp [hne, decode]
  · have hdir : ((m.fill t 0).write pgdir i (tableEntry t)).table pgdir (PDX va) =
        m.table pgdir (PDX va) := by
      simp [Mach.table, hi, Ne.symm hne]
    rw [hdir]
    cases h' : m.table pgdir (PDX va) with
    | none => rfl
    | some t' =>
      have ht' : t' ≠ t := fun h => hfresh _ (PDX_lt va) (h ▸ h')
      have hp' : t' ≠ pgdir := fun h => hself _ (PDX_lt va) (h ▸ h')
      simp [ht', hp']

end Effects

end Xv6.Vm
