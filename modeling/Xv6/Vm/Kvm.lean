import Xv6.Vm.Free

/-!
# The kernel's half of a directory: `setupkvm`

`setupkvm()` takes a page for a new directory, clears it, and enters every range of `kmap[]` with
`mappages`: the I/O space, the kernel's text, its data and the rest of physical memory at
`KERNBASE` and up, and the devices at `DEVSPACE`. If it runs out of page tables on the way it
frees the directory with `freevm` and returns `0`. `data`, the first address of the kernel's data,
comes from the linker script, which puts it on a page boundary (`DataOk`).

A range of `kmap[]` is entered by `mappages`' loop page after page (`Ranged.run`); its pages are
kernel addresses, so the invariant of the directory, which is about the user half, stays whatever
physical page they map (`Uvm.enter_kernel`). `kmapTrans` says what `kmap[]` asks for, and
`setupkvm_spec` that `setupkvm` either builds a directory translating exactly so, from pages off
the free list, or gives every page back.
-/

namespace Xv6.Vm

/-! ## `memlayout.h` and `kmap[]` -/

/-- `EXTMEM`. -/
def EXTMEM : Nat := 0x100000

/-- `DEVSPACE`. -/
def DEVSPACE : Nat := 0xFE000000

/-- `KERNLINK`. -/
def KERNLINK : Nat := KERNBASE + EXTMEM

/-- `struct kmap`. -/
structure Kmap where
  virt : Nat
  phys_start : Nat
  phys_end : Nat
  perm : UInt32

/-- `k->phys_end - k->phys_start`, in `uint`. -/
def Kmap.size (k : Kmap) : Nat := (k.phys_end + 2 ^ 32 - k.phys_start) % 2 ^ 32

/-- `kmap[]`; `V2P(a)` is `a - KERNBASE`. -/
def kmap (data : Nat) : List Kmap :=
  [⟨KERNBASE, 0, EXTMEM, PTE_W⟩, ⟨KERNLINK, KERNLINK - KERNBASE, data - KERNBASE, 0⟩,
    ⟨data, data - KERNBASE, PHYSTOP, PTE_W⟩, ⟨DEVSPACE, DEVSPACE, 0, PTE_W⟩]

section Code

variable (kend data : Nat)

/-- The loop of `setupkvm` over `kmap[]`, with the directory at `pgdir`. -/
def kmapLoop (pgdir : Nat) : List Kmap → Mach → Except String (Nat × Mach)
  | [], m => .ok (pgdir, m)
  | k :: ks, m => do
    let (r, m) ← mappages m pgdir k.virt k.size k.phys_start k.perm
    if r < 0 then do
      let m ← freevm kend m pgdir
      pure (0, m)
    else kmapLoop pgdir ks m

/-- `setupkvm()`: the new directory, `0` on failure, and the machine. -/
def setupkvm (m : Mach) : Except String (Nat × Mach) :=
  match kalloc m with
  | (none, m) => .ok (0, m)
  | (some pgdir, m) =>
    let m := m.fill pgdir 0
    if KERNBASE + PHYSTOP > DEVSPACE then .error "PHYSTOP too high"
    else kmapLoop kend pgdir (kmap data) m

end Code

/-- What `kmap[]` asks an address to translate to: the physical page at the same offset in the
first entry whose range holds it. -/
def kmapTrans : List Kmap → Nat → Option (Nat × UInt32)
  | [], _ => none
  | k :: ks, va =>
    if k.virt ≤ va ∧ va < k.virt + k.size then
      some (k.phys_start + (va / PGSIZE * PGSIZE - k.virt), k.perm ||| PTE_P)
    else kmapTrans ks va

theorem kmapTrans_eq_none {ks : List Kmap} {va : Nat}
    (h : ∀ k ∈ ks, ¬(k.virt ≤ va ∧ va < k.virt + k.size)) : kmapTrans ks va = none := by
  induction ks with
  | nil => rfl
  | cons k ks ih =>
    rw [kmapTrans, if_neg (h k List.mem_cons_self)]
    exact ih fun k' hk' => h k' (List.mem_cons_of_mem k hk')

/-! ## `mappages` over a range of kernel addresses -/

section Ranged

variable {kend : Nat} {m₀ m : Mach} {pgdir a₀ pa₀ : Nat} {perm : UInt32}

/-- `mappages`' loop from `m₀` after the pages of `[a₀, a)`: each mapped to the physical page at the
same offset from `pa₀`, every other translation as before, and page tables only taken. -/
structure Ranged (kend : Nat) (m₀ m : Mach) (pgdir a₀ a pa₀ : Nat) (perm : UInt32) : Prop
    extends Takes kend m₀ m pgdir where
  maps : ∀ va < 2 ^ 32, m.trans pgdir va =
    if a₀ ≤ va ∧ va < a then some (pa₀ + (va / PGSIZE * PGSIZE - a₀), perm ||| PTE_P)
    else m₀.trans pgdir va

theorem Ranged.refl (h : Uvm kend m pgdir) (a : Nat) : Ranged kend m m pgdir a a pa₀ perm :=
  { toTakes := Takes.refl h, maps := fun va _ => by rw [if_neg (by omega)] }

/-- One run of the loop at the page `a` of the range, which `m₀` left unmapped: out of page
tables, or the page entered. -/
theorem Ranged.step {a : Nat} (h : Ranged kend m₀ m pgdir a₀ a pa₀ perm) (hal : a % PGSIZE = 0)
    (hK : KERNBASE ≤ a) (hlt : a + PGSIZE ≤ 2 ^ 32) (hlo : a₀ ≤ a) (hal₀ : a₀ % PGSIZE = 0)
    (hnone : m₀.trans pgdir a = none) (hpa : pa₀ % PGSIZE = 0)
    (hplt : pa₀ + (a - a₀) + PGSIZE ≤ 2 ^ 32) (hperm : perm.toNat < 4096) (n : Nat) :
    (m.freelist = [] ∧ mapLoop pgdir perm (n + 1) a (pa₀ + (a - a₀)) m = .ok (-1, m)) ∨
    ∃ m₁, mapLoop pgdir perm (n + 1) a (pa₀ + (a - a₀)) m =
        mapLoop pgdir perm n ((a + PGSIZE) % 2 ^ 32) ((pa₀ + (a - a₀) + PGSIZE) % 2 ^ 32) m₁ ∧
      Ranged kend m₀ m₁ pgdir a₀ (a + PGSIZE) pa₀ perm := by
  have ha32 : a < 2 ^ 32 := by
    simp only [PGSIZE] at hlt
    omega
  have hm : m.trans pgdir a = none := by
    rw [h.maps a ha32, if_neg (by omega), hnone]
  rcases h.uvm.walkpgdir_alloc a with ⟨hf, hw⟩ | ⟨t, m₁, hw, hT, htab, htr⟩
  · exact .inl ⟨hf, by rw [mapLoop, hw]⟩
  · have hnp : m₁.mem t (PTX a) &&& PTE_P = 0 := by
      have hm₁ : m₁.trans pgdir a = none := htr ▸ hm
      rw [trans_of_table htab, decode] at hm₁
      by_contra hp
      rw [if_pos hp] at hm₁
      cases hm₁
    have hpal : (pa₀ + (a - a₀)) % PGSIZE = 0 := by
      simp only [PGSIZE] at hpa hal hal₀ ⊢
      omega
    have hplt' : pa₀ + (a - a₀) < 2 ^ 32 := by
      simp only [PGSIZE] at hplt
      omega
    obtain ⟨hT₂, htr₂⟩ := hT.uvm.enter_kernel hK ha32 htab hpal hplt' hperm
    refine .inr ⟨_, by rw [mapLoop, hw]; dsimp only; rw [if_neg (not_not.mpr hnp)], ?_⟩
    refine { toTakes := (h.toTakes.then hT).then hT₂, maps := fun va hva => ?_ }
    rw [htr₂, htr, h.maps va hva]
    -- `va` shares `a`'s entry exactly when its page is `a`'s
    by_cases hb : va / PGSIZE * PGSIZE = a
    · have hin : a₀ ≤ va ∧ va < a + PGSIZE := by
        simp only [PGSIZE] at hb ⊢
        omega
      rw [if_pos ((same_entry_iff_base hva ha32 hal).mpr hb), if_pos hin, hb]
    · have hiff : (a₀ ≤ va ∧ va < a) ↔ (a₀ ≤ va ∧ va < a + PGSIZE) := by
        simp only [PGSIZE] at hb hal ⊢
        omega
      rw [if_neg fun e => hb ((same_entry_iff_base hva ha32 hal).mp e)]
      exact if_congr hiff rfl rfl

/-- **The loop over a range.** From the state after `[a₀, a)`, with `n` pages left that `m₀`
leaves unmapped, the loop enters all of them and returns `0`, or runs out of page tables after
part of them and returns `-1`. -/
theorem Ranged.run (hal₀ : a₀ % PGSIZE = 0) (hpa : pa₀ % PGSIZE = 0) (hperm : perm.toNat < 4096) :
    ∀ (n a : Nat) (m : Mach), Ranged kend m₀ m pgdir a₀ a pa₀ perm → a % PGSIZE = 0 →
      KERNBASE ≤ a → a₀ ≤ a → a + n * PGSIZE ≤ 2 ^ 32 → pa₀ + (a - a₀) + n * PGSIZE ≤ 2 ^ 32 →
      (∀ va, a ≤ va → va < a + n * PGSIZE → m₀.trans pgdir va = none) →
      ∃ r m', mapLoop pgdir perm n a (pa₀ + (a - a₀)) m = .ok (r, m') ∧
        ((r = 0 ∧ Ranged kend m₀ m' pgdir a₀ (a + n * PGSIZE) pa₀ perm) ∨
         (r = -1 ∧ ∃ a', Ranged kend m₀ m' pgdir a₀ a' pa₀ perm))
  | 0, a, m, h, _, _, _, _, _, _ => ⟨0, m, rfl, .inl ⟨rfl, by simpa using h⟩⟩
  | n + 1, a, m, h, hal, hK, hlo, hlt, hplt, hnone => by
    have hlt₁ : a + PGSIZE ≤ 2 ^ 32 := by
      simp only [PGSIZE] at hlt ⊢
      omega
    have hplt₁ : pa₀ + (a - a₀) + PGSIZE ≤ 2 ^ 32 := by
      simp only [PGSIZE] at hplt ⊢
      omega
    have hnone₁ : m₀.trans pgdir a = none := hnone a le_rfl (by simp only [PGSIZE]; omega)
    rcases h.step hal hK hlt₁ hlo hal₀ hnone₁ hpa hplt₁ hperm n with ⟨-, hrun⟩ | ⟨m₁, hrun, h₁⟩
    · exact ⟨-1, m, hrun, .inr ⟨rfl, a, h⟩⟩
    · cases n with
      | zero => exact ⟨0, m₁, by rw [hrun]; rfl, .inl ⟨rfl, by simpa using h₁⟩⟩
      | succ n =>
        -- the loop goes on at the next page, below `2^32`
        have hnext : (a + PGSIZE) % 2 ^ 32 = a + PGSIZE := by
          simp only [PGSIZE] at hlt ⊢
          omega
        have hpnext : (pa₀ + (a - a₀) + PGSIZE) % 2 ^ 32 = pa₀ + (a + PGSIZE - a₀) := by
          simp only [PGSIZE] at hplt ⊢
          omega
        obtain ⟨r, m', hrun', hres⟩ := Ranged.run hal₀ hpa hperm (n + 1) (a + PGSIZE) m₁ h₁
          (by simp only [PGSIZE] at hal ⊢; omega) (by omega) (by omega)
          (by simp only [PGSIZE] at hlt ⊢; omega) (by simp only [PGSIZE] at hplt ⊢; omega)
          (fun va h₁ h₂ => hnone va (by omega) (by simp only [PGSIZE] at h₂ ⊢; omega))
        refine ⟨r, m', by rw [hrun, hnext, hpnext]; exact hrun', ?_⟩
        have hend : a + PGSIZE + (n + 1) * PGSIZE = a + (n + 1 + 1) * PGSIZE := by ring
        rw [hend] at hres
        exact hres

/-- The range lies in the kernel's half: user addresses translate as before. -/
theorem Ranged.user {a : Nat} (h : Ranged kend m₀ m pgdir a₀ a pa₀ perm) (hK : KERNBASE ≤ a₀) :
    ∀ va < KERNBASE, m.trans pgdir va = m₀.trans pgdir va := fun va hva => by
  rw [h.maps va (lt_two_pow_of_lt_KERNBASE hva), if_neg (by omega)]

end Ranged

/-! ## The entries of `kmap[]` -/

/-- An entry `setupkvm` can enter: whole pages of kernel addresses, to physical pages below
`2^32`. -/
structure Kmap.Ok (k : Kmap) : Prop where
  virt_al : k.virt % PGSIZE = 0
  virt_ge : KERNBASE ≤ k.virt
  size_al : k.size % PGSIZE = 0
  size_pos : 0 < k.size
  virt_le : k.virt + k.size ≤ 2 ^ 32
  phys_al : k.phys_start % PGSIZE = 0
  phys_le : k.phys_start + k.size ≤ 2 ^ 32
  perm_lt : k.perm.toNat < 4096

/-- Two entries whose ranges do not meet. -/
def Kmap.Apart (k k' : Kmap) : Prop := k.virt + k.size ≤ k'.virt ∨ k'.virt + k'.size ≤ k.virt

/-- What `kernel.ld` gives of `data`: a page boundary above the kernel's text, below
`P2V(PHYSTOP)`. -/
structure DataOk (data : Nat) : Prop where
  aligned : data % PGSIZE = 0
  above : KERNLINK < data
  below : data < KERNBASE + PHYSTOP

section Kmaps

variable {data : Nat}

theorem kmap_ok (h : DataOk data) : ∀ k ∈ kmap data, k.Ok := by
  obtain ⟨hal, hab, hbe⟩ := h
  simp only [KERNLINK, EXTMEM, KERNBASE, PHYSTOP, PGSIZE] at hal hab hbe
  simp only [kmap, List.mem_cons, List.not_mem_nil, or_false, forall_eq_or_imp, forall_eq]
  -- the four entries, each field a fact of arithmetic about `data`
  refine ⟨⟨?_, ?_, ?_, ?_, ?_, ?_, ?_, by dsimp only; decide⟩,
    ⟨?_, ?_, ?_, ?_, ?_, ?_, ?_, by dsimp only; decide⟩,
    ⟨?_, ?_, ?_, ?_, ?_, ?_, ?_, by dsimp only; decide⟩,
    ⟨?_, ?_, ?_, ?_, ?_, ?_, ?_, by dsimp only; decide⟩⟩ <;>
  simp only [Kmap.size, KERNLINK, EXTMEM, KERNBASE, PHYSTOP, DEVSPACE, PGSIZE] <;> omega

theorem kmap_apart (h : DataOk data) : (kmap data).Pairwise Kmap.Apart := by
  obtain ⟨hal, hab, hbe⟩ := h
  simp only [KERNLINK, EXTMEM, KERNBASE, PHYSTOP, PGSIZE] at hal hab hbe
  simp only [kmap, List.pairwise_cons, List.mem_cons, List.not_mem_nil, or_false,
    forall_eq_or_imp, forall_eq, List.Pairwise.nil, Kmap.Apart, Kmap.size, KERNLINK, EXTMEM,
    KERNBASE, PHYSTOP, DEVSPACE, false_implies, implies_true, and_true]
  omega

end Kmaps

/-! ## `setupkvm` -/

section Setup

variable {kend : Nat} {m : Mach} {pgdir : Nat}

/-- `mappages` of an entry of `kmap[]` whose range is unmapped: `0` with its pages entered, or `-1`
after part of them; page tables only taken, and every user address as before. -/
theorem Kmap.Ok.enter {k : Kmap} (hk : k.Ok) (h : Uvm kend m pgdir)
    (hnone : ∀ va, k.virt ≤ va → va < k.virt + k.size → m.trans pgdir va = none) :
    ∃ r m', mappages m pgdir k.virt k.size k.phys_start k.perm = .ok (r, m') ∧
      Takes kend m m' pgdir ∧ (∀ va < KERNBASE, m'.trans pgdir va = m.trans pgdir va) ∧
      (r = -1 ∨ r = 0 ∧ ∀ va < 2 ^ 32, m'.trans pgdir va =
        if k.virt ≤ va ∧ va < k.virt + k.size then
          some (k.phys_start + (va / PGSIZE * PGSIZE - k.virt), k.perm ||| PTE_P)
        else m.trans pgdir va) := by
  -- the entry is `n` whole pages
  set n := k.size / PGSIZE
  have hsz : n * PGSIZE = k.size := Nat.div_mul_cancel (Nat.dvd_of_mod_eq_zero hk.size_al)
  have hn : 0 < n := by
    have := hk.size_pos
    have := hk.size_al
    simp only [n, PGSIZE] at *
    omega
  have hmp : mappages m pgdir k.virt k.size k.phys_start k.perm =
      mapLoop pgdir k.perm n k.virt k.phys_start m := by
    rw [← hsz]
    exact mappages_pages hk.virt_al hn (hsz ▸ hk.virt_le) m pgdir k.phys_start k.perm
  have hpl : k.phys_start + (k.virt - k.virt) + n * PGSIZE ≤ 2 ^ 32 := by
    rw [Nat.sub_self, Nat.add_zero, hsz]
    exact hk.phys_le
  obtain ⟨r, m', hrun, hres⟩ := Ranged.run hk.virt_al hk.phys_al hk.perm_lt n k.virt m
    (Ranged.refl h k.virt) hk.virt_al hk.virt_ge le_rfl (hsz ▸ hk.virt_le) hpl
    fun va h₁ h₂ => hnone va h₁ (hsz ▸ h₂)
  rw [Nat.sub_self, Nat.add_zero] at hrun
  rw [hmp]
  rcases hres with ⟨rfl, hR⟩ | ⟨rfl, a', hR⟩
  · exact ⟨0, m', hrun, hR.toTakes, hR.user hk.virt_ge, .inr ⟨rfl, hsz ▸ hR.maps⟩⟩
  · exact ⟨-1, m', hrun, hR.toTakes, hR.user hk.virt_ge, .inl rfl⟩

/-- **The loop over `kmap[]`.** From a well-formed directory that maps none of the entries' ranges,
the loop enters every entry and returns the directory, with page tables only taken; or it runs out
of page tables, frees the directory and returns `0`. -/
theorem kmapLoop_spec (hk : 0 < kend) : ∀ (ks : List Kmap) (m : Mach), Uvm kend m pgdir →
    (∀ k ∈ ks, k.Ok) → ks.Pairwise Kmap.Apart →
    (∀ k ∈ ks, ∀ va, k.virt ≤ va → va < k.virt + k.size → m.trans pgdir va = none) →
    ∃ r m', kmapLoop kend pgdir ks m = .ok (r, m') ∧
      ((r = pgdir ∧ Takes kend m m' pgdir ∧
          ∀ va < 2 ^ 32, m'.trans pgdir va = (kmapTrans ks va).or (m.trans pgdir va)) ∨
       (r = 0 ∧ Undone m m' pgdir))
  | [], m, h, _, _, _ => ⟨pgdir, m, rfl, .inl ⟨rfl, Takes.refl h, fun va _ => by simp [kmapTrans]⟩⟩
  | k :: ks, m, h, hok, hap, hnone => by
    obtain ⟨r, m₁, hmp, hT, huser, hres⟩ :=
      (hok k List.mem_cons_self).enter h (hnone k List.mem_cons_self)
    rcases hres with rfl | ⟨rfl, hmaps⟩
    · -- out of page tables: the directory and the tables taken go back
      obtain ⟨m', hfree, hU⟩ := (hT.grows huser).freevm hk
      refine ⟨0, m', ?_, .inr ⟨rfl, hU⟩⟩
      rw [kmapLoop, hmp, CLoop.ok_bind]
      dsimp only
      rw [if_pos (by decide), hfree, CLoop.ok_bind]
      rfl
    · obtain ⟨hap₁, hap₂⟩ := List.pairwise_cons.mp hap
      -- the other entries' ranges are apart from `k`'s, so still unmapped
      have hnone₁ : ∀ k' ∈ ks, ∀ va, k'.virt ≤ va → va < k'.virt + k'.size →
          m₁.trans pgdir va = none := by
        intro k' hk' va h₁ h₂
        have hva : va < 2 ^ 32 := by
          have := (hok k' (List.mem_cons_of_mem k hk')).virt_le
          omega
        have hout : ¬(k.virt ≤ va ∧ va < k.virt + k.size) := by
          have := hap₁ k' hk'
          unfold Kmap.Apart at this
          omega
        rw [hmaps va hva, if_neg hout]
        exact hnone k' (List.mem_cons_of_mem k hk') va h₁ h₂
      obtain ⟨r', m', hrun, hres⟩ := kmapLoop_spec hk ks m₁ hT.uvm
        (fun k' hk' => hok k' (List.mem_cons_of_mem k hk')) hap₂ hnone₁
      refine ⟨r', m', ?_, ?_⟩
      · rw [kmapLoop, hmp, CLoop.ok_bind]
        dsimp only
        rw [if_neg (by decide), hrun]
      · rcases hres with ⟨rfl, hT', htr'⟩ | ⟨rfl, hU'⟩
        · refine .inl ⟨rfl, hT.then hT', fun va hva => ?_⟩
          rw [htr' va hva, hmaps va hva, kmapTrans]
          split_ifs with hin
          · have hrest : kmapTrans ks va = none := kmapTrans_eq_none fun k' hk' hin' => by
              have := hap₁ k' hk'
              unfold Kmap.Apart at this
              omega
            rw [hrest]
            rfl
          · rfl
        · exact .inr ⟨rfl, (hT.grows huser).undone hU'⟩

/-- `kmap[]` maps nothing below `KERNBASE`. -/
theorem kmapTrans_user {data : Nat} (hdata : DataOk data) {va : Nat} (hva : va < KERNBASE) :
    kmapTrans (kmap data) va = none :=
  kmapTrans_eq_none fun k hk hin => by
    have := (kmap_ok hdata k hk).virt_ge
    have := hin.1
    omega

/-- What a successful `setupkvm` leaves, from `m`: a directory `d` taken off the free list, well
formed and translating every address as `kmap[]` asks, its pages exactly those taken off the free
list, and no other page changed. -/
structure Built (kend data : Nat) (m m' : Mach) (d : Nat) : Prop where
  fresh : d ∈ m.freelist
  uvm : Uvm kend m' d
  trans : ∀ va < 2 ^ 32, m'.trans d va = kmapTrans (kmap data) va
  suffix : m'.freelist <:+ m.freelist
  walked : ∀ q, Walked m' d q ↔ q ∈ m.freelist ∧ q ∉ m'.freelist
  frame : ∀ q, q ∉ m.freelist → m'.mem q = m.mem q

/-- From `m`, the same pages free, in some order, and no page changed that was not free. -/
structure Restored (m m' : Mach) : Prop where
  perm : m'.freelist.Perm m.freelist
  frame : ∀ q, q ∉ m.freelist → m'.mem q = m.mem q

/-- Undoing a directory that maps no user page, and whose pages and free pages are the pages free
at `m`, restores `m`. -/
theorem Undone.restored {m m₁ m' : Mach} {d : Nat} (hU : Undone m₁ m' d) (hnd : m.freelist.Nodup)
    (hfree : ∀ q, q ∈ m₁.freelist ∨ Walked m₁ d q ↔ q ∈ m.freelist)
    (hnouser : ∀ q, ¬UserPage m₁ d q) (hframe : ∀ q, q ∉ m.freelist → m₁.mem q = m.mem q) :
    Restored m m' := by
  refine ⟨(List.perm_ext_iff_of_nodup hU.nodup hnd).mpr fun q => ?_, fun q hq => ?_⟩
  · rw [hU.free, ← hfree q]
    have := hnouser q
    tauto
  · have h₁ : ¬(q ∈ m₁.freelist ∨ Walked m₁ d q) := fun h => hq ((hfree q).mp h)
    rw [hU.frame q (fun h => h₁ (.inl h)) (hnouser q) (fun h => h₁ (.inr h)), hframe q hq]

/-- A built directory maps no user address. -/
theorem Built.trans_user {data : Nat} {m m' : Mach} {d : Nat} (hB : Built kend data m m' d)
    (hdata : DataOk data) {va : Nat} (hva : va < KERNBASE) : m'.trans d va = none :=
  (hB.trans va (lt_two_pow_of_lt_KERNBASE hva)).trans (kmapTrans_user hdata hva)

/-- Undoing a built directory restores what `setupkvm` started from. -/
theorem Built.restored {data : Nat} {m m₁ m' : Mach} {d : Nat} (hB : Built kend data m m₁ d)
    (hdata : DataOk data) (hnd : m.freelist.Nodup) (hU : Undone m₁ m' d) : Restored m m' := by
  refine hU.restored hnd (fun q => ?_) (not_userPage fun va hva => hB.trans_user hdata hva) hB.frame
  rw [hB.walked]
  by_cases hq : q ∈ m₁.freelist
  · have := hB.suffix.subset hq
    tauto
  · tauto

/-- A process's directory through a run that restores the machine. -/
theorem Uvm.restored {m m' : Mach} (h : Uvm kend m pgdir) (hR : Restored m m') :
    Uvm kend m' pgdir ∧ m'.table pgdir = m.table pgdir ∧ m'.trans pgdir = m.trans pgdir ∧
      ∀ p, UserPage m pgdir p → m'.mem p = m.mem p :=
  h.keep_free (hR.perm.nodup_iff.mpr h.nodup) (fun _ hq => hR.perm.subset hq) hR.frame

/-- `setupkvm` builds the kernel's half or restores the machine. -/
theorem setupkvm_ok {data : Nat} (hk : 0 < kend) (hdata : DataOk data) (hnd : m.freelist.Nodup)
    (hfa : ∀ p ∈ m.freelist, Alloc kend p) :
    ∃ d m', setupkvm kend data m = .ok (d, m') ∧
      ((d ≠ 0 ∧ Built kend data m m' d) ∨ (d = 0 ∧ Restored m m')) := by
  cases hf : m.freelist with
  | nil =>
    refine ⟨0, m, by rw [setupkvm, kalloc_nil hf], .inr ⟨rfl, by rw [hf], fun _ _ => rfl⟩⟩
  | cons d rest =>
    have hd : Alloc kend d := hfa d (hf ▸ List.mem_cons_self)
    obtain ⟨hdr, hrest⟩ := List.nodup_cons.mp (hf ▸ hnd)
    -- the cleared directory, off the free list
    set m₁ : Mach := { m with freelist := rest }.fill d 0
    have hz : ∀ i, m₁.mem d i = 0 := fun i => by simp [m₁]
    have hmem₁ : ∀ q, q ∉ m.freelist → m₁.mem q = m.mem q := fun q hq => by
      have hqd : q ≠ d := fun e => hq (by rw [hf, e]; exact List.mem_cons_self)
      simp [m₁, hqd]
    have h₁ : Uvm kend m₁ d :=
      Uvm.blank hz hd hrest (fun p hp => hfa p (hf ▸ List.mem_cons_of_mem d hp)) hdr
    have hsetup : setupkvm kend data m = kmapLoop kend d (kmap data) m₁ := by
      rw [setupkvm, kalloc_cons hf]
      dsimp only
      rw [if_neg (by decide)]
    obtain ⟨r, m', hrun, hres⟩ := kmapLoop_spec hk (kmap data) m₁ h₁ (kmap_ok hdata)
      (kmap_apart hdata) fun _ _ va _ _ => trans_blank hz va
    refine ⟨r, m', hsetup.trans hrun, ?_⟩
    rcases hres with ⟨hr, hT, htr⟩ | ⟨rfl, hU⟩
    · subst r
      have hsub : m'.freelist <:+ rest := hT.suffix
      refine .inl ⟨fun e => by have := hd.2.1; omega, ⟨by rw [hf]; exact List.mem_cons_self, hT.uvm,
        fun va hva => by rw [htr va hva, trans_blank hz, Option.or_none],
        by rw [hf]; exact hsub.trans (List.suffix_cons d rest), fun q => ?_, fun q hq => ?_⟩⟩
      · rw [hT.walked, walked_blank hz, hf, List.mem_cons]
        constructor
        · rintro (rfl | ⟨hq, hq'⟩)
          · exact ⟨.inl rfl, fun h => hdr (hsub.subset h)⟩
          · exact ⟨.inr hq, hq'⟩
        · rintro ⟨rfl | hq, hq'⟩
          · exact .inl rfl
          · exact .inr ⟨hq, hq'⟩
      · have hqd : q ≠ d := fun e => hq (by rw [hf, e]; exact List.mem_cons_self)
        rw [hT.frame q (fun h => hq (hf ▸ List.mem_cons_of_mem d h))
          (fun h => hqd ((walked_blank hz q).mp h)), hmem₁ q hq]
    · refine .inr ⟨rfl, hU.restored hnd (fun q => ?_) (not_userPage fun va _ => trans_blank hz va)
        hmem₁⟩
      rw [walked_blank hz, hf, List.mem_cons]
      exact or_comm

/-- **`setupkvm` builds the kernel's half or gives everything back.** From a free list of distinct
pages `kfree` takes, with `data` where `kernel.ld` puts it, `setupkvm` either returns a page `d`
off the free list with a well-formed directory at `d` that translates every address exactly as
`kmap[]` asks, having taken its directory and page tables off the free list and changed no other
page; or it returns `0` with the same pages free, in some order, and no page changed that was not
free. -/
theorem setupkvm_spec {data : Nat} (hk : 0 < kend) (hdata : DataOk data) (hnd : m.freelist.Nodup)
    (hfa : ∀ p ∈ m.freelist, Alloc kend p) :
    ∃ d m', setupkvm kend data m = .ok (d, m') ∧
      ((d ≠ 0 ∧ d ∈ m.freelist ∧ Uvm kend m' d ∧
          (∀ va < 2 ^ 32, m'.trans d va = kmapTrans (kmap data) va) ∧ m'.freelist <:+ m.freelist ∧
          (∀ q, Walked m' d q ↔ q ∈ m.freelist ∧ q ∉ m'.freelist) ∧
          ∀ q, q ∉ m.freelist → m'.mem q = m.mem q) ∨
       (d = 0 ∧ m'.freelist.Perm m.freelist ∧ ∀ q, q ∉ m.freelist → m'.mem q = m.mem q)) := by
  obtain ⟨d, m', hrun, hres⟩ := setupkvm_ok hk hdata hnd hfa
  refine ⟨d, m', hrun, ?_⟩
  rcases hres with ⟨hd, hB⟩ | ⟨hd, hR⟩
  · exact .inl ⟨hd, hB.fresh, hB.uvm, hB.trans, hB.suffix, hB.walked, hB.frame⟩
  · exact .inr ⟨hd, hR.perm, hR.frame⟩

/-- `data` as the kernel's symbol table has it. -/
theorem dataOk_kernel : DataOk 0x80108000 := ⟨by decide, by decide, by decide⟩

theorem setupkvm_spec_empty :
    ∃ d m', setupkvm 0x100000 0x80108000 emptyProc = .ok (d, m') ∧
      ((d ≠ 0 ∧ d ∈ emptyProc.freelist ∧ Uvm 0x100000 m' d ∧
          (∀ va < 2 ^ 32, m'.trans d va = kmapTrans (kmap 0x80108000) va) ∧
          m'.freelist <:+ emptyProc.freelist ∧
          (∀ q, Walked m' d q ↔ q ∈ emptyProc.freelist ∧ q ∉ m'.freelist) ∧
          ∀ q, q ∉ emptyProc.freelist → m'.mem q = emptyProc.mem q) ∨
       (d = 0 ∧ m'.freelist.Perm emptyProc.freelist ∧
          ∀ q, q ∉ emptyProc.freelist → m'.mem q = emptyProc.mem q)) :=
  setupkvm_spec (by decide) dataOk_kernel (by decide) (by decide)

end Setup

end Xv6.Vm
