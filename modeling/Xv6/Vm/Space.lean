import Xv6.Vm.Mmu

/-!
# A process's address space

`Walked m pgdir p`: a walk through the directory at `pgdir` reads the page `p`, which is the
directory itself or the table of one of its present entries. `UserPage m pgdir p`: an address
below `KERNBASE` maps to `p`. `Uvm kend m pgdir` is what `vm.c` keeps true of a process's
directory: every page the directory is made of or maps below `KERNBASE` is one `kfree` takes and
is off the free list; a user page is neither the directory nor a table; no two entries share a
table and no two user pages share a physical page; and the free list holds no page twice.

The invariant is kept by every write to a page the directory does not own (`Uvm.congr`) and by
the four updates of `vm.c`: a page taken off the free list (`Uvm.pop`), a new page table
(`Uvm.install`), a page entered (`Uvm.enter`), and a page freed and its entry cleared
(`Uvm.remove`). Each of the last two changes the translation of exactly one page.
-/

namespace Xv6.Vm

/-- A walk through the directory at `pgdir` reads the page `p`. -/
def Walked (m : Mach) (pgdir p : Nat) : Prop :=
  p = pgdir ∨ ∃ i < NPDENTRIES, m.table pgdir i = some p

/-- An address below `KERNBASE` maps to the page `p`. -/
def UserPage (m : Mach) (pgdir p : Nat) : Prop :=
  ∃ va < KERNBASE, ∃ f, m.trans pgdir va = some (p, f)

/-- The invariant of a process's page directory; `kend` is `V2P(end)`. -/
structure Uvm (kend : Nat) (m : Mach) (pgdir : Nat) : Prop where
  nodup : m.freelist.Nodup
  free_alloc : ∀ p ∈ m.freelist, Alloc kend p
  walked_alloc : ∀ p, Walked m pgdir p → Alloc kend p
  walked_free : ∀ p, Walked m pgdir p → p ∉ m.freelist
  table_ne : ∀ i < NPDENTRIES, m.table pgdir i ≠ some pgdir
  table_inj : ∀ i < NPDENTRIES, ∀ j < NPDENTRIES, ∀ t,
    m.table pgdir i = some t → m.table pgdir j = some t → i = j
  user_alloc : ∀ p, UserPage m pgdir p → Alloc kend p
  user_free : ∀ p, UserPage m pgdir p → p ∉ m.freelist
  user_walked : ∀ p, UserPage m pgdir p → ¬Walked m pgdir p
  user_inj : ∀ va < KERNBASE, ∀ va' < KERNBASE, ∀ p f f',
    m.trans pgdir va = some (p, f) → m.trans pgdir va' = some (p, f') → va / PGSIZE = va' / PGSIZE

theorem Walked.dir (m : Mach) (pgdir : Nat) : Walked m pgdir pgdir := .inl rfl

theorem Walked.table {m : Mach} {pgdir i t : Nat} (hi : i < NPDENTRIES)
    (h : m.table pgdir i = some t) : Walked m pgdir t := .inr ⟨i, hi, h⟩

theorem Alloc.lt {kend p : Nat} (h : Alloc kend p) : p < 2 ^ 32 := by
  have := h.2.2
  simp only [PHYSTOP] at this
  omega

section Frame

variable {m m' : Mach} {pgdir : Nat}

theorem trans_of_agree (hd : m'.mem pgdir = m.mem pgdir)
    (ht : ∀ i < NPDENTRIES, ∀ t, m.table pgdir i = some t → m'.mem t = m.mem t) :
    m'.trans pgdir = m.trans pgdir := by
  funext va
  apply trans_congr
  · rw [hd]
  · intro t h
    rw [ht _ (PDX_lt va) t h]

theorem walked_congr (h : m'.table pgdir = m.table pgdir) : Walked m' pgdir = Walked m pgdir := by
  funext p
  simp only [Walked, h]

theorem userPage_congr (h : m'.trans pgdir = m.trans pgdir) :
    UserPage m' pgdir = UserPage m pgdir := by
  funext p
  simp only [UserPage, h]

/-- The user pages read only the translations of user addresses. -/
theorem userPage_congr_user (h : ∀ va < KERNBASE, m'.trans pgdir va = m.trans pgdir va) :
    UserPage m' pgdir = UserPage m pgdir := by
  funext p
  unfold UserPage
  apply propext
  constructor
  · rintro ⟨va, hva, f, hp⟩
    exact ⟨va, hva, f, h va hva ▸ hp⟩
  · rintro ⟨va, hva, f, hp⟩
    exact ⟨va, hva, f, (h va hva).symm ▸ hp⟩

variable {kend : Nat}

/-- **Frame.** Writes that leave the directory and every translation of a user address leave the
invariant, over any free list of distinct pages `kfree` takes that holds none of the directory's
pages: the kernel's half of the directory does not enter it. -/
theorem Uvm.frame (h : Uvm kend m pgdir) (hnd : m'.freelist.Nodup)
    (hfa : ∀ p ∈ m'.freelist, Alloc kend p)
    (hout : ∀ p, UserPage m pgdir p ∨ Walked m pgdir p → p ∉ m'.freelist)
    (hd : m'.mem pgdir = m.mem pgdir)
    (htr : ∀ va < KERNBASE, m'.trans pgdir va = m.trans pgdir va) : Uvm kend m' pgdir := by
  have htab : m'.table pgdir = m.table pgdir := funext (table_congr hd)
  have hw := walked_congr htab
  have hu := userPage_congr_user htr
  refine { nodup := hnd, free_alloc := hfa, walked_alloc := hw ▸ h.walked_alloc,
           walked_free := fun p hp => hout p (.inr (hw ▸ hp)),
           table_ne := htab ▸ h.table_ne, table_inj := htab ▸ h.table_inj,
           user_alloc := hu ▸ h.user_alloc, user_free := fun p hp => hout p (.inl (hu ▸ hp)),
           user_walked := hu ▸ hw ▸ h.user_walked, user_inj := ?_ }
  intro va hva va' hva' p f f' hp hp'
  rw [htr va hva] at hp
  rw [htr va' hva'] at hp'
  exact h.user_inj va hva va' hva' p f f' hp hp'

/-- Writes that leave the directory and every translation of a user address, with a free list of
distinct pages that were free, leave the invariant. -/
theorem Uvm.congr_free (h : Uvm kend m pgdir) (hnd : m'.freelist.Nodup)
    (hsub : ∀ p ∈ m'.freelist, p ∈ m.freelist) (hd : m'.mem pgdir = m.mem pgdir)
    (htr : ∀ va < KERNBASE, m'.trans pgdir va = m.trans pgdir va) : Uvm kend m' pgdir := by
  refine h.frame hnd (fun p hp => h.free_alloc p (hsub p hp)) (fun p hp hpf => ?_) hd htr
  rcases hp with hp | hp
  · exact h.user_free p hp (hsub p hpf)
  · exact h.walked_free p hp (hsub p hpf)

/-- Writes that leave the directory and every translation of a user address, with pages only taken
off the free list, leave the invariant. -/
theorem Uvm.congr_user (h : Uvm kend m pgdir) (hf : m'.freelist.Sublist m.freelist)
    (hd : m'.mem pgdir = m.mem pgdir)
    (htr : ∀ va < KERNBASE, m'.trans pgdir va = m.trans pgdir va) : Uvm kend m' pgdir :=
  h.congr_free (h.nodup.sublist hf) (fun _ hp => hf.subset hp) hd htr

/-- Writes that leave the directory and its tables, with pages only taken off the free list, leave
the invariant. -/
theorem Uvm.congr (h : Uvm kend m pgdir) (hf : m'.freelist.Sublist m.freelist)
    (hd : m'.mem pgdir = m.mem pgdir)
    (ht : ∀ i < NPDENTRIES, ∀ t, m.table pgdir i = some t → m'.mem t = m.mem t) :
    Uvm kend m' pgdir :=
  h.congr_user hf hd fun va _ => congrFun (trans_of_agree hd ht) va

/-- Writes to one page `p` the directory does not read, with pages only taken off the free list,
leave the invariant and every translation. -/
theorem Uvm.off (h : Uvm kend m pgdir) (hf : m'.freelist.Sublist m.freelist) {p : Nat}
    (hp : ¬Walked m pgdir p) (hmem : ∀ q, q ≠ p → m'.mem q = m.mem q) :
    Uvm kend m' pgdir ∧ m'.trans pgdir = m.trans pgdir := by
  have hd : m'.mem pgdir = m.mem pgdir := hmem _ fun e => hp (e ▸ Walked.dir m pgdir)
  have ht : ∀ i < NPDENTRIES, ∀ t, m.table pgdir i = some t → m'.mem t = m.mem t :=
    fun i hi t hit => hmem t fun e => hp (e ▸ .table hi hit)
  exact ⟨h.congr hf hd ht, trans_of_agree hd ht⟩

/-- A run that changes none of the pages a directory maps or walks, with a free list of distinct
pages that were free, leaves the directory's invariant, its tables and its translations. -/
theorem Uvm.keep (h : Uvm kend m pgdir) (hnd : m'.freelist.Nodup)
    (hsub : ∀ p ∈ m'.freelist, p ∈ m.freelist)
    (hframe : ∀ q, UserPage m pgdir q ∨ Walked m pgdir q → m'.mem q = m.mem q) :
    Uvm kend m' pgdir ∧ m'.table pgdir = m.table pgdir ∧ m'.trans pgdir = m.trans pgdir := by
  have hd : m'.mem pgdir = m.mem pgdir := hframe _ (.inr (Walked.dir m pgdir))
  have htr := trans_of_agree hd fun i hi t hit => hframe t (.inr (.table hi hit))
  exact ⟨h.congr_free hnd hsub hd fun va _ => congrFun htr va, funext (table_congr hd), htr⟩

end Frame

section Updates

variable {kend : Nat} {m : Mach} {pgdir : Nat}

/-- A page taken off the free list. -/
theorem Uvm.pop (h : Uvm kend m pgdir) {r : Nat} {rest : List Nat} (hf : m.freelist = r :: rest) :
    Uvm kend { m with freelist := rest } pgdir :=
  h.congr (hf ▸ List.sublist_cons_self r rest) rfl fun _ _ _ _ => rfl

/-- The head of the free list is a page `kfree` takes that the directory neither reads nor maps. -/
theorem Uvm.head_fresh (h : Uvm kend m pgdir) {r : Nat} {rest : List Nat}
    (hf : m.freelist = r :: rest) :
    Alloc kend r ∧ r ∉ rest ∧ ¬Walked m pgdir r ∧ ¬UserPage m pgdir r := by
  have hr : r ∈ m.freelist := hf ▸ List.mem_cons_self
  exact ⟨h.free_alloc r hr, (List.nodup_cons.mp (hf ▸ h.nodup)).1,
    fun hw => h.walked_free r hw hr, fun hu => h.user_free r hu hr⟩

/-- The head of the free list taken and written: the invariant, every translation and every table
stay. -/
theorem Uvm.take (h : Uvm kend m pgdir) {x : Nat} {rest : List Nat} (hf : m.freelist = x :: rest)
    {m' : Mach} (hf' : m'.freelist = rest) (hmem : ∀ q, q ≠ x → m'.mem q = m.mem q) :
    Uvm kend m' pgdir ∧ m'.trans pgdir = m.trans pgdir ∧ m'.table pgdir = m.table pgdir := by
  obtain ⟨-, -, hxw, -⟩ := h.head_fresh hf
  obtain ⟨hu, htr⟩ := h.off (by rw [hf', hf]; exact List.sublist_cons_self x rest) hxw hmem
  exact ⟨hu, htr, funext (table_congr (hmem _ fun e => hxw (e ▸ Walked.dir m pgdir)))⟩

/-- A page pushed back by `kfree` that the directory neither reads nor maps. -/
theorem Uvm.push (h : Uvm kend m pgdir) {p : Nat} (hp : Alloc kend p) (hpf : p ∉ m.freelist)
    (hpw : ¬Walked m pgdir p) (hpu : ¬UserPage m pgdir p) (w : UInt32) :
    Uvm kend { m.fill p w with freelist := p :: m.freelist } pgdir := by
  set m' := { m.fill p w with freelist := p :: m.freelist }
  have hmem : ∀ q, q ≠ p → m'.mem q = m.mem q := fun q hq => by simp [m', hq]
  have hd : m'.mem pgdir = m.mem pgdir := hmem _ fun e => hpw (e ▸ Walked.dir m pgdir)
  have ht : ∀ i < NPDENTRIES, ∀ t, m.table pgdir i = some t → m'.mem t = m.mem t :=
    fun i hi t hit => hmem t fun e => hpw (e ▸ .table hi hit)
  have htab : m'.table pgdir = m.table pgdir := funext (table_congr hd)
  have htr := trans_of_agree hd ht
  have hw := walked_congr htab
  have hu := userPage_congr htr
  refine { nodup := List.nodup_cons.mpr ⟨hpf, h.nodup⟩, free_alloc := ?_,
           walked_alloc := hw ▸ h.walked_alloc, walked_free := ?_,
           table_ne := htab ▸ h.table_ne, table_inj := htab ▸ h.table_inj,
           user_alloc := hu ▸ h.user_alloc, user_free := ?_,
           user_walked := hu ▸ hw ▸ h.user_walked, user_inj := htr ▸ h.user_inj }
  · intro q hq
    rcases List.mem_cons.mp hq with rfl | hq
    · exact hp
    · exact h.free_alloc q hq
  · intro q hq hqf
    rw [hw] at hq
    rcases List.mem_cons.mp hqf with rfl | hqf
    · exact hpw hq
    · exact h.walked_free q hq hqf
  · intro q hq hqf
    rw [hu] at hq
    rcases List.mem_cons.mp hqf with rfl | hqf
    · exact hpu hq
    · exact h.user_free q hq hqf

/-- The directory's tables after a new page table `t` is entered at `i`. -/
theorem table_install {i t : Nat} (hne : t ≠ pgdir) (hal : t % PGSIZE = 0) (hlt : t < 2 ^ 32)
    (k : Nat) : ((m.fill t 0).write pgdir i (tableEntry t)).table pgdir k =
      if k = i then some t else m.table pgdir k := by
  rw [table_eq_decode]
  by_cases hk : k = i
  · subst hk
    simp [table_tableEntry hal hlt]
  · simp [hk, Ne.symm hne, table_eq_decode]

theorem walked_install {i t : Nat} (hi : i < NPDENTRIES) (h0 : m.table pgdir i = none)
    (hne : t ≠ pgdir) (hal : t % PGSIZE = 0) (hlt : t < 2 ^ 32) (p : Nat) :
    Walked ((m.fill t 0).write pgdir i (tableEntry t)) pgdir p ↔ Walked m pgdir p ∨ p = t := by
  simp only [Walked, table_install hne hal hlt]
  constructor
  · rintro (rfl | ⟨k, hk, hkt⟩)
    · exact .inl (.inl rfl)
    · split at hkt
      · cases hkt; exact .inr rfl
      · exact .inl (.inr ⟨k, hk, hkt⟩)
  · rintro ((rfl | ⟨k, hk, hkt⟩) | rfl)
    · exact .inl rfl
    · have : k ≠ i := fun e => by rw [e, h0] at hkt; cases hkt
      exact .inr ⟨k, hk, by rw [if_neg this]; exact hkt⟩
    · exact .inr ⟨i, hi, by rw [if_pos rfl]⟩

/-- A new page table for the missing entry `i`, taken off the free list. -/
theorem Uvm.install (h : Uvm kend m pgdir) {i t : Nat} (hi : i < NPDENTRIES)
    (h0 : m.table pgdir i = none) (ht : Alloc kend t) (hfree : t ∉ m.freelist)
    (hwalk : ¬Walked m pgdir t) (huser : ¬UserPage m pgdir t) :
    Uvm kend ((m.fill t 0).write pgdir i (tableEntry t)) pgdir := by
  set m' := (m.fill t 0).write pgdir i (tableEntry t)
  have hne : t ≠ pgdir := fun e => hwalk (e ▸ Walked.dir m pgdir)
  have hfresh : ∀ k < NPDENTRIES, m.table pgdir k ≠ some t := fun k hk e => hwalk (.table hk e)
  have htab := table_install (m := m) (i := i) hne ht.1 ht.lt
  have htr : m'.trans pgdir = m.trans pgdir :=
    funext (trans_install h0 hne ht.1 ht.lt hfresh h.table_ne)
  have hw := walked_install hi h0 hne ht.1 ht.lt
  have hu := userPage_congr htr
  refine { nodup := h.nodup, free_alloc := h.free_alloc, walked_alloc := ?_, walked_free := ?_,
           table_ne := ?_, table_inj := ?_, user_alloc := hu ▸ h.user_alloc,
           user_free := hu ▸ h.user_free, user_walked := ?_, user_inj := htr ▸ h.user_inj }
  · intro p hp
    rcases (hw p).mp hp with hp | rfl
    · exact h.walked_alloc p hp
    · exact ht
  · intro p hp
    rcases (hw p).mp hp with hp | rfl
    · exact h.walked_free p hp
    · exact hfree
  · intro k hk
    rw [htab]
    split
    · exact fun e => hne (Option.some.inj e)
    · exact h.table_ne k hk
  · intro k hk l hl u hku hlu
    rw [htab] at hku hlu
    split at hku <;> split at hlu
    · omega
    · cases hku; exact absurd hlu (hfresh l hl)
    · cases hlu; exact absurd hku (hfresh k hk)
    · exact h.table_inj k hk l hl u hku hlu
  · intro p hp hpw
    rw [hu] at hp
    rcases (hw p).mp hpw with hpw | rfl
    · exact h.user_walked p hp hpw
    · exact huser hp

theorem trans_of_table {t va : Nat} (htab : m.table pgdir (PDX va) = some t) :
    m.trans pgdir va = decode (m.mem t (PTX va)) := by
  rw [trans_eq_bind, htab]
  rfl

/-- The translation after a page is entered at entry `j` of the table of directory entry `i`. -/
theorem Uvm.trans_enter (h : Uvm kend m pgdir) {i t : Nat} (j : Nat) {pa : Nat} {perm : UInt32}
    (hi : i < NPDENTRIES) (htab : m.table pgdir i = some t) (hpa : pa % PGSIZE = 0)
    (hlt : pa < 2 ^ 32) (hperm : perm.toNat < 4096) (va : Nat) :
    (m.write t j (pa.toUInt32 ||| perm ||| PTE_P)).trans pgdir va =
      if PDX va = i ∧ PTX va = j then some (pa, perm ||| PTE_P) else m.trans pgdir va := by
  have hne : t ≠ pgdir := fun e => h.table_ne i hi (e ▸ htab)
  rw [trans_write_table htab hne (fun k hk hkt => h.table_inj k hk i hi t hkt htab),
    decode_entry hpa hlt hperm]

/-- A page entered where no page was. -/
theorem Uvm.enter (h : Uvm kend m pgdir) {i t j pa : Nat} {perm : UInt32} (hi : i < NPDENTRIES)
    (htab : m.table pgdir i = some t) (hnp : m.mem t j &&& PTE_P = 0) (hpa : Alloc kend pa)
    (hfree : pa ∉ m.freelist) (hwalk : ¬Walked m pgdir pa) (huser : ¬UserPage m pgdir pa)
    (hperm : perm.toNat < 4096) : Uvm kend (m.write t j (pa.toUInt32 ||| perm ||| PTE_P)) pgdir := by
  set m' := m.write t j (pa.toUInt32 ||| perm ||| PTE_P)
  have hne : t ≠ pgdir := fun e => h.table_ne i hi (e ▸ htab)
  have hdir : m'.mem pgdir = m.mem pgdir := by
    funext k
    simp [m', Ne.symm hne]
  have htab' : m'.table pgdir = m.table pgdir := funext (table_congr hdir)
  have hw := walked_congr htab'
  have htr := h.trans_enter j hi htab hpa.1 hpa.lt hperm
  -- the entry was not present, so no address of it was mapped
  have hempty : ∀ va, PDX va = i → PTX va = j → m.trans pgdir va = none := by
    intro va hpd hpt
    rw [trans_of_table (hpd ▸ htab), hpt]
    simp [decode, hnp]
  have hu : ∀ q, UserPage m' pgdir q → UserPage m pgdir q ∨ q = pa := by
    rintro q ⟨va, hva, fl, hq⟩
    rw [htr] at hq
    split at hq
    · cases hq; exact .inr rfl
    · exact .inl ⟨va, hva, fl, hq⟩
  refine { nodup := h.nodup, free_alloc := h.free_alloc, walked_alloc := hw ▸ h.walked_alloc,
           walked_free := hw ▸ h.walked_free, table_ne := htab' ▸ h.table_ne,
           table_inj := htab' ▸ h.table_inj, user_alloc := ?_, user_free := ?_,
           user_walked := ?_, user_inj := ?_ }
  · intro q hq
    rcases hu q hq with hq | rfl
    · exact h.user_alloc q hq
    · exact hpa
  · intro q hq
    rcases hu q hq with hq | rfl
    · exact h.user_free q hq
    · exact hfree
  · intro q hq
    rw [hw]
    rcases hu q hq with hq | rfl
    · exact h.user_walked q hq
    · exact hwalk
  · intro va hva va' hva' q f f' hq hq'
    rw [htr] at hq hq'
    have hK : KERNBASE < 2 ^ 32 := by decide
    split at hq <;> split at hq'
    · rename_i h₁ h₂
      exact (same_entry_iff (by omega) (by omega)).mp ⟨h₁.1.trans h₂.1.symm, h₁.2.trans h₂.2.symm⟩
    · cases hq; exact absurd ⟨va', hva', f', hq'⟩ huser
    · cases hq'; exact absurd ⟨va, hva, f, hq⟩ huser
    · exact h.user_inj va hva va' hva' q f f' hq hq'

/-- The translation after the page at `va₀` is freed and its entry cleared. -/
theorem Uvm.trans_remove (h : Uvm kend m pgdir) {va₀ t p : Nat} {f : UInt32} (hva : va₀ < KERNBASE)
    (htab : m.table pgdir (PDX va₀) = some t) (hp : m.trans pgdir va₀ = some (p, f)) (va : Nat) :
    ({ m.fill p 0x01010101 with freelist := p :: m.freelist }.write t (PTX va₀) 0).trans pgdir va =
      if PDX va = PDX va₀ ∧ PTX va = PTX va₀ then none else m.trans pgdir va := by
  have hpw := h.user_walked p ⟨va₀, hva, f, hp⟩
  have hpd : p ≠ pgdir := fun e => hpw (e ▸ Walked.dir m pgdir)
  have hpt : ∀ k < NPDENTRIES, m.table pgdir k ≠ some p := fun k hk e => hpw (.table hk e)
  set m₁ := { m.fill p 0x01010101 with freelist := p :: m.freelist }
  have hdir : m₁.mem pgdir = m.mem pgdir := by
    funext k
    simp [m₁, Ne.symm hpd]
  have htab₁ : m₁.table pgdir = m.table pgdir := funext (table_congr hdir)
  have htr₁ : m₁.trans pgdir = m.trans pgdir := funext (trans_fill hpd hpt 0x01010101)
  have hne : t ≠ pgdir := fun e => h.table_ne _ (PDX_lt va₀) (e ▸ htab)
  rw [trans_write_table (htab₁ ▸ htab) hne
      (fun k hk hkt => h.table_inj k hk _ (PDX_lt va₀) t (htab₁ ▸ hkt) htab), decode_zero, htr₁]

/-- The page at `va₀` freed by `kfree` and its entry cleared. -/
theorem Uvm.remove (h : Uvm kend m pgdir) {va₀ t p : Nat} {f : UInt32} (hva : va₀ < KERNBASE)
    (htab : m.table pgdir (PDX va₀) = some t) (hp : m.trans pgdir va₀ = some (p, f)) :
    Uvm kend ({ m.fill p 0x01010101 with freelist := p :: m.freelist }.write t (PTX va₀) 0) pgdir := by
  set m' := { m.fill p 0x01010101 with freelist := p :: m.freelist }.write t (PTX va₀) 0
  have hpu : UserPage m pgdir p := ⟨va₀, hva, f, hp⟩
  have hpw := h.user_walked p hpu
  have hpd : p ≠ pgdir := fun e => hpw (e ▸ Walked.dir m pgdir)
  have hne : t ≠ pgdir := fun e => h.table_ne _ (PDX_lt va₀) (e ▸ htab)
  have hdir : m'.mem pgdir = m.mem pgdir := by
    funext k
    simp [m', Ne.symm hpd, Ne.symm hne]
  have htab' : m'.table pgdir = m.table pgdir := funext (table_congr hdir)
  have hw := walked_congr htab'
  have htr := h.trans_remove hva htab hp
  have hK : KERNBASE < 2 ^ 32 := by decide
  -- every page still mapped was mapped before, and is not the freed one
  have hu : ∀ q, UserPage m' pgdir q → UserPage m pgdir q ∧ q ≠ p := by
    rintro q ⟨va, hva', fl, hq⟩
    rw [htr] at hq
    split at hq
    · cases hq
    · rename_i hnot
      refine ⟨⟨va, hva', fl, hq⟩, fun e => hnot ?_⟩
      subst e
      exact (same_entry_iff (by omega) (by omega)).mpr (h.user_inj va hva' va₀ hva q fl f hq hp)
  refine { nodup := List.nodup_cons.mpr ⟨h.user_free p hpu, h.nodup⟩, free_alloc := ?_,
           walked_alloc := hw ▸ h.walked_alloc, walked_free := ?_,
           table_ne := htab' ▸ h.table_ne, table_inj := htab' ▸ h.table_inj,
           user_alloc := fun q hq => h.user_alloc q (hu q hq).1, user_free := ?_,
           user_walked := fun q hq => hw ▸ h.user_walked q (hu q hq).1, user_inj := ?_ }
  · intro q hq
    rcases List.mem_cons.mp hq with rfl | hq
    · exact h.user_alloc q hpu
    · exact h.free_alloc q hq
  · intro q hq hqf
    rw [hw] at hq
    rcases List.mem_cons.mp hqf with rfl | hqf
    · exact hpw hq
    · exact h.walked_free q hq hqf
  · intro q hq hqf
    obtain ⟨hq, hqp⟩ := hu q hq
    rcases List.mem_cons.mp hqf with rfl | hqf
    · exact hqp rfl
    · exact h.user_free q hq hqf
  · intro va hva' va' hva'' q fl fl' hq hq'
    rw [htr] at hq hq'
    split at hq
    · cases hq
    · split at hq'
      · cases hq'
      · exact h.user_inj va hva' va' hva'' q fl fl' hq hq'

/-- A cleared directory translates nothing. -/
theorem trans_blank {m : Mach} {pgdir : Nat} (hz : ∀ i, m.mem pgdir i = 0) (va : Nat) :
    m.trans pgdir va = none := by
  have htab : m.table pgdir (PDX va) = none := table_eq_none.mpr (by rw [hz]; rfl)
  rw [trans_eq_bind, htab]
  rfl

/-- A directory that maps no user address has no user page. -/
theorem not_userPage {m : Mach} {pgdir : Nat} (h : ∀ va < KERNBASE, m.trans pgdir va = none)
    (q : Nat) : ¬UserPage m pgdir q := by
  rintro ⟨va, hva, f, hq⟩
  rw [h va hva] at hq
  cases hq

/-- A cleared directory walks only itself. -/
theorem walked_blank {m : Mach} {pgdir : Nat} (hz : ∀ i, m.mem pgdir i = 0) (p : Nat) :
    Walked m pgdir p ↔ p = pgdir := by
  constructor
  · rintro (rfl | ⟨i, _, hi⟩)
    · rfl
    · rw [table_eq_none.mpr (by rw [hz]; rfl)] at hi
      cases hi
  · rintro rfl
    exact Walked.dir m p

/-- A directory with no present entry, off a free list of distinct allocatable pages. -/
theorem Uvm.blank {kend : Nat} {m : Mach} {pgdir : Nat} (hz : ∀ i, m.mem pgdir i = 0)
    (hd : Alloc kend pgdir) (hnd : m.freelist.Nodup) (hfa : ∀ p ∈ m.freelist, Alloc kend p)
    (hdf : pgdir ∉ m.freelist) : Uvm kend m pgdir := by
  have htab : ∀ i, m.table pgdir i = none := fun i => table_eq_none.mpr (by rw [hz]; rfl)
  have htr : ∀ va, m.trans pgdir va = none := fun va => by rw [trans_eq_bind, htab]; rfl
  have hw : ∀ p, Walked m pgdir p → p = pgdir := by
    rintro p (rfl | ⟨i, _, hi⟩)
    · rfl
    · rw [htab] at hi; cases hi
  have hu : ∀ p, ¬UserPage m pgdir p := fun p ⟨va, _, f, hp⟩ => by rw [htr] at hp; cases hp
  exact { nodup := hnd, free_alloc := hfa,
          walked_alloc := fun p hp => hw p hp ▸ hd,
          walked_free := fun p hp => hw p hp ▸ hdf,
          table_ne := fun i _ => by simp [htab],
          table_inj := fun i _ j _ u hi _ => by simp [htab] at hi,
          user_alloc := fun p hp => absurd hp (hu p), user_free := fun p hp => absurd hp (hu p),
          user_walked := fun p hp => absurd hp (hu p),
          user_inj := fun va _ _ _ p f _ hp _ => by simp [htr] at hp }

end Updates

/-! ## Runs that take page tables off the free list -/

section Takes

variable {kend : Nat} {m₀ m m₁ m₂ : Mach} {pgdir : Nat}

/-- From `m₀`, a run that keeps the invariant and takes pages only into the directory: every page
it walks anew came off the free list, and every other page off the free list that the directory
did not read is untouched. -/
structure Takes (kend : Nat) (m₀ m : Mach) (pgdir : Nat) : Prop where
  uvm : Uvm kend m pgdir
  suffix : m.freelist <:+ m₀.freelist
  walked : ∀ q, Walked m pgdir q ↔ Walked m₀ pgdir q ∨ (q ∈ m₀.freelist ∧ q ∉ m.freelist)
  frame : ∀ q, q ∉ m₀.freelist → ¬Walked m₀ pgdir q → m.mem q = m₀.mem q

theorem Takes.refl (h : Uvm kend m pgdir) : Takes kend m m pgdir :=
  ⟨h, List.suffix_refl _, fun q => by simp, fun _ _ _ => rfl⟩

/-- Two runs that take pages, one after the other. -/
theorem Takes.then (h₁ : Takes kend m₀ m₁ pgdir) (h₂ : Takes kend m₁ m₂ pgdir) :
    Takes kend m₀ m₂ pgdir := by
  have hs₁ := h₁.suffix.subset
  have hs₂ := h₂.suffix.subset
  refine ⟨h₂.uvm, h₂.suffix.trans h₁.suffix, fun q => ?_, fun q hq hw => ?_⟩
  · rw [h₂.walked, h₁.walked]
    constructor
    · rintro ((hw | ⟨hq, hq₁⟩) | ⟨hq₁, hq₂⟩)
      · exact .inl hw
      · exact .inr ⟨hq, fun h => hq₁ (hs₂ h)⟩
      · exact .inr ⟨hs₁ hq₁, hq₂⟩
    · rintro (hw | ⟨hq, hq₂⟩)
      · exact .inl (.inl hw)
      · by_cases hq₁ : q ∈ m₁.freelist
        · exact .inr ⟨hq₁, hq₂⟩
        · exact .inl (.inr ⟨hq, hq₁⟩)
  · have hq₁ : q ∉ m₁.freelist := fun h => hq (hs₁ h)
    have hw₁ : ¬Walked m₁ pgdir q := fun h => ((h₁.walked q).mp h).elim hw fun h => hq h.1
    rw [h₂.frame q hq₁ hw₁, h₁.frame q hq hw]

/-- `walkpgdir(pgdir, a, 1)` on a well-formed directory: `0` with nothing changed when `a`'s page
table is missing and the free list is empty; otherwise `a`'s page table, taken off the free list
when it was missing, with every translation as before. -/
theorem Uvm.walkpgdir_alloc (h : Uvm kend m pgdir) (a : Nat) :
    (m.freelist = [] ∧ walkpgdir m pgdir a true = (none, m)) ∨
    ∃ t m₁, walkpgdir m pgdir a true = (some (t, PTX a), m₁) ∧ Takes kend m m₁ pgdir ∧
      m₁.table pgdir (PDX a) = some t ∧ m₁.trans pgdir = m.trans pgdir := by
  cases htab : m.table pgdir (PDX a) with
  | some t => exact .inr ⟨t, m, walkpgdir_of_table htab true, Takes.refl h, htab, rfl⟩
  | none =>
    cases hf : m.freelist with
    | nil => exact .inl ⟨rfl, walkpgdir_nil htab hf⟩
    | cons t rest =>
      obtain ⟨ht, htr, htw, htu⟩ := h.head_fresh hf
      have hne : t ≠ pgdir := fun e => htw (e ▸ Walked.dir m pgdir)
      set m₁ : Mach := { m with freelist := rest }
      have htab₁ : m₁.table pgdir (PDX a) = none := htab
      refine .inr ⟨t, (m₁.fill t 0).write pgdir (PDX a) (tableEntry t), walkpgdir_cons htab hf,
        ⟨(h.pop hf).install (PDX_lt a) htab₁ ht htr htw htu, hf ▸ List.suffix_cons t rest,
          fun q => ?_, fun q hq hqw => ?_⟩,
        by rw [table_install hne ht.1 ht.lt, if_pos rfl],
        funext (trans_install htab₁ hne ht.1 ht.lt (fun k hk e => htw (.table hk e)) h.table_ne)⟩
      · rw [walked_install (PDX_lt a) htab₁ hne ht.1 ht.lt, hf]
        -- the one page walked anew is the table taken
        have : q ∈ t :: rest ∧ q ∉ rest ↔ q = t := by
          constructor
          · rintro ⟨hq, hqr⟩
            exact (List.mem_cons.mp hq).resolve_right hqr
          · rintro rfl
            exact ⟨List.mem_cons_self, htr⟩
        simp only [Mach.write_freelist, Mach.fill_freelist, m₁, this]
        rfl
      · have h₁ : q ≠ t := fun e => hq (e ▸ hf ▸ List.mem_cons_self)
        have h₂ : q ≠ pgdir := fun e => hqw (e ▸ Walked.dir m pgdir)
        funext j
        simp [m₁, h₁, h₂]

/-- A page entered for a kernel address where none was: the translations of user addresses stay,
so does the invariant, whatever the page. -/
theorem Uvm.enter_kernel (h : Uvm kend m pgdir) {a t pa : Nat} {perm : UInt32} (hK : KERNBASE ≤ a)
    (ha : a < 2 ^ 32) (htab : m.table pgdir (PDX a) = some t) (hpa : pa % PGSIZE = 0)
    (hlt : pa < 2 ^ 32) (hperm : perm.toNat < 4096) :
    Takes kend m (m.write t (PTX a) (pa.toUInt32 ||| perm ||| PTE_P)) pgdir ∧
      ∀ va, (m.write t (PTX a) (pa.toUInt32 ||| perm ||| PTE_P)).trans pgdir va =
        if PDX va = PDX a ∧ PTX va = PTX a then some (pa, perm ||| PTE_P) else m.trans pgdir va := by
  have hne : t ≠ pgdir := fun e => h.table_ne _ (PDX_lt a) (e ▸ htab)
  have htw : Walked m pgdir t := .table (PDX_lt a) htab
  have htr := h.trans_enter (PTX a) (PDX_lt a) htab hpa hlt hperm
  have hd : (m.write t (PTX a) (pa.toUInt32 ||| perm ||| PTE_P)).mem pgdir = m.mem pgdir := by
    funext k
    simp [Ne.symm hne]
  have htab' := funext (table_congr hd)
  refine ⟨⟨h.congr_user (List.Sublist.refl _) hd fun va hva => ?_, List.suffix_refl _,
    fun q => ?_, fun q _ hq => ?_⟩, htr⟩
  · rw [htr, if_neg fun e => PDX_ne_of_lt_KERNBASE hva hK ha e.1]
  · rw [walked_congr htab']
    simp
  · have : q ≠ t := fun e => hq (e ▸ htw)
    funext j
    simp [this]

end Takes

/-! ## `mappages` of one page -/

section Enter

variable {kend : Nat} {m : Mach} {pgdir : Nat}

/-- What `mappages` leaves after entering `pa` at `a` with `perm`: the invariant, `a`'s page
mapped and every other translation as before, pages only taken off the free list, and every page
off the free list that the directory does not read untouched. -/
structure Entered (kend : Nat) (m m' : Mach) (pgdir a pa : Nat) (perm : UInt32) : Prop where
  uvm : Uvm kend m' pgdir
  trans : ∀ va, m'.trans pgdir va =
    if PDX va = PDX a ∧ PTX va = PTX a then some (pa, perm ||| PTE_P) else m.trans pgdir va
  suffix : m'.freelist <:+ m.freelist
  walked : ∀ q, Walked m' pgdir q ↔ Walked m pgdir q ∨ (q ∈ m.freelist ∧ q ∉ m'.freelist)
  frame : ∀ q, q ∉ m.freelist → ¬Walked m pgdir q → m'.mem q = m.mem q

/-- **One page entered.** On a well-formed directory where `a` is unmapped, `mappages` of the one
page at `a`, with a page `pa` the directory neither reads nor maps, returns `-1` with nothing
changed when it needs a page table and the free list is empty, and `0` with the page entered
otherwise. -/
theorem Uvm.mappages_one (h : Uvm kend m pgdir) {a pa : Nat} {perm : UInt32}
    (ha : a % PGSIZE = 0) (hK : a < KERNBASE) (hnone : m.trans pgdir a = none)
    (hpa : Alloc kend pa) (hpf : pa ∉ m.freelist) (hpw : ¬Walked m pgdir pa)
    (hpu : ¬UserPage m pgdir pa) (hperm : perm.toNat < 4096) :
    (m.freelist = [] ∧ mappages m pgdir a PGSIZE pa perm = .ok (-1, m)) ∨
    ∃ m', mappages m pgdir a PGSIZE pa perm = .ok (0, m') ∧ Entered kend m m' pgdir a pa perm := by
  rw [mappages_page ha (by simp only [KERNBASE] at hK; omega)]
  cases htab : m.table pgdir (PDX a) with
  | some t =>
    have hnp : m.mem t (PTX a) &&& PTE_P = 0 := by
      rw [trans_of_table htab, decode] at hnone
      by_contra hp
      rw [if_pos hp] at hnone
      cases hnone
    have htw : Walked m pgdir t := .table (PDX_lt a) htab
    have hne : t ≠ pgdir := fun e => h.table_ne _ (PDX_lt a) (e ▸ htab)
    have htab' : (m.write t (PTX a) (pa.toUInt32 ||| perm ||| PTE_P)).table pgdir =
        m.table pgdir := funext (table_congr (by funext k; simp [Ne.symm hne]))
    refine .inr ⟨m.write t (PTX a) (pa.toUInt32 ||| perm ||| PTE_P),
      by rw [mapLoop_one_of_table htab, if_neg (not_not.mpr hnp)], ?_⟩
    exact { uvm := h.enter (PDX_lt a) htab hnp hpa hpf hpw hpu hperm,
            trans := h.trans_enter (PTX a) (PDX_lt a) htab hpa.1 hpa.lt hperm,
            suffix := List.suffix_refl _,
            walked := fun q => by simp [walked_congr htab'],
            frame := fun q _ hq => by
              have : q ≠ t := fun e => hq (e ▸ htw)
              funext j
              simp [this] }
  | none =>
    cases hf : m.freelist with
    | nil => exact .inl ⟨rfl, mapLoop_one_nil htab hf⟩
    | cons t rest =>
      obtain ⟨ht, htr, htw, htu⟩ := h.head_fresh hf
      have hne : t ≠ pgdir := fun e => htw (e ▸ Walked.dir m pgdir)
      have hpt : pa ≠ t := fun e => hpf (e ▸ hf ▸ List.mem_cons_self)
      set m₁ : Mach := { m with freelist := rest }
      set m₂ := (m₁.fill t 0).write pgdir (PDX a) (tableEntry t)
      have htab₁ : m₁.table pgdir (PDX a) = none := htab
      have h₂ : Uvm kend m₂ pgdir := (h.pop hf).install (PDX_lt a) htab₁ ht htr htw htu
      have htab₂ : m₂.table pgdir (PDX a) = some t := by
        rw [table_install hne ht.1 ht.lt, if_pos rfl]
      have hnp : m₂.mem t (PTX a) &&& PTE_P = 0 := by simp [m₂, m₁, hne]
      have htr₂ : m₂.trans pgdir = m.trans pgdir :=
        funext (trans_install htab₁ hne ht.1 ht.lt (fun k hk e => htw (.table hk e)) h.table_ne)
      have hpw₂ : ¬Walked m₂ pgdir pa := fun hw =>
        ((walked_install (PDX_lt a) htab₁ hne ht.1 ht.lt pa).mp hw).elim hpw hpt
      have hpu₂ : ¬UserPage m₂ pgdir pa := by
        rw [userPage_congr htr₂]
        exact hpu
      have hpf₂ : pa ∉ m₂.freelist := fun hp => hpf (hf ▸ List.mem_cons_of_mem t hp)
      refine .inr ⟨_, mapLoop_one_cons htab hf hne, ?_⟩
      exact { uvm := h₂.enter (PDX_lt a) htab₂ hnp hpa hpf₂ hpw₂ hpu₂ hperm,
              trans := fun va => by
                rw [h₂.trans_enter (PTX a) (PDX_lt a) htab₂ hpa.1 hpa.lt hperm, htr₂],
              suffix := hf ▸ List.suffix_cons t rest,
              walked := fun q => by
                have htab₃ : (m₂.write t (PTX a) (pa.toUInt32 ||| perm ||| PTE_P)).table pgdir =
                    m₂.table pgdir := funext (table_congr (by funext k; simp [Ne.symm hne]))
                rw [walked_congr htab₃, walked_install (PDX_lt a) htab₁ hne ht.1 ht.lt, hf]
                have : q ∈ t :: rest ∧ q ∉ rest ↔ q = t := by
                  constructor
                  · rintro ⟨hq, hqr⟩
                    exact (List.mem_cons.mp hq).resolve_right hqr
                  · rintro rfl
                    exact ⟨List.mem_cons_self, htr⟩
                simp only [Mach.write_freelist, Mach.fill_freelist, m₁, this]
                rfl,
              frame := fun q hq hqw => by
                have h₁ : q ≠ t := fun e => hq (e ▸ hf ▸ List.mem_cons_self)
                have h₂ : q ≠ pgdir := fun e => hqw (e ▸ Walked.dir m pgdir)
                funext j
                simp [h₁, h₂] }

end Enter

end Xv6.Vm
