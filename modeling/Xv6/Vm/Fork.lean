import Xv6.Vm.Kvm
import Xv6.Vm.Grow

/-!
# Copying an address space: `copyuvm`

`fork` gives the child `copyuvm(curproc->pgdir, curproc->sz)`: a directory from `setupkvm`, then,
at each page base `i` below `sz`, a page off the free list holding what the parent's page at `i`
holds, entered at `i` with the parent's flags. When `kalloc` or `mappages` fails, `freevm` takes the
child apart and `copyuvm` returns `0`.

The loop's state is `CopyInv`: the child grown by pages off the free list (`Grows`), every address
below `i` mapped to a copy of the parent's page with its flags, and every address from `i` on as
`setupkvm` left it. One lemma covers a run of the body (`CopyInv.step`, with `CopyInv.enter` for a
page copied), and the whole loop is by induction on the fuel (`copyLoop_spec`). All along the
parent's directory, tables and pages stay as they were (`Grows.parent`), since every page the child
takes comes off the free list.
-/

namespace Xv6.Vm

section Code

-- `V2P(end)`, and `data` of `kernel.ld`
variable (kend data : Nat)

/-- The loop `for(i = 0; i < sz; i += PGSIZE)` of `copyuvm` from the parent's directory `pgdir` to
the child's `d`, with at most `fuel` runs; `false` stands for `goto bad`. -/
def copyLoop (pgdir d sz : Nat) : Nat → Nat → Mach → Except String (Bool × Mach)
  | 0, _, m => .ok (true, m)
  | fuel + 1, i, m =>
    if i < sz then
      match walkpgdir m pgdir i false with
      | (none, _) => .error "copyuvm: pte should exist"
      | (some (t, j), m) =>
        if m.mem t j &&& PTE_P = 0 then .error "copyuvm: page not present"
        else
          let pa := PTE_ADDR (m.mem t j)
          let flags := PTE_FLAGS (m.mem t j)
          match kalloc m with
          | (none, m) => .ok (false, m)
          | (some mem, m) => do
            -- `memmove(mem, (char*)P2V(pa), PGSIZE)`
            let m := m.copy mem pa
            let (r, m) ← mappages m d i PGSIZE mem flags
            if r < 0 then do
              let m ← kfree kend m mem
              pure (false, m)
            else copyLoop pgdir d sz fuel ((i + PGSIZE) % 2 ^ 32) m
    else .ok (true, m)

/-- `copyuvm(pgdir, sz)`: the child's directory (`0` on failure), and the machine. -/
def copyuvm (m : Mach) (pgdir sz : Nat) : Except String (Nat × Mach) := do
  let (d, m) ← setupkvm kend data m
  if d = 0 then pure (0, m)
  else do
    let (ok, m) ← copyLoop kend pgdir d sz (sz / PGSIZE + 1) 0 m
    if ok then pure (d, m)
    else do
      let m ← freevm kend m d
      pure (0, m)

end Code

/-! ## The loop -/

section Loop

variable {kend : Nat} {m₀ : Mach} {pgdir d sz : Nat}

/-- The state of `copyuvm`'s loop at `i`, from `m₀`: the child grown by pages off the free list;
every address below `i` mapped to a page holding what the parent's page there holds, with the
parent's flags; every address from `i` on as at `m₀`. -/
structure CopyInv (kend : Nat) (m₀ m : Mach) (pgdir d sz i : Nat) : Prop
    extends Grows kend m₀ m d where
  aligned : i % PGSIZE = 0
  le : i ≤ PGROUNDUP sz
  copied : ∀ va < i, ∃ p f p', m₀.trans pgdir va = some (p, f) ∧ m.trans d va = some (p', f) ∧
    m.mem p' = m₀.mem p
  rest : ∀ va < 2 ^ 32, i ≤ va → m.trans d va = m₀.trans d va

variable (hp₀ : Uvm kend m₀ pgdir) (hsz : sz ≤ KERNBASE)
  (hd₀ : ∀ va < KERNBASE, m₀.trans d va = none)
  (hapart : ∀ q, UserPage m₀ pgdir q ∨ Walked m₀ pgdir q → ¬Walked m₀ d q)

include hp₀ hd₀ hapart in
/-- While the child grows, the parent keeps its directory, its tables and its pages: they are
neither free nor the child's. -/
theorem Grows.parent {m : Mach} (hG : Grows kend m₀ m d) :
    Uvm kend m pgdir ∧ m.trans pgdir = m₀.trans pgdir ∧
      ∀ q, UserPage m₀ pgdir q ∨ Walked m₀ pgdir q → m.mem q = m₀.mem q := by
  have hkeep : ∀ q, UserPage m₀ pgdir q ∨ Walked m₀ pgdir q → m.mem q = m₀.mem q := fun q hq =>
    hG.frame q (hp₀.owned hq).1 (not_userPage hd₀ q) (hapart q hq)
  obtain ⟨hu, -, htr⟩ := hp₀.keep hG.uvm.nodup (fun q hq => hG.suffix.subset hq) hkeep
  exact ⟨hu, htr, hkeep⟩

include hsz in
/-- Past `sz` the loop has reached `PGROUNDUP(sz)`. -/
theorem CopyInv.done {i : Nat} {m : Mach} (h : CopyInv kend m₀ m pgdir d sz i) (hi : sz ≤ i) :
    i = PGROUNDUP sz := by
  have hal := h.aligned
  have hle := h.le
  rw [PGROUNDUP_of_le hsz] at hle ⊢
  simp only [PGSIZE] at hal
  omega

include hp₀ hsz hd₀ hapart in
/-- The parent's page `p` at `i` copied into the head `x` of the free list, and `x` entered at `i`
with the parent's flags: the loop's state at `i + PGSIZE`. -/
theorem CopyInv.enter {i : Nat} {m : Mach} (h : CopyInv kend m₀ m pgdir d sz i) (hi : i < sz)
    {p : Nat} {f : UInt32} (hpf : m₀.trans pgdir i = some (p, f)) (hfP : f ||| PTE_P = f)
    {x : Nat} {rest : List Nat} (hf : m.freelist = x :: rest) {m₄ : Mach}
    (hE : Entered kend (({ m with freelist := rest } : Mach).copy x p) m₄ d i x f) :
    CopyInv kend m₀ m₄ pgdir d sz (i + PGSIZE) := by
  have hal := h.aligned
  have hiK : i < KERNBASE := lt_of_lt_of_le hi hsz
  have hi32 : i < 2 ^ 32 := lt_two_pow_of_lt_KERNBASE hiK
  have hxm : x ∈ m.freelist := hf ▸ List.mem_cons_self
  have hmem₂ : ∀ q, q ≠ x → (({ m with freelist := rest } : Mach).copy x p).mem q = m.mem q :=
    fun q hq => by simp [hq]
  obtain ⟨-, hxr, hxw, -⟩ := h.uvm.head_fresh hf
  obtain ⟨-, htr₂, htab₂⟩ := h.uvm.take hf rfl hmem₂
  obtain ⟨-, -, hpkeep⟩ := h.toGrows.parent hp₀ hd₀ hapart
  have hnone : m.trans d i = none := by
    rw [h.rest i hi32 le_rfl]
    exact hd₀ i hiK
  -- away from the page at `i` the child translates as before
  have hout : ∀ va < 2 ^ 32, va < i ∨ i + PGSIZE ≤ va → m₄.trans d va = m.trans d va := by
    intro va hva hva'
    have hs : ¬(PDX va = PDX i ∧ PTX va = PTX i) := by
      rw [same_entry_iff_base hva hi32 hal]
      simp only [PGSIZE] at hal hva' ⊢
      omega
    rw [hE.trans va, if_neg hs, htr₂]
  refine { toGrows := h.toGrows.then (h.uvm.grows_enter hf rfl hmem₂ hiK hnone hE),
           aligned := ?_, le := ?_, copied := fun va hva => ?_, rest := fun va hva hle => ?_ }
  · simp only [PGSIZE] at hal ⊢
    omega
  · rw [PGROUNDUP_of_le hsz]
    simp only [PGSIZE] at hal ⊢
    omega
  · by_cases hlt : va < i
    · obtain ⟨q, g, p', h₁, h₂, h₃⟩ := h.copied va hlt
      -- `p'` is a user page of the child, so neither free nor walked
      have hu : UserPage m d p' := ⟨va, lt_trans hlt hiK, g, h₂⟩
      have hp'x : p' ≠ x := fun e => h.uvm.user_free p' hu (e ▸ hxm)
      have hp'r : p' ∉ rest := fun hr => h.uvm.user_free p' hu (hf ▸ List.mem_cons_of_mem x hr)
      have hkeep : m₄.mem p' = m.mem p' := by
        rw [hE.frame p' hp'r (by rw [walked_congr htab₂]; exact h.uvm.user_walked p' hu),
          hmem₂ p' hp'x]
      have hva32 : va < 2 ^ 32 := lt_trans hlt hi32
      exact ⟨q, g, p', h₁, by rw [hout va hva32 (.inl hlt)]; exact h₂, by rw [hkeep]; exact h₃⟩
    · -- `va` is in the page just copied
      have hva32 : va < 2 ^ 32 := by
        simp only [PGSIZE, KERNBASE] at hva hiK ⊢
        omega
      have hs : PDX va = PDX i ∧ PTX va = PTX i := by
        rw [same_entry_iff_base hva32 hi32 hal]
        simp only [PGSIZE] at hal hva ⊢
        omega
      refine ⟨p, f, x, by rw [trans_of_same hs]; exact hpf, by rw [hE.trans va, if_pos hs, hfP], ?_⟩
      rw [hE.frame x hxr (by rw [walked_congr htab₂]; exact hxw), Mach.copy_mem, if_pos rfl]
      exact hpkeep p (.inl ⟨i, hiK, f, hpf⟩)
  · rw [hout va hva (.inr hle)]
    exact h.rest va hva (by omega)

include hp₀ hsz hd₀ hapart in
/-- One run of the loop's body at `i < sz`: with no page of the parent at `i`, a panic; else
`kalloc` or `mappages` fails and the loop stops with the child grown, or the page at `i` is copied
and the loop goes on at `i + PGSIZE`. -/
theorem CopyInv.step {i : Nat} {m : Mach} (h : CopyInv kend m₀ m pgdir d sz i) (hi : i < sz)
    (fuel : Nat) :
    (m₀.trans pgdir i = none ∧ ∃ e, copyLoop kend pgdir d sz (fuel + 1) i m = .error e) ∨
    (∃ m', copyLoop kend pgdir d sz (fuel + 1) i m = .ok (false, m') ∧ Grows kend m₀ m' d) ∨
    ∃ m', copyLoop kend pgdir d sz (fuel + 1) i m = copyLoop kend pgdir d sz fuel (i + PGSIZE) m' ∧
      CopyInv kend m₀ m' pgdir d sz (i + PGSIZE) := by
  have hal := h.aligned
  have hiK : i < KERNBASE := lt_of_lt_of_le hi hsz
  have hi32 : i < 2 ^ 32 := lt_two_pow_of_lt_KERNBASE hiK
  obtain ⟨-, hptr, -⟩ := h.toGrows.parent hp₀ hd₀ hapart
  cases hpf : m₀.trans pgdir i with
  | none =>
    -- no page at `i`: one of the two panics
    have hm : m.trans pgdir i = none := by
      rw [hptr]
      exact hpf
    refine .inl ⟨rfl, ?_⟩
    cases htab : m.table pgdir (PDX i) with
    | none =>
      refine ⟨"copyuvm: pte should exist", ?_⟩
      rw [copyLoop, if_pos hi, walkpgdir_lookup htab]
    | some t =>
      have hnp : m.mem t (PTX i) &&& PTE_P = 0 := by
        rw [trans_of_table htab, decode] at hm
        by_contra hp
        rw [if_pos hp] at hm
        cases hm
      refine ⟨"copyuvm: page not present", ?_⟩
      rw [copyLoop, if_pos hi, walkpgdir_of_table htab]
      dsimp only
      rw [if_pos hnp]
  | some pf =>
    obtain ⟨p, f⟩ := pf
    refine .inr ?_
    have hpf' : m.trans pgdir i = some (p, f) := by
      rw [hptr]
      exact hpf
    obtain ⟨t, htab, hpres, hpa, hfl⟩ := trans_eq_some.mp hpf'
    cases hf : m.freelist with
    | nil =>
      refine .inl ⟨m, ?_, h.toGrows⟩
      rw [copyLoop, if_pos hi, walkpgdir_of_table htab]
      dsimp only
      rw [if_neg hpres, kalloc_nil hf]
    | cons x rest =>
      have hmem₂ : ∀ q, q ≠ x → (({ m with freelist := rest } : Mach).copy x p).mem q = m.mem q :=
        fun q hq => by simp [hq]
      obtain ⟨hxa, hxr, hxw, hxu⟩ := h.uvm.head_fresh hf
      obtain ⟨hu₂, htr₂, htab₂⟩ := h.uvm.take hf rfl hmem₂
      have hnone : m.trans d i = none := by
        rw [h.rest i hi32 le_rfl]
        exact hd₀ i hiK
      -- the code's `pa` and `flags` are the parent's page and flags at `i`
      have hbody : ∀ r m', mappages (({ m with freelist := rest } : Mach).copy x p) d i PGSIZE x f =
          .ok (r, m') → copyLoop kend pgdir d sz (fuel + 1) i m =
            if r < 0 then kfree kend m' x >>= fun m => pure (false, m)
            else copyLoop kend pgdir d sz fuel ((i + PGSIZE) % 2 ^ 32) m' := by
        intro r m' hmp
        rw [copyLoop, if_pos hi, walkpgdir_of_table htab]
        dsimp only
        rw [if_neg hpres, kalloc_cons hf]
        dsimp only
        rw [hpa, hfl, hmp, CLoop.ok_bind]
      have hperm : f.toNat < 4096 := by
        rw [← hfl]
        exact PTE_FLAGS_lt _
      rcases hu₂.mappages_one hal hiK (by rw [htr₂]; exact hnone) hxa hxr
          (by rw [walked_congr htab₂]; exact hxw) (by rw [userPage_congr htr₂]; exact hxu) hperm
        with ⟨-, hmp⟩ | ⟨m₄, hmp, hE⟩
      · -- `mappages` ran out of page tables: the copy goes back to the free list
        have hqx : ∀ q, q ∉ m.freelist → q ≠ x := fun q hq e =>
          hq (by rw [hf, e]; exact List.mem_cons_self)
        refine .inl ⟨{ (({ m with freelist := rest } : Mach).copy x p).fill x 0x01010101 with
            freelist := x :: rest }, ?_, h.toGrows.then (h.uvm.grows_free hf.symm fun q hq => ?_)⟩
        · rw [hbody _ _ hmp, if_pos (by decide), kfree_of_alloc hxa]
          rfl
        · simp [hqx q hq]
      · have hfP : f ||| PTE_P = f := by
          rw [← hfl]
          exact PTE_FLAGS_or_P hpres
        have hwrap : i + PGSIZE < 2 ^ 32 := by
          simp only [PGSIZE, KERNBASE] at hiK ⊢
          omega
        refine .inr ⟨m₄, ?_, h.enter hp₀ hsz hd₀ hapart hi hpf hfP hf hE⟩
        rw [hbody _ _ hmp, if_neg (by decide), Nat.mod_eq_of_lt hwrap]

include hp₀ hsz hd₀ hapart in
/-- **Run.** With enough fuel for the page bases left below `sz`, the loop panics at a page base
the parent does not map, or copies every page of the process and returns `true`, or stops with
`false` and the child grown. By induction on the fuel, one `CopyInv.step` a run. -/
theorem copyLoop_spec : ∀ (fuel i : Nat) (m : Mach), CopyInv kend m₀ m pgdir d sz i →
    sz ≤ i + fuel * PGSIZE →
    ((∃ va < sz, m₀.trans pgdir va = none) ∧ ∃ e, copyLoop kend pgdir d sz fuel i m = .error e) ∨
    ∃ ok m', copyLoop kend pgdir d sz fuel i m = .ok (ok, m') ∧
      ((ok = true ∧ CopyInv kend m₀ m' pgdir d sz (PGROUNDUP sz)) ∨
       (ok = false ∧ Grows kend m₀ m' d))
  | 0, i, m, h, hfuel => by
    have hdone := h.done hsz (by omega)
    subst hdone
    exact .inr ⟨true, m, rfl, .inl ⟨rfl, h⟩⟩
  | fuel + 1, i, m, h, hfuel => by
    by_cases hi : i < sz
    · rcases h.step hp₀ hsz hd₀ hapart hi fuel with ⟨hn, e, hrun⟩ | ⟨m', hrun, hG⟩ | ⟨m', hrun, h'⟩
      · exact .inl ⟨⟨i, hi, hn⟩, e, hrun⟩
      · exact .inr ⟨false, m', hrun, .inr ⟨rfl, hG⟩⟩
      · rw [hrun]
        exact copyLoop_spec fuel (i + PGSIZE) m' h' (by rw [Nat.add_mul] at hfuel; omega)
    · have hdone := h.done hsz (by omega)
      subst hdone
      exact .inr ⟨true, m, by rw [copyLoop, if_neg hi], .inl ⟨rfl, h⟩⟩

end Loop

/-! ## `copyuvm` -/

section Copyuvm

variable {kend : Nat} {m : Mach} {pgdir sz : Nat}

/-- What a successful `copyuvm` leaves, from `m`: a well-formed child directory `d` that maps
exactly the process's pages, each address below `PGROUNDUP(sz)` to a page holding what the
parent's page there holds, with the parent's flags, and the kernel's half as `kmap[]` asks; its
pages exactly those taken off the free list; and no other page changed. -/
structure Copied (kend data : Nat) (m m' : Mach) (pgdir d sz : Nat) : Prop where
  uvm : Uvm kend m' d
  maps : MapsUpTo m' d sz
  copied : ∀ va < PGROUNDUP sz, ∃ p f p', m.trans pgdir va = some (p, f) ∧
    m'.trans d va = some (p', f) ∧ m'.mem p' = m.mem p
  kernel : ∀ va, KERNBASE ≤ va → va < 2 ^ 32 → m'.trans d va = kmapTrans (kmap data) va
  owned : ∀ q, Owned m' d q ↔ q ∈ m.freelist ∧ q ∉ m'.freelist
  suffix : m'.freelist <:+ m.freelist
  frame : ∀ q, q ∉ m.freelist → m'.mem q = m.mem q

/-- **`copyuvm`.** On a well-formed directory of a process of size `sz ≤ KERNBASE`, `copyuvm`
panics only at a page base below `sz` that the parent does not map; otherwise it returns a child
`Copied` from the parent, or `0` with the machine `Restored`. -/
theorem copyuvm_ok {data : Nat} (hk : 0 < kend) (hdata : DataOk data) (h : Uvm kend m pgdir)
    (hsz : sz ≤ KERNBASE) :
    ((∃ va < sz, m.trans pgdir va = none) ∧ ∃ e, copyuvm kend data m pgdir sz = .error e) ∨
    ∃ d m', copyuvm kend data m pgdir sz = .ok (d, m') ∧
      ((d ≠ 0 ∧ Copied kend data m m' pgdir d sz) ∨ (d = 0 ∧ Restored m m')) := by
  obtain ⟨d, m₁, hsetup, hres⟩ := setupkvm_ok hk hdata h.nodup h.free_alloc
  rcases hres with ⟨hd0, hB⟩ | ⟨rfl, hR⟩
  · -- the parent through `setupkvm`, and the child's pages apart from it
    obtain ⟨hp₁, htab₁, htr₁, hmem₁⟩ :=
      h.keep_free hB.uvm.nodup (fun q hq => hB.suffix.subset hq) hB.frame
    have hd₁ : ∀ va < KERNBASE, m₁.trans d va = none := fun va hva => hB.trans_user hdata hva
    have hapart : ∀ q, UserPage m₁ pgdir q ∨ Walked m₁ pgdir q → ¬Walked m₁ d q := by
      intro q hq hw
      rw [userPage_congr htr₁, walked_congr htab₁] at hq
      exact (h.owned hq).1 ((hB.walked q).mp hw).1
    have h₀ : CopyInv kend m₁ m₁ pgdir d sz 0 :=
      { toGrows := hB.uvm.grows_free rfl fun _ _ => rfl, aligned := rfl, le := Nat.zero_le _,
        copied := fun va hva => absurd hva (Nat.not_lt_zero va), rest := fun _ _ _ => rfl }
    have hcopy : copyuvm kend data m pgdir sz =
        (copyLoop kend pgdir d sz (sz / PGSIZE + 1) 0 m₁).bind fun r =>
          if r.1 = true then .ok (d, r.2) else (freevm kend r.2 d).bind fun m => .ok (0, m) := by
      rw [copyuvm, hsetup, CLoop.ok_bind]
      dsimp only
      rw [if_neg hd0]
      rfl
    rcases copyLoop_spec hp₁ hsz hd₁ hapart (sz / PGSIZE + 1) 0 m₁ h₀ (by simp only [PGSIZE]; omega)
      with ⟨⟨va, hva, hn⟩, e, hloop⟩ | ⟨ok, m₂, hloop, ⟨rfl, hC⟩ | ⟨rfl, hG⟩⟩
    · -- a page below `sz` that the parent does not map
      refine .inl ⟨⟨va, hva, by rw [← htr₁]; exact hn⟩, e, ?_⟩
      rw [hcopy, hloop]
      rfl
    · -- every page copied
      refine .inr ⟨d, m₂, by rw [hcopy, hloop]; rfl, .inl ⟨hd0, ?_⟩⟩
      obtain ⟨-, -, hkeep₂⟩ := hC.toGrows.parent hp₁ hd₁ hapart
      refine { uvm := hC.uvm, maps := fun va hva => ?_, copied := fun va hva => ?_,
               kernel := fun va hva hva' => ?_, owned := fun q => ?_,
               suffix := hC.suffix.trans hB.suffix, frame := fun q hq => ?_ }
      · by_cases hlt : va < PGROUNDUP sz
        · obtain ⟨p, f, p', -, h₂, -⟩ := hC.copied va hlt
          rw [h₂]
          exact iff_of_true rfl hlt
        · rw [hC.rest va (lt_two_pow_of_lt_KERNBASE hva) (Nat.le_of_not_lt hlt), hd₁ va hva]
          exact iff_of_false (by simp) hlt
      · obtain ⟨p, f, p', h₁, h₂, h₃⟩ := hC.copied va hva
        have h₁' : m.trans pgdir va = some (p, f) := by
          rw [← htr₁]
          exact h₁
        have hvaK : va < KERNBASE := lt_of_lt_of_le hva (PGROUNDUP_le hsz)
        exact ⟨p, f, p', h₁', h₂, by rw [h₃, hmem₁ p ⟨va, hvaK, f, h₁'⟩]⟩
      · rw [hC.rest va hva' (le_trans (PGROUNDUP_le hsz) hva)]
        exact hB.trans va hva'
      · -- the child's pages are the pages taken off the free list, by `setupkvm` or the loop
        unfold Owned
        rw [hC.owned, hB.walked, or_iff_right (not_userPage hd₁ q)]
        constructor
        · rintro (⟨hqm, hq₁⟩ | ⟨hq₁, hq₂⟩)
          · exact ⟨hqm, fun h₂ => hq₁ (hC.suffix.subset h₂)⟩
          · exact ⟨hB.suffix.subset hq₁, hq₂⟩
        · rintro ⟨hqm, hq₂⟩
          by_cases hq₁ : q ∈ m₁.freelist
          · exact .inr ⟨hq₁, hq₂⟩
          · exact .inl ⟨hqm, hq₁⟩
      · have hq₁ : q ∉ m₁.freelist := fun h₁ => hq (hB.suffix.subset h₁)
        rw [hC.frame q hq₁ (not_userPage hd₁ q) (fun hw => hq ((hB.walked q).mp hw).1),
          hB.frame q hq]
    · -- a copy failed: the child is taken apart
      obtain ⟨m₃, hfree, hU⟩ := hG.freevm hk
      refine .inr ⟨0, m₃, ?_, .inr ⟨rfl, hB.restored hdata h.nodup hU⟩⟩
      rw [hcopy, hloop]
      show (freevm kend m₂ d).bind (fun m => .ok (0, m)) = _
      rw [hfree]
      rfl
  · -- no directory for the child
    refine .inr ⟨0, m₁, ?_, .inr ⟨rfl, hR⟩⟩
    rw [copyuvm, hsetup, CLoop.ok_bind]
    dsimp only
    rw [if_pos rfl]
    rfl

/-- **`copyuvm` copies the process or gives everything back.** On a well-formed directory of a
process of size `sz ≤ KERNBASE` that maps exactly its pages, with `data` where `kernel.ld` puts
it, `copyuvm` keeps the parent's directory, translations and pages, and either returns a
well-formed child directory `d ≠ 0` that maps exactly the process's pages, each address below
`PGROUNDUP(sz)` to a page holding what the parent's page there holds and with the parent's flags,
and the kernel's half as `kmap[]` asks, with every page of the child taken off the free list; or it
returns `0` with the same pages free, in some order, and no page changed that was not free. -/
theorem copyuvm_spec {data : Nat} (hk : 0 < kend) (hdata : DataOk data) (h : Uvm kend m pgdir)
    (hmap : MapsUpTo m pgdir sz) (hsz : sz ≤ KERNBASE) :
    ∃ d m', copyuvm kend data m pgdir sz = .ok (d, m') ∧ Uvm kend m' pgdir ∧
      m'.trans pgdir = m.trans pgdir ∧ (∀ p, UserPage m pgdir p → m'.mem p = m.mem p) ∧
      ((d ≠ 0 ∧ Uvm kend m' d ∧ MapsUpTo m' d sz ∧
          (∀ va < PGROUNDUP sz, ∃ p f p', m.trans pgdir va = some (p, f) ∧
            m'.trans d va = some (p', f) ∧ m'.mem p' = m.mem p) ∧
          (∀ va, KERNBASE ≤ va → va < 2 ^ 32 → m'.trans d va = kmapTrans (kmap data) va) ∧
          ∀ q, UserPage m' d q ∨ Walked m' d q → q ∈ m.freelist ∧ q ∉ m'.freelist) ∨
       (d = 0 ∧ m'.freelist.Perm m.freelist ∧ ∀ q, q ∉ m.freelist → m'.mem q = m.mem q)) := by
  rcases copyuvm_ok hk hdata h hsz with ⟨⟨va, hva, hn⟩, -⟩ | ⟨d, m', hrun, ⟨hd0, hC⟩ | ⟨rfl, hR⟩⟩
  · -- the parent maps every address below its size
    have hup : va < PGROUNDUP sz := by
      rw [PGROUNDUP_of_le hsz]
      omega
    have := (hmap va (lt_of_lt_of_le hva hsz)).mpr hup
    rw [hn] at this
    cases this
  · obtain ⟨hu, -, htr, hmem⟩ :=
      h.keep_free hC.uvm.nodup (fun q hq => hC.suffix.subset hq) hC.frame
    exact ⟨d, m', hrun, hu, htr, hmem, .inl ⟨hd0, hC.uvm, hC.maps, hC.copied, hC.kernel,
      fun q hq => (hC.owned q).mp hq⟩⟩
  · obtain ⟨hu, -, htr, hmem⟩ := h.restored hR
    exact ⟨0, m', hrun, hu, htr, hmem, .inr ⟨rfl, hR.perm, hR.frame⟩⟩

theorem copyuvm_spec_empty :
    ∃ d m', copyuvm 0x100000 0x80108000 emptyProc 0x200000 0 = .ok (d, m') ∧
      Uvm 0x100000 m' 0x200000 ∧ m'.trans 0x200000 = emptyProc.trans 0x200000 ∧
      (∀ p, UserPage emptyProc 0x200000 p → m'.mem p = emptyProc.mem p) ∧
      ((d ≠ 0 ∧ Uvm 0x100000 m' d ∧ MapsUpTo m' d 0 ∧
          (∀ va < PGROUNDUP 0, ∃ p f p', emptyProc.trans 0x200000 va = some (p, f) ∧
            m'.trans d va = some (p', f) ∧ m'.mem p' = emptyProc.mem p) ∧
          (∀ va, KERNBASE ≤ va → va < 2 ^ 32 → m'.trans d va = kmapTrans (kmap 0x80108000) va) ∧
          ∀ q, UserPage m' d q ∨ Walked m' d q → q ∈ emptyProc.freelist ∧ q ∉ m'.freelist) ∨
       (d = 0 ∧ m'.freelist.Perm emptyProc.freelist ∧
          ∀ q, q ∉ emptyProc.freelist → m'.mem q = emptyProc.mem q)) :=
  copyuvm_spec (by decide) dataOk_kernel emptyProc_uvm emptyProc_mapsUpTo (by decide)

end Copyuvm

end Xv6.Vm
