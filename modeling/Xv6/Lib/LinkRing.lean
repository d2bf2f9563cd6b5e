import Mathlib

/-!
# Rings of links

A circular doubly-linked list as C code keeps one: every node has a `next` and a `prev`
pointer, and a header node that is no member closes the ring. The nodes are `Option β`: the
header is `none` and the members are `some b`.

* `Links p l`: consecutive nodes of `l` are linked both ways;
* `Ring p qs := Links p (none :: (qs.map some ++ [none]))`: the ring with members `qs`, in
  `next` order from the header.

The edits C code makes are sequences of pointer stores: `Ptrs.unlink` takes a member out and
`Ptrs.pushFront` links one in right after the header. `Ring.unlink` and `Ring.pushFront` say
what they do to the ring, and `Ring.moveFront` what the two do in a row. `find` is the loop
that walks from the header along one pointer until it is back there and returns the first
member a test picks: on a ring it is `List.find?` in `next` order (`Ring.find_next`), and in
the reverse order along `prev` (`Ring.find_prev`).
-/

namespace LinkRing

/-- The `next` and `prev` pointers of every node; `none` is the header. -/
structure Ptrs (β : Type) where
  next : Option β → Option β
  prev : Option β → Option β

variable {β : Type} {p p' : Ptrs β}

/-- The pointers read the other way round. -/
def Ptrs.swap (p : Ptrs β) : Ptrs β := ⟨p.prev, p.next⟩

/-- Consecutive nodes are linked both ways. -/
def Links (p : Ptrs β) : List (Option β) → Prop
  | x :: y :: rest => p.next x = y ∧ p.prev y = x ∧ Links p (y :: rest)
  | _ => True

/-- The ring with members `qs`, in `next` order from the header. -/
def Ring (p : Ptrs β) (qs : List β) : Prop := Links p (none :: (qs.map some ++ [none]))

@[simp] theorem links_nil : Links p [] := trivial

@[simp] theorem links_single (x : Option β) : Links p [x] := trivial

@[simp] theorem links_cons_cons {x y : Option β} {rest : List (Option β)} :
    Links p (x :: y :: rest) ↔ p.next x = y ∧ p.prev y = x ∧ Links p (y :: rest) := Iff.rfl

/-- Links of a concatenation: both halves and the seam. -/
theorem links_append :
    ∀ (l₁ : List (Option β)) (x : Option β) (l₂ : List (Option β)),
      Links p (l₁ ++ x :: l₂) ↔ Links p (l₁ ++ [x]) ∧ Links p (x :: l₂)
  | [], x, l₂ => by simp
  | [a], x, l₂ => by simp [and_assoc]
  | a :: b :: l₁, x, l₂ => by
    have ih := links_append (b :: l₁) x l₂
    simp only [List.cons_append] at ih ⊢
    rw [links_cons_cons, links_cons_cons, ih]
    simp only [and_assoc]

/-- Links read `next` of every node but the last and `prev` of every node but the first. -/
theorem Links.congr :
    ∀ {l : List (Option β)}, Links p l →
      (∀ x ∈ l.dropLast, p'.next x = p.next x) → (∀ y ∈ l.tail, p'.prev y = p.prev y) →
      Links p' l
  | [], _, _, _ => trivial
  | [_], _, _, _ => trivial
  | x :: y :: rest, ⟨h1, h2, h3⟩, hn, hp => by
    refine ⟨(hn x (by simp)).trans h1, (hp y (by simp)).trans h2,
      h3.congr (fun a ha => hn a ?_) (fun b hb => hp b (List.mem_of_mem_tail hb))⟩
    rw [List.dropLast_cons_cons]
    exact List.mem_cons_of_mem _ ha

/-- The first link of a run of members that ends at the header. -/
theorem links_cons_members {x : Option β} {qs : List β} :
    Links p (x :: (qs.map some ++ [none])) ↔
      p.next x = qs.head? ∧ p.prev qs.head? = x ∧ Links p (qs.map some ++ [none]) := by
  cases qs <;> exact Iff.rfl

/-- Read backwards, links are the links of the swapped pointers. -/
theorem Links.reverse : ∀ {l : List (Option β)}, Links p l → Links p.swap l.reverse
  | [], _ => trivial
  | [_], _ => trivial
  | x :: y :: rest, ⟨h1, h2, h3⟩ => by
    have ih : Links p.swap (rest.reverse ++ [y]) := by
      simpa using h3.reverse
    rw [show (x :: y :: rest).reverse = rest.reverse ++ y :: [x] by simp, links_append]
    exact ⟨ih, h2, h1, trivial⟩

/-- Every node but the last of a run of links is its successor's predecessor. -/
theorem Links.prev_next : ∀ {l : List (Option β)}, Links p l →
    ∀ x ∈ l.dropLast, p.prev (p.next x) = x
  | [], _, _, hx => by simp at hx
  | [_], _, _, hx => by simp at hx
  | x :: y :: rest, ⟨h1, h2, h3⟩, z, hz => by
    rw [List.dropLast_cons_cons, List.mem_cons] at hz
    rcases hz with rfl | hz
    · rw [h1, h2]
    · exact h3.prev_next z hz

/-- Every node but the first of a run of links is its predecessor's successor. -/
theorem Links.next_prev : ∀ {l : List (Option β)}, Links p l →
    ∀ y ∈ l.tail, p.next (p.prev y) = y
  | [], _, _, hy => by simp at hy
  | [_], _, _, hy => by simp at hy
  | x :: y :: rest, ⟨h1, h2, h3⟩, z, hz => by
    rcases List.mem_cons.mp hz with rfl | hz
    · rw [h2, h1]
    · exact h3.next_prev z hz

/-! ## The ring -/

theorem ring_nil_iff : Ring p [] ↔ p.next none = none ∧ p.prev none = none := by
  simp [Ring]

/-- The header's `next` is the first member. -/
theorem Ring.next_none {qs : List β} (h : Ring p qs) : p.next none = qs.head? :=
  (links_cons_members.mp h).1

/-- The ring read along `prev` is the ring of the members in reverse. -/
theorem Ring.swap {qs : List β} (h : Ring p qs) : Ring p.swap qs.reverse := by
  have := Links.reverse h
  simpa [Ring, List.map_reverse] using this

/-- `x->next->prev == x` and `x->prev->next == x` for the header and every member. -/
theorem Ring.inverse {qs : List β} (h : Ring p qs) {x : Option β} (hx : ∀ b ∈ x, b ∈ qs) :
    p.prev (p.next x) = x ∧ p.next (p.prev x) = x := by
  have hfirst : x ∈ (none :: (qs.map some ++ [none])).dropLast := by
    rw [List.dropLast_cons_of_ne_nil (by simp), List.dropLast_concat]
    cases x with
    | none => exact List.mem_cons_self
    | some b => exact List.mem_cons_of_mem _ (List.mem_map_of_mem (hx b rfl))
  have hlast : x ∈ (none :: (qs.map some ++ [none])).tail := by
    cases x with
    | none => simp
    | some b => simp [hx b rfl]
  exact ⟨Links.prev_next h x hfirst, Links.next_prev h x hlast⟩

/-! ## Walking the ring -/

/-- `for (x = start; x != head; x = step(x)) if (test(x)) return x;`, run at most `n` times:
`some (some b)` when it returns `b`, `some none` when it is back at the header, and `none`
when `n` runs are not enough. -/
def find (step : Option β → Option β) (test : β → Bool) : Nat → Option β → Option (Option β)
  | _, none => some none
  | 0, some _ => none
  | n + 1, some b => if test b then some (some b) else find step test n (step (some b))

/-- Along a run of members that ends at the header, `find` is `List.find?`. -/
theorem find_of_links (test : β → Bool) :
    ∀ {qs : List β} {n : Nat}, Links p (qs.map some ++ [none]) → qs.length ≤ n →
      find p.next test n qs.head? = some (qs.find? test)
  | [], n, _, _ => by cases n <;> rfl
  | _ :: _, 0, _, hn => absurd hn (by simp)
  | b :: qs, n + 1, h, hn => by
    obtain ⟨h1, -, h3⟩ := links_cons_members.mp h
    by_cases ht : test b
    · simp [find, ht]
    · simp only [List.head?_cons, find, ht, Bool.false_eq_true, ↓reduceIte,
        List.find?_cons_of_neg ht]
      rw [h1]
      exact find_of_links test h3 (by simpa using hn)

/-- The forward loop over a ring meets the members in `next` order. -/
theorem Ring.find_next {qs : List β} (h : Ring p qs) (test : β → Bool) {n : Nat}
    (hn : qs.length ≤ n) : find p.next test n (p.next none) = some (qs.find? test) := by
  obtain ⟨h1, -, h3⟩ := links_cons_members.mp h
  rw [h1]
  exact find_of_links test h3 hn

/-- The backward loop over a ring meets the members in reverse order. -/
theorem Ring.find_prev {qs : List β} (h : Ring p qs) (test : β → Bool) {n : Nat}
    (hn : qs.length ≤ n) : find p.prev test n (p.prev none) = some (qs.reverse.find? test) :=
  h.swap.find_next test (by simpa using hn)

/-- A member `find` returns passes the test. -/
theorem find_test {step : Option β → Option β} {test : β → Bool} :
    ∀ {n : Nat} {x : Option β} {b : β}, find step test n x = some (some b) → test b = true
  | _, none, _, h => by simp [find] at h
  | 0, some _, _, h => by simp [find] at h
  | n + 1, some c, b, h => by
    simp only [find] at h
    split at h
    · cases h
      assumption
    · exact find_test h

/-! ## Edits -/

section Edits

variable [DecidableEq β]

/-- `x->next->prev = x->prev; x->prev->next = x->next;` -/
def Ptrs.unlink (p : Ptrs β) (x : Option β) : Ptrs β :=
  let p := { p with prev := Function.update p.prev (p.next x) (p.prev x) }
  { p with next := Function.update p.next (p.prev x) (p.next x) }

/-- `x->next = head.next; x->prev = &head; head.next->prev = x; head.next = x;` -/
def Ptrs.pushFront (p : Ptrs β) (x : Option β) : Ptrs β :=
  let p := { p with next := Function.update p.next x (p.next none) }
  let p := { p with prev := Function.update p.prev x none }
  let p := { p with prev := Function.update p.prev (p.next none) x }
  { p with next := Function.update p.next none x }

/-- **Unlink a node.** Taking `x` out from between the last node of `A` and the first of
`B` sets their `next` and `prev` to each other and keeps every other link the run reads. -/
theorem links_unlink {A B : List (Option β)} {x : Option β} (h : Links p (A ++ x :: B))
    (hA : A ≠ []) (hB : B ≠ []) (hAn : A.Nodup) (hBn : B.Nodup) (hx : x ∉ B)
    (hAB : ∀ a ∈ A.tail, a ∉ B) (hBA : ∀ b ∈ B.dropLast, b ∉ A) :
    Links (p.unlink x) (A ++ B) := by
  obtain ⟨l₁, u, rfl⟩ : ∃ l₁ u, A = l₁ ++ [u] := ⟨_, _, (List.dropLast_append_getLast hA).symm⟩
  obtain ⟨z, l₂, rfl⟩ : ∃ z l₂, B = z :: l₂ := ⟨_, _, (List.cons_head_tail hB).symm⟩
  have hu : u ∉ l₁ := fun e => (List.nodup_append.mp hAn).2.2 u e u (List.mem_singleton_self u) rfl
  have hz : z ∉ l₂ := (List.nodup_cons.mp hBn).1
  have hu' : u ∉ (z :: l₂).dropLast := fun e => hBA u e (by simp)
  have hz' : z ∉ (l₁ ++ [u]).tail := fun e => hAB z e (by simp)
  have hxz : x ≠ z := fun e => hx (e ▸ List.mem_cons_self)
  rw [List.append_assoc, List.singleton_append, links_append] at h
  rw [List.append_assoc, List.singleton_append, links_append]
  obtain ⟨hpre, -, hxu, hxz', -, hpost⟩ := h
  have hprev : (p.unlink x).prev = Function.update p.prev z u := by
    simp [Ptrs.unlink, hxz', hxu]
  -- the second store reads `x->prev` after the first, which left it alone
  have hnext : (p.unlink x).next = Function.update p.next u z := by
    simp [Ptrs.unlink, hxz', hxu, Function.update_of_ne hxz]
  refine ⟨hpre.congr (fun a ha => ?_) (fun b hb => ?_), ?_, ?_,
    hpost.congr (fun a ha => ?_) (fun b hb => ?_)⟩
  · rw [List.dropLast_concat] at ha
    rw [hnext, Function.update_of_ne (by rintro rfl; exact hu ha)]
  · rw [hprev, Function.update_of_ne (by rintro rfl; exact hz' hb)]
  · rw [hnext, Function.update_self]
  · rw [hprev, Function.update_self]
  · rw [hnext, Function.update_of_ne (by rintro rfl; exact hu' ha)]
  · rw [hprev, Function.update_of_ne (by rintro rfl; exact hz hb)]

/-- **Unlink a member** from the ring. -/
theorem Ring.unlink {pre post : List β} {x : β} (h : Ring p (pre ++ x :: post))
    (hnd : (pre ++ x :: post).Nodup) : Ring (p.unlink (some x)) (pre ++ post) := by
  rw [List.nodup_middle, List.nodup_cons, List.nodup_append] at hnd
  obtain ⟨hx, hpre, hpost, hdisj⟩ := hnd
  simp only [List.mem_append, not_or] at hx
  have hsome : ∀ {l : List β}, l.Nodup → (l.map some).Nodup := fun hl =>
    hl.map (Option.some_injective _)
  -- the ring is `A ++ some x :: B`: `x`'s neighbours are the last of `A` and the first of `B`
  have hring : Links p ((none :: pre.map some) ++ some x :: (post.map some ++ [none])) := by
    simpa [Ring] using h
  have hgoal : Ring (p.unlink (some x)) (pre ++ post) ↔
      Links (p.unlink (some x)) ((none :: pre.map some) ++ (post.map some ++ [none])) := by
    simp [Ring]
  rw [hgoal]
  refine links_unlink hring (List.cons_ne_nil _ _) (by simp) ?_ ?_ ?_ ?_ ?_
  · exact List.nodup_cons.mpr ⟨by simp, hsome hpre⟩
  · exact List.nodup_append.mpr ⟨hsome hpost, List.nodup_singleton _, by simp⟩
  · simpa using hx.2
  · intro a ha hb
    simp only [List.tail_cons, List.mem_map, List.mem_append, List.mem_singleton] at ha hb
    obtain ⟨c, hc, rfl⟩ := ha
    rcases hb with ⟨d, hd, e⟩ | e
    · exact hdisj c hc d hd (Option.some_injective _ e).symm
    · cases e
  · intro b hb ha
    rw [List.dropLast_concat] at hb
    simp only [List.mem_map, List.mem_cons] at hb ha
    obtain ⟨d, hd, rfl⟩ := hb
    rcases ha with e | ⟨c, hc, e⟩
    · cases e
    · exact hdisj c hc d hd (Option.some_injective _ e)

/-- **Link a member in** right after the header. -/
theorem Ring.pushFront {qs : List β} {x : β} (h : Ring p qs) (hnd : qs.Nodup) (hx : x ∉ qs) :
    Ring (p.pushFront (some x)) (x :: qs) := by
  obtain ⟨h1, h2, h3⟩ := links_cons_members.mp h
  have hne : qs.head? ≠ some x := fun e => hx (List.mem_of_mem_head? e)
  have hnext : (p.pushFront (some x)).next =
      Function.update (Function.update p.next (some x) qs.head?) none (some x) := by
    simp [Ptrs.pushFront, h1]
  have hprev : (p.pushFront (some x)).prev =
      Function.update (Function.update p.prev (some x) none) qs.head? (some x) := by
    simp [Ptrs.pushFront, h1]
  show Links _ (none :: some x :: (qs.map some ++ [none]))
  refine ⟨by rw [hnext, Function.update_self], ?_, ?_⟩
  · rw [hprev, Function.update_of_ne (Ne.symm hne), Function.update_self]
  refine links_cons_members.mpr ⟨?_, ?_, h3.congr (fun a ha => ?_) (fun b hb => ?_)⟩
  · rw [hnext, Function.update_of_ne (Option.some_ne_none x), Function.update_self]
  · rw [hprev, Function.update_self]
  · -- a member of `qs`: neither the header nor `x`
    rw [List.dropLast_concat, List.mem_map] at ha
    obtain ⟨c, hc, rfl⟩ := ha
    have hcx : c ≠ x := fun e => hx (e ▸ hc)
    rw [hnext, Function.update_of_ne (Option.some_ne_none c),
      Function.update_of_ne (by simpa using hcx)]
  · -- a node after the first member: not the first member, and not `x`
    have hbx : b ≠ some x := by
      intro e
      subst e
      cases qs with
      | nil => simp at hb
      | cons c qs => simp_all
    have hbh : b ≠ qs.head? := by
      cases qs with
      | nil => simp at hb
      | cons c qs =>
        simp only [List.map_cons, List.cons_append, List.tail_cons, List.head?_cons] at hb ⊢
        intro e
        subst e
        simp only [List.mem_append, List.mem_map, Option.some.injEq, exists_eq_right,
          List.mem_singleton, reduceCtorEq, or_false] at hb
        exact (List.nodup_cons.mp hnd).1 hb
    rw [hprev, Function.update_of_ne hbh, Function.update_of_ne hbx]

/-- Unlinking a member and linking it in after the header moves it to the front. -/
theorem Ring.moveFront {qs : List β} {x : β} (h : Ring p qs) (hnd : qs.Nodup) (hx : x ∈ qs) :
    Ring ((p.unlink (some x)).pushFront (some x)) (x :: qs.erase x) := by
  obtain ⟨pre, post, rfl⟩ := List.append_of_mem hx
  have hmid := List.nodup_middle.mp hnd
  obtain ⟨hxs, hrest⟩ := List.nodup_cons.mp hmid
  have hxpre : x ∉ pre := fun e => hxs (List.mem_append_left _ e)
  rw [List.erase_append_right _ hxpre, List.erase_cons_head]
  exact (h.unlink hnd).pushFront hrest hxs

/-- Linking in every element of `l` after the header, in order. -/
theorem Ring.foldl_pushFront :
    ∀ {p : Ptrs β} {qs l : List β}, Ring p qs → (l.reverse ++ qs).Nodup →
      Ring (l.foldl (fun p x => p.pushFront (some x)) p) (l.reverse ++ qs)
  | _, _, [], h, _ => h
  | p, qs, x :: l, h, hnd => by
    have hnd' : (l.reverse ++ x :: qs).Nodup := by simpa using hnd
    have hxqs := (List.nodup_append.mp hnd').2.1
    have h' : Ring (p.pushFront (some x)) (x :: qs) :=
      h.pushFront (List.nodup_cons.mp hxqs).2 (List.nodup_cons.mp hxqs).1
    simpa using Ring.foldl_pushFront h' hnd'

end Edits

end LinkRing
