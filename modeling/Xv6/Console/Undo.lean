import Xv6.Console.Select

/-!
# Undo

`undo` is a stack of `struct op` records, pushed while it has room: an insertion (a printable
key, each byte of ^V) pushes `OP_INSERT` with the byte and its position, a deletion (backspace,
each byte `delete_selection` removes) pushes `OP_DELETE`. ^Z pops the last record. An
`OP_INSERT` inside the line is taken back by closing the gap at its position; for an
`OP_DELETE` the `case C('Z')` has no code, so the record is dropped and the byte stays deleted
(`keyUndo_of_delete`).
-/

namespace Xv6.Console

open CInt CLoop

/-- `deselect_if_any` drops a completed selection and redraws; nothing else changes. -/
theorem deselectIfAny_spec (st : State) :
    ∃ g, deselectIfAny st =
      { st with input := if st.hasSelection then st.input.dropSel else st.input, cga := g } := by
  rw [deselectIfAny_eq]
  split
  · obtain ⟨g, hg⟩ := clearSelection_eq st
    exact ⟨g, hg⟩
  · exact ⟨st.cga, rfl⟩

/-- ^Z on an `OP_DELETE` record pops it and changes nothing else but the selection and the
screen: the ring, the line and the cursor stay as they are. -/
theorem keyUndo_of_delete {st : State} (hn : 0 < st.undo.n.toNat) (hle : st.undo.n.toNat ≤ 128)
    (hd : (st.undo.buf ⟨st.undo.n.toNat - 1, by omega⟩).type = .delete) :
    ∃ g, keyUndo st = .ok { st with
      input := if st.hasSelection then st.input.dropSel else st.input
      undo := { st.undo with n := st.undo.n - 1 }
      cga := g } := by
  obtain ⟨g, hg⟩ := deselectIfAny_spec st
  have hn1 : (st.undo.n - 1).toNat = st.undo.n.toNat - 1 := toNat_sub_one hn
  have hlast : st.undo.buf ⟨(st.undo.n - 1).toNat, by omega⟩ =
      st.undo.buf ⟨st.undo.n.toNat - 1, by omega⟩ := congrArg _ (Fin.ext hn1)
  refine ⟨g, ?_⟩
  unfold keyUndo
  rw [hg]
  dsimp only
  rw [if_pos (UInt32.lt_iff_toNat_lt.mpr (by simpa using hn)),
    arrGetU_of_lt _ (by rw [hn1]; omega), ok_bind, hlast, hd]
  rfl

/-- From `consoleinit`: the line is `a` after the key `a`; DEL then deletes it, and ^Z, which
pops the DEL's `OP_DELETE` record, leaves the line empty. -/
theorem undo_keeps_deletion :
    (match consoleKeys [97] (consoleinit ⟨fun _ => 0x0720, 0⟩) with
      | .ok st => st.input.line == [97]
      | .error _ => false) = true ∧
    (match consoleKeys [97, 0x7f, ctrl 'Z'] (consoleinit ⟨fun _ => 0x0720, 0⟩) with
      | .ok st => st.input.line == [] && st.undo.n == 1
      | .error _ => false) = true :=
  ⟨by decide, by decide⟩

end Xv6.Console
