import Xv6.Console.Refine

/-!
# Committing on a full ring

The default branch of `consoleintr` commits the line when the key is Enter or
when `input.e == input.r + INPUT_BUF`, and the commit stores a `'\n'` at
`input.buf[input.e++ % INPUT_BUF]`. On a full ring the slot of `e = r + 128`
is the slot of `r`: the commit overwrites the oldest byte no `consoleread`
has taken yet, and leaves `129` committed bytes in a ring of `128`
(`keyDefault_commit_on_full`). From `consoleinit`, 128 keys and one more do
it: the counters leave `e ≤ r + INPUT_BUF`, and the first read returns the
`'\n'` in place of the first byte typed.
-/

namespace Xv6.Console

open CInt CLoop

/-- Positions `INPUT_BUF` apart share a slot, also across the wrap of the counters. -/
theorem Input.at_add_128 (inp : Input) (p : UInt32) : inp.at (p + 128) = inp.at p := by
  simp only [Input.at, RingBuf.get, RingBuf.slot, UInt32.toNat_add]
  congr 2
  simp only [UInt32.reduceToNat]
  omega

theorem Input.commit_at (inp : Input) (v : UInt8) : (inp.commit v).at inp.e = v := by
  simp [Input.commit, Input.put, Input.at]

/-- A key other than Enter on a full ring, with no selection set, commits: `w` becomes
`r + INPUT_BUF + 1`, and the oldest unread byte, at `r`, now reads `'\n'`. -/
theorem keyDefault_commit_on_full {st : State} {k : UInt8}
    (hfull : st.input.e = st.input.r + 128) (hs : ¬st.hasSelection = true) (hk : k ≠ 0)
    (hk10 : k ≠ 10) (hk13 : k ≠ 13) :
    ∃ st', keyDefault k st = .ok st' ∧ st'.input.w = st.input.r + 128 + 1 ∧
      st'.input.e = st'.input.w ∧ st'.input.at st.input.r = 10 := by
  unfold keyDefault
  rw [if_neg hk]
  dsimp only
  rw [if_neg hs, pure_bind, if_neg hk13, if_pos (Or.inr hfull), if_neg hk10, pure_bind, pure_bind]
  refine ⟨_, rfl, by simp [Input.dropSel, Input.commit, hfull], by simp [Input.dropSel, Input.commit], ?_⟩
  simp only [clearSelection_input, Input.dropSel]
  rw [← Input.at_add_128, ← hfull]
  exact Input.commit_at _ 10

set_option maxRecDepth 100000 in
/-- From `consoleinit`, 128 `a`s fill the line and the ring; a `b` then commits, and the
counters break `e ≤ r + INPUT_BUF`: `r = 0` while `w = e = 129`. -/
theorem full_ring_commit_overruns :
    (match consoleKeys (List.replicate 128 97 ++ [98]) (consoleinit ⟨fun _ => 0x0720, 0⟩) with
      | .ok st => st.input.r == 0 && st.input.w == 129 && st.input.e == 129
      | .error _ => false) = true := by
  decide

set_option maxRecDepth 100000 in
/-- The same run read back: the line committed was 128 `a`s, but the first `consoleread`
returns the single byte `'\n'`, which the commit wrote over the first `a`. -/
theorem full_ring_commit_reads_newline :
    (match consoleKeys (List.replicate 128 97) (consoleinit ⟨fun _ => 0x0720, 0⟩) with
      | .ok st => st.input.line == List.replicate 128 97 && st.input.e == st.input.r + 128
      | .error _ => false) = true ∧
    (match consoleKeys (List.replicate 128 97 ++ [98]) (consoleinit ⟨fun _ => 0x0720, 0⟩) with
      | .ok st =>
        match consoleread false (ReadCall.start 200) st.input with
        | .done ret dst _ => ret == 1 && dst == [10]
        | .sleeping _ _ => false
      | .error _ => false) = true :=
  ⟨by decide +kernel, by decide +kernel⟩

end Xv6.Console
