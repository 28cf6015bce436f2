import Unbundled.Proofs.Import.Spans

/-! # Places that the scan comes to

The scan is a loop: at every place it takes one `Turn`, which moves it on and finds at most one import.
`Reached` are the places where a turn begins, with what has been found until then.

* `scan_of_reached`: what is found in the whole source is what has been found, and what the scan finds
  from the place on. -/

namespace Unbundled.Import

variable {source : Text} {is : List Import} {c d : Cursor} {found : Option Import}

/-- One turn of the scan, from `c` to `d`. -/
def Turn (c : Cursor) (found : Option Import) (d : Cursor) : Prop :=
  ∃ x t, c.ahead = x :: t ∧ step c x t = (found, d)

/-- The scan of a source comes to a place, where a turn begins, after it has found `is`. -/
inductive Reached (source : Text) : List Import → Cursor → Prop
  | start : Reached source [] (Cursor.start source)
  | turn {is : List Import} {c d : Cursor} {found : Option Import} : Reached source is c →
      Turn c found d → Reached source (is ++ found.toList) d

theorem Turn.onward (h : Turn c found d) : c.Onward d := by
  obtain ⟨x, t, hc, hs⟩ := h
  obtain ⟨p, hw, he⟩ := walk_step hc
  rw [hs] at he
  exact hw.onward.trans he.onward

/-- **Every turn leads on.** -/
theorem Turn.length_lt (h : Turn c found d) : d.ahead.length < c.ahead.length := by
  obtain ⟨x, t, hc, hs⟩ := h
  have hlt := length_step_lt hc
  rwa [hs] at hlt

theorem Turn.scanFrom_eq (h : Turn c found d) : scanFrom c = found.toList ++ scanFrom d := by
  obtain ⟨x, t, hc, hs⟩ := h
  rw [scanFrom_cons hc, hs]

theorem Reached.onward (h : Reached source is c) : (Cursor.start source).Onward c := by
  induction h with
  | start => exact Cursor.Onward.refl _
  | turn _ ht ih => exact ih.trans ht.onward

/-- **What is found, and what is still to be found.** -/
theorem scan_of_reached (h : Reached source is c) : scan source = is ++ scanFrom c := by
  induction h with
  | start => rfl
  | turn _ ht ih => rw [ih, ht.scanFrom_eq, List.append_assoc]

end Unbundled.Import
