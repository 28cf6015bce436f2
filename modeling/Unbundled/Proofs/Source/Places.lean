import Mathlib.Tactic.Common
import Unbundled.Proofs.Text.Parts
import Unbundled.Source.Cursor

/-! # Places of one text

A place is known by the text that it lies in and by its offset (`eq_of_offset_eq`). Places of one text
are ordered by their offsets, and a step of one or more characters that are there raises the offset
(`offset_lt_advance`). -/

namespace Unbundled.Cursor

@[simp] theorem behind_advance (n : Nat) (c : Cursor) :
    (c.advance n).behind = (c.ahead.take n).reverse ++ c.behind := rfl

theorem offset_advance (n : Nat) (c : Cursor) :
    (c.advance n).offset = c.offset + Text.bytes (c.ahead.take n) := by
  rw [offset, behind_advance, Text.bytes_append, Text.bytes_reverse, Nat.add_comm, offset]

theorem bytes_whole (c : Cursor) : Text.bytes c.whole = c.offset + Text.bytes c.ahead := by
  rw [whole, Text.bytes_append, Text.bytes_reverse, offset]

theorem offset_finish (c : Cursor) : c.finish.offset = Text.bytes c.whole := by
  rw [finish, offset_advance, List.take_length, bytes_whole]

theorem whole_finish (c : Cursor) : c.finish.whole = c.whole := whole_advance _ c

/-- A place is known by its text and its offset. -/
theorem eq_of_offset_eq {c d : Cursor} (hw : c.whole = d.whole) (ho : c.offset = d.offset) :
    c = d := by
  have hb : Text.bytes c.behind.reverse = Text.bytes d.behind.reverse := by
    rw [Text.bytes_reverse, Text.bytes_reverse]
    exact ho
  obtain ⟨h1, h2⟩ := Text.eq_of_append_eq hw hb
  cases c
  cases d
  simp only [List.reverse_inj] at h1 h2
  rw [h1, h2]

theorem Onward.whole_eq {c d : Cursor} : Onward c d → d.whole = c.whole := by
  rintro ⟨n, rfl⟩
  exact whole_advance n c

theorem Onward.offset_le {c d : Cursor} : Onward c d → c.offset ≤ d.offset := by
  rintro ⟨n, rfl⟩
  rw [offset_advance]
  exact Nat.le_add_right _ _

theorem offset_lt_advance {c : Cursor} {n : Nat} (h : c.ahead ≠ []) (hn : 0 < n) :
    c.offset < (c.advance n).offset := by
  have : c.ahead.take n ≠ [] := by
    intro he
    rcases List.take_eq_nil_iff.mp he with h0 | h0
    · omega
    · exact h h0
  have := Text.bytes_pos this
  rw [offset_advance]
  omega

theorem advance_of_nil {c : Cursor} (h : c.ahead = []) (n : Nat) : c.advance n = c := by
  rw [advance, h, List.take_nil, List.drop_nil, List.reverse_nil, List.nil_append, ← h]

theorem finish_advance (n : Nat) (c : Cursor) : (c.advance n).finish = c.finish := by
  refine eq_of_offset_eq ?_ ?_
  · rw [whole_finish, whole_finish, whole_advance]
  · rw [offset_finish, offset_finish, whole_advance]

/-- Moving past a known part of what is ahead. -/
theorem advance_length {c : Cursor} {s t : Text} (h : c.ahead = s ++ t) :
    c.advance s.length = ⟨s.reverse ++ c.behind, t⟩ := by
  rw [advance, h, List.take_left, List.drop_left]

end Unbundled.Cursor
