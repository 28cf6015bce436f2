import Unbundled.Text.Basic

/-! # Cursors

A cursor is a place in a source text: the characters behind it, nearest first, and the characters
ahead of it. A reader moves a cursor forward only, so everything a reader has passed stays at hand
for the decisions that look back.

* `advance`: the place `n` characters further on; `whole_advance` says that the text stays the same.
* `Onward`: one place lies at or after another in the same text. Readers that return a cursor come
  with a lemma of this form, which is also what ends the loops that call them.
-/

namespace Unbundled

/-- A place in a text. -/
structure Cursor where
  behind : Text
  ahead : Text
  deriving DecidableEq, Repr

namespace Cursor

/-- The place before a text. -/
def start (t : Text) : Cursor := ⟨[], t⟩

/-- The text that the place lies in. -/
def whole (c : Cursor) : Text := c.behind.reverse ++ c.ahead

/-- The number of bytes behind the place. -/
def offset (c : Cursor) : Nat := Text.bytes c.behind

/-- The place `n` characters further on, or the end if there are fewer. -/
def advance (n : Nat) (c : Cursor) : Cursor :=
  ⟨(c.ahead.take n).reverse ++ c.behind, c.ahead.drop n⟩

/-- The end of the text. -/
def finish (c : Cursor) : Cursor := c.advance c.ahead.length

@[simp] theorem whole_start (t : Text) : (start t).whole = t := rfl

@[simp] theorem whole_advance (n : Nat) (c : Cursor) : (c.advance n).whole = c.whole := by
  simp only [whole, advance, List.reverse_append, List.reverse_reverse, List.append_assoc,
    List.take_append_drop]

@[simp] theorem ahead_advance (n : Nat) (c : Cursor) : (c.advance n).ahead = c.ahead.drop n := rfl

@[simp] theorem advance_zero (c : Cursor) : c.advance 0 = c := by simp [advance]

theorem advance_advance (m n : Nat) (c : Cursor) : (c.advance m).advance n = c.advance (m + n) := by
  simp only [advance, List.drop_drop, mk.injEq, and_true]
  rw [List.take_add, List.reverse_append, List.append_assoc]

/-! ### Order of places -/

/-- The second place lies at or after the first one. -/
def Onward (c d : Cursor) : Prop := ∃ n, d = c.advance n

theorem Onward.refl (c : Cursor) : Onward c c := ⟨0, by simp⟩

theorem Onward.trans {c d e : Cursor} : Onward c d → Onward d e → Onward c e := by
  rintro ⟨m, rfl⟩ ⟨n, rfl⟩
  exact ⟨m + n, advance_advance m n c⟩

theorem onward_advance (n : Nat) (c : Cursor) : Onward c (c.advance n) := ⟨n, rfl⟩

theorem onward_finish (c : Cursor) : Onward c c.finish := onward_advance _ c

theorem Onward.length_le {c d : Cursor} : Onward c d → d.ahead.length ≤ c.ahead.length := by
  rintro ⟨n, rfl⟩
  simp

theorem length_advance_lt {c : Cursor} {x : Char} {r : Text} (h : c.ahead = x :: r) (n : Nat) :
    (c.advance (n + 1)).ahead.length < c.ahead.length := by
  rw [ahead_advance, h, List.drop_succ_cons]
  exact Text.length_drop_lt n x r

end Cursor

end Unbundled
