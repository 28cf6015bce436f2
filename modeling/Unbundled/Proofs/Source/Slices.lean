import Mathlib.Data.Nat.PSub
import Unbundled.Proofs.Source.Bytewise

/-! # Searches in slices

Further readers by index: whether some bytes stand at an index (`startsWith?`), where they are found in
the slice between two indices (`findIn?`), and the byte before an index (`byteBefore?`). Each fails where
its index or its slice is out of range.

A turn of a `sliceLoop` does not look at one byte but takes all bytes from its index on as a slice.

The lemmas `…_offset` say what the readers find at the offset of a place. -/

namespace Unbundled.Source.Indexed

/-! ### Readers -/

section Readers

variable (source : Text)

/-- The byte before an index. -/
def byteBefore? (i : Nat) : Option Char := i.ppred.bind (byteAt? source)

/-- Whether the bytes from an index on, which are a slice, start with `pat`. -/
def startsWith? (pat : Text) (i : Nat) : Option Bool :=
  if i ≤ size source then some (pat.isPrefixOf ((units source).drop i)) else none

/-- Where the bytes `pat` begin in the slice between two indices, counted from its start, if they are
found there. -/
def findIn? (pat : Text) (i j : Nat) : Option (Option Nat) :=
  if i ≤ j ∧ j ≤ size source then
    some ((Text.cut? pat (((units source).drop i).take (j - i))).map fun parts => parts.1.length)
  else none

end Readers

variable {σ α : Type}

/-- A loop whose turns take the bytes from the index on as a slice. It fails if this slice is out of range,
and if one of its turns fails or does not lead on. -/
def sliceLoop (source : Text) (turn : σ → Nat → Option (Sequel σ α)) (s : σ) (i : Nat) : Option α :=
  if i ≤ size source then
    match turn s i with
    | none => none
    | some (.done a) => some a
    | some (.next s' j) => if i < j then sliceLoop source turn s' j else none
  else none
termination_by size source + 1 - i
decreasing_by omega

/-! ### At the offset of a place -/

section Places

variable {source : Text} {turn : σ → Nat → Option (Sequel σ α)} {p : Char → Bool}
  {a : α} {b pat u w : Text} {c : Cursor} {n : Nat} {s s' : σ} {x : Char}

theorem sliceLoop_done (hc : c.whole = source) (ht : turn s c.offset = some (.done a)) :
    sliceLoop source turn s c.offset = some a := by
  rw [sliceLoop, if_pos (offset_le_size hc), ht]

theorem sliceLoop_next (hc : c.whole = source)
    (ht : turn s c.offset = some (.next s' (c.advance n).offset))
    (hlt : (c.advance n).ahead.length < c.ahead.length) :
    sliceLoop source turn s c.offset = sliceLoop source turn s' (c.advance n).offset := by
  rw [Cursor.ahead_advance, List.length_drop] at hlt
  have hne : c.ahead ≠ [] := List.length_pos_iff.mp (by omega)
  rw [sliceLoop, if_pos (offset_le_size hc), ht]
  exact if_pos (Cursor.offset_lt_advance hne (by omega))

theorem drop_units_offset (hc : c.whole = source) : (units source).drop c.offset = units c.ahead := by
  refine List.ext_getElem? fun k => ?_
  rw [List.getElem?_drop]
  exact byteAt?_offset hc k

theorem offset_advance_length (h : c.ahead = w ++ u) :
    (c.advance w.length).offset = c.offset + Text.bytes w := by
  rw [Cursor.offset_advance, h, List.take_left]

theorem ahead_advance_length (h : c.ahead = w ++ u) : (c.advance w.length).ahead = u := by
  rw [Cursor.ahead_advance, h, List.drop_left]

/-- What is ahead of a place ends where the text does. -/
theorem offset_add_bytes (hc : c.whole = source) : c.offset + Text.bytes c.ahead = size source := by
  rw [← Cursor.bytes_whole, hc, size_eq_bytes]

theorem byteBefore?_offset (hc : c.whole = source) (h : c.behind = x :: b) :
    ∃ y, ByteOf x y ∧ byteBefore? source c.offset = some y := by
  obtain ⟨k, y, hk, hy, hb⟩ := exists_behind hc h
  refine ⟨y, hy, ?_⟩
  rw [byteBefore?, hk]
  exact hb

/-- A class of ASCII characters holds the next byte if it holds the next character. -/
theorem any_byteAt? (hp : AsciiOnly p) (hc : c.whole = source) :
    (byteAt? source c.offset).any p = c.ahead.head?.any p := by
  cases h : c.ahead with
  | nil =>
    rw [byteAt?_end hc h]
    rfl
  | cons x t =>
    obtain ⟨y, hy, hb⟩ := exists_byteAt? hc h
    rw [hb]
    exact hy.class_eq hp

theorem startsWith?_offset (hc : c.whole = source) (hp : isAscii pat) :
    startsWith? source pat c.offset = some (pat.isPrefixOf c.ahead) := by
  rw [startsWith?, if_pos (offset_le_size hc), drop_units_offset hc, Option.some.injEq, Bool.eq_iff_iff,
    List.isPrefixOf_iff_prefix, List.isPrefixOf_iff_prefix]
  exact isPrefix_units_iff hp

theorem findIn?_offset (hc : c.whole = source) (h : c.ahead = w ++ u) (hp : isAscii pat)
    (hne : pat ≠ []) :
    findIn? source pat c.offset (c.advance w.length).offset =
      some ((Text.cut? pat w).map fun parts => Text.bytes parts.1) := by
  have hle := offset_le_size (whole_advance hc w.length)
  have htake : (units c.ahead).take (Text.bytes w) = units w := by
    rw [h, units_append, ← size_eq_bytes, ← length_units, List.take_left]
  rw [findIn?, offset_advance_length h, if_pos ⟨Nat.le_add_right _ _, offset_advance_length h ▸ hle⟩,
    Nat.add_sub_cancel_left, drop_units_offset hc, htake, cut?_units hp hne, Option.map_map]
  exact congrArg (fun f => some (Option.map f _))
    (funext fun parts => (length_units parts.1).trans (size_eq_bytes parts.1))

/-- The text behind a place is the slice up to its offset. -/
theorem slice?_behind (hc : c.whole = source) : slice? source 0 c.offset = some c.behind.reverse := by
  have h := slice?_append [] c.behind.reverse c.ahead
  rw [List.nil_append, ← Cursor.whole, hc, Text.bytes_reverse] at h
  rwa [show Text.bytes [] = 0 from rfl, Nat.zero_add] at h

/-- The text ahead of a place is the slice from its offset on. -/
theorem slice?_ahead (hc : c.whole = source) : slice? source c.offset (size source) = some c.ahead := by
  have h := slice?_advance hc c.ahead.length
  rwa [List.take_length, ← Cursor.finish, offset_finish hc] at h

end Places

end Unbundled.Source.Indexed
