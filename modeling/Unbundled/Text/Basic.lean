/-! # Text

A text is a list of characters. Places in a text are counted in bytes of its UTF-8 form, so every
offset that the library reports is a sum of character sizes. This module holds the measures and
searches that the rest of the library shares:

* `bytes`: the size of a text, with `bytes_append`.
* `splitAt?`: the two parts of a text around a byte offset, if the offset lies on a character
  boundary; `splitAt?_bytes` says that every boundary is found and `append_of_splitAt?` that the
  parts make up the text.
* `cut?`: the parts around the first occurrence of a pattern, with `append_of_cut?`.
-/

namespace Unbundled

/-- A text, character by character. -/
abbrev Text := List Char

namespace Text

/-! ### Sizes and offsets -/

/-- The number of bytes of the UTF-8 form. -/
def bytes : Text → Nat
  | [] => 0
  | c :: t => c.utf8Size + bytes t

@[simp] theorem bytes_nil : bytes [] = 0 := rfl

@[simp] theorem bytes_cons (c : Char) (t : Text) : bytes (c :: t) = c.utf8Size + bytes t := rfl

@[simp] theorem bytes_append (s t : Text) : bytes (s ++ t) = bytes s + bytes t := by
  induction s with
  | nil => rw [List.nil_append, bytes_nil, Nat.zero_add]
  | cons c s ih => rw [List.cons_append, bytes_cons, bytes_cons, ih, Nat.add_assoc]

theorem length_le_bytes : ∀ t : Text, t.length ≤ bytes t
  | [] => by simp
  | c :: t => by
    have := length_le_bytes t
    have := c.utf8Size_pos
    simp only [List.length_cons, bytes_cons]
    omega

/-- What is left of a text after its first character is shorter than the text. -/
theorem length_drop_lt (n : Nat) (c : Char) (t : Text) : (t.drop n).length < (c :: t).length := by
  rw [List.length_drop, List.length_cons]
  omega

/-- The parts before and after byte `n`. There are none if the text is shorter, or if byte `n` lies
inside a character. -/
def splitAt? : Nat → Text → Option (Text × Text)
  | 0, t => some ([], t)
  | _ + 1, [] => none
  | n + 1, c :: t =>
    if c.utf8Size ≤ n + 1 then
      (splitAt? (n + 1 - c.utf8Size) t).map fun (s, u) => (c :: s, u)
    else none
termination_by _ t => t.length

@[simp] theorem splitAt?_zero (t : Text) : splitAt? 0 t = some ([], t) := by
  cases t <;> simp [splitAt?]

theorem splitAt?_bytes : ∀ s t : Text, splitAt? (bytes s) (s ++ t) = some (s, t)
  | [], t => by simp
  | c :: s, t => by
    have hpos := c.utf8Size_pos
    obtain ⟨n, hn⟩ : ∃ n, bytes (c :: s) = n + 1 := ⟨bytes (c :: s) - 1, by simp; omega⟩
    have hs : n + 1 - c.utf8Size = bytes s := by rw [← hn]; simp
    rw [hn, List.cons_append, splitAt?, if_pos (by rw [← hn]; simp), hs, splitAt?_bytes s t]
    rfl

theorem append_of_splitAt? : ∀ {n : Nat} {t s u : Text}, splitAt? n t = some (s, u) →
    t = s ++ u ∧ bytes s = n
  | 0, t, s, u, h => by
    simp only [splitAt?_zero, Option.some.injEq, Prod.mk.injEq] at h
    obtain ⟨rfl, rfl⟩ := h
    simp
  | n + 1, [], s, u, h => by simp [splitAt?] at h
  | n + 1, c :: t, s, u, h => by
    rw [splitAt?] at h
    split at h
    · rename_i hc
      obtain ⟨⟨s', u'⟩, h', he⟩ := Option.map_eq_some_iff.mp h
      obtain ⟨rfl, hb⟩ := append_of_splitAt? h'
      simp only [Prod.mk.injEq] at he
      obtain ⟨rfl, rfl⟩ := he
      refine ⟨rfl, ?_⟩
      rw [bytes_cons, hb]
      omega
    · simp at h
termination_by _ t => t.length

/-! ### Searches -/

/-- What follows `pat` at the front of a text, if the text starts with it. -/
def after? : Text → Text → Option Text
  | [], t => some t
  | _ :: _, [] => none
  | p :: pat, c :: t => if p = c then after? pat t else none

theorem after?_eq_some_iff : ∀ {pat t u : Text}, after? pat t = some u ↔ t = pat ++ u
  | [], t, u => by simp [after?]
  | p :: pat, [], u => by simp [after?]
  | p :: pat, c :: t, u => by
    unfold after?
    split
    · rename_i h
      subst h
      rw [after?_eq_some_iff]
      simp
    · rename_i h
      simp [Ne.symm h]

/-- The parts before and after the first occurrence of `pat`. -/
def cut? (pat : Text) : Text → Option (Text × Text)
  | [] => if pat = [] then some ([], []) else none
  | c :: t =>
    match after? pat (c :: t) with
    | some u => some ([], u)
    | none => (cut? pat t).map fun (s, u) => (c :: s, u)

theorem append_of_cut? {pat : Text} : ∀ {t s u : Text}, cut? pat t = some (s, u) →
    t = s ++ pat ++ u
  | [], s, u, h => by
    unfold cut? at h
    split at h
    · rename_i hp
      simp only [Option.some.injEq, Prod.mk.injEq] at h
      obtain ⟨rfl, rfl⟩ := h
      simp [hp]
    · simp at h
  | c :: t, s, u, h => by
    unfold cut? at h
    split at h
    · rename_i v hv
      simp only [Option.some.injEq, Prod.mk.injEq] at h
      obtain ⟨rfl, rfl⟩ := h
      simpa using after?_eq_some_iff.mp hv
    · obtain ⟨⟨s', u'⟩, h', he⟩ := Option.map_eq_some_iff.mp h
      simp only [Prod.mk.injEq] at he
      obtain ⟨rfl, rfl⟩ := he
      rw [append_of_cut? h']
      simp

theorem length_lt_of_cut? {pat t s u : Text} (h : cut? pat t = some (s, u)) (hp : pat ≠ []) :
    u.length < t.length := by
  rw [append_of_cut? h, List.length_append, List.length_append]
  have := List.length_pos_iff.mpr hp
  omega

/-- Whether `pat` occurs in a text. -/
def includes (t pat : Text) : Bool := (cut? pat t).isSome

/-- Whether a text ends in `pat`. -/
def endsWith (t pat : Text) : Bool := pat.isSuffixOf t

/-! ### Letters and digits -/

/-- The lower-case form of an ASCII letter; other characters are kept. -/
def lowerAscii (t : Text) : Text := t.map Char.toLower

/-- Whether two texts differ at most in the case of ASCII letters. -/
def sameIgnoringCase (s t : Text) : Bool := lowerAscii s == lowerAscii t

/-- The decimal digits of a number. -/
def ofNat (n : Nat) : Text := Nat.toDigits 10 n

/-- The number that decimal digits stand for, with or without zeros in front. -/
def nat? (t : Text) : Option Nat :=
  if !t.isEmpty && t.all Char.isDigit then
    some (t.foldl (fun n c => n * 10 + (c.toNat - '0'.toNat)) 0)
  else none

end Text

end Unbundled
