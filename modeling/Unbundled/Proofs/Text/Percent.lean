import Mathlib.Tactic.Common
import Unbundled.Text.Percent

/-! # What percent escapes stand for

`Stands` relates an escaped text to bytes: an escape is one byte, every other character its own bytes.
The reader finds these bytes and no others (`stands_iff`).
A text is read the same whatever comes after it, as long as this does not complete an escape
(`Stands.append`), and in a text without escapes nothing is replaced (`decode_append`). -/

namespace Unbundled.Percent

/-- The byte of the escape that a text starts with, and the text after it. -/
def escape? : Text → Option (UInt8 × Text)
  | '%' :: a :: b :: t => (byte? a b).map fun x => (x, t)
  | _ => none

/-- The bytes that an escaped text stands for. -/
inductive Stands : Text → Bytes → Prop
  | nil : Stands [] []
  | escape {s t : Text} {x : UInt8} {bs : Bytes} (h : escape? s = some (x, t)) (rest : Stands t bs) :
    Stands s (x :: bs)
  | char {c : Char} {t : Text} {bs : Bytes} (h : escape? (c :: t) = none) (rest : Stands t bs) :
    Stands (c :: t) (Text.encodeChar c ++ bs)

/-- Whether a percent sign with two hexadecimal digits after it occurs in a text. -/
def HasEscape (t : Text) : Prop := ∃ a b, (byte? a b).isSome ∧ ['%', a, b] <:+: t

variable {c : Char} {s t rest : Text} {x : UInt8} {bs : Bytes}

theorem exists_of_escape? (h : escape? s = some (x, t)) :
    ∃ a b, s = '%' :: a :: b :: t ∧ byte? a b = some x := by
  unfold escape? at h
  split at h
  · rename_i a b u
    obtain ⟨y, hy, he⟩ := Option.map_eq_some_iff.mp h
    obtain ⟨rfl, rfl⟩ := Prod.mk.inj he
    exact ⟨a, b, rfl, hy⟩
  · exact absurd h (by simp)

theorem decode_of_escape (h : escape? s = some (x, t)) : decode s = x :: decode t := by
  obtain ⟨a, b, rfl, hx⟩ := exists_of_escape? h
  rw [decode, hx]

theorem decode_cons (h : escape? (c :: t) = none) :
    decode (c :: t) = Text.encodeChar c ++ decode t := by
  by_cases hc : c = '%'
  · subst hc
    match t with
    | [] => rfl
    | [_] => rfl
    | a :: b :: u =>
      have hx : byte? a b = none := Option.map_eq_none_iff.mp h
      rw [decode, hx]
  · rw [decode.eq_def]
    split
    · rename_i heq
      exact absurd (List.cons.inj heq).1 hc
    · rename_i heq
      obtain ⟨rfl, rfl⟩ := List.cons.inj heq
      rfl
    · rename_i heq
      exact absurd heq (by simp)

theorem stands_decode (t : Text) : Stands t (decode t) := by
  fun_induction decode t with
  | case1 a b t x hx ih => exact .escape (by rw [escape?, hx]; rfl) ih
  | case2 a b t hx ih => exact .char (by rw [escape?, hx]; rfl) ih
  | case3 c t hc ih =>
    refine .char ?_ ih
    unfold escape?
    split
    · rename_i a b u heq
      obtain ⟨rfl, rfl⟩ := List.cons.inj heq
      exact (hc a b u rfl rfl).elim
    · rfl
  | case4 => exact .nil

/-- **The reader finds the bytes that a text stands for.** -/
theorem stands_iff : Stands t bs ↔ decode t = bs := by
  constructor
  · intro h
    induction h with
    | nil => rfl
    | escape h rest ih => rw [decode_of_escape h, ih]
    | char h rest ih => rw [decode_cons h, ih]
  · rintro rfl
    exact stands_decode t

/-! ### Texts without escapes -/

theorem byte?_eq_none {a b : Char} (h : Literal.hexValue? a = none ∨ Literal.hexValue? b = none) :
    byte? a b = none := by
  unfold byte?
  rcases h with h | h
  · rw [h]
    rfl
  · rw [h]
    cases Literal.hexValue? a <;> rfl

theorem HasEscape.of_tail (h : HasEscape t) : HasEscape (c :: t) := by
  obtain ⟨a, b, hx, ht⟩ := h
  exact ⟨a, b, hx, List.infix_cons ht⟩

theorem escape?_of_ne (h : c ≠ '%') : escape? (c :: t) = none := by
  unfold escape?
  split
  · rename_i heq
    exact absurd (List.cons.inj heq).1 h
  · rfl

theorem escape?_of_not_hasEscape (h : ¬ HasEscape (c :: t)) : escape? (c :: t) = none := by
  cases he : escape? (c :: t) with
  | none => rfl
  | some p =>
    obtain ⟨x, u⟩ := p
    obtain ⟨a, b, hp, hx⟩ := exists_of_escape? he
    rw [hp] at h
    exact absurd ⟨a, b, by rw [hx]; rfl, [], u, rfl⟩ h

/-- A text is read the same whatever comes after it, if no digit follows. -/
theorem escape?_append (hr : ∀ d ∈ rest.head?, Literal.hexValue? d = none) :
    escape? (c :: (t ++ rest)) = (escape? (c :: t)).map fun (x, u) => (x, u ++ rest) := by
  by_cases hc : c = '%'
  · subst hc
    -- the two digits may lie in the text, in what follows, or one in each
    match t, rest with
    | [], [] => rfl
    | [], [_] => rfl
    | [], a :: b :: u =>
      have hx := byte?_eq_none (b := b) (Or.inl (hr a rfl))
      simp only [List.nil_append, escape?, hx, Option.map_none]
    | [_], [] => rfl
    | [d], b :: u =>
      have hx := byte?_eq_none (a := d) (Or.inr (hr b rfl))
      simp only [List.singleton_append, escape?, hx, Option.map_none]
    | d :: e :: t, rest =>
      simp only [List.cons_append, escape?, Option.map_map]
      rfl
  · rw [escape?_of_ne hc, escape?_of_ne hc]
    rfl

theorem Stands.append {bs' : Bytes} (h : Stands t bs) (h' : Stands rest bs')
    (hr : ∀ d ∈ rest.head?, Literal.hexValue? d = none) : Stands (t ++ rest) (bs ++ bs') := by
  induction h with
  | nil => exact h'
  | @escape s t x bs h _ ih =>
    refine .escape ?_ ih
    obtain ⟨a, b, rfl, -⟩ := exists_of_escape? h
    rw [List.cons_append, escape?_append hr, h]
    rfl
  | @char c t bs h _ ih =>
    rw [List.append_assoc, List.cons_append]
    refine .char ?_ ih
    rw [escape?_append hr, h]
    rfl

theorem stands_of_not_hasEscape (h : ¬ HasEscape t) : Stands t (Text.encode t) := by
  induction t with
  | nil => exact .nil
  | cons c t ih => exact .char (escape?_of_not_hasEscape h) (ih fun ht => h ht.of_tail)

/-- **A text without escapes stands for its own bytes.** -/
theorem decode_append (h : ¬ HasEscape t) (hr : ∀ d ∈ rest.head?, Literal.hexValue? d = none) :
    decode (t ++ rest) = Text.encode t ++ decode rest :=
  stands_iff.mp ((stands_of_not_hasEscape h).append (stands_decode rest) hr)

end Unbundled.Percent
