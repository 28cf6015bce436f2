import Unbundled.Source.Lexeme
import Unbundled.Text.Blank

/-! # Blocks of a component

A block is what stands between an opening tag and its closing tag. The attributes of the opening tag
are kept as text and read when they are asked for: names, each alone or with a value after an equals
sign. A value is quoted or runs to the next blank.

* `attributes`: the attributes of a text, in order.
* `Block.hasAttr`, `Block.attr?`: questions about one attribute.
-/

namespace Unbundled.Component

open Source (isQuote)

/-- A block of a component file. -/
structure Block where
  /-- The text between the tags. -/
  content : Text
  /-- The attributes of the opening tag, trimmed. -/
  attrs : Text
  /-- The byte offset of the content. -/
  start : Nat
  deriving DecidableEq, Repr

/-- Whether a character belongs to an unquoted value. -/
def isValueChar (c : Char) : Bool := !Text.isBlank c

/-- Whether a character belongs to the name of an attribute. -/
def isKeyChar (c : Char) : Bool := !Text.isBlank c && c != '='

/-- The value after an equals sign, and what follows it. A quoted value that is not closed runs to
the end. -/
def readValue (t : Text) : Text × Text :=
  match Text.trimStart t with
  | [] => ([], [])
  | c :: t =>
    if isQuote c then (Text.cut? [c] t).getD (t, [])
    else ((c :: t).takeWhile isValueChar, (c :: t).dropWhile isValueChar)

theorem length_dropWhile_le (p : Char → Bool) (t : Text) : (t.dropWhile p).length ≤ t.length :=
  (List.dropWhile_suffix p).length_le

theorem length_readValue_le (t : Text) : (readValue t).2.length ≤ t.length := by
  have ht := length_dropWhile_le Text.isBlank t
  unfold readValue
  split
  · simp
  · rename_i c u h
    have hu : (c :: u).length ≤ t.length := h ▸ ht
    split
    · cases hc : Text.cut? [c] u with
      | none => simp
      | some p =>
        obtain ⟨s, v⟩ := p
        have := congrArg List.length (Text.append_of_cut? hc)
        simp at this hu ⊢
        omega
    · exact Nat.le_trans (length_dropWhile_le _ _) hu

/-- The attributes of a text: their names and values. -/
def attributes (t : Text) : List (Text × Option Text) :=
  match _h : Text.trimStart t with
  | [] => []
  | c :: u =>
    if c = '=' then ([], some (readValue u).1) :: attributes (readValue u).2
    else
      match _h' : Text.trimStart (u.dropWhile isKeyChar) with
      | '=' :: v =>
        (c :: u.takeWhile isKeyChar, some (readValue v).1) :: attributes (readValue v).2
      | v => (c :: u.takeWhile isKeyChar, none) :: attributes v
termination_by t.length
decreasing_by
  all_goals
    have ht : (c :: u).length ≤ t.length := _h ▸ length_dropWhile_le Text.isBlank t
    rw [List.length_cons] at ht
  · have := length_readValue_le u
    omega
  · have hu := length_dropWhile_le isKeyChar u
    have hv : ('=' :: v).length ≤ (u.dropWhile isKeyChar).length :=
      _h' ▸ length_dropWhile_le Text.isBlank _
    have := length_readValue_le v
    rw [List.length_cons] at hv
    omega
  · have hu := length_dropWhile_le isKeyChar u
    have hv : v.length ≤ (u.dropWhile isKeyChar).length :=
      _h' ▸ length_dropWhile_le Text.isBlank _
    omega

namespace Block

/-- Whether the opening tag has an attribute, with or without a value. -/
def hasAttr (b : Block) (name : Text) : Bool := (attributes b.attrs).any fun (key, _) => key == name

/-- The value of the first attribute with a name. -/
def attr? (b : Block) (name : Text) : Option Text :=
  ((attributes b.attrs).find? fun (key, _) => key == name).bind Prod.snd

end Block

end Unbundled.Component
