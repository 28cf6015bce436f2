import Unbundled.Text.Literal
import Unbundled.Text.Utf8

/-! # Percent escapes

A percent sign with two hexadecimal digits after it stands for one byte. Any other percent sign, and
every other character, stands for its own bytes.
-/

namespace Unbundled.Percent

/-- The byte that two hexadecimal digits make. -/
def byte? (a b : Char) : Option UInt8 := do
  let a ← Literal.hexValue? a
  let b ← Literal.hexValue? b
  some (UInt8.ofNat (a * 16 + b))

/-- The bytes that an escaped text stands for. -/
def decode : Text → Bytes
  | '%' :: a :: b :: t =>
    match byte? a b with
    | some x => x :: decode t
    | none => Text.encodeChar '%' ++ decode (a :: b :: t)
  | c :: t => Text.encodeChar c ++ decode t
  | [] => []

end Unbundled.Percent
