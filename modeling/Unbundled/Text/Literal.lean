import Unbundled.Text.Basic

/-! # String literals

Texts that end up in produced scripts are written as double-quoted literals, which scripts and JSON
read alike. `quote` writes a literal, and `decode?` reads what stands between the quotes of one.

A quote and a backslash are escaped, control characters have a short form or a numeric one with
lower-case digits, and every other character stands for itself. `decode?_flatMap_escape` says that a
literal is read as the text it was written for.
-/

namespace Unbundled.Literal

/-! ### Writing -/

/-- The lower-case hexadecimal digit of a number below 16. -/
def hexDigit (n : Nat) : Char := Nat.digitChar n

/-- The written form of a character. -/
def escape (c : Char) : Text :=
  if c = '"' then ['\\', '"']
  else if c = '\\' then ['\\', '\\']
  else if c = '\x08' then ['\\', 'b']
  else if c = '\t' then ['\\', 't']
  else if c = '\n' then ['\\', 'n']
  else if c = '\x0C' then ['\\', 'f']
  else if c = '\r' then ['\\', 'r']
  else if c.toNat < 0x20 then
    ['\\', 'u', '0', '0', hexDigit (c.toNat / 16), hexDigit (c.toNat % 16)]
  else [c]

/-- A text as a literal. -/
def quote (t : Text) : Text := '"' :: (t.flatMap escape ++ ['"'])

/-! ### Reading -/

/-- The value of a hexadecimal digit of either case. -/
def hexValue? (c : Char) : Option Nat :=
  if '0' ≤ c ∧ c ≤ '9' then some (c.toNat - '0'.toNat)
  else if 'a' ≤ c ∧ c ≤ 'f' then some (c.toNat - 'a'.toNat + 10)
  else if 'A' ≤ c ∧ c ≤ 'F' then some (c.toNat - 'A'.toNat + 10)
  else none

/-- The number that four hexadecimal digits at the front make. -/
def hexUnit? : Text → Option Nat
  | a :: b :: c :: d :: _ => do
    let a ← hexValue? a
    let b ← hexValue? b
    let c ← hexValue? c
    let d ← hexValue? d
    some (((a * 16 + b) * 16 + c) * 16 + d)
  | _ => none

/-- The character that a short escape stands for. -/
def shortEscape? (c : Char) : Option Char :=
  if c = '"' then some '"'
  else if c = '\\' then some '\\'
  else if c = '/' then some '/'
  else if c = 'b' then some '\x08'
  else if c = 'f' then some '\x0C'
  else if c = 'n' then some '\n'
  else if c = 'r' then some '\r'
  else if c = 't' then some '\t'
  else none

/-- The character of an escape, from the text after its backslash, and the number of characters the
escape takes there. A character beyond the 16-bit ones is a pair of surrogates, and a surrogate
alone stands for nothing. -/
def readEscape? : Text → Option (Char × Nat)
  | 'u' :: t => do
    let n ← hexUnit? t
    if 0xD800 ≤ n && n ≤ 0xDBFF then
      match t.drop 4 with
      | '\\' :: 'u' :: t =>
        let m ← hexUnit? t
        if 0xDC00 ≤ m && m ≤ 0xDFFF then
          some (Char.ofNat (0x10000 + (n - 0xD800) * 0x400 + (m - 0xDC00)), 11)
        else none
      | _ => none
    else if 0xDC00 ≤ n && n ≤ 0xDFFF then none
    else some (Char.ofNat n, 5)
  | c :: _ => (shortEscape? c).map (·, 1)
  | [] => none

/-- The text that the inside of a literal stands for, if all its escapes stand for characters. -/
def decode? : Text → Option Text
  | [] => some []
  | c :: t =>
    if c = '\\' then
      (readEscape? t).bind fun (x, n) => (decode? (t.drop n)).map (x :: ·)
    else (decode? t).map (c :: ·)
termination_by t => t.length
decreasing_by
  · exact Text.length_drop_lt _ _ _
  · exact Nat.lt_succ_self _

/-- Whether every escape in the inside of a literal is of a known form: a short one, or `u` with
four hexadecimal digits, surrogate or not. -/
def wellEscaped : Text → Bool
  | '\\' :: 'u' :: t => (hexUnit? t).isSome && wellEscaped t
  | '\\' :: c :: t => (shortEscape? c).isSome && wellEscaped t
  | c :: t => c != '\\' && wellEscaped t
  | [] => true

/-! ### Reading back -/

theorem hexValue?_hexDigit : ∀ {n : Nat}, n < 16 → hexValue? (hexDigit n) = some n := by
  decide

theorem shortEscape?_u : shortEscape? 'u' = none := rfl

theorem decode?_cons {c : Char} (h : c ≠ '\\') (t : Text) :
    decode? (c :: t) = (decode? t).map (c :: ·) := by
  rw [decode?, if_neg h]

theorem decode?_short {e c : Char} (h : shortEscape? e = some c) (t : Text) :
    decode? ('\\' :: e :: t) = (decode? t).map (c :: ·) := by
  have hu : e ≠ 'u' := by
    intro he
    rw [he, shortEscape?_u] at h
    exact absurd h (Option.some_ne_none c).symm
  rw [decode?, if_pos rfl, readEscape?, h]
  · rfl
  · exact hu

theorem decode?_control {c : Char} (h : c.toNat < 0x20) (t : Text) :
    decode? ('\\' :: 'u' :: '0' :: '0' :: hexDigit (c.toNat / 16) :: hexDigit (c.toNat % 16) :: t) =
      (decode? t).map (c :: ·) := by
  have h1 := hexValue?_hexDigit (show c.toNat / 16 < 16 by omega)
  have h2 := hexValue?_hexDigit (show c.toNat % 16 < 16 by omega)
  have h0 : hexValue? '0' = some 0 := rfl
  have hn : ((0 * 16 + 0) * 16 + c.toNat / 16) * 16 + c.toNat % 16 = c.toNat := by omega
  have hunit : hexUnit? ('0' :: '0' :: hexDigit (c.toNat / 16) :: hexDigit (c.toNat % 16) :: t) =
      some c.toNat := by
    simp only [hexUnit?, h0, h1, h2, Option.bind_eq_bind, Option.bind_some, hn]
  rw [decode?, if_pos rfl, readEscape?, hunit]
  simp only [Option.bind_eq_bind, Option.bind_some]
  rw [if_neg (by simp; omega), if_neg (by simp; omega), Char.ofNat_toNat]
  rfl

theorem decode?_escape (c : Char) (t : Text) :
    decode? (escape c ++ t) = (decode? t).map (c :: ·) := by
  unfold escape
  split
  · rename_i h; rw [h]; exact decode?_short rfl t
  split
  · rename_i h; rw [h]; exact decode?_short rfl t
  split
  · rename_i h; rw [h]; exact decode?_short rfl t
  split
  · rename_i h; rw [h]; exact decode?_short rfl t
  split
  · rename_i h; rw [h]; exact decode?_short rfl t
  split
  · rename_i h; rw [h]; exact decode?_short rfl t
  split
  · rename_i h; rw [h]; exact decode?_short rfl t
  split
  · rename_i h; exact decode?_control h t
  · rename_i _ h _ _ _ _ _ _; exact decode?_cons h t

/-- **The inside of a written literal stands for the text it was written for.** -/
theorem decode?_flatMap_escape (t : Text) : decode? (t.flatMap escape) = some t := by
  induction t with
  | nil => rw [List.flatMap_nil, decode?]
  | cons c t ih => rw [List.flatMap_cons, decode?_escape, ih]; rfl

end Unbundled.Literal
