import Unbundled.Text.Basic

/-! # UTF-8

Files hold bytes. `Text.encode` writes a text as bytes and `Utf8.decode` reads bytes as a text. When
the bytes are no text, the reader says where they stop being one:

* `Utf8.Fault`: the number of bytes that are well formed, and what is wrong after them.
* `Utf8.decode_encode`: what is written is read back.
-/

namespace Unbundled

/-- The content of a file. -/
abbrev Bytes := List UInt8

/-- The bytes of a character. -/
def Text.encodeChar (c : Char) : Bytes :=
  let n := c.toNat
  if n < 0x80 then [UInt8.ofNat n]
  else if n < 0x800 then [UInt8.ofNat (0xC0 + n / 0x40), UInt8.ofNat (0x80 + n % 0x40)]
  else if n < 0x10000 then
    [UInt8.ofNat (0xE0 + n / 0x1000), UInt8.ofNat (0x80 + n / 0x40 % 0x40),
      UInt8.ofNat (0x80 + n % 0x40)]
  else
    [UInt8.ofNat (0xF0 + n / 0x40000), UInt8.ofNat (0x80 + n / 0x1000 % 0x40),
      UInt8.ofNat (0x80 + n / 0x40 % 0x40), UInt8.ofNat (0x80 + n % 0x40)]

/-- The bytes of a text. -/
def Text.encode (t : Text) : Bytes := t.flatMap Text.encodeChar

namespace Utf8

/-- Why bytes are not UTF-8. -/
structure Fault where
  /-- The number of bytes before the faulty sequence. -/
  validUpTo : Nat
  /-- The number of bytes of the faulty sequence before the byte that breaks it, at least one;
  none if the bytes end inside the sequence. -/
  broken : Option Nat
  deriving DecidableEq, Repr

/-- The wording of a fault. -/
def Fault.message (f : Fault) : Text :=
  match f.broken with
  | some n =>
    "invalid utf-8 sequence of ".toList ++ Text.ofNat n ++ " bytes from index ".toList ++
      Text.ofNat f.validUpTo
  | none => "incomplete utf-8 byte sequence from index ".toList ++ Text.ofNat f.validUpTo

/-- Whether a byte may continue a sequence. -/
def isTail (b : Nat) : Bool := 0x80 ≤ b && b ≤ 0xBF

/-- Whether `b` may be the second byte after the first byte `a`. The limits leave out sequences that
are longer than need be, surrogates, and code points above the last one. -/
def isSecond (a b : Nat) : Bool :=
  (if a = 0xE0 then 0xA0 else if a = 0xF0 then 0x90 else 0x80) ≤ b &&
    b ≤ (if a = 0xED then 0x9F else if a = 0xF4 then 0x8F else 0xBF)

/-- Reads bytes, of which `pos` have been read before. -/
def decodeFrom (pos : Nat) : Bytes → Except Fault Text
  | [] => .ok []
  | a :: rest =>
    let a := a.toNat
    if a < 0x80 then (decodeFrom (pos + 1) rest).map (Char.ofNat a :: ·)
    else if a < 0xC2 || 0xF4 < a then .error ⟨pos, some 1⟩
    else
      match rest with
      | [] => .error ⟨pos, none⟩
      | b :: rest =>
        let b := b.toNat
        if !isSecond a b then .error ⟨pos, some 1⟩
        else if a < 0xE0 then
          (decodeFrom (pos + 2) rest).map (Char.ofNat ((a - 0xC0) * 0x40 + (b - 0x80)) :: ·)
        else
          match rest with
          | [] => .error ⟨pos, none⟩
          | c :: rest =>
            let c := c.toNat
            if !isTail c then .error ⟨pos, some 2⟩
            else if a < 0xF0 then
              (decodeFrom (pos + 3) rest).map
                (Char.ofNat ((a - 0xE0) * 0x1000 + (b - 0x80) * 0x40 + (c - 0x80)) :: ·)
            else
              match rest with
              | [] => .error ⟨pos, none⟩
              | d :: rest =>
                let d := d.toNat
                if !isTail d then .error ⟨pos, some 3⟩
                else
                  (decodeFrom (pos + 4) rest).map
                    (Char.ofNat ((a - 0xF0) * 0x40000 + (b - 0x80) * 0x1000 + (c - 0x80) * 0x40 +
                      (d - 0x80)) :: ·)

/-- The text that bytes stand for. -/
def decode (bs : Bytes) : Except Fault Text := decodeFrom 0 bs

/-! ### Reading back -/

theorem toNat_byte {n : Nat} (h : n < 0x100) : (UInt8.ofNat n).toNat = n :=
  UInt8.toNat_ofNat_of_lt (by simpa using h)

section

variable {pos n : Nat} {rest : Bytes}

theorem decodeFrom_one (h : n < 0x80) : decodeFrom pos (UInt8.ofNat n :: rest) =
    (decodeFrom (pos + 1) rest).map (Char.ofNat n :: ·) := by
  rw [decodeFrom.eq_def]
  simp only [toNat_byte (show n < 0x100 by omega), h, if_true]

theorem decodeFrom_two (h1 : 0x80 ≤ n) (h2 : n < 0x800) :
    decodeFrom pos (UInt8.ofNat (0xC0 + n / 0x40) :: UInt8.ofNat (0x80 + n % 0x40) :: rest) =
      (decodeFrom (pos + 2) rest).map (Char.ofNat n :: ·) := by
  have ha := toNat_byte (show 0xC0 + n / 0x40 < 0x100 by omega)
  have hb := toNat_byte (show 0x80 + n % 0x40 < 0x100 by omega)
  have hsec : isSecond (0xC0 + n / 0x40) (0x80 + n % 0x40) = true := by
    unfold isSecond
    rw [if_neg (by omega), if_neg (by omega), if_neg (by omega), if_neg (by omega)]
    simp
    omega
  have hn : (0xC0 + n / 0x40 - 0xC0) * 0x40 + (0x80 + n % 0x40 - 0x80) = n := by omega
  rw [decodeFrom]
  simp only [ha, hb, hsec]
  rw [if_neg (by omega), if_neg (by simp; omega), if_neg (by simp), if_pos (by omega), hn]

theorem decodeFrom_three (h1 : 0x800 ≤ n) (h2 : n < 0x10000) (hv : n < 0xD800 ∨ 0xDFFF < n) :
    decodeFrom pos (UInt8.ofNat (0xE0 + n / 0x1000) :: UInt8.ofNat (0x80 + n / 0x40 % 0x40) ::
        UInt8.ofNat (0x80 + n % 0x40) :: rest) =
      (decodeFrom (pos + 3) rest).map (Char.ofNat n :: ·) := by
  have ha := toNat_byte (show 0xE0 + n / 0x1000 < 0x100 by omega)
  have hb := toNat_byte (show 0x80 + n / 0x40 % 0x40 < 0x100 by omega)
  have hd := toNat_byte (show 0x80 + n % 0x40 < 0x100 by omega)
  have hsec : isSecond (0xE0 + n / 0x1000) (0x80 + n / 0x40 % 0x40) = true := by
    unfold isSecond
    simp only [Bool.and_eq_true, decide_eq_true_eq]
    constructor
    · rw [if_neg (show ¬ 0xE0 + n / 0x1000 = 0xF0 by omega)]
      split <;> omega
    · rw [if_neg (show ¬ 0xE0 + n / 0x1000 = 0xF4 by omega)]
      split <;> omega
  have htail : isTail (0x80 + n % 0x40) = true := by simp [isTail]; omega
  have hn : (0xE0 + n / 0x1000 - 0xE0) * 0x1000 + (0x80 + n / 0x40 % 0x40 - 0x80) * 0x40 +
      (0x80 + n % 0x40 - 0x80) = n := by omega
  rw [decodeFrom]
  simp only [ha, hb, hd, hsec, htail]
  rw [if_neg (by omega), if_neg (by simp; omega), if_neg (by simp), if_neg (by omega),
    if_neg (by simp), if_pos (by omega), hn]

theorem decodeFrom_four (h1 : 0x10000 ≤ n) (h2 : n < 0x110000) :
    decodeFrom pos (UInt8.ofNat (0xF0 + n / 0x40000) :: UInt8.ofNat (0x80 + n / 0x1000 % 0x40) ::
        UInt8.ofNat (0x80 + n / 0x40 % 0x40) :: UInt8.ofNat (0x80 + n % 0x40) :: rest) =
      (decodeFrom (pos + 4) rest).map (Char.ofNat n :: ·) := by
  have ha := toNat_byte (show 0xF0 + n / 0x40000 < 0x100 by omega)
  have hb := toNat_byte (show 0x80 + n / 0x1000 % 0x40 < 0x100 by omega)
  have hd := toNat_byte (show 0x80 + n / 0x40 % 0x40 < 0x100 by omega)
  have he := toNat_byte (show 0x80 + n % 0x40 < 0x100 by omega)
  have hsec : isSecond (0xF0 + n / 0x40000) (0x80 + n / 0x1000 % 0x40) = true := by
    unfold isSecond
    simp only [Bool.and_eq_true, decide_eq_true_eq]
    constructor
    · rw [if_neg (show ¬ 0xF0 + n / 0x40000 = 0xE0 by omega)]
      split <;> omega
    · rw [if_neg (show ¬ 0xF0 + n / 0x40000 = 0xED by omega)]
      split <;> omega
  have htail : isTail (0x80 + n / 0x40 % 0x40) = true := by simp [isTail]; omega
  have htail' : isTail (0x80 + n % 0x40) = true := by simp [isTail]; omega
  have hn : (0xF0 + n / 0x40000 - 0xF0) * 0x40000 + (0x80 + n / 0x1000 % 0x40 - 0x80) * 0x1000 +
      (0x80 + n / 0x40 % 0x40 - 0x80) * 0x40 + (0x80 + n % 0x40 - 0x80) = n := by omega
  rw [decodeFrom]
  simp only [ha, hb, hd, he, hsec, htail, htail']
  rw [if_neg (by omega), if_neg (by simp; omega), if_neg (by simp), if_neg (by omega),
    if_neg (by simp), if_neg (by omega), if_neg (by simp), hn]

end

theorem decodeFrom_encodeChar (pos : Nat) (c : Char) (rest : Bytes) :
    decodeFrom pos (Text.encodeChar c ++ rest) =
      (decodeFrom (pos + (Text.encodeChar c).length) rest).map (c :: ·) := by
  have hv : c.toNat < 0xD800 ∨ (0xDFFF < c.toNat ∧ c.toNat < 0x110000) := c.valid
  have hc : Char.ofNat c.toNat = c := Char.ofNat_toNat c
  unfold Text.encodeChar
  dsimp only
  split
  · rename_i h1
    exact (decodeFrom_one h1).trans (by rw [hc]; rfl)
  split
  · rename_i h1 h2
    exact (decodeFrom_two (by omega) h2).trans (by rw [hc]; rfl)
  split
  · rename_i h1 h2 h3
    exact (decodeFrom_three (by omega) h3 (by omega)).trans (by rw [hc]; rfl)
  · rename_i h1 h2 h3
    exact (decodeFrom_four (by omega) (by omega)).trans (by rw [hc]; rfl)

theorem decodeFrom_encode : ∀ (pos : Nat) (t : Text), decodeFrom pos (Text.encode t) = .ok t
  | _, [] => rfl
  | pos, c :: t => by
    rw [show Text.encode (c :: t) = Text.encodeChar c ++ Text.encode t from rfl,
      decodeFrom_encodeChar, decodeFrom_encode]
    rfl

/-- **What is written is read back.** -/
theorem decode_encode (t : Text) : decode (Text.encode t) = .ok t := decodeFrom_encode 0 t

end Utf8

end Unbundled
