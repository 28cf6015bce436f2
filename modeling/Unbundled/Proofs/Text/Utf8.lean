import Mathlib.Data.List.Induction
import Mathlib.Tactic.Common
import Unbundled.Text.Utf8

/-! # Bytes that are a text

UTF-8 has one form for each text and the reader accepts no other: it refuses sequences that are longer
than need be, surrogates and code points that do not exist. So bytes are read as a text exactly when
they are the form of this text (`decode_eq_ok_iff`), and different texts have different forms
(`encode_inj`).

The lemmas `encodeChar_…` give the form of a character by the size of its code point, and
`encode_of_decodeFrom` goes through the reader by the number of bytes it takes. The form is the one that
Lean itself keeps strings in (`encode_eq`).

An ASCII character is a byte that occurs in no other form, so a text ends in ASCII characters if its
bytes end in theirs (`isSuffix_of_encode`). -/

namespace Unbundled.Utf8

variable {n : Nat}

/-! ### The form of a character -/

theorem toNat_ofNat (h : n.isValidChar) : (Char.ofNat n).toNat = n := by
  rw [Char.ofNat, dif_pos h]
  rfl

theorem encodeChar_one (h : n < 0x80) : Text.encodeChar (Char.ofNat n) = [UInt8.ofNat n] := by
  unfold Text.encodeChar
  rw [toNat_ofNat (Or.inl (by omega))]
  exact if_pos h

theorem encodeChar_two (h1 : 0x80 ≤ n) (h2 : n < 0x800) :
    Text.encodeChar (Char.ofNat n) =
      [UInt8.ofNat (0xC0 + n / 0x40), UInt8.ofNat (0x80 + n % 0x40)] := by
  unfold Text.encodeChar
  rw [toNat_ofNat (Or.inl (by omega))]
  dsimp only
  rw [if_neg (by omega), if_pos h2]

theorem encodeChar_three (h1 : 0x800 ≤ n) (h2 : n < 0x10000) (h : n.isValidChar) :
    Text.encodeChar (Char.ofNat n) =
      [UInt8.ofNat (0xE0 + n / 0x1000), UInt8.ofNat (0x80 + n / 0x40 % 0x40),
        UInt8.ofNat (0x80 + n % 0x40)] := by
  unfold Text.encodeChar
  rw [toNat_ofNat h]
  dsimp only
  rw [if_neg (by omega), if_neg (by omega), if_pos h2]

theorem encodeChar_four (h1 : 0x10000 ≤ n) (h2 : n < 0x110000) :
    Text.encodeChar (Char.ofNat n) =
      [UInt8.ofNat (0xF0 + n / 0x40000), UInt8.ofNat (0x80 + n / 0x1000 % 0x40),
        UInt8.ofNat (0x80 + n / 0x40 % 0x40), UInt8.ofNat (0x80 + n % 0x40)] := by
  unfold Text.encodeChar
  rw [toNat_ofNat (Or.inr ⟨by omega, h2⟩)]
  dsimp only
  rw [if_neg (by omega), if_neg (by omega), if_neg (by omega)]

theorem encodeChar_eq (c : Char) : Text.encodeChar c = String.utf8EncodeChar c := by
  have hn : c.toNat < 0x110000 := by
    rcases c.valid with h | ⟨-, h⟩
    · exact Nat.lt_trans h (by decide)
    · exact h
  have hv : c.val.toNat = c.toNat := rfl
  unfold Text.encodeChar String.utf8EncodeChar
  rw [hv]
  generalize c.toNat = n at hn
  dsimp only
  by_cases h1 : n < 0x80
  · rw [if_pos h1, if_pos (by omega)]
  rw [if_neg h1, if_neg (show ¬ n ≤ 0x7F by omega)]
  by_cases h2 : n < 0x800
  · have hhigh : n / 0x40 % 32 = n / 0x40 := Nat.mod_eq_of_lt (by omega)
    rw [if_pos h2, if_pos (by omega), hhigh]
    simp only [Nat.add_comm]
  rw [if_neg h2, if_neg (show ¬ n ≤ 0x7FF by omega)]
  by_cases h3 : n < 0x10000
  · have hhigh : n / 0x1000 % 16 = n / 0x1000 := Nat.mod_eq_of_lt (by omega)
    rw [if_pos h3, if_pos (by omega), hhigh]
    simp only [Nat.add_comm]
  · have hhigh : n / 0x40000 % 8 = n / 0x40000 := Nat.mod_eq_of_lt (by omega)
    rw [if_neg h3, if_neg (by omega), hhigh]
    simp only [Nat.add_comm]

/-- **The form of a text** is the one that strings are kept in. -/
theorem encode_eq (t : Text) : Text.encode t = t.flatMap String.utf8EncodeChar :=
  congrArg t.flatMap (funext encodeChar_eq)

/-! ### What the reader accepts -/

/-- The limits of the second byte, by the first one. -/
theorem bounds_of_isSecond {a b : Nat} (h : isSecond a b = true) :
    0x80 ≤ b ∧ b ≤ 0xBF ∧ (a = 0xE0 → 0xA0 ≤ b) ∧ (a = 0xED → b ≤ 0x9F) ∧
      (a = 0xF0 → 0x90 ≤ b) ∧ (a = 0xF4 → b ≤ 0x8F) := by
  simp only [isSecond, Bool.and_eq_true, decide_eq_true_eq] at h
  obtain ⟨h1, h2⟩ := h
  split_ifs at h1 h2 <;> omega

theorem bounds_of_isTail {b : Nat} (h : isTail b = true) : 0x80 ≤ b ∧ b ≤ 0xBF := by
  simpa [isTail] using h

theorem ofNat_eq {b : UInt8} (h : n = b.toNat) : UInt8.ofNat n = b := by
  rw [h, UInt8.ofNat_toNat]

theorem exists_of_map_eq_ok {c : Char} {r : Except Fault Text} {t : Text}
    (h : r.map (c :: ·) = .ok t) : ∃ u, r = .ok u ∧ t = c :: u := by
  cases r with
  | error e => exact absurd h (by simp [Except.map])
  | ok u => exact ⟨u, rfl, (Except.ok.inj h).symm⟩

theorem encode_cons (c : Char) (t : Text) :
    Text.encode (c :: t) = Text.encodeChar c ++ Text.encode t := rfl

theorem encode_append (s t : Text) :
    Text.encode (s ++ t) = Text.encode s ++ Text.encode t := List.flatMap_append

theorem encode_of_decodeFrom {pos : Nat} {bs : Bytes} {t : Text} (h : decodeFrom pos bs = .ok t) :
    Text.encode t = bs := by
  fun_induction decodeFrom pos bs generalizing t with
  | case1 pos =>
    obtain rfl : [] = t := Except.ok.inj h
    rfl
  | case2 pos x rest a ha =>
    rename_i ih
    obtain ⟨u, hu, rfl⟩ := exists_of_map_eq_ok h
    rw [encode_cons, ih hu, encodeChar_one ha, ofNat_eq rfl]
    rfl
  | case6 pos x a h1 h2 y rest b hb ha =>
    rename_i ih
    obtain ⟨u, hu, rfl⟩ := exists_of_map_eq_ok h
    simp only [Bool.or_eq_true, decide_eq_true_eq, not_or] at h2
    simp only [Bool.not_eq_true', Bool.not_eq_false] at hb
    obtain ⟨hb1, hb2, -⟩ := bounds_of_isSecond hb
    rw [encode_cons, ih hu, encodeChar_two (by omega) (by omega),
      ofNat_eq (b := x) (by omega), ofNat_eq (b := y) (by omega)]
    rfl
  | case9 pos x a h1 h2 y b hb h3 z rest c hc ha =>
    rename_i ih
    obtain ⟨u, hu, rfl⟩ := exists_of_map_eq_ok h
    simp only [Bool.or_eq_true, decide_eq_true_eq, not_or] at h2
    simp only [Bool.not_eq_true', Bool.not_eq_false] at hb hc
    obtain ⟨hb1, hb2, hE0, hED, -⟩ := bounds_of_isSecond hb
    obtain ⟨hc1, hc2⟩ := bounds_of_isTail hc
    have hvalid : ((a - 0xE0) * 0x1000 + (b - 0x80) * 0x40 + (c - 0x80)).isValidChar := by
      unfold Nat.isValidChar
      omega
    rw [encode_cons, ih hu, encodeChar_three (by omega) (by omega) hvalid,
      ofNat_eq (b := x) (by omega), ofNat_eq (b := y) (by omega), ofNat_eq (b := z) (by omega)]
    rfl
  | case12 pos x a h1 h2 y b hb h3 z c hc h4 w rest d hd =>
    rename_i ih
    obtain ⟨u, hu, rfl⟩ := exists_of_map_eq_ok h
    simp only [Bool.or_eq_true, decide_eq_true_eq, not_or] at h2
    simp only [Bool.not_eq_true', Bool.not_eq_false] at hb hc hd
    obtain ⟨hb1, hb2, -, -, hF0, hF4⟩ := bounds_of_isSecond hb
    obtain ⟨hc1, hc2⟩ := bounds_of_isTail hc
    obtain ⟨hd1, hd2⟩ := bounds_of_isTail hd
    rw [encode_cons, ih hu, encodeChar_four (by omega) (by omega), ofNat_eq (b := x) (by omega),
      ofNat_eq (b := y) (by omega), ofNat_eq (b := z) (by omega), ofNat_eq (b := w) (by omega)]
    rfl
  | _ => exact absurd h (by simp)

/-- **Bytes are read as a text exactly when they are its form.** -/
theorem decode_eq_ok_iff {bs : Bytes} {t : Text} : decode bs = .ok t ↔ bs = Text.encode t := by
  constructor
  · intro h
    exact (encode_of_decodeFrom h).symm
  · rintro rfl
    exact decode_encode t

theorem encode_inj {s t : Text} (h : Text.encode s = Text.encode t) : s = t := by
  have hs := decode_encode s
  rw [h, decode_encode] at hs
  exact (Except.ok.inj hs).symm

/-! ### ASCII characters at the end -/

theorem exists_of_encodeChar {c : Char} (h : 0x80 ≤ c.toNat) :
    ∃ bs b, Text.encodeChar c = bs ++ [b] ∧ 0x80 ≤ b.toNat := by
  have hbyte : ∀ m, 0x80 ≤ (UInt8.ofNat (0x80 + m % 0x40)).toNat := by
    intro m
    rw [UInt8.toNat_ofNat']
    omega
  unfold Text.encodeChar
  dsimp only
  rw [if_neg (by omega)]
  split_ifs
  · exact ⟨[_], _, rfl, hbyte _⟩
  · exact ⟨[_, _], _, rfl, hbyte _⟩
  · exact ⟨[_, _, _], _, rfl, hbyte _⟩

theorem encodeChar_of_ascii {c : Char} (h : c.toNat < 0x80) :
    Text.encodeChar c = [UInt8.ofNat c.toNat] := if_pos h

/-- An ASCII character at the end is found again among the bytes. -/
theorem eq_of_encodeChar_append {c d : Char} {as bs : Bytes} (hc : c.toNat < 0x80)
    (h : as ++ Text.encodeChar d = bs ++ Text.encodeChar c) : d = c ∧ as = bs := by
  rw [encodeChar_of_ascii hc] at h
  by_cases hd : d.toNat < 0x80
  · rw [encodeChar_of_ascii hd] at h
    obtain ⟨has, hbyte⟩ := List.append_inj' h rfl
    have hcode := congrArg UInt8.toNat (List.cons.inj hbyte).1
    rw [UInt8.toNat_ofNat', UInt8.toNat_ofNat'] at hcode
    exact ⟨Char.toNat_inj.mp (by omega), has⟩
  · obtain ⟨cs, b, hb, hle⟩ := exists_of_encodeChar (Nat.le_of_not_lt hd)
    rw [hb, ← List.append_assoc] at h
    obtain ⟨-, hbyte⟩ := List.append_inj' h rfl
    rw [(List.cons.inj hbyte).1, UInt8.toNat_ofNat'] at hle
    omega

/-- **ASCII characters at the end of the bytes are at the end of the text.** -/
theorem isSuffix_of_encode {s t : Text} {bs : Bytes} (hs : ∀ c ∈ s, c.toNat < 0x80)
    (h : Text.encode t = bs ++ Text.encode s) : s <:+ t := by
  induction s using List.reverseRecOn generalizing t with
  | nil => exact List.nil_suffix
  | append_singleton s c ih =>
    have hc := hs c (by simp)
    rw [encode_append, ← List.append_assoc] at h
    rcases List.eq_nil_or_concat t with rfl | ⟨u, d, rfl⟩
    · rw [encode_cons, encodeChar_of_ascii hc] at h
      exact absurd (congrArg List.length h) (by simp [Text.encode])
    · rw [List.concat_eq_append, encode_append, encode_cons, encode_cons,
        show Text.encode [] = [] from rfl, List.append_nil, List.append_nil] at h
      obtain ⟨rfl, hrest⟩ := eq_of_encodeChar_append hc h
      rw [List.concat_eq_append]
      have hends := ih (fun x hx => hs x (List.mem_append_left _ hx)) hrest
      exact (List.suffix_append_inj_of_length_eq rfl).mpr ⟨hends, rfl⟩

end Unbundled.Utf8
