import Unbundled.Proofs.Source.Indexed
import Unbundled.Proofs.Source.Names
import Unbundled.Proofs.Source.Places
import Unbundled.Proofs.Text.Utf8

/-! # The bytes at a place

The bytes from the offset of a place on are those of the characters ahead of it (`byteAt?_offset`). An
ASCII character is a byte of its own, and all bytes of a wider one lie beyond ASCII (`ByteOf`). A class of
ASCII characters therefore holds a character if it holds a byte of it (`ByteOf.class_eq`).

A reader that passes the bytes beyond ASCII one by one passes whole characters (`PassesWide.step`), also
where a backslash has led it inside one (`PassesWide.jump`). -/

namespace Unbundled.Source

variable {x y : Char} {s t : Text}

/-! ### Classes of ASCII characters -/

/-- A class of characters that holds none beyond ASCII. -/
def AsciiOnly (p : Char → Bool) : Prop := ∀ z, p z → isWide z = false

theorem asciiOnly_isWordChar : AsciiOnly isWordChar := by
  intro x h
  refine decide_eq_false (Nat.not_le.mpr ?_)
  have hle : ∀ high : Char, high.toNat < 128 → x.val ≤ high.val → x.toNat < 128 :=
    fun _ hhigh hx => Nat.lt_of_le_of_lt (UInt32.le_iff_toNat_le.mp hx) hhigh
  rcases (Bool.or_eq_true _ _).mp h with h | hdollar
  · rcases (Bool.or_eq_true _ _).mp h with h | hline
    · rcases (Bool.or_eq_true _ _).mp h with halpha | hdigit
      · rcases (Bool.or_eq_true _ _).mp halpha with hupper | hlower
        · exact hle 'Z' (by decide) (of_decide_eq_true hupper).2
        · exact hle 'z' (by decide) (of_decide_eq_true ((Bool.and_eq_true _ _).mp hlower).2)
      · exact hle '9' (by decide) (of_decide_eq_true ((Bool.and_eq_true _ _).mp hdigit).2)
    · rw [beq_iff_eq.mp hline]
      decide
  · rw [beq_iff_eq.mp hdollar]
    decide

theorem asciiOnly_isWordStart : AsciiOnly isWordStart :=
  fun z h => asciiOnly_isWordChar z (isWordChar_of_isWordStart h)

/-- A text of ASCII characters. -/
def isAscii (t : Text) : Bool := t.all fun z => !isWide z

theorem isAscii_cons : isAscii (x :: t) ↔ isWide x = false ∧ isAscii t := by
  simp [isAscii]

theorem isWide_of_isAscii (h : isAscii t) (hx : x ∈ t) : isWide x = false := by
  simpa using List.all_eq_true.mp h x hx

theorem asciiOnly_contains (h : isAscii t) : AsciiOnly t.contains :=
  fun _ hz => isWide_of_isAscii h (List.contains_iff_mem.mp hz)

theorem asciiOnly_beq (h : isWide x = false) : AsciiOnly (· == x) :=
  fun _ hz => beq_iff_eq.mp hz ▸ h

theorem asciiOnly_isSpace : AsciiOnly isSpace := by
  intro z h
  rcases isSpace_iff.mp h with rfl | rfl | rfl | rfl | rfl <;> decide

theorem asciiOnly_isQuote : AsciiOnly isQuote := by
  intro z h
  rcases isQuote_iff.mp h with rfl | rfl <;> decide

theorem AsciiOnly.eq_false {p : Char → Bool} (hp : AsciiOnly p) (h : isWide x) : p x = false := by
  rw [← Bool.not_eq_true]
  intro hx
  rw [hp x hx] at h
  exact absurd h (by decide)

theorem ne_of_isWide (h : isWide x) (hy : isWide y = false) : x ≠ y := by
  rintro rfl
  rw [hy] at h
  exact absurd h (by decide)

theorem isPlain_of_isWide (h : isWide x) : isPlain x := by
  simp [isPlain, ne_of_isWide h (y := '/') (by decide), ne_of_isWide h (y := backtick) (by decide),
    asciiOnly_isQuote.eq_false h, asciiOnly_isWordStart.eq_false h]

/-- The character `y` is a byte of the character `x`. -/
structure ByteOf (x y : Char) : Prop where
  wide : isWide y = isWide x
  ascii : isWide x = false → y = x

theorem ByteOf.class_eq {p : Char → Bool} (h : ByteOf x y) (hp : AsciiOnly p) : p y = p x := by
  cases hx : isWide x with
  | false => rw [h.ascii hx]
  | true =>
    rw [hp.eq_false hx, hp.eq_false (h.wide.trans hx)]

theorem ByteOf.eq_iff {z : Char} (h : ByteOf x y) (hz : isWide z = false) : y = z ↔ x = z := by
  rw [← beq_iff_eq, h.class_eq (asciiOnly_beq hz), beq_iff_eq]

namespace Indexed

/-! ### The bytes of a text -/

theorem units_append (s t : Text) : units (s ++ t) = units s ++ units t := by
  rw [units, Utf8.encode_append, List.map_append, units, units]

theorem units_cons (x : Char) (t : Text) : units (x :: t) = units [x] ++ units t := units_append [x] t

theorem units_singleton (x : Char) :
    units [x] = (Text.encodeChar x).map fun b => Char.ofNat b.toNat := by
  rw [units, Utf8.encode_cons, show Text.encode [] = [] from rfl, List.append_nil]

theorem units_ascii (h : isWide x = false) : units [x] = [x] := by
  have hx : x.toNat < 128 := Nat.not_le.mp (of_decide_eq_false h)
  rw [units_singleton, Utf8.encodeChar_of_ascii hx, List.map_singleton, UInt8.toNat_ofNat',
    Nat.mod_eq_of_lt (by omega), Char.ofNat_toNat]

theorem units_cons_ascii (h : isWide x = false) (t : Text) : units (x :: t) = x :: units t := by
  rw [units_cons, units_ascii h]
  rfl

theorem isWide_of_mem_units (h : isWide x) : ∀ y ∈ units [x], isWide y := by
  have hx : 128 ≤ x.toNat := of_decide_eq_true h
  have hv : x.toNat < 0xD800 ∨ (0xDFFF < x.toNat ∧ x.toNat < 0x110000) := x.valid
  have hbyte : ∀ b ∈ Text.encodeChar x, 128 ≤ b.toNat := by
    unfold Text.encodeChar
    dsimp only
    rw [if_neg (by omega)]
    split_ifs
    all_goals
      simp only [List.forall_mem_cons, UInt8.toNat_ofNat']
      simp
      omega
  intro y hy
  rw [units_singleton] at hy
  obtain ⟨b, hb, rfl⟩ := List.mem_map.mp hy
  have hvalid : b.toNat.isValidChar := Or.inl (Nat.lt_of_lt_of_le b.toNat_lt (by decide))
  refine decide_eq_true ?_
  rw [Utf8.toNat_ofNat hvalid]
  exact hbyte b hb

theorem length_encodeChar (x : Char) : (Text.encodeChar x).length = x.utf8Size := by
  have h : ∀ n (hn : n < UInt32.size), x.val ≤ UInt32.ofNatLT n hn ↔ x.toNat < n + 1 := by
    intro n hn
    rw [UInt32.le_iff_toNat_le, UInt32.toNat_ofNatLT]
    exact Nat.lt_succ_iff.symm
  simp only [Text.encodeChar, Char.utf8Size, h, Nat.reduceAdd]
  split_ifs <;> rfl

theorem length_units_singleton (x : Char) : (units [x]).length = x.utf8Size := by
  rw [units_singleton, List.length_map, length_encodeChar]

theorem size_eq_bytes (t : Text) : size t = Text.bytes t := by
  induction t with
  | nil => rfl
  | cons x t ih =>
    rw [← length_units, units_cons, List.length_append, length_units_singleton, length_units, ih,
      Text.bytes_cons]

theorem utf8Size_ascii (h : isWide x = false) : x.utf8Size = 1 := by
  rw [← length_units_singleton, units_ascii h]
  rfl

/-- A byte inside a character, or the first one of a character beyond ASCII, lies beyond ASCII. -/
theorem isWide_of_lt_utf8Size {k : Nat} (hk : 0 < k ∨ isWide x) (hlt : k < x.utf8Size) : isWide x := by
  refine hk.elim (fun hk => ?_) id
  rw [← Bool.not_eq_false]
  intro hx
  rw [utf8Size_ascii hx] at hlt
  omega

theorem byteOf_of_mem (h : y ∈ units [x]) : ByteOf x y := by
  cases hx : isWide x with
  | false =>
    rw [units_ascii hx] at h
    obtain rfl := List.mem_singleton.mp h
    exact ⟨rfl, fun _ => rfl⟩
  | true => exact ⟨(isWide_of_mem_units hx y h).trans hx.symm, fun h => absurd (h.symm.trans hx) (by decide)⟩

/-- The text between two places is the slice between their offsets. -/
theorem slice?_append (s w u : Text) :
    slice? (s ++ (w ++ u)) (Text.bytes s) (Text.bytes s + Text.bytes w) = some w := by
  rw [slice?, ← Text.bytes_append, ← List.append_assoc, Text.splitAt?_bytes, Option.bind_some,
    Text.splitAt?_bytes]
  rfl

/-! ### The bytes at a place -/

section Places

variable {source b : Text} {c : Cursor} {k n : Nat}

theorem byteAt?_offset (hc : c.whole = source) (k : Nat) :
    byteAt? source (c.offset + k) = (units c.ahead)[k]? := by
  have hlen : (units c.behind.reverse).length = c.offset := by
    rw [length_units, size_eq_bytes, Text.bytes_reverse, Cursor.offset]
  rw [← hc, byteAt?, Cursor.whole, units_append, ← hlen, List.getElem?_append_right (Nat.le_add_right _ _),
    Nat.add_sub_cancel_left]

theorem byteAt?_nil (hc : c.whole = source) (h : c.ahead = []) (k : Nat) :
    byteAt? source (c.offset + k) = none := by
  rw [byteAt?_offset hc, h]
  rfl

theorem exists_inside (hc : c.whole = source) (h : c.ahead = x :: t) (hk : k < x.utf8Size) :
    ∃ y, ByteOf x y ∧ byteAt? source (c.offset + k) = some y := by
  have hlt : k < (units [x]).length := by rwa [length_units_singleton]
  refine ⟨(units [x])[k], byteOf_of_mem (List.getElem_mem hlt), ?_⟩
  rw [byteAt?_offset hc, h, units_cons, List.getElem?_append_left hlt, List.getElem?_eq_getElem hlt]

theorem exists_byteAt? (hc : c.whole = source) (h : c.ahead = x :: t) :
    ∃ y, ByteOf x y ∧ byteAt? source c.offset = some y :=
  exists_inside (k := 0) hc h x.utf8Size_pos

theorem byteAt?_ascii (hc : c.whole = source) (h : c.ahead = x :: t) (hx : isWide x = false) :
    byteAt? source c.offset = some x := by
  obtain ⟨y, hy, hb⟩ := exists_byteAt? hc h
  rw [hb, hy.ascii hx]

theorem byteAt?_eq_some_iff (hc : c.whole = source) (hy : isWide y = false) :
    byteAt? source c.offset = some y ↔ c.ahead.head? = some y := by
  cases h : c.ahead with
  | nil =>
    rw [← Nat.add_zero c.offset, byteAt?_nil hc h]
    simp
  | cons x t =>
    obtain ⟨z, hz, hb⟩ := exists_byteAt? hc h
    rw [hb, List.head?_cons, Option.some.injEq, Option.some.injEq]
    exact hz.eq_iff hy

theorem offset_advance_one (h : c.ahead = x :: t) : (c.advance 1).offset = c.offset + x.utf8Size := by
  rw [Cursor.offset_advance, h]
  rfl

theorem offset_advance_ascii (h : c.ahead = x :: t) (hx : isWide x = false) :
    (c.advance 1).offset = c.offset + 1 := by
  rw [offset_advance_one h, utf8Size_ascii hx]

theorem offset_finish (hc : c.whole = source) : c.finish.offset = size source := by
  rw [Cursor.offset_finish, hc, size_eq_bytes]

theorem offset_le_size (hc : c.whole = source) : c.offset ≤ size source := by
  rw [← offset_finish hc]
  exact (Cursor.onward_finish c).offset_le

theorem slice?_advance (hc : c.whole = source) (n : Nat) :
    slice? source c.offset (c.advance n).offset = some (c.ahead.take n) := by
  have hwhole : source = c.behind.reverse ++ (c.ahead.take n ++ c.ahead.drop n) := by
    rw [List.take_append_drop, ← hc, Cursor.whole]
  have hoff : c.offset = Text.bytes c.behind.reverse := (Text.bytes_reverse _).symm
  rw [Cursor.offset_advance, hoff, hwhole]
  exact slice?_append _ _ _

theorem exists_byteBefore (hc : c.whole = source) (h : c.behind = x :: b) :
    ∃ y, ByteOf x y ∧ byteAt? source (c.offset - 1) = some y := by
  have hpos := x.utf8Size_pos
  have hoff : c.offset - 1 = (Cursor.mk b (x :: c.ahead)).offset + (x.utf8Size - 1) := by
    simp only [Cursor.offset, h, Text.bytes_cons]
    omega
  rw [hoff]
  refine exists_inside ?_ rfl (by omega)
  rw [← hc, Cursor.whole, Cursor.whole, h, List.reverse_cons, List.append_assoc]
  rfl

end Places

/-! ### Passing characters -/

section Passing

variable {σ α β : Type} {source : Text} {c : Cursor} {f : Nat → β} {k n : Nat}

/-- A reader takes nothing from a byte beyond ASCII but the step over it. -/
def PassesWide (source : Text) (f : Nat → β) : Prop :=
  ∀ i y, byteAt? source i = some y → isWide y → f i = f (i + 1)

theorem passesWide_loop {turn : σ → Nat → Char → Option (Sequel σ α)} {last : σ → Nat → α}
    (h : ∀ s i y, isWide y → turn s i y = some (.next s (i + 1))) (s : σ) :
    PassesWide source (loop source turn last s) :=
  fun i y hb hy => loop_next hb (h s i y hy) (Nat.lt_succ_self i)

/-- From inside a character beyond ASCII, the reader comes to its end. -/
theorem PassesWide.inside (hf : PassesWide source f) (hc : c.whole = source) (h : c.ahead = x :: t)
    (hk : 0 < k ∨ isWide x) (hle : k ≤ x.utf8Size) : f (c.offset + k) = f (c.advance 1).offset := by
  rw [offset_advance_one h]
  induction hn : x.utf8Size - k generalizing k with
  | zero => rw [show k = x.utf8Size by omega]
  | succ n ih =>
    obtain ⟨y, hy, hb⟩ := exists_inside (k := k) hc h (by omega)
    rw [hf _ y hb (hy.wide.trans (isWide_of_lt_utf8Size hk (by omega))), Nat.add_assoc]
    exact ih (Or.inl (Nat.succ_pos k)) (by omega) (by omega)

/-- A step over one character. -/
theorem PassesWide.step (hf : PassesWide source f) (hc : c.whole = source) (h : c.ahead = x :: t)
    (hx : isWide x = false → f c.offset = f (c.offset + 1)) : f c.offset = f (c.advance 1).offset := by
  cases hw : isWide x with
  | false => rw [hx hw, offset_advance_ascii h hw]
  | true => exact hf.inside (k := 0) hc h (Or.inr hw) (Nat.zero_le _)

/-- A backslash leads over the character after it. -/
theorem PassesWide.jump (hf : PassesWide source f) (hc : c.whole = source) (h : c.ahead = x :: y :: t)
    (hx : isWide x = false) : f (c.offset + 2) = f (c.advance 2).offset := by
  have hc1 : (c.advance 1).whole = source := (Cursor.whole_advance 1 c).trans hc
  have h1 : (c.advance 1).ahead = y :: t := by rw [Cursor.ahead_advance, h]; rfl
  have hy := hf.inside hc1 h1 (Or.inl Nat.one_pos) y.utf8Size_pos
  rwa [offset_advance_ascii h hx, Cursor.advance_advance] at hy

end Passing

end Indexed

end Unbundled.Source
