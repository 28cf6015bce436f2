import Unbundled.Component.Block
import Unbundled.Proofs.Source.Slices

/-! # Attributes by index

The attributes of a tag are read by an iterator over their text, which takes slices of what is left: up
to the end of a name or of a value, and from there on. The readers fail where a slice is out of range or
does not lie on boundaries of characters, and where a step of the iterator leaves as much as before.

`attributes?_eq_some` says that they never fail, whatever the text, and find its attributes. -/

namespace Unbundled.Component.Indexed

open Source Source.Indexed

/-! ### Readers -/

/-- Where the first character of a class begins. -/
def indexOf? (p : Char → Bool) : Text → Option Nat
  | [] => none
  | c :: t => if p c then some 0 else (indexOf? p t).map (c.utf8Size + ·)

/-- The text before the first character of a class and the text from there on. -/
def parts? (p : Char → Bool) (t : Text) : Option (Text × Text) := do
  let i := (indexOf? p t).getD (size t)
  let front ← slice? t 0 i
  let rest ← slice? t i (size t)
  some (front, rest)

/-- The value after an equals sign, and what follows it. -/
def value? (t : Text) : Option (Text × Text) :=
  match t.head?.filter isQuote with
  | none => parts? Text.isBlank t
  | some q => do
    let body ← slice? t 1 (size t)
    match indexOf? (· == q) body with
    | none => some (body, [])
    | some i =>
      let value ← slice? body 0 i
      let rest ← slice? body (i + 1) (size body)
      some (value, rest)

/-- The next attribute and what follows it, if there is one. -/
def next? (t : Text) : Option (Option ((Text × Option Text) × Text)) :=
  match Text.trimStart t with
  | [] => some none
  | c :: t => do
    let (key, rest) ← parts? (fun c => Text.isBlank c || c == '=') (c :: t)
    match Text.trimStart rest with
    | '=' :: v =>
      let (value, rest) ← value? (Text.trimStart v)
      some (some ((key, some value), rest))
    | rest => some (some ((key, none), rest))

/-- All attributes that the iterator gives. -/
def attributes? (t : Text) : Option (List (Text × Option Text)) :=
  match next? t with
  | none => none
  | some none => some []
  | some (some (pair, rest)) =>
    if size rest < size t then (attributes? rest).map (pair :: ·) else none
termination_by size t

variable {b p t u : Text} {c q : Char}

/-! ### Slices -/

theorem indexOf?_getD (p : Char → Bool) (t : Text) :
    (indexOf? p t).getD (size t) = Text.bytes (t.takeWhile fun c => !p c) := by
  induction t with
  | nil => rfl
  | cons c t ih =>
    rw [indexOf?]
    cases hc : p c with
    | true =>
      rw [if_pos rfl, List.takeWhile_cons_of_neg (by simp [hc])]
      rfl
    | false =>
      rw [if_neg (by simp), List.takeWhile_cons_of_pos (by simp [hc]), Text.bytes_cons, ← ih]
      cases indexOf? p t with
      | none => rw [Option.map_none, Option.getD_none, Option.getD_none, size_eq_bytes, size_eq_bytes,
          Text.bytes_cons]
      | some i => rfl

theorem indexOf?_beq (q : Char) (t : Text) :
    indexOf? (· == q) t = (Text.cut? [q] t).map fun parts => Text.bytes parts.1 := by
  induction t with
  | nil => rfl
  | cons c t ih =>
    rw [indexOf?, Text.cut?_cons, ih]
    by_cases hc : c = q
    · rw [if_pos (by simp [hc]), if_pos (by simp [hc])]
      rfl
    · rw [if_neg (by simp [hc]), if_neg (by simp [Ne.symm hc]), Option.map_map, Option.map_map]
      rfl

theorem parts?_eq (p : Char → Bool) (t : Text) :
    parts? p t = some (t.takeWhile fun c => !p c, t.dropWhile fun c => !p c) := by
  have hc : (Cursor.mk (t.takeWhile fun c => !p c).reverse (t.dropWhile fun c => !p c)).whole = t := by
    rw [Cursor.whole, List.reverse_reverse, List.takeWhile_append_dropWhile]
  have hfront := slice?_behind hc
  have hrest := slice?_ahead hc
  rw [Cursor.offset, Text.bytes_reverse] at hfront hrest
  rw [List.reverse_reverse] at hfront
  rw [parts?, indexOf?_getD, hfront, hrest]
  rfl

theorem value?_quoted (hq : isQuote q) (t : Text) :
    value? (q :: t) = some ((Text.cut? [q] t).getD (t, [])) := by
  have hw := asciiOnly_isQuote q hq
  have hbody : slice? (q :: t) 1 (size (q :: t)) = some t := by
    have h := slice?_ahead (c := ⟨[q], t⟩) rfl
    rwa [Cursor.offset, Text.bytes_cons, utf8Size_ascii hw] at h
  rw [value?, List.head?_cons, Option.filter_some, if_pos hq]
  dsimp only
  rw [hbody, Option.bind_eq_bind, Option.bind_some, indexOf?_beq]
  cases hcut : Text.cut? [q] t with
  | none => rfl
  | some parts =>
    obtain ⟨value, rest⟩ := parts
    -- the places before and after the quote that closes the value
    have happ : t = value ++ q :: rest := (Text.append_of_cut? hcut).trans (List.append_assoc _ _ _)
    have hbefore : (Cursor.mk value.reverse (q :: rest)).whole = t := by
      rw [Cursor.whole, List.reverse_reverse, ← happ]
    have hafter : (Cursor.mk (q :: value.reverse) rest).whole = t := by
      rw [Cursor.whole, List.reverse_cons, List.reverse_reverse, List.append_assoc, happ]
      rfl
    have hvalue := slice?_behind hbefore
    have hrest := slice?_ahead hafter
    rw [Cursor.offset, Text.bytes_reverse, List.reverse_reverse] at hvalue
    rw [Cursor.offset, Text.bytes_cons, Text.bytes_reverse, utf8Size_ascii hw, Nat.add_comm] at hrest
    simp only [Option.map_some, hvalue, hrest]
    rfl

theorem value?_eq (t : Text) : value? (Text.trimStart t) = some (readValue t) := by
  rw [readValue]
  cases h : Text.trimStart t with
  | nil => exact parts?_eq Text.isBlank []
  | cons c u =>
    dsimp only
    by_cases hq : isQuote c
    · rw [if_pos hq, value?_quoted hq]
    · rw [if_neg hq, value?, List.head?_cons, Option.filter_some, if_neg hq]
      exact parts?_eq Text.isBlank (c :: u)

/-! ### The iterator -/

theorem next?_nil (h : Text.trimStart t = []) : next? t = some none := by
  rw [next?, h]

theorem next?_cons (h : Text.trimStart t = c :: u) : next? t =
    some (some (match Text.trimStart ((c :: u).dropWhile isKeyChar) with
      | '=' :: v => (((c :: u).takeWhile isKeyChar, some (readValue v).1), (readValue v).2)
      | v => (((c :: u).takeWhile isKeyChar, none), v))) := by
  have hkey : (fun c => !(Text.isBlank c || c == '=')) = isKeyChar :=
    funext fun c => by rw [isKeyChar, Bool.not_or]; rfl
  rw [next?, h]
  dsimp only
  rw [parts?_eq, hkey, Option.bind_eq_bind, Option.bind_some]
  dsimp only
  split
  · rw [value?_eq]
    rfl
  · rfl

theorem size_le_of_isSuffix (h : u <:+ t) : size u ≤ size t := by
  obtain ⟨s, rfl⟩ := h
  rw [size_eq_bytes, size_eq_bytes, Text.bytes_append]
  exact Nat.le_add_left _ _

theorem readValue_isSuffix (t : Text) : (readValue t).2 <:+ t := by
  have htrim : Text.trimStart t <:+ t := List.dropWhile_suffix _
  unfold readValue
  split
  · exact List.nil_suffix
  · rename_i c u h
    rw [h] at htrim
    split
    · refine List.IsSuffix.trans ?_ ((List.suffix_cons c u).trans htrim)
      cases hcut : Text.cut? [c] u with
      | none => exact List.nil_suffix
      | some parts => exact ⟨parts.1 ++ [c], (Text.append_of_cut? hcut).symm⟩
    · exact (List.dropWhile_suffix _).trans htrim

theorem attributes?_next {pair : Text × Option Text} {pairs : List (Text × Option Text)}
    (h : Text.trimStart t = c :: u) (hn : next? t = some (some (pair, b))) (hb : b <:+ u)
    (hrest : attributes? b = some pairs) : attributes? t = some (pair :: pairs) := by
  have hlt : size b < size t := by
    have htrim : c :: u <:+ t := h ▸ List.dropWhile_suffix _
    have hle := size_le_of_isSuffix htrim
    have hpos := c.utf8Size_pos
    rw [size_eq_bytes (c :: u), Text.bytes_cons, ← size_eq_bytes] at hle
    have := size_le_of_isSuffix hb
    omega
  rw [attributes?, hn]
  dsimp only
  rw [if_pos hlt, hrest]
  rfl

/-- A name that does not start with an equals sign. -/
theorem isKeyChar_of_trimStart (h : Text.trimStart t = c :: u) (hc : c ≠ '=') : isKeyChar c := by
  have hhead : c ∈ (t.dropWhile Text.isBlank).head? := by
    rw [← Text.trimStart, h]
    rfl
  simpa [isKeyChar, hc] using Text.head?_dropWhile Text.isBlank t c hhead

theorem trimStart_isSuffix_dropWhile (p : Char → Bool) (u : Text) :
    Text.trimStart (u.dropWhile p) <:+ u :=
  (List.dropWhile_suffix _).trans (List.dropWhile_suffix p)

/-- **The iterator never fails**, and gives the attributes of the text. -/
theorem attributes?_eq_some (t : Text) : attributes? t = some (attributes t) := by
  fun_induction attributes t with
  | case1 t h => rw [attributes?, next?_nil h]
  | case2 t u h ih =>
    have hname : ('=' :: u).dropWhile isKeyChar = '=' :: u := List.dropWhile_cons_of_neg (by decide)
    have htrim : Text.trimStart ('=' :: u) = '=' :: u := List.dropWhile_cons_of_neg (by decide)
    have hnext := next?_cons h
    rw [hname, htrim] at hnext
    exact attributes?_next h hnext (readValue_isSuffix u) ih
  | case3 t c u h hc v hv ih =>
    have hkey := isKeyChar_of_trimStart h hc
    have hv' : v <:+ u :=
      (List.suffix_cons '=' v).trans (hv ▸ trimStart_isSuffix_dropWhile isKeyChar u)
    have hnext := next?_cons h
    rw [List.dropWhile_cons_of_pos hkey, List.takeWhile_cons_of_pos hkey, hv] at hnext
    exact attributes?_next h hnext ((readValue_isSuffix v).trans hv') ih
  | case4 t c u h hc hv ih =>
    have hkey := isKeyChar_of_trimStart h hc
    refine attributes?_next h ?_ (trimStart_isSuffix_dropWhile isKeyChar u) ih
    rw [next?_cons h, List.dropWhile_cons_of_pos hkey, List.takeWhile_cons_of_pos hkey]
    split
    · exact (hv _ ‹_›).elim
    · rfl

end Unbundled.Component.Indexed
