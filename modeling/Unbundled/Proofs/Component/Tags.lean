import Unbundled.Component.Descriptor
import Unbundled.Proofs.Text.Parts

/-! # Opening tags

What stands in an opening tag, said without the reader. Between the name of the tag and its end there
are quoted values and characters outside quotes, none of them a `>` (`Shut`). A `Tag` is a name, blanks
and attributes without blanks around them; a block without content has a slash after them.

* `tagEnd?_eq_some_iff`: the reader of tags ends a tag exactly at the first `>` outside quotes.
* `readBlock_opening`, `readBlock_empty`: the block that starts with a tag has its name, its attributes
  and the offset of its end. -/

namespace Unbundled.Component

open Source (isQuote)

variable {c q : Char} {raw s t u : Text} {pos : Nat}

/-! ### The end of a tag -/

/-- Every quote in the text is closed, and no `>` stands outside quotes. -/
inductive Shut : Text → Prop
  | nil : Shut []
  | char {c : Char} {t : Text} (hq : ¬ isQuote c) (hc : c ≠ '>') (rest : Shut t) : Shut (c :: t)
  | value {q : Char} {raw t : Text} (hq : isQuote q) (hraw : q ∉ raw) (rest : Shut t) :
    Shut (q :: (raw ++ q :: t))

theorem tagEnd?_open (hraw : q ∉ raw) (t : Text) :
    tagEnd? (some q) (raw ++ q :: t) = (tagEnd? none t).map fun (s, u) => (raw ++ q :: s, u) := by
  induction raw with
  | nil => rw [List.nil_append, tagEnd?, if_pos rfl]; rfl
  | cons c raw ih =>
    obtain ⟨hc, hraw⟩ := not_or.mp (List.mem_cons.not.mp hraw)
    rw [List.cons_append, tagEnd?, if_neg (Ne.symm hc), ih hraw, Option.map_map]
    rfl

theorem tagEnd?_char (hc : c ≠ '>') (t : Text) :
    tagEnd? none (c :: t) =
      (tagEnd? (if isQuote c then some c else none) t).map fun (s, u) => (c :: s, u) := by
  rw [tagEnd?]
  exact if_neg hc

theorem ne_of_isQuote_angle (hq : isQuote q) : q ≠ '>' := by
  rintro rfl
  exact absurd hq (by decide)

theorem Shut.tagEnd?_eq (h : Shut s) (u : Text) : tagEnd? none (s ++ '>' :: u) = some (s, u) := by
  induction h with
  | nil => rfl
  | char hq hc _ ih => rw [List.cons_append, tagEnd?_char hc, if_neg hq, ih]; rfl
  | value hq hraw _ ih =>
    rw [List.cons_append, tagEnd?_char (ne_of_isQuote_angle hq), if_pos hq, List.append_assoc,
      List.cons_append, tagEnd?_open hraw, ih]
    rfl

/-- What is read up to the end of a tag, with a quote open or not. -/
theorem shut_of_tagEnd? :
    (tagEnd? none t = some (s, u) → Shut s) ∧
    (tagEnd? (some q) t = some (s, u) → ∃ raw s', s = raw ++ q :: s' ∧ q ∉ raw ∧ Shut s') := by
  induction t generalizing q s with
  | nil => exact ⟨fun h => absurd h (by simp [tagEnd?]), fun h => absurd h (by simp [tagEnd?])⟩
  | cons c t ih =>
    refine ⟨fun h => ?_, fun h => ?_⟩
    · by_cases hc : c = '>'
      · rw [tagEnd?, if_pos hc] at h
        rw [← (Prod.mk.inj (Option.some.inj h)).1]
        exact .nil
      · rw [tagEnd?_char hc] at h
        obtain ⟨⟨s', u'⟩, h', he⟩ := Option.map_eq_some_iff.mp h
        obtain ⟨rfl, rfl⟩ := Prod.mk.inj he
        by_cases hq : isQuote c
        · rw [if_pos hq] at h'
          obtain ⟨raw, s, rfl, hraw, hs⟩ := ih.2 h'
          exact .value hq hraw hs
        · rw [if_neg hq] at h'
          exact .char hq hc ((ih (q := c)).1 h')
    · rw [tagEnd?] at h
      obtain ⟨⟨s', u'⟩, h', he⟩ := Option.map_eq_some_iff.mp h
      obtain ⟨rfl, rfl⟩ := Prod.mk.inj he
      by_cases hc : c = q
      · rw [if_pos hc] at h'
        exact ⟨[], s', by rw [hc]; rfl, List.not_mem_nil, (ih (q := q)).1 h'⟩
      · rw [if_neg hc] at h'
        obtain ⟨raw, s, rfl, hraw, hs⟩ := ih.2 h'
        exact ⟨c :: raw, s, rfl, by simp [hraw, Ne.symm hc], hs⟩

/-- **A tag ends at the first `>` outside quotes.** -/
theorem tagEnd?_eq_some_iff : tagEnd? none t = some (s, u) ↔ t = s ++ '>' :: u ∧ Shut s := by
  constructor
  · exact fun h => ⟨append_of_tagEnd? h, (shut_of_tagEnd? (q := '"')).1 h⟩
  · rintro ⟨rfl, hs⟩
    exact hs.tagEnd?_eq u

instance : DecidablePred Shut := fun t =>
  decidable_of_iff (tagEnd? none (t ++ ['>']) = some (t, [])) (by simp [tagEnd?_eq_some_iff])

theorem Shut.append (hs : Shut s) (ht : Shut t) : Shut (s ++ t) := by
  induction hs with
  | nil => exact ht
  | char hq hc _ ih => exact .char hq hc ih
  | value hq hraw _ ih =>
    rw [List.cons_append, List.append_assoc, List.cons_append]
    exact .value hq hraw ih

theorem shut_of_blank (h : ∀ c ∈ t, Text.isBlank c) : Shut t := by
  induction t with
  | nil => exact .nil
  | cons c t ih =>
    have hc := h c List.mem_cons_self
    refine .char ?_ ?_ (ih fun c hc => h c (List.mem_cons_of_mem _ hc))
    · intro hq
      simp only [isQuote, Bool.or_eq_true, beq_iff_eq] at hq
      rcases hq with rfl | rfl <;> exact absurd hc (by decide)
    · rintro rfl
      exact absurd hc (by decide)

theorem shut_slash : Shut ['/'] := .char (by decide) (by decide) .nil

theorem toNat_lt_of_isTagChar (h : isTagChar c) : c.toNat < 0x80 := by
  have hle : ∀ high : Char, high.toNat < 0x80 → c.val ≤ high.val → c.toNat < 0x80 :=
    fun _ hhigh hc => Nat.lt_of_le_of_lt (UInt32.le_iff_toNat_le.mp hc) hhigh
  rcases (Bool.or_eq_true _ _).mp h with h | h
  · rcases (Bool.or_eq_true _ _).mp h with h | hdigit
    · rcases (Bool.or_eq_true _ _).mp h with hupper | hlower
      · exact hle 'Z' (by decide) (of_decide_eq_true hupper).2
      · exact hle 'z' (by decide) (of_decide_eq_true ((Bool.and_eq_true _ _).mp hlower).2)
    · exact hle '9' (by decide) (of_decide_eq_true ((Bool.and_eq_true _ _).mp hdigit).2)
  · rw [beq_iff_eq.mp h]
    decide

theorem not_isBlank_of_isTagChar (h : isTagChar c) : ¬ Text.isBlank c := by
  have hall : ∀ n < 0x80, isTagChar (Char.ofNat n) → ¬ Text.isBlank (Char.ofNat n) := by decide
  have hc := hall c.toNat (toNat_lt_of_isTagChar h)
  rw [Char.ofNat_toNat] at hc
  exact hc h

/-! ### Blanks around a text -/

theorem trimStart_append (h : ∀ c ∈ s, Text.isBlank c) (t : Text) :
    Text.trimStart (s ++ t) = Text.trimStart t := List.dropWhile_append_of_pos h

theorem trimStart_eq_self (h : ∀ c ∈ t.head?, ¬ Text.isBlank c) : Text.trimStart t = t := by
  cases t with
  | nil => rfl
  | cons c t => exact List.dropWhile_cons_of_neg (h c rfl)

theorem trimEnd_concat (h : ¬ Text.isBlank c) (t : Text) : Text.trimEnd (t ++ [c]) = t ++ [c] := by
  rw [Text.trimEnd, List.reverse_append, List.reverse_singleton, List.singleton_append,
    List.dropWhile_cons_of_neg h, List.reverse_cons, List.reverse_reverse]

/-- A text that trimming keeps does not start with a blank. -/
theorem not_isBlank_of_trim (h : Text.trim t = t) : ∀ c ∈ t.head?, ¬ Text.isBlank c := by
  intro c hc hblank
  obtain ⟨u, rfl⟩ := List.head?_eq_some_iff.mp hc
  have hstart : Text.trimStart (c :: u) = Text.trimStart u := List.dropWhile_cons_of_pos hblank
  have hlen : (Text.trimEnd (Text.trimStart u)).length ≤ u.length := by
    rw [Text.trimEnd, List.length_reverse]
    refine Nat.le_trans (length_dropWhile_le _ _) ?_
    rw [List.length_reverse]
    exact length_dropWhile_le _ _
  rw [Text.trim, hstart] at h
  rw [h, List.length_cons] at hlen
  omega

theorem trim_append (h : ∀ c ∈ s, Text.isBlank c) (t : Text) : Text.trim (s ++ t) = Text.trim t := by
  rw [Text.trim, trimStart_append h, Text.trim]

theorem dropWhile_slash (h : t.getLast? ≠ some '/') : t.reverse.dropWhile (· == '/') = t.reverse := by
  cases ht : t.reverse with
  | nil => rfl
  | cons c u =>
    refine List.dropWhile_cons_of_neg fun hc => h ?_
    rw [← List.head?_reverse, ht, List.head?_cons, beq_iff_eq.mp hc]

/-! ### Tags -/

/-- The name, the blanks and the attributes of an opening tag. -/
structure Tag where
  name : Text
  gap : Text
  attrs : Text
  name_ne_nil : name ≠ [] := by decide
  isTagChar : ∀ c ∈ name, isTagChar c := by exact List.all_eq_true.mp (by decide)
  isBlank : ∀ c ∈ gap, Text.isBlank c := by exact List.all_eq_true.mp (by decide)
  gap_ne_nil : attrs ≠ [] → gap ≠ [] := by decide
  trim_attrs : Text.trim attrs = attrs := by decide
  slash : attrs.getLast? ≠ some '/' := by decide
  shut : Shut attrs := by decide

namespace Tag

/-- What stands between the name of a tag and its end. -/
def inside (tag : Tag) : Text := tag.gap ++ tag.attrs

/-- The opening tag of a block with content. -/
def opening (tag : Tag) : Text := '<' :: (tag.name ++ (tag.inside ++ ['>']))

/-- The tag of a block without content. -/
def empty (tag : Tag) : Text := '<' :: (tag.name ++ (tag.inside ++ ['/', '>']))

/-- The closing tag. -/
def closing (tag : Tag) : Text := "</".toList ++ tag.name ++ ['>']

variable (tag : Tag)

theorem shut_inside : Shut tag.inside := (shut_of_blank tag.isBlank).append tag.shut

theorem getLast?_inside : tag.inside.getLast? ≠ some '/' := by
  intro h
  rw [inside, List.getLast?_append] at h
  cases ha : tag.attrs.getLast? with
  | some c => exact tag.slash (ha.trans (by rwa [ha] at h))
  | none =>
    rw [ha] at h
    exact absurd (tag.isBlank _ (List.mem_of_getLast? h)) (by decide)

theorem attrsOf_inside : attrsOf tag.inside = tag.attrs := by
  rw [attrsOf, inside, trim_append tag.isBlank, tag.trim_attrs, dropWhile_slash tag.slash,
    List.reverse_reverse, tag.trim_attrs]

theorem attrsOf_slash : attrsOf (tag.inside ++ ['/']) = tag.attrs := by
  have hhead : ∀ c ∈ (tag.attrs ++ ['/']).head?, ¬ Text.isBlank c := by
    have hattrs := not_isBlank_of_trim tag.trim_attrs
    cases ha : tag.attrs with
    | nil => exact fun c hc => Option.some.inj hc ▸ by decide
    | cons c u => rwa [ha] at hattrs
  have htrim : Text.trim (tag.inside ++ ['/']) = tag.attrs ++ ['/'] := by
    rw [inside, List.append_assoc, trim_append tag.isBlank, Text.trim, trimStart_eq_self hhead,
      trimEnd_concat (by decide)]
  rw [attrsOf, htrim, List.reverse_append, List.reverse_singleton, List.singleton_append,
    List.dropWhile_cons_of_pos (by decide), dropWhile_slash tag.slash, List.reverse_reverse,
    tag.trim_attrs]

/-- A name ends where something else follows. -/
theorem span_name {t : Text} (ht : ∀ c ∈ t.head?, ¬ Component.isTagChar c) :
    (tag.name ++ t).takeWhile Component.isTagChar = tag.name ∧
      (tag.name ++ t).dropWhile Component.isTagChar = t :=
  Text.span_stop tag.isTagChar ht

/-- The name of a tag does not go on into what follows it. -/
theorem head?_inside (hc : ¬ Component.isTagChar c) (t : Text) :
    ∀ x ∈ (tag.inside ++ c :: t).head?, ¬ Component.isTagChar x := by
  rw [inside]
  cases hg : tag.gap with
  | nil =>
    have ha : tag.attrs = [] := by
      by_contra ha
      exact tag.gap_ne_nil ha hg
    rw [ha]
    exact fun x hx => Option.some.inj hx ▸ hc
  | cons g gap =>
    refine fun x hx htag => not_isBlank_of_isTagChar htag (tag.isBlank x ?_)
    rw [hg, ← Option.some.inj hx]
    exact List.mem_cons_self

/-- **A block with content** has the name and the attributes of its tag and starts where the tag
ends. -/
theorem readBlock_opening (pos : Nat) (t : Text) :
    readBlock pos (tag.name ++ (tag.inside ++ '>' :: t)) =
      (contentOf? tag.name t).elim (.error (.unclosed tag.name pos)) fun (content, after) =>
        .ok (tag.name, ⟨content, tag.attrs, pos + Text.bytes tag.opening⟩, after) := by
  obtain ⟨hname, hrest⟩ := tag.span_name (tag.head?_inside (c := '>') (by decide) t)
  have hself : isSelfClosing tag.inside = false := by
    rw [isSelfClosing, beq_eq_false_iff_ne]
    exact tag.getLast?_inside
  have hstart : pos + 1 + Text.bytes tag.name + Text.bytes tag.inside + 1 =
      pos + Text.bytes tag.opening := by
    simp only [opening, Text.bytes_cons, Text.bytes_append, Text.bytes_nil]
    have h1 : Char.utf8Size '<' = 1 := rfl
    have h2 : Char.utf8Size '>' = 1 := rfl
    omega
  unfold readBlock
  rw [hname, hrest, tag.shut_inside.tagEnd?_eq]
  dsimp only
  rw [if_neg (by rw [hself]; exact Bool.false_ne_true), hstart, tag.attrsOf_inside]
  cases contentOf? tag.name t <;> rfl

/-- **A block without content.** -/
theorem readBlock_empty (pos : Nat) (t : Text) :
    readBlock pos (tag.name ++ (tag.inside ++ '/' :: '>' :: t)) =
      .ok (tag.name, ⟨[], tag.attrs, pos + Text.bytes tag.empty⟩, t) := by
  obtain ⟨hname, hrest⟩ := tag.span_name (tag.head?_inside (c := '/') (by decide) ('>' :: t))
  have hshut : tagEnd? none (tag.inside ++ '/' :: '>' :: t) = some (tag.inside ++ ['/'], t) := by
    have := (tag.shut_inside.append shut_slash).tagEnd?_eq t
    rwa [List.append_assoc] at this
  have hself : isSelfClosing (tag.inside ++ ['/']) := by
    rw [isSelfClosing, List.getLast?_concat]
    rfl
  have hstart : pos + 1 + Text.bytes tag.name + Text.bytes (tag.inside ++ ['/']) + 1 =
      pos + Text.bytes tag.empty := by
    simp only [empty, Text.bytes_cons, Text.bytes_append, Text.bytes_nil]
    have h1 : Char.utf8Size '<' = 1 := rfl
    have h2 : Char.utf8Size '>' = 1 := rfl
    omega
  unfold readBlock
  rw [hname, hrest, hshut]
  dsimp only
  rw [if_pos hself, hstart, tag.attrsOf_slash]

end Tag

end Unbundled.Component
