import Unbundled.Proofs.Component.Tags
import Unbundled.Proofs.Source.Lexemes

/-! # Written attributes

How the attributes of a tag are written, said without their reader. An attribute is a key, alone or with
an equals sign and a value after it (`Assigns`), and blanks keep one attribute from the next (`Lists`).

* `attributes_of_lists`: what is written is read, one attribute after another.
* `attr?_of_lists`: a block has the attributes that are written, and of each key the first value. -/

namespace Unbundled.Component

open Source (isQuote isQuote_iff quoted quoted_append)

/-- The key of an attribute: no blank stands in it, and no equals sign. -/
structure IsKey (key : Text) : Prop where
  ne_nil : key ≠ []
  chars : ∀ c ∈ key, ¬ Text.isBlank c ∧ c ≠ '='

/-- **A value as it is written**: in quotes, or as it is, if it has no blank and no quote in front. -/
inductive IsValue : Text → Text → Prop
  | quoted {q : Char} {value : Text} (hq : isQuote q) (hv : q ∉ value) :
    IsValue (quoted q value) value
  | bare {value : Text} (hne : value ≠ []) (hv : ∀ c ∈ value, ¬ Text.isBlank c)
    (hq : ∀ c ∈ value.head?, ¬ isQuote c) : IsValue value value

/-- **An attribute as it is written**, with its key and its value, if it has one. -/
inductive Assigns : Text → Text × Option Text → Prop
  | key {key : Text} (hk : IsKey key) : Assigns key (key, none)
  | value {key g g' v value : Text} (hk : IsKey key) (hg : ∀ c ∈ g, Text.isBlank c)
    (hg' : ∀ c ∈ g', Text.isBlank c) (hv : IsValue v value) :
    Assigns (key ++ (g ++ '=' :: (g' ++ v))) (key, some value)

/-- **Attributes as they are written**, one after another. Blanks may stand around them all, and one
stands after each that is not the last. -/
inductive Lists : Text → List (Text × Option Text) → Prop
  | nil : Lists [] []
  | blank {c : Char} {t : Text} {pairs : List (Text × Option Text)} (hc : Text.isBlank c)
    (ht : Lists t pairs) : Lists (c :: t) pairs
  | cons {a t : Text} {pair : Text × Option Text} {pairs : List (Text × Option Text)}
    (ha : Assigns a pair) (hend : ∀ c ∈ t.head?, Text.isBlank c) (ht : Lists t pairs) :
    Lists (a ++ t) (pair :: pairs)

variable {a g key name t u v value : Text} {c : Char} {o : Option Text} {pair : Text × Option Text}
  {pairs front back : List (Text × Option Text)}

/-! ### Keys and values -/

theorem isKeyChar_iff : isKeyChar c ↔ ¬ Text.isBlank c ∧ c ≠ '=' := by
  simp [isKeyChar]

theorem isKey_of_all (hne : key ≠ []) (hall : key.all isKeyChar) : IsKey key :=
  ⟨hne, fun c hc => isKeyChar_iff.mp (List.all_eq_true.mp hall c hc)⟩

theorem IsKey.exists_cons (hk : IsKey key) : ∃ c u, key = c :: u ∧ ¬ Text.isBlank c ∧ c ≠ '=' := by
  obtain ⟨c, u, rfl⟩ := List.exists_cons_of_ne_nil hk.ne_nil
  exact ⟨c, u, rfl, hk.chars c List.mem_cons_self⟩

theorem Assigns.exists_cons (ha : Assigns a pair) :
    ∃ c u, a = c :: u ∧ ¬ Text.isBlank c ∧ c ≠ '=' := by
  cases ha with
  | key hk => exact hk.exists_cons
  | value hk =>
    obtain ⟨c, u, rfl, hc⟩ := hk.exists_cons
    exact ⟨c, _, rfl, hc⟩

theorem readValue_append (hg : ∀ c ∈ g, Text.isBlank c) (hv : IsValue v value)
    (ht : ∀ c ∈ t.head?, Text.isBlank c) : readValue (g ++ (v ++ t)) = (value, t) := by
  cases hv with
  | @quoted q _ hq hv =>
    have hblank : ¬ Text.isBlank q := by
      rcases isQuote_iff.mp hq with rfl | rfl <;> decide
    have hcut : Text.cut? [q] (value ++ q :: t) = some (value, t) :=
      Text.cut?_char hv t
    rw [readValue, trimStart_append hg, quoted_append, trimStart_eq_self (by simpa using hblank)]
    dsimp only
    rw [if_pos hq, hcut]
    rfl
  | bare hne hv hq =>
    obtain ⟨c, v, rfl⟩ := List.exists_cons_of_ne_nil hne
    obtain ⟨htake, hdrop⟩ := Text.span_stop (f := isValueChar) (s := c :: v) (t := t)
      (by simpa [isValueChar] using hv) (by simpa [isValueChar] using ht)
    rw [readValue, trimStart_append hg, trimStart_eq_self (by simpa using hv c List.mem_cons_self)]
    rw [List.cons_append] at htake hdrop ⊢
    dsimp only
    rw [if_neg (hq c rfl), htake, hdrop]

/-! ### The reader of attributes -/

theorem attributes_eq (t : Text) : attributes t =
    match Text.trimStart t with
    | [] => []
    | c :: u =>
      if c = '=' then ([], some (readValue u).1) :: attributes (readValue u).2
      else
        match Text.trimStart (u.dropWhile isKeyChar) with
        | '=' :: v =>
          (c :: u.takeWhile isKeyChar, some (readValue v).1) :: attributes (readValue v).2
        | v => (c :: u.takeWhile isKeyChar, none) :: attributes v := by
  rw [attributes]
  split
  · rename_i h
    rw [h]
  · rename_i c u h
    rw [h]
    dsimp only
    split
    · rfl
    · split
      · rename_i hv
        rw [hv]
        rfl
      · rename_i hv
        split
        · rename_i v h'
          exact absurd h' (hv v)
        · rfl

theorem trimStart_trimStart (t : Text) : Text.trimStart (Text.trimStart t) = Text.trimStart t :=
  trimStart_eq_self (Text.head?_dropWhile Text.isBlank t)

theorem attributes_trimStart (t : Text) : attributes (Text.trimStart t) = attributes t := by
  rw [attributes_eq, trimStart_trimStart, ← attributes_eq]

/-- A key is read up to what follows it. -/
theorem attributes_key (hk : IsKey key) (ht : ∀ c ∈ t.head?, Text.isBlank c ∨ c = '=') :
    attributes (key ++ t) =
      match Text.trimStart t with
      | '=' :: v => (key, some (readValue v).1) :: attributes (readValue v).2
      | v => (key, none) :: attributes v := by
  obtain ⟨c, key, rfl⟩ := List.exists_cons_of_ne_nil hk.ne_nil
  obtain ⟨hblank, hc⟩ := hk.chars c List.mem_cons_self
  obtain ⟨htake, hdrop⟩ := Text.span_stop (f := isKeyChar) (s := key) (t := t)
    (fun c hc => isKeyChar_iff.mpr (hk.chars c (List.mem_cons_of_mem _ hc)))
    (fun c hc => by
      rw [isKeyChar_iff, not_and_or, not_not, not_not]
      exact ht c hc)
  rw [attributes_eq, List.cons_append, trimStart_eq_self (by simpa using hblank)]
  dsimp only
  rw [if_neg hc, htake, hdrop]

/-- No attribute starts with an equals sign. -/
theorem Lists.head?_trimStart (h : Lists t pairs) : (Text.trimStart t).head? ≠ some '=' := by
  induction h with
  | nil => simp [Text.trimStart]
  | blank hc _ ih => rwa [Text.trimStart, List.dropWhile_cons_of_pos hc]
  | cons ha _ _ _ =>
    obtain ⟨c, u, rfl, hc⟩ := ha.exists_cons
    rw [List.cons_append, trimStart_eq_self (by simpa using hc.1)]
    simpa using hc.2

theorem attributes_assigns (ha : Assigns a pair) (ht : Lists t pairs)
    (hend : ∀ c ∈ t.head?, Text.isBlank c) : attributes (a ++ t) = pair :: attributes t := by
  cases ha with
  | key hk =>
    have hhead := ht.head?_trimStart
    rw [attributes_key hk fun c hc => Or.inl (hend c hc), ← attributes_trimStart t]
    split
    · rename_i h
      rw [h] at hhead
      exact absurd rfl hhead
    · rfl
  | @value key g g' v value hk hg hg' hv =>
    have hhead : ∀ c ∈ (g ++ '=' :: (g' ++ (v ++ t))).head?, Text.isBlank c ∨ c = '=' := by
      intro c hc
      cases g with
      | nil => exact Or.inr (by simpa using hc.symm)
      | cons d g =>
        obtain rfl : d = c := by simpa using hc
        exact Or.inl (hg d List.mem_cons_self)
    simp only [List.append_assoc, List.cons_append]
    rw [attributes_key hk hhead, trimStart_append hg, trimStart_eq_self (by simp; decide)]
    show (key, some (readValue (g' ++ (v ++ t))).1) :: attributes (readValue (g' ++ (v ++ t))).2 = _
    rw [readValue_append hg' hv hend]

/-- **The attributes that are written are read.** -/
theorem attributes_of_lists (h : Lists t pairs) : attributes t = pairs := by
  induction h with
  | nil => exact attributes_eq []
  | @blank c t _ hc _ ih =>
    rw [← attributes_trimStart, Text.trimStart, List.dropWhile_cons_of_pos hc, ← Text.trimStart,
      attributes_trimStart, ih]
  | cons ha hend ht ih => rw [attributes_assigns ha ht hend, ih]

/-! ### Blocks -/

theorem hasAttr_iff (b : Block) : b.hasAttr name ↔ name ∈ (attributes b.attrs).map Prod.fst := by
  simp [Block.hasAttr]

theorem find?_eq_none (h : name ∉ pairs.map Prod.fst) :
    pairs.find? (fun pair => pair.1 == name) = none := by
  rw [List.find?_eq_none]
  intro pair hpair hname
  exact h (List.mem_map.mpr ⟨pair, hpair, beq_iff_eq.mp hname⟩)

theorem attr?_first {b : Block} (h : attributes b.attrs = front ++ (name, o) :: back)
    (hfront : name ∉ front.map Prod.fst) : b.attr? name = o := by
  rw [Block.attr?, h, List.find?_append, find?_eq_none hfront, Option.none_or,
    List.find?_cons_of_pos (by simp)]
  rfl

theorem attr?_absent {b : Block} (h : name ∉ (attributes b.attrs).map Prod.fst) :
    b.attr? name = none := by
  rw [Block.attr?, find?_eq_none h]
  rfl

/-- **A block has the attributes that are written in its tag**, and no others. What is asked for by its
key is the first one with this key: its value without quotes, or nothing if it is written without one. -/
theorem attr?_of_lists {b : Block} (h : Lists b.attrs pairs) (name : Text) :
    (b.hasAttr name ↔ name ∈ pairs.map Prod.fst) ∧
    (∀ front o back, pairs = front ++ (name, o) :: back → name ∉ front.map Prod.fst →
      b.attr? name = o) ∧
    (name ∉ pairs.map Prod.fst → b.attr? name = none) := by
  have hread := attributes_of_lists h
  refine ⟨?_, fun front o back hpairs hfront => ?_, fun habsent => ?_⟩
  · rw [hasAttr_iff, hread]
  · exact attr?_first (hread.trans hpairs) hfront
  · exact attr?_absent (by rwa [hread])

/-- A block whose tag has attributes with and without values, one key twice, and blanks around an equals
sign. -/
def mixedBlock : Block where
  content := []
  attrs := " lang\u00a0=\tts=1 setup src='a \"b\" =' lang ".toList
  start := 0

theorem lists_mixedBlock : Lists mixedBlock.attrs
    [("lang".toList, some "ts=1".toList), ("setup".toList, none),
      ("src".toList, some "a \"b\" =".toList), ("lang".toList, none)] := by
  have hlang : IsKey "lang".toList := isKey_of_all (by decide) (by decide)
  have hfirst := @Assigns.value _ ['\u00a0'] ['\t'] _ _ hlang
    (List.forall_mem_singleton.mpr (by decide)) (List.forall_mem_singleton.mpr (by decide))
    (@IsValue.bare "ts=1".toList (by decide) (by simp; decide)
      fun c hc => Option.some.inj hc ▸ by decide)
  have hsetup := @Assigns.key "setup".toList (isKey_of_all (by decide) (by decide))
  have hsrc := @Assigns.value "src".toList [] [] _ _ (isKey_of_all (by decide) (by decide))
    (List.forall_mem_nil _) (List.forall_mem_nil _)
    (@IsValue.quoted '\x27' "a \"b\" =".toList (by decide) (by decide))
  have hblank : ∀ {t : Text}, ∀ c ∈ (' ' :: t).head?, Text.isBlank c :=
    fun c hc => Option.some.inj hc ▸ by decide
  -- from the last attribute back to the blank in front of the first one
  have hlast := @Lists.cons _ [' '] _ _ (.key hlang) hblank (.blank (by decide) .nil)
  have hthird := @Lists.cons _ (' ' :: _) _ _ hsrc hblank (.blank (by decide) hlast)
  have hsecond := @Lists.cons _ (' ' :: _) _ _ hsetup hblank (.blank (by decide) hthird)
  have hall := @Lists.cons _ (' ' :: _) _ _ hfirst hblank (.blank (by decide) hsecond)
  exact @Lists.blank ' ' _ _ (by decide) hall

/-- Of a key that is written twice, the first value counts. -/
theorem attr?_of_lists_mixed :
    Lists mixedBlock.attrs
      [("lang".toList, some "ts=1".toList), ("setup".toList, none),
        ("src".toList, some "a \"b\" =".toList), ("lang".toList, none)] ∧
    mixedBlock.attr? "lang".toList = some "ts=1".toList ∧
    mixedBlock.hasAttr "setup".toList ∧ mixedBlock.attr? "setup".toList = none :=
  ⟨lists_mixedBlock,
    (attr?_of_lists lists_mixedBlock "lang".toList).2.1 [] _ _ rfl (by decide),
    (attr?_of_lists lists_mixedBlock "setup".toList).1.mpr (by decide),
    (attr?_of_lists lists_mixedBlock "setup".toList).2.1 [_] _ _ rfl (by decide)⟩

end Unbundled.Component
