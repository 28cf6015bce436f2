import Unbundled.Component.Script
import Unbundled.Proofs.Import.Runs
import Unbundled.Proofs.Import.Strays

/-! # Default exports of a module

A module exports a default where the words `export default` stand in it as code: two whole words with
white space between them, outside comments, strings, template literals and regular expressions
(`ExportsAt`). This is said of the lexemes of the module, and not of the search that looks for the
words in a component script.

* `atDefault_iff`: what the search asks at one place.
* `exportsAt_iff_walk`: the default exports are the boundaries at which the answer is yes.
* `defaultExports`: their list, from which `ExportsAt` is decided. -/

namespace Unbundled.Component

open Source Import

/-- The words of a default export with the white space between them. -/
def exportWords (gap : Text) : Text := "export".toList ++ gap ++ "default".toList

/-- **A default export** at byte `n`. -/
structure ExportsAt (source : Text) (n : Nat) : Prop where
  words : ∃ before gap after, source = before ++ (exportWords gap ++ after) ∧
    Text.bytes before = n ∧ gap ≠ [] ∧ (∀ c ∈ gap, isSpace c) ∧
    NoWord before.reverse ∧ NoWord after
  code : ∀ s ∈ spans source, ¬ s.hides n

variable {b t u : Text} {c d : Cursor} {x y : Char}

/-! ### The words at one place -/

theorem noWord_iff : NoWord t ↔ t.head?.any isWordChar = false := by
  cases t with
  | nil => simp [NoWord]
  | cons x t => simp [NoWord]

theorem afterWord?_eq_some_iff {word : Text} :
    afterWord? word c = some d ↔ NoWord c.behind ∧ ∃ t, c.ahead = word ++ t ∧ NoWord t ∧
      d = c.advance word.length := by
  unfold afterWord?
  by_cases hb : NoWord c.behind
  · rw [if_neg (by rw [noWord_iff.mp hb]; exact Bool.false_ne_true)]
    cases ha : Text.after? word c.ahead with
    | none =>
      refine ⟨fun h => absurd h (by simp), ?_⟩
      rintro ⟨-, t, ht, -⟩
      exact absurd (Text.after?_eq_some_iff.mpr ht) (by rw [ha]; simp)
    | some u =>
      have hu := Text.after?_eq_some_iff.mp ha
      dsimp only
      by_cases hn : NoWord u
      · rw [if_neg (by rw [noWord_iff.mp hn]; exact Bool.false_ne_true), Option.some.injEq]
        refine ⟨fun h => ⟨hb, u, hu, hn, h.symm⟩, ?_⟩
        rintro ⟨-, t, -, -, rfl⟩
        rfl
      · rw [if_pos (by simpa [noWord_iff] using hn)]
        refine ⟨fun h => absurd h (by simp), ?_⟩
        rintro ⟨-, t, ht, htn, -⟩
        exact absurd (List.append_cancel_left (hu.symm.trans ht) ▸ htn) hn
  · rw [if_pos (by simpa [noWord_iff] using hb)]
    exact ⟨fun h => absurd h (by simp), fun h => absurd h.1 hb⟩

/-- The words `export default` stand at a place. -/
def AtDefault (c : Cursor) : Prop := (afterDefault? c).isSome

instance : DecidablePred AtDefault := fun _ => inferInstanceAs (Decidable (_ = true))

theorem noWord_reverse_append (hu : u ≠ []) (h : ∀ x ∈ u, ¬ isWordChar x) (b : Text) :
    NoWord (u.reverse ++ b) := by
  obtain ⟨x, v, hx⟩ := List.exists_cons_of_ne_nil (List.reverse_ne_nil_iff.mpr hu)
  rw [hx]
  exact noWord_cons (h x (List.mem_reverse.mp (hx ▸ List.mem_cons_self))) _

theorem exportWords_eq (gap : Text) :
    exportWords gap = "export".toList ++ gap ++ "default".toList := rfl

theorem exportWords_ne_nil (gap t : Text) : exportWords gap ++ t ≠ [] := List.cons_ne_nil 'e' _

theorem length_exportWords (gap : Text) :
    (exportWords gap).length = "export".toList.length + (gap.length + "default".toList.length) := by
  rw [exportWords_eq, List.length_append, List.length_append, Nat.add_assoc]

theorem exportWords_append (gap t : Text) :
    exportWords gap ++ t = "export".toList ++ (gap ++ ("default".toList ++ t)) := by
  rw [exportWords_eq, List.append_assoc, List.append_assoc]

theorem takeWhile_gap {gap : Text} (hg : ∀ x ∈ gap, isSpace x) (t : Text) :
    (gap ++ ("default".toList ++ t)).takeWhile isSpace = gap := by
  have hd : ("default".toList ++ t).takeWhile isSpace = [] := rfl
  rw [List.takeWhile_append_of_pos hg, hd, List.append_nil]

theorem afterDefault?_eq_some_iff :
    afterDefault? c = some d ↔ ∃ gap t, c.ahead = exportWords gap ++ t ∧ gap ≠ [] ∧
      (∀ x ∈ gap, isSpace x) ∧ NoWord c.behind ∧ NoWord t ∧
      d = c.advance (exportWords gap).length := by
  unfold afterDefault?
  rw [Option.bind_eq_bind, Option.bind_eq_some_iff]
  constructor
  · rintro ⟨e, he, h⟩
    obtain ⟨hb, t, ht, -, rfl⟩ := afterWord?_eq_some_iff.mp he
    have hahead : (c.advance "export".toList.length).ahead = t := by
      rw [Cursor.ahead_advance, ht, List.drop_left]
    rw [hahead] at h
    dsimp only at h
    split at h
    · exact absurd h (by simp)
    · rename_i hn
      obtain ⟨-, v, hv, hnv, rfl⟩ := afterWord?_eq_some_iff.mp h
      rw [Cursor.ahead_advance, hahead] at hv
      have hsplit : t = t.takeWhile isSpace ++ ("default".toList ++ v) := by
        rw [← hv]
        conv_lhs => rw [← List.take_append_drop (t.takeWhile isSpace).length t]
        rw [(List.prefix_iff_eq_take.mp (List.takeWhile_prefix isSpace)).symm]
      refine ⟨t.takeWhile isSpace, v, ?_, ?_, fun x hx => List.mem_takeWhile_imp hx, hb, hnv, ?_⟩
      · rw [exportWords_append, ← hsplit, ht]
      · exact fun hnil => hn (by rw [hnil]; rfl)
      · rw [Cursor.advance_advance, Cursor.advance_advance, length_exportWords]
  · rintro ⟨gap, t, hc, hgap, hspace, hb, hn, rfl⟩
    rw [exportWords_append] at hc
    obtain ⟨g, gs, rfl⟩ := List.exists_cons_of_ne_nil hgap
    have hword : NoWord (g :: gs ++ ("default".toList ++ t)) :=
      noWord_cons (not_isWordChar_of_isSpace (hspace g List.mem_cons_self)) _
    refine ⟨_, afterWord?_eq_some_iff.mpr ⟨hb, _, hc, hword, rfl⟩, ?_⟩
    have hahead : (c.advance "export".toList.length).ahead = g :: gs ++ ("default".toList ++ t) := by
      rw [Cursor.ahead_advance, hc, List.drop_left]
    rw [hahead, takeWhile_gap hspace]
    dsimp only
    rw [if_neg (by simp), afterWord?_eq_some_iff]
    refine ⟨?_, t, ?_, hn, ?_⟩
    · rw [Cursor.advance_length hahead]
      exact noWord_reverse_append hgap (fun x hx => not_isWordChar_of_isSpace (hspace x hx)) _
    · rw [Cursor.ahead_advance, hahead, List.drop_left]
    · rw [Cursor.advance_advance, Cursor.advance_advance, length_exportWords]

/-- What the search asks at a place. -/
theorem atDefault_iff : AtDefault c ↔ ∃ gap t, c.ahead = exportWords gap ++ t ∧ gap ≠ [] ∧
    (∀ x ∈ gap, isSpace x) ∧ NoWord c.behind ∧ NoWord t := by
  rw [AtDefault, Option.isSome_iff_exists]
  constructor
  · rintro ⟨d, h⟩
    obtain ⟨gap, t, hc, hgap, hspace, hb, hn, -⟩ := afterDefault?_eq_some_iff.mp h
    exact ⟨gap, t, hc, hgap, hspace, hb, hn⟩
  · rintro ⟨gap, t, hc, hgap, hspace, hb, hn⟩
    exact ⟨_, afterDefault?_eq_some_iff.mpr ⟨gap, t, hc, hgap, hspace, hb, hn, rfl⟩⟩

/-! ### The words as code -/

theorem exists_cons_of_atDefault (h : AtDefault c) : ∃ t, c.ahead = 'e' :: t := by
  obtain ⟨gap, t, hc, -⟩ := atDefault_iff.mp h
  exact ⟨_, hc⟩

/-- **A default export is a boundary** at which the words stand. -/
theorem exportsAt_iff_walk {source : Text} {n : Nat} :
    ExportsAt source n ↔ ∃ d, Walk (Cursor.start source) [] d ∧ AtDefault d ∧ d.offset = n := by
  constructor
  · rintro ⟨⟨before, gap, after, rfl, rfl, hgap, hspace, hb, ha⟩, hcode⟩
    have hstart : (Cursor.start (before ++ (exportWords gap ++ after))).advance before.length =
        ⟨before.reverse, exportWords gap ++ after⟩ := by
      rw [Cursor.advance_length rfl]
      exact congrArg (Cursor.mk · _) (List.append_nil _)
    have hoffset : (⟨before.reverse, exportWords gap ++ after⟩ : Cursor).offset = Text.bytes before :=
      Text.bytes_reverse before
    refine ⟨⟨before.reverse, exportWords gap ++ after⟩, ?_,
      atDefault_iff.mpr ⟨gap, after, rfl, hgap, hspace, hb, ha⟩, hoffset⟩
    refine walk_of_not_hides_place ⟨before.length, hstart.symm⟩ (exportWords_ne_nil gap after)
      (Or.inl hb) ?_
    rwa [hoffset]
  · rintro ⟨d, hw, hd, rfl⟩
    have hwhole := hw.onward.whole_eq
    rw [Cursor.whole_start] at hwhole
    obtain ⟨t, ht⟩ := exists_cons_of_atDefault hd
    obtain ⟨gap, after, hahead, hgap, hspace, hb, ha⟩ := atDefault_iff.mp hd
    refine ⟨⟨d.behind.reverse, gap, after, ?_, Text.bytes_reverse _, hgap, hspace, ?_, ha⟩, ?_⟩
    · rw [← hahead, ← hwhole, Cursor.whole]
    · rwa [List.reverse_reverse]
    · refine not_hides_place hw ht ?_
      rw [Lexeme.read_word (by decide)]
      exact List.mem_cons_of_mem _ List.mem_cons_self

/-- The default exports from a place on. -/
def defaultExportsFrom (c : Cursor) : List Nat :=
  match _h : c.ahead with
  | [] => []
  | x :: t =>
    let rest := defaultExportsFrom (c.advance ((Lexeme.read c.behind x t).size + 1))
    if AtDefault c then c.offset :: rest else rest
termination_by c.ahead.length
decreasing_by exact Cursor.length_advance_lt (by assumption) _

/-- **The default exports of a text.** -/
def defaultExports (source : Text) : List Nat := defaultExportsFrom (Cursor.start source)

theorem defaultExportsFrom_nil (h : c.ahead = []) : defaultExportsFrom c = [] := by
  rw [defaultExportsFrom]
  split
  · rfl
  · rename_i hc
    rw [h] at hc
    exact absurd hc (by simp)

theorem defaultExportsFrom_cons (h : c.ahead = x :: t) :
    defaultExportsFrom c =
      if AtDefault c then
        c.offset :: defaultExportsFrom (c.advance ((Lexeme.read c.behind x t).size + 1))
      else defaultExportsFrom (c.advance ((Lexeme.read c.behind x t).size + 1)) := by
  rw [defaultExportsFrom]
  split
  · rename_i hc
    rw [h] at hc
    exact absurd hc (by simp)
  · rename_i hc
    rw [h] at hc
    obtain ⟨rfl, rfl⟩ := List.cons.inj hc
    rfl

theorem mem_defaultExportsFrom {n : Nat} :
    n ∈ defaultExportsFrom c ↔ ∃ d, Walk c [] d ∧ AtDefault d ∧ d.offset = n := by
  fun_induction defaultExportsFrom c with
  | case1 c h =>
    refine ⟨fun hn => absurd hn List.not_mem_nil, ?_⟩
    rintro ⟨d, hw, hd, -⟩
    obtain ⟨t, ht⟩ := exists_cons_of_atDefault hd
    rcases walk_iff.mp hw with rfl | ⟨x, u, hu, -⟩
    · exact absurd (h.symm.trans ht) (by simp)
    · exact absurd (h.symm.trans hu) (by simp)
  | case2 c x t h rest hc ih =>
    rw [List.mem_cons, ih]
    constructor
    · rintro (rfl | ⟨d, hw, hd, hn⟩)
      · exact ⟨c, Walk.stay, hc, rfl⟩
      · exact ⟨d, (walk_cons_iff h).mpr (Or.inr hw), hd, hn⟩
    · rintro ⟨d, hw, hd, hn⟩
      rcases (walk_cons_iff h).mp hw with rfl | hw
      · exact Or.inl hn.symm
      · exact Or.inr ⟨d, hw, hd, hn⟩
  | case3 c x t h rest hc ih =>
    rw [ih]
    refine exists_congr fun d => ⟨?_, ?_⟩
    · rintro ⟨hw, hd, hn⟩
      exact ⟨(walk_cons_iff h).mpr (Or.inr hw), hd, hn⟩
    · rintro ⟨hw, hd, hn⟩
      rcases (walk_cons_iff h).mp hw with rfl | hw
      · exact absurd hd hc
      · exact ⟨hw, hd, hn⟩

theorem exportsAt_iff_mem {source : Text} {n : Nat} :
    ExportsAt source n ↔ n ∈ defaultExports source := by
  rw [exportsAt_iff_walk, defaultExports, mem_defaultExportsFrom]

instance (source : Text) : DecidablePred (ExportsAt source) :=
  fun _ => decidable_of_iff _ exportsAt_iff_mem.symm

end Unbundled.Component
