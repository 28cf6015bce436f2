import Unbundled.Proofs.Package.Files
import Unbundled.Proofs.Text.Parts

/-! # Names of packages

A bare specifier is the name of a package, or such a name, a slash, and what follows it (`Splits`). The
name has one part, or two if it starts with an at sign. This is said without a search for slashes.

* `splitBare_eq_iff`: specifiers are split in this way, and in no other.
* `splitBare_rejoins`: the parts of a split make up the specifier again. -/

namespace Unbundled.Specifier

/-- **The name of a package**: one part, or two with an at sign in front. -/
inductive IsPackage : Text → Prop
  | single {name : Text} (hat : name.head? ≠ some '@') (hs : '/' ∉ name) : IsPackage name
  | pair {scope part : Text} (hat : scope.head? = some '@') (hs : '/' ∉ scope) (hp : '/' ∉ part) :
    IsPackage (scope ++ '/' :: part)

/-- **The parts of a specifier**: the name of a package, and the path inside it, if one follows. An at
sign without a second part is taken for a name. -/
inductive Splits : Text → Text → Option Text → Prop
  | name {name : Text} (hn : IsPackage name) : Splits name name none
  | scope {scope : Text} (hat : scope.head? = some '@') (hs : '/' ∉ scope) : Splits scope scope none
  | slash {name : Text} (hn : IsPackage name) : Splits (name ++ ['/']) name none
  | inside {name inside : Text} (hn : IsPackage name) (hi : inside ≠ []) :
    Splits (name ++ '/' :: inside) name (some inside)

variable {first name scope spec rest part t : Text} {inside : Option Text}

theorem cut?_slash (h : '/' ∉ first) (rest : Text) :
    Text.cut? ['/'] (first ++ '/' :: rest) = some (first, rest) :=
  Text.cut?_char h rest

theorem cut?_slash_eq_none (h : '/' ∉ t) : Text.cut? ['/'] t = none :=
  Text.cut?_eq_none_iff.mpr fun hi => h (hi.subset List.mem_cons_self)

theorem append_of_cut?_slash (h : Text.cut? ['/'] spec = some (first, rest)) :
    spec = first ++ '/' :: rest :=
  (Text.append_of_cut? h).trans (List.append_assoc first ['/'] rest)

theorem head?_append_slash {c : Char} (hc : c ≠ '/') (first rest : Text) :
    (first ++ '/' :: rest).head? = some c ↔ first.head? = some c := by
  cases first with
  | nil => simp [Ne.symm hc]
  | cons x first => rfl

/-! ### One way to split -/

theorem splitBare_whole (h : '/' ∉ spec) : splitBare spec = (spec, none) := by
  rw [splitBare, cut?_slash_eq_none h]

theorem splitBare_single (hat : first.head? ≠ some '@') (hs : '/' ∉ first) (rest : Text) :
    splitBare (first ++ '/' :: rest) = (first, nonEmpty? rest) := by
  rw [splitBare, cut?_slash hs]
  exact if_neg (mt (head?_append_slash (by decide) first rest).mp hat)

theorem splitBare_scoped (hat : scope.head? = some '@') (hs : '/' ∉ scope) (rest : Text) :
    splitBare (scope ++ '/' :: rest) =
      match Text.cut? ['/'] rest with
      | none => (scope ++ '/' :: rest, none)
      | some (part, rest) => (scope ++ '/' :: part, nonEmpty? rest) := by
  rw [splitBare, cut?_slash hs]
  exact if_pos ((head?_append_slash (by decide) scope rest).mpr hat)

/-- A name is split off where a slash follows it. -/
theorem splitBare_append (hn : IsPackage name) (rest : Text) :
    splitBare (name ++ '/' :: rest) = (name, nonEmpty? rest) := by
  cases hn with
  | single hat hs => exact splitBare_single hat hs rest
  | pair hat hs hp =>
    rw [List.append_assoc, List.cons_append, splitBare_scoped hat hs, cut?_slash hp]

theorem splitBare_name (hn : IsPackage name) : splitBare name = (name, none) := by
  cases hn with
  | single _ hs => exact splitBare_whole hs
  | pair hat hs hp => rw [splitBare_scoped hat hs, cut?_slash_eq_none hp]

theorem nonEmpty?_of_ne_nil (h : t ≠ []) : nonEmpty? t = some t :=
  if_neg (by simpa using h)

/-! ### Every specifier splits -/

theorem splits_append (hn : IsPackage name) (rest : Text) :
    Splits (name ++ '/' :: rest) name (nonEmpty? rest) := by
  cases rest with
  | nil => exact .slash hn
  | cons c rest => exact .inside hn (List.cons_ne_nil c rest)

theorem splits_splitBare (spec : Text) : Splits spec (splitBare spec).1 (splitBare spec).2 := by
  cases hc : Text.cut? ['/'] spec with
  | none =>
    have hs := slash_not_mem_of_cut?_none hc
    rw [splitBare_whole hs]
    by_cases hat : spec.head? = some '@'
    · exact .scope hat hs
    · exact .name (.single hat hs)
  | some parts =>
    obtain ⟨first, rest⟩ := parts
    have hs := slash_not_mem_of_cut? hc
    rw [append_of_cut?_slash hc]
    by_cases hat : first.head? = some '@'
    · rw [splitBare_scoped hat hs]
      cases hr : Text.cut? ['/'] rest with
      | none => exact .name (.pair hat hs (slash_not_mem_of_cut?_none hr))
      | some parts =>
        obtain ⟨part, rest⟩ := parts
        have h := splits_append (.pair hat hs (slash_not_mem_of_cut? hr)) rest
        rwa [List.append_assoc, List.cons_append, ← append_of_cut?_slash hr] at h
    · rw [splitBare_single hat hs]
      exact splits_append (.single hat hs) rest

/-- **Specifiers are split into their parts**, and in one way only. -/
theorem splitBare_eq_iff : splitBare spec = (name, inside) ↔ Splits spec name inside := by
  refine ⟨fun h => ?_, fun h => ?_⟩
  · have hs := splits_splitBare spec
    rwa [h] at hs
  · cases h with
    | name hn => exact splitBare_name hn
    | scope _ hs => exact splitBare_whole hs
    | slash hn => exact splitBare_append hn []
    | inside hn hi => rw [splitBare_append hn, nonEmpty?_of_ne_nil hi]

/-! ### The parts put together -/

theorem IsPackage.count_slash (hn : IsPackage name) :
    name.count '/' = if name.head? = some '@' then 1 else 0 := by
  cases hn with
  | single hat hs => rw [if_neg hat, List.count_eq_zero_of_not_mem hs]
  | @pair scope part hat hs hp =>
    rw [if_pos ((head?_append_slash (by decide) scope part).mpr hat), List.count_append,
      List.count_cons_self, List.count_eq_zero_of_not_mem hs, List.count_eq_zero_of_not_mem hp]

theorem Splits.count_slash (h : Splits spec name inside) :
    name.count '/' ≤ if spec.head? = some '@' then 1 else 0 := by
  have hhead : ∀ rest, (name ++ '/' :: rest).head? = some '@' ↔ name.head? = some '@' :=
    head?_append_slash (by decide) name
  cases h with
  | name hn => exact hn.count_slash.le
  | scope _ hs => exact (List.count_eq_zero_of_not_mem hs).trans_le (Nat.zero_le _)
  | slash hn =>
    simp only [hhead]
    exact hn.count_slash.le
  | inside hn =>
    simp only [hhead]
    exact hn.count_slash.le

theorem Splits.rejoin (h : Splits spec name inside) :
    inside = none ∧ (spec = name ∨ spec = name ++ ['/']) ∨
      ∃ path, inside = some path ∧ path ≠ [] ∧ spec = name ++ '/' :: path := by
  cases h with
  | name | scope => exact Or.inl ⟨rfl, Or.inl rfl⟩
  | slash => exact Or.inl ⟨rfl, Or.inr rfl⟩
  | inside _ hi => exact Or.inr ⟨_, rfl, hi, rfl⟩

/-- **A split loses nothing but a slash at the end**, and there is no other split. The name and the path
make up the specifier again, with the slash between them, or without the one slash after a name that
nothing follows. A name has no slash, or at most one if it starts with an at sign. The other way round,
the name of a package and a path are split where they were put together. -/
theorem splitBare_rejoins :
    (∀ spec name inside, splitBare spec = (name, inside) →
      (inside = none ∧ (spec = name ∨ spec = name ++ ['/']) ∨
        ∃ path, inside = some path ∧ path ≠ [] ∧ spec = name ++ '/' :: path) ∧
      name.count '/' ≤ if spec.head? = some '@' then 1 else 0) ∧
    (∀ name path, IsPackage name → path ≠ [] →
      splitBare (name ++ '/' :: path) = (name, some path)) ∧
    ∀ spec, ∃! parts : Text × Option Text, Splits spec parts.1 parts.2 := by
  refine ⟨fun spec name inside h => ?_, fun name path hn hp => ?_, fun spec => ?_⟩
  · have hs := splitBare_eq_iff.mp h
    exact ⟨hs.rejoin, hs.count_slash⟩
  · exact splitBare_eq_iff.mpr (.inside hn hp)
  · exact ⟨splitBare spec, splits_splitBare spec, fun parts h => (splitBare_eq_iff.mpr h).symm⟩

/-- A name with a scope before a path that starts and ends with a slash. -/
theorem splitBare_rejoins_scoped :
    splitBare "@s/p//a/".toList = ("@s/p".toList, some "/a/".toList) ∧
      "@s/p".toList.count '/' ≤ 1 := by
  obtain ⟨hparts, hsplit, -⟩ := splitBare_rejoins
  have hs := hsplit "@s/p".toList "/a/".toList
    (@IsPackage.pair "@s".toList ['p'] (by decide) (by decide) (by decide)) (by decide)
  exact ⟨hs, (hparts _ _ _ hs).2⟩

end Unbundled.Specifier
