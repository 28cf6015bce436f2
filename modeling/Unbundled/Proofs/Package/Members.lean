import Mathlib.Data.List.Perm.Basic
import Unbundled.Package.Manifest
import Unbundled.Proofs.Json.Reading

/-! # The members of a manifest

A manifest is an object with members of any names and values, in any order (`IsObject`). Two names are
asked for, and each may be left out, or stand once with a string or `null` (`Says`). What the object says
of a name is left by every change to its other members (`Says.of_perm`).

* `Manifest.parse?_of_isObject`: a manifest holds what is said of the two names, and nothing else counts.
-/

namespace Unbundled.Json

variable {fields fields' : List (Text × Json)} {name : Text} {o : Option Text} {v : Json}

/-! ### Objects -/

/-- **A member of an object**: its name, the key that stands for it as it is written, and its value. -/
structure Member where
  name : Text
  key : Text
  value : Json
  stands : StandsFor key name

/-- The key of a member and its value. -/
def Member.written (m : Member) : Text × Json := (m.key, m.value)

/-- The name of a member and its value. -/
def Member.field (m : Member) : Text × Json := (m.name, m.value)

/-- A text that holds an object with the given members, in their order. -/
def IsObject (members : List Member) (t : Text) : Prop :=
  IsText (.object (members.map Member.written)) t

theorem fields?_written (members : List Member) :
    fields? (members.map Member.written) = some (members.map Member.field) := by
  induction members with
  | nil => rfl
  | cons m members ih =>
    have hkey : (Literal.decode? m.key).map (·, m.value) = some m.field := by
      rw [m.stands.decode?_eq]
      rfl
    rw [fields?] at ih
    rw [List.map_cons, fields?, List.mapM_cons, ih]
    dsimp only [Member.written]
    rw [hkey]
    rfl

/-! ### What an object says of a name -/

/-- The fields of a name. -/
def named (name : Text) (fields : List (Text × Json)) : List (Text × Json) :=
  fields.filter fun (k, _) => k == name

/-- A value that may be left out: a string, or `null` for nothing. -/
inductive Fills : Json → Option Text → Prop
  | null : Fills .null none
  | string {raw t : Text} (h : StandsFor raw t) : Fills (.string raw) (some t)

/-- **What the fields of an object say of a name**: nothing, or what its one field says. -/
inductive Says (name : Text) (fields : List (Text × Json)) : Option Text → Prop
  | absent (h : named name fields = []) : Says name fields none
  | once {v : Json} {o : Option Text} (h : named name fields = [(name, v)]) (hv : Fills v o) :
    Says name fields o

theorem optional_of_fills (h : Fills v o) : optional text? v = some o := by
  cases h with
  | null => rfl
  | string h =>
    rw [optional, text?, h.decode?_eq]
    · rfl
    · exact nofun

theorem Says.exists_field (h : Says name fields o) : ∃ v, field? name fields = some v ∧ Fills v o := by
  cases h with
  | absent h => exact ⟨.null, by rw [field?, ← named, h], .null⟩
  | @once v _ h hv => exact ⟨v, by rw [field?, ← named, h], hv⟩

/-- What is said of a name stays if the fields of this name stay. -/
theorem Says.of_perm (h : Says name fields o) (hp : (named name fields').Perm (named name fields)) :
    Says name fields' o := by
  cases h with
  | absent h => exact .absent (List.perm_nil.mp (h ▸ hp))
  | once h hv => exact .once (List.perm_singleton.mp (h ▸ hp)) hv

end Unbundled.Json

namespace Unbundled.Manifest

open Json (IsObject Member Says StandsFor named)

variable {content name : Text} {main module : Option Text} {members : List Member}

/-- Whether a field is asked for. -/
def isWanted (field : Text × Json) : Bool :=
  field.1 == "module".toList || field.1 == "main".toList

theorem named_filter_isWanted (hname : name = "module".toList ∨ name = "main".toList)
    (fields : List (Text × Json)) : named name (fields.filter isWanted) = named name fields := by
  rw [named, named, List.filter_filter]
  refine List.filter_congr fun (k, v) _ => ?_
  dsimp only
  cases hk : k == name with
  | false => rfl
  | true => simpa [isWanted, beq_iff_eq.mp hk] using hname

theorem ofJson?_of_says (hmodule : Says "module".toList (members.map Member.field) module)
    (hmain : Says "main".toList (members.map Member.field) main) :
    ofJson? (.object (members.map Member.written)) = some ⟨module, main⟩ := by
  obtain ⟨v, hv, hfill⟩ := hmodule.exists_field
  obtain ⟨w, hw, hfill'⟩ := hmain.exists_field
  simp only [ofJson?, Json.fields?_written, hv, hw, Json.optional_of_fills hfill,
    Json.optional_of_fills hfill', Option.bind_eq_bind, Option.bind_some]

theorem parse?_of_says (h : IsObject members content)
    (hmodule : Says "module".toList (members.map Member.field) module)
    (hmain : Says "main".toList (members.map Member.field) main) :
    parse? content = some ⟨module, main⟩ := by
  rw [parse?, Json.read?_of_isText h, Option.bind_some, ofJson?_of_says hmodule hmain]

/-- **A manifest holds what its object says of the two names.** Whatever other members stand in it, and
wherever they stand, the manifest is the same, and so is the file that the package is entered by. -/
theorem parse?_of_isObject (h : IsObject members content)
    (hmodule : Says "module".toList (members.map Member.field) module)
    (hmain : Says "main".toList (members.map Member.field) main) :
    parse? content = some ⟨module, main⟩ ∧
    ∀ members' content', IsObject members' content' →
      ((members'.map Member.field).filter isWanted).Perm
        ((members.map Member.field).filter isWanted) →
      parse? content' = parse? content ∧
      (parse? content').map entry = (parse? content).map entry := by
  have hparse := parse?_of_says h hmodule hmain
  refine ⟨hparse, fun members' content' h' hperm => ?_⟩
  have hnamed : ∀ name, name = "module".toList ∨ name = "main".toList →
      (named name (members'.map Member.field)).Perm (named name (members.map Member.field)) := by
    intro name hname
    rw [← named_filter_isWanted hname, ← named_filter_isWanted hname (members.map Member.field)]
    exact hperm.filter _
  have hsame : parse? content' = parse? content := by
    rw [hparse]
    exact parse?_of_says h' (hmodule.of_perm (hnamed _ (Or.inl rfl)))
      (hmain.of_perm (hnamed _ (Or.inr rfl)))
  exact ⟨hsame, by rw [hsame]⟩

/-! A manifest with white space, escapes, and a member that is passed over. -/

/-- Its value looks like a member that is asked for, and holds half of a pair of surrogates. -/
def otherMember : Member where
  name := "n".toList
  key := "n".toList
  value := .array [.object [("main".toList, .string "\\ud800".toList)]]
  stands := Json.standsFor_self (by decide)

/-- Its key and its value have escapes. -/
def mainMember : Member where
  name := "main".toList
  key := "m\\u0061in".toList
  value := .string "a\\/b".toList
  stands := .char (by decide) (.unit (@Json.IsUnit.digits '0' '0' '6' '1' 0 0 6 1 (by decide) (by decide)
    (by decide) (by decide)) (by decide) (by decide) (Json.standsFor_self (by decide)))

def moduleMember : Member where
  name := "module".toList
  key := "module".toList
  value := .null
  stands := Json.standsFor_self (by decide)

theorem standsFor_slash : StandsFor "a\\/b".toList "a/b".toList :=
  .char (by decide) (@StandsFor.short '/' '/' _ _ (by decide) (.char (by decide) .nil))

def mixedContent : Text :=
  "\x7b\"n\":[\x7b\"main\":\"\\ud800\"\x7d], \"m\\u0061in\" :\"a\\/b\",\"module\":null\x7d".toList

theorem isObject_mixedContent : IsObject [otherMember, mainMember, moduleMember] mixedContent := by
  have hnone : Json.IsGap [] := List.forall_mem_nil _
  have hblank : Json.IsGap [' '] := List.forall_mem_singleton.mpr (Or.inl rfl)
  have hhalf : Json.IsString "\\ud800".toList :=
    .unit (@Json.IsUnit.digits 'd' '8' '0' '0' 13 8 0 0 (by decide) (by decide) (by decide) (by decide))
      .nil
  have hname : StandsFor "main".toList "main".toList := Json.standsFor_self (by decide)
  have hinner := Json.IsMembers.last hnone hname.isString hnone (Json.IsValue.string hhalf).isText
  have hvalue := Json.IsValue.array (.last (Json.IsValue.object hinner).isText)
  -- from the last member to the first one
  have hlast := Json.IsMembers.last hnone moduleMember.stands.isString hnone Json.IsValue.null.isText
  have hsecond := Json.IsMembers.more hblank mainMember.stands.isString hblank
    (Json.IsValue.string standsFor_slash.isString).isText hlast
  have hfirst := Json.IsMembers.more hnone otherMember.stands.isString hnone hvalue.isText hsecond
  exact (Json.IsValue.object hfirst).isText

theorem isObject_swapped : IsObject [moduleMember, mainMember]
    "\x7b\"module\":null,\"m\\u0061in\":\"a\\/b\"\x7d".toList := by
  have hnone : Json.IsGap [] := List.forall_mem_nil _
  have hlast := Json.IsMembers.last hnone mainMember.stands.isString hnone
    (Json.IsValue.string standsFor_slash.isString).isText
  have hfirst := Json.IsMembers.more hnone moduleMember.stands.isString hnone
    Json.IsValue.null.isText hlast
  exact (Json.IsValue.object hfirst).isText

/-- Alone and the other way round, the two members make the same manifest. -/
theorem parse?_of_isObject_mixed :
    IsObject [otherMember, mainMember, moduleMember] mixedContent ∧
    parse? mixedContent = some ⟨none, some "a/b".toList⟩ ∧
    parse? "\x7b\"module\":null,\"m\\u0061in\":\"a\\/b\"\x7d".toList = parse? mixedContent := by
  have hparse := parse?_of_isObject isObject_mixedContent (.once rfl .null)
    (.once rfl (.string standsFor_slash))
  exact ⟨isObject_mixedContent, hparse.1, (hparse.2 _ _ isObject_swapped (.swap _ _ [])).1⟩

end Unbundled.Manifest
