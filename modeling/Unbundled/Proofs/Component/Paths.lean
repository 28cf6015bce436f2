import Mathlib.Tactic.Common
import Unbundled.Component.Compile

/-! # Request paths in component modules

A component module holds the path it was requested by: as its file name, and in the id that is made of
it. Nothing else in a module depends on the request, nor does whether there is a module, or why there
is none. So the modules of one component for two request paths are the same but for these places
(`SameBut`, `assemble_sameBut`). -/

namespace Unbundled.Component

/-- Two texts that are the same, except that one of them holds the request path `p` wherever the other
one holds `q`: as it is written, inside of a literal, or as the id of a component. -/
inductive SameBut (p q : Text) : Text → Text → Prop
  | nil : SameBut p q [] []
  | char (c : Char) {s t : Text} (rest : SameBut p q s t) : SameBut p q (c :: s) (c :: t)
  | path {s t : Text} (rest : SameBut p q s t) : SameBut p q (p ++ s) (q ++ t)
  | literal {s t : Text} (rest : SameBut p q s t) :
    SameBut p q (p.flatMap Literal.escape ++ s) (q.flatMap Literal.escape ++ t)
  | id {s t : Text} (rest : SameBut p q s t) : SameBut p q (idOf p ++ s) (idOf q ++ t)

variable {p q s t s' t' : Text}

namespace SameBut

theorem refl (p q t : Text) : SameBut p q t t := by
  induction t with
  | nil => exact .nil
  | cons c t ih => exact .char c ih

theorem append (h : SameBut p q s t) (h' : SameBut p q s' t') :
    SameBut p q (s ++ s') (t ++ t') := by
  induction h with
  | nil => exact h'
  | char c _ ih => exact .char c ih
  | path _ ih =>
    rw [List.append_assoc, List.append_assoc]
    exact .path ih
  | literal _ ih =>
    rw [List.append_assoc, List.append_assoc]
    exact .literal ih
  | id _ ih =>
    rw [List.append_assoc, List.append_assoc]
    exact .id ih

/-- The same text may stand in front. -/
theorem after (u : Text) (h : SameBut p q s t) : SameBut p q (u ++ s) (u ++ t) := (refl p q u).append h

/-- The same text may follow. -/
theorem before (u : Text) (h : SameBut p q s t) : SameBut p q (s ++ u) (t ++ u) := h.append (refl p q u)

/-! ### Literals -/

/-- A literal that starts with the path. -/
theorem quote_append (p q u : Text) :
    SameBut p q (Literal.quote (p ++ u)) (Literal.quote (q ++ u)) := by
  rw [Literal.quote, Literal.quote, List.flatMap_append, List.flatMap_append, List.append_assoc,
    List.append_assoc]
  exact .char '"' (.literal (refl p q _))

theorem quote_path (p q : Text) : SameBut p q (Literal.quote p) (Literal.quote q) := by
  have h := quote_append p q []
  rwa [List.append_nil, List.append_nil] at h

end SameBut

theorem escape_of_isAlphanum {c : Char} (h : c.isAlphanum) : Literal.escape c = [c] := by
  have hlow : ∀ n < 0x30, ¬ (Char.ofNat n).isAlphanum := by decide
  have hcode : 0x30 ≤ c.toNat := by
    by_contra hlt
    refine hlow c.toNat (by omega) ?_
    rwa [Char.ofNat_toNat]
  have hne : ∀ d : Char, d.toNat < 0x30 → c ≠ d := by
    rintro d hd rfl
    omega
  have hslash : c ≠ '\\' := by
    rintro rfl
    exact absurd h (by decide)
  unfold Literal.escape
  rw [if_neg (hne _ (by decide)), if_neg hslash, if_neg (hne _ (by decide)),
    if_neg (hne _ (by decide)), if_neg (hne _ (by decide)), if_neg (hne _ (by decide)),
    if_neg (hne _ (by decide)), if_neg (by omega)]

theorem escape_idOf (p : Text) : (idOf p).flatMap Literal.escape = idOf p := by
  rw [idOf, List.flatMap_map]
  induction p with
  | nil => rfl
  | cons c p ih =>
    rw [List.flatMap_cons, ih, List.map_cons]
    by_cases hc : c.isAlphanum
    · rw [if_pos hc, escape_of_isAlphanum hc]
      rfl
    · rw [if_neg hc]
      rfl

theorem SameBut.quote_id (p q : Text) :
    SameBut p q (Literal.quote (idOf p)) (Literal.quote (idOf q)) := by
  rw [Literal.quote, Literal.quote, escape_idOf, escape_idOf]
  exact .char '"' (.id (.refl p q _))

/-! ### Modules -/

theorem SameBut.propertyLine (name : Text) (h : SameBut p q s t) :
    SameBut p q (propertyLine name s) (propertyLine name t) := by
  unfold Component.propertyLine line
  exact ((h.after _).before _).before _

theorem SameBut.styleLines (p q css : Text) :
    SameBut p q (styleLines (idOf p) css) (styleLines (idOf q) css) := by
  unfold Component.styleLines line
  refine SameBut.before _ (SameBut.before _ (SameBut.after _ ?_))
  exact (((SameBut.quote_id p q).after _).before _).before _

/-- **The modules of one component for two request paths** are the same but for the paths. If one of
them cannot be made, nor can the other, for the same reason. -/
theorem toModule_sameBut (d : Descriptor) (p q : Text) :
    (∃ cause, d.toModule p (idOf p) = .error cause ∧ d.toModule q (idOf q) = .error cause) ∨
      ∃ m n, d.toModule p (idOf p) = .ok m ∧ d.toModule q (idOf q) = .ok n ∧ SameBut p q m n := by
  unfold Descriptor.toModule
  cases d.template.mapM compileTemplate with
  | error cause => exact Or.inl ⟨cause, rfl, rfl⟩
  | ok template =>
    cases compileScript d.script with
    | error cause => exact Or.inl ⟨cause, rfl, rfl⟩
    | ok script =>
      refine Or.inr ⟨_, _, rfl, rfl, SameBut.before _ (SameBut.append ?_ ?_)⟩
      · refine SameBut.append (SameBut.after _ ?_) ?_
        · exact (SameBut.quote_id p q).propertyLine _
        · exact (SameBut.quote_path p q).propertyLine _
      · split
        · exact .nil
        · exact SameBut.styleLines p q _

theorem assemble_sameBut (source p q : Text) :
    (∃ cause, assemble p (idOf p) source = .error ⟨p, cause⟩ ∧
      assemble q (idOf q) source = .error ⟨q, cause⟩) ∨
      ∃ m n, assemble p (idOf p) source = .ok m ∧ assemble q (idOf q) source = .ok n ∧
        SameBut p q m n := by
  unfold assemble
  cases Descriptor.parse source with
  | error cause => exact Or.inl ⟨cause, rfl, rfl⟩
  | ok d =>
    rcases toModule_sameBut d p q with ⟨cause, hp, hq⟩ | ⟨m, n, hp, hq, h⟩
    · refine Or.inl ⟨cause, ?_, ?_⟩
      · simp only [Except.bind, hp, Except.mapError]
      · simp only [Except.bind, hq, Except.mapError]
    · refine Or.inr ⟨m, n, ?_, ?_, h⟩
      · simp only [Except.bind, hp, Except.mapError]
      · simp only [Except.bind, hq, Except.mapError]

/-- The reports of one failure for two request paths. -/
theorem failureModule_sameBut (p q : Text) (cause : Cause) :
    SameBut p q (failureModule (Fault.message ⟨p, cause⟩))
      (failureModule (Fault.message ⟨q, cause⟩)) := by
  unfold failureModule Fault.message line
  refine SameBut.after _ (SameBut.before _ (SameBut.before _ (SameBut.after _ ?_)))
  rw [List.append_assoc, List.append_assoc]
  exact SameBut.quote_append p q _

end Unbundled.Component
