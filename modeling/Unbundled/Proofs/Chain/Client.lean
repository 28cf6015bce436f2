import Unbundled.Proofs.Chain.Repeats
import Unbundled.Proofs.Text.Occurrences

/-! # The client in a page

The client stands in a page once. A page that carries its marker is kept; in any other one the tag of the
client is put where the body ends, or at the end of the page (`Cuts`), and the marker does not arise
anywhere else: the tag starts and ends with characters that the marker does not have.

* `occurrences_insert`: the marker stands once in a page with the tag.
* `inject_once`: what a page with the client is, and that it stays so. -/

namespace Unbundled.Reload

variable {before after page s u : Text}

/-- Where the client is put: before the first end of a body, or else at the end. -/
inductive Cuts : Text → Text → Prop
  | bodyEnd {before rest : Text}
    (hfirst : ∀ s u, before ++ (bodyEnd ++ rest) = s ++ (bodyEnd ++ u) → before.length ≤ s.length) :
    Cuts before (bodyEnd ++ rest)
  | finish {page : Text} (hnone : ¬ bodyEnd <:+: page) : Cuts page []

/-! ### The marker -/

/-- What follows the marker in the tag. -/
def tagRest : Text := '>' :: script ++ "</script>".toList

theorem tag_eq : tag = "<script ".toList ++ (marker ++ tagRest) :=
  (List.append_assoc _ _ _).trans (List.append_assoc _ _ _)

theorem marker_ne_nil : marker ≠ [] := by decide

theorem occurrences_tag : Text.occurrences marker tag = 1 := by decide +kernel

theorem getLast?_closed (t : Text) : (t ++ "</script>".toList).getLast? = some '>' := by
  have hend : "</script>".toList.getLast? = some '>' := by decide
  rw [List.getLast?_append, hend, Option.some_or]

theorem getLast?_tag : tag.getLast? = some '>' := getLast?_closed _

/-- The marker runs neither into the tag nor out of it. -/
theorem occurrences_insert (h : ¬ marker <:+: before ++ after) :
    Text.occurrences marker (before ++ (tag ++ after)) = 1 := by
  have hbefore : ¬ marker <:+: before := fun hm => h (hm.trans (List.prefix_append _ _).isInfix)
  have hafter : ¬ marker <:+: after := fun hm => h (hm.trans (List.suffix_append _ _).isInfix)
  have hin : Text.NoSeam marker before (tag ++ after) :=
    Text.noSeam_of_not_mem (by
      intro y hy
      obtain rfl : '<' = y := Option.some.inj hy
      decide) before
  have hlast : ∀ c ∈ tag.getLast?, c = '>' := by
    intro c hc
    rw [getLast?_tag] at hc
    exact (Option.some.inj hc).symm
  have hout : Text.NoSeam marker tag after := Text.noSeam_of_last (by decide) hlast after
  rw [Text.occurrences_append marker_ne_nil hin, Text.occurrences_append marker_ne_nil hout,
    Text.occurrences_eq_zero hbefore, Text.occurrences_eq_zero hafter, occurrences_tag]

/-! ### The place of the client -/

/-- A page with the marker once has the tag in one place only. -/
theorem eq_of_insert_eq (hone : Text.occurrences marker page = 1) (h : page = before ++ (tag ++ after))
    (hs : page = s ++ (tag ++ u)) : s = before ∧ u = after := by
  have hmark : ∀ v w, v ++ (tag ++ w) = (v ++ "<script ".toList) ++ (marker ++ (tagRest ++ w)) := by
    intro v w
    rw [tag_eq]
    simp only [List.append_assoc]
  have hfront := Text.eq_of_occurrences_eq_one hone (hs.trans (hmark s u)) (h.trans (hmark before after))
  obtain rfl := List.append_cancel_right hfront
  exact ⟨rfl, List.append_cancel_left (List.append_cancel_left (hs.symm.trans h))⟩

theorem inject_of_infix (h : marker <:+: page) : inject page = page := if_pos (Text.includes_iff.mpr h)

theorem cuts_of_cut? (h : Text.cut? bodyEnd page = some (s, u)) : Cuts s (bodyEnd ++ u) := by
  refine .bodyEnd fun s' u' he => ?_
  have hpage : page = s' ++ (bodyEnd ++ u') := by rw [Text.append_of_cut? h, List.append_assoc, he]
  exact Text.length_le_of_cut? h hpage

theorem exists_cuts (h : ¬ marker <:+: page) : ∃ before after, Cuts before after ∧
    page = before ++ after ∧ inject page = before ++ (tag ++ after) := by
  rw [inject, if_neg (mt Text.includes_iff.mp h)]
  cases hcut : Text.cut? bodyEnd page with
  | none =>
    refine ⟨page, [], .finish (Text.cut?_eq_none_iff.mp hcut), (List.append_nil page).symm, ?_⟩
    rw [List.append_nil]
  | some parts =>
    obtain ⟨s, u⟩ := parts
    refine ⟨s, bodyEnd ++ u, cuts_of_cut? hcut, ?_, ?_⟩
    · rw [Text.append_of_cut? hcut, List.append_assoc]
    · dsimp only
      rw [List.append_assoc, List.append_assoc]

theorem iterate_inject (n : Nat) (page : Text) : inject^[n + 1] page = inject page := by
  induction n with
  | zero => rfl
  | succ n ih => rw [Function.iterate_succ_apply', ih, inject_inject]

/-- **The client is put into a page once.** A page with the marker is kept. Any other page gets the tag of
the client before its first end of a body, or at its end, and nothing else: the marker stands in it once,
the page is what is left without the tag, and putting the client in again and again changes nothing. -/
theorem inject_once (page : Text) :
    (marker <:+: page ∧ inject page = page ∨
      ¬ marker <:+: page ∧ Text.occurrences marker (inject page) = 1 ∧
        (∃ before after, Cuts before after ∧ page = before ++ after ∧
          inject page = before ++ (tag ++ after)) ∧
        ∀ s u, inject page = s ++ (tag ++ u) → s ++ u = page) ∧
    ∀ n, inject^[n + 1] page = inject page := by
  refine ⟨?_, fun n => iterate_inject n page⟩
  by_cases h : marker <:+: page
  · exact Or.inl ⟨h, inject_of_infix h⟩
  obtain ⟨before, after, hcuts, rfl, hinject⟩ := exists_cuts h
  have hone := occurrences_insert h
  rw [← hinject] at hone
  refine Or.inr ⟨h, hone, ⟨before, after, hcuts, rfl, hinject⟩, fun s u hs => ?_⟩
  obtain ⟨rfl, rfl⟩ := eq_of_insert_eq hone hinject hs
  rfl

end Unbundled.Reload
