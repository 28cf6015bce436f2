import Unbundled.Proofs.Url.Requests

/-! # Endings of request paths

An ending such as `.js` stands for itself in a request path, whatever escapes come before it. So a
request path with that ending leads to a file whose name has it as well (`toPath?_ending`). The
converse fails: a request path may have the ending escaped, or a slash after it. -/

namespace Unbundled

open Unbundled.Path (IsName parts)

variable {root file : Path} {url e s t : Text}

/-- A text that file names may end in and that stands for itself in a request path. -/
structure IsEnding (e : Text) : Prop where
  dot : e.head? = some '.'
  ne_dot : e ≠ ['.']
  slash : '/' ∉ e
  percent : '%' ∉ e
  ascii : e.all fun c => c.toNat < 0x80

theorem IsEnding.ne_nil (h : IsEnding e) : e ≠ [] := by
  rintro rfl
  exact absurd h.dot (by simp)

theorem Percent.not_hasEscape (h : '%' ∉ e) : ¬ Percent.HasEscape e := by
  rintro ⟨a, b, -, hi⟩
  exact h (hi.subset List.mem_cons_self)

namespace Url

/-- **The text that a request path is read to has its ending.** -/
theorem Reads.isSuffix (h : Reads url t) (he : IsEnding e) (hs : e <:+ pathPart url) : e <:+ t := by
  obtain ⟨s, hs⟩ := hs
  have hdot : ∀ d ∈ e.head?, Literal.hexValue? d = none := by
    rw [he.dot]
    rintro d hd
    obtain rfl := Option.some.inj hd
    rfl
  have hstands : Percent.Stands (s ++ e) (Percent.decode s ++ Text.encode e) :=
    (Percent.stands_decode s).append
      (Percent.stands_of_not_hasEscape (Percent.not_hasEscape he.percent)) hdot
  rw [Reads, ← hs, Percent.stands_iff, Percent.stands_iff.mp hstands] at h
  have hascii : ∀ c ∈ e, c.toNat < 0x80 := fun c hc =>
    of_decide_eq_true (List.all_eq_true.mp he.ascii c hc)
  exact Utf8.isSuffix_of_encode hascii h.symm

end Url

namespace Path

/-- What stands after the last slash of a text is its last part, if it counts. -/
theorem parts_append_singleton (hs : '/' ∉ e) (hi : ∀ s, ¬ isIdle (s ++ e)) (s : Text) :
    ∃ names n, parts (s ++ e) = names ++ [n] ∧ e <:+ n := by
  have hlast : ∀ b : Text, '/' ∉ b → parts (b ++ e) = [b ++ e] := by
    intro b hb
    have hslash : '/' ∉ b ++ e := by
      rw [List.mem_append, not_or]
      exact ⟨hb, hs⟩
    rw [parts_of_slash_not_mem hslash, if_neg (hi b)]
  by_cases h : '/' ∈ s
  · obtain ⟨b, a, hsplit, hb⟩ := List.eq_append_cons_of_mem (List.mem_reverse.mpr h)
    obtain rfl : s = a.reverse ++ '/' :: b.reverse := by
      rw [← List.reverse_reverse s, hsplit, List.reverse_append, List.reverse_cons,
        List.append_assoc]
      rfl
    refine ⟨parts a.reverse, b.reverse ++ e, ?_, List.suffix_append _ e⟩
    rw [List.append_assoc, List.cons_append, parts_append,
      hlast b.reverse fun hm => hb (List.mem_reverse.mp hm)]
  · exact ⟨[], s ++ e, hlast s h, List.suffix_append s e⟩

theorem not_isIdle_append (he : IsEnding e) (s : Text) : ¬ isIdle (s ++ e) := by
  rw [isIdle_iff, not_or]
  refine ⟨fun h => he.ne_nil (List.append_eq_nil_iff.mp h).2, fun h => ?_⟩
  rcases List.append_eq_singleton_iff.mp h with ⟨-, h⟩ | ⟨-, h⟩
  · exact he.ne_dot h
  · exact he.ne_nil h

theorem fileName?_join (p : Path) (h : IsName s) : (p.join s).fileName? = some s := by
  rw [fileName?, steps_join_name p h, List.getLast?_concat]

theorem isSuffix_join (p : Path) (h : IsName s) : s <:+ (p.join s).text := by
  obtain ⟨gap, -, hg⟩ := exists_text_join p h.head?_ne
  rw [hg, ← List.append_assoc]
  exact List.suffix_append _ s

end Path

/-- **A request path with an ending leads to a file with that ending.** -/
theorem Url.toPath?_ending (h : Url.toPath? root url = some file) (he : IsEnding e)
    (hs : e <:+ Url.pathPart url) :
    ∃ name, file.fileName? = some name ∧ e <:+ name ∧ name <:+ file.text := by
  obtain ⟨text, hr, -, ho, rfl⟩ := Url.toPath?_eq_some_iff.mp h
  obtain ⟨s, rfl⟩ := hr.isSuffix he hs
  obtain ⟨names, n, hparts, hn⟩ :=
    Path.parts_append_singleton he.slash (Path.not_isIdle_append he) s
  have hname : IsName n := (ho n (by simp [hparts])).toIsName
  rw [hparts, List.foldl_append]
  exact ⟨n, Path.fileName?_join _ hname, hn, Path.isSuffix_join _ hname⟩

end Unbundled
