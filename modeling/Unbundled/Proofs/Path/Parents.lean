import Mathlib.Data.List.TakeWhile
import Unbundled.Proofs.Path.Steps

/-! # The directory of a path

The directory that a path lies in is written with the segments of the path up to the last one that
counts. It has all steps of the path but the last one (`steps_of_parent?`). Only paths without a
segment that counts, after the first one, lie in none (`isIdle_of_parent?_eq_none`). -/

namespace Unbundled.Path

variable {p dir : Path} {first last : Text} {rest before : List Text}

/-! ### Segments -/

theorem exists_segments (p : Path) : ∃ first rest, p.segments = first :: rest :=
  List.exists_cons_of_ne_nil (List.splitOn_ne_nil '/' p.text)

theorem slash_not_mem_of_mem_segments {s : Text} (h : s ∈ p.segments) : '/' ∉ s :=
  slash_not_mem_of_mem_splitOn h

/-- A path is absolute if its first segment is empty and not the only one. -/
theorem isAbsolute_iff_of_segments (h : p.segments = first :: rest) :
    p.isAbsolute ↔ first = [] ∧ rest ≠ [] := by
  have htext : p.text = ['/'].intercalate (first :: rest) := by
    rw [← h, segments, List.intercalate_splitOn]
  have hslash : '/' ∉ first := slash_not_mem_of_mem_segments (h ▸ List.mem_cons_self)
  rw [isAbsolute, htext]
  cases rest with
  | nil =>
    refine iff_of_false ?_ fun h => h.2 rfl
    rw [List.intercalate_singleton, beq_iff_eq]
    exact fun hs => hslash (List.mem_of_mem_head? hs)
  | cons s rest =>
    rw [List.intercalate_cons_cons]
    cases first with
    | nil => exact iff_of_true rfl ⟨rfl, List.cons_ne_nil _ _⟩
    | cons c first =>
      refine iff_of_false ?_ fun h => absurd h.1 (List.cons_ne_nil _ _)
      rw [List.cons_append, List.cons_append, List.head?_cons, beq_iff_eq]
      rintro ⟨rfl⟩
      exact hslash List.mem_cons_self

/-- The steps of a path, by its segments. -/
theorem steps_of_segments (h : p.segments = first :: rest) : p.steps =
    (if first = [] then if rest = [] then [] else [.root]
      else if first = ['.'] then [.here] else [stepOf first]) ++
    (rest.filter fun s => !isIdle s).map stepOf := by
  have habsolute := isAbsolute_iff_of_segments h
  rw [steps, h]
  refine congrArg (· ++ _) ?_
  by_cases hf : first = []
  · by_cases hr : rest = []
    · rw [if_neg (by rw [habsolute]; exact fun ha => ha.2 hr), if_pos (by rw [hf]; rfl), if_pos hf,
        if_pos hr]
    · rw [if_pos (habsolute.mpr ⟨hf, hr⟩), if_pos hf, if_neg hr]
  · rw [if_neg (by rw [habsolute]; exact fun ha => hf ha.1), if_neg (by simpa using hf), if_neg hf]

theorem filter_dropWhile_isIdle (l : List Text) :
    ((l.dropWhile isIdle).filter fun s => !isIdle s) = l.filter fun s => !isIdle s := by
  induction l with
  | nil => rfl
  | cons s l ih =>
    by_cases hs : isIdle s
    · rw [List.dropWhile_cons_of_pos hs, ih, List.filter_cons_of_neg (by simp [hs])]
    · rw [List.dropWhile_cons_of_neg hs]

/-! ### Directories -/

/-- The last segment that counts, and those before it. -/
theorem filter_of_dropWhile_reverse (h : rest.reverse.dropWhile isIdle = last :: before) :
    (rest.filter fun s => !isIdle s) = (before.reverse.filter fun s => !isIdle s) ++ [last] := by
  have hlast : ¬ isIdle last := by
    have := List.head_dropWhile_not isIdle (l := rest.reverse) (by rw [h]; exact List.cons_ne_nil _ _)
    simpa [h] using this
  rw [← List.reverse_reverse (rest.filter _), ← List.filter_reverse, ← filter_dropWhile_isIdle, h,
    List.filter_cons_of_pos (by simpa using hlast), List.reverse_cons, ← List.filter_reverse]

/-- The segments of the directory, if it is not the top: those up to the last one that counts, and
without those before it that do not. -/
theorem segments_intercalate (h : p.segments = first :: rest)
    (hd : rest.reverse.dropWhile isIdle = last :: before) :
    segments ⟨['/'].intercalate (first :: (before.dropWhile isIdle).reverse)⟩ =
      first :: (before.dropWhile isIdle).reverse := by
  refine List.splitOn_intercalate '/' (fun s hs => ?_) (List.cons_ne_nil _ _)
  refine slash_not_mem_of_mem_segments (p := p) ?_
  rw [h]
  rcases List.mem_cons.mp hs with rfl | hs
  · exact List.mem_cons_self
  · have hbefore : s ∈ last :: before :=
      List.mem_cons_of_mem last ((List.dropWhile_sublist _).mem (List.mem_reverse.mp hs))
    rw [← hd] at hbefore
    exact List.mem_cons_of_mem first
      (List.mem_reverse.mp ((List.dropWhile_sublist _).mem hbefore))

/-- Which path the directory is: the empty one, the top, or one with the segments up to the last one
that counts. -/
theorem parent?_cases (hsegs : p.segments = first :: rest) (h : p.parent? = some dir) :
    (first ≠ [] ∧ (rest.filter fun s => !isIdle s) = [] ∧ dir = ⟨[]⟩) ∨
      ∃ kept last, rest ≠ [] ∧ (rest.filter fun s => !isIdle s) =
          (kept.filter fun s => !isIdle s) ++ [last] ∧
        (first = [] ∧ kept = [] ∧ dir = ⟨['/']⟩ ∨
          (first = [] → kept ≠ []) ∧ dir.segments = first :: kept) := by
  unfold parent? at h
  rw [hsegs] at h
  dsimp only at h
  cases hd : rest.reverse.dropWhile isIdle with
  | nil =>
    rw [hd] at h
    dsimp only at h
    have hfilter : (rest.filter fun s => !isIdle s) = [] := by
      rw [← List.reverse_eq_nil_iff, ← List.filter_reverse, ← filter_dropWhile_isIdle, hd,
        List.filter_nil]
    split at h
    · exact absurd h (by simp)
    · rename_i hf
      exact Or.inl ⟨by simpa using hf, hfilter, (Option.some.inj h).symm⟩
  | cons last before =>
    rw [hd] at h
    dsimp only at h
    have hrest : rest ≠ [] := by
      rintro rfl
      exact absurd hd (by simp)
    refine Or.inr ⟨(before.dropWhile isIdle).reverse, last, hrest, ?_, ?_⟩
    · rw [filter_of_dropWhile_reverse hd, List.filter_reverse, List.filter_reverse,
        filter_dropWhile_isIdle]
    split at h
    · rename_i htop
      rw [Bool.and_eq_true, List.isEmpty_iff, List.isEmpty_iff] at htop
      exact Or.inl ⟨htop.1, htop.2, (Option.some.inj h).symm⟩
    · rename_i htop
      refine Or.inr ⟨fun hf hk => htop (by rw [hf, hk]; rfl), ?_⟩
      rw [← Option.some.inj h]
      exact segments_intercalate hsegs hd

/-- **The directory of a path has its steps but the last one.** -/
theorem steps_of_parent? (h : p.parent? = some dir) : dir.steps = p.steps.dropLast := by
  obtain ⟨first, rest, hsegs⟩ := p.exists_segments
  rw [steps_of_segments hsegs]
  rcases parent?_cases hsegs h with ⟨hf, hfilter, rfl⟩ | ⟨kept, last, hrest, hfilter, hdir⟩
  · rw [hfilter, if_neg hf]
    split <;> rfl
  · rw [hfilter, List.map_append, ← List.append_assoc, List.map_singleton, List.dropLast_concat]
    rcases hdir with ⟨rfl, rfl, rfl⟩ | ⟨hkept, hdir⟩
    · rw [if_pos rfl, if_neg hrest]
      rfl
    · rw [steps_of_segments hdir]
      by_cases hf : first = []
      · rw [if_pos hf, if_pos hf, if_neg (hkept hf), if_neg hrest]
      · rw [if_neg hf, if_neg hf]

/-- A path that lies in no directory has no segment that counts, and its first one is empty. -/
theorem isIdle_of_parent?_eq_none (h : p.parent? = none) : ∀ s ∈ p.segments, isIdle s := by
  obtain ⟨first, rest, hsegs⟩ := p.exists_segments
  unfold parent? at h
  rw [hsegs] at h ⊢
  dsimp only at h
  cases hd : rest.reverse.dropWhile isIdle with
  | cons last before =>
    rw [hd] at h
    dsimp only at h
    split at h <;> exact absurd h (by simp)
  | nil =>
    rw [hd] at h
    dsimp only at h
    split at h
    · rename_i hf
      intro s hs
      rcases List.mem_cons.mp hs with rfl | hs
      · exact isIdle_iff.mpr (Or.inl (List.isEmpty_iff.mp hf))
      · exact List.dropWhile_eq_nil_iff.mp hd s (List.mem_reverse.mpr hs)
    · exact absurd h (by simp)

end Unbundled.Path
