import Mathlib.Tactic.Common
import Unbundled.Path

/-! # Steps of joined paths

The segments of a path that count are its `parts`, those that are neither empty nor a single dot. The
steps of a path are its parts, after the slash or the dot that it may start with (`steps_eq`). Slashes
separate parts wherever they stand (`parts_append`), so a path below another one has the parts of both
(`parts_join`), and a walk down along names appends these names and nothing else
(`steps_foldl_join`). -/

namespace Unbundled.Path

/-- The segments of a text that are neither empty nor a single dot. -/
def parts (t : Text) : List Text := (t.splitOn '/').filter fun s => !isIdle s

/-- What a path starts with, before its parts. -/
def front (p : Path) : List Step :=
  if p.isAbsolute then [.root] else if p.segments.head? = some ['.'] then [.here] else []

/-- A name that a folder may list. -/
structure IsName (s : Text) : Prop where
  ne_nil : s ≠ []
  ne_dot : s ≠ ['.']
  ne_dots : s ≠ ['.', '.']
  slash : '/' ∉ s

variable {p q : Path} {s t u : Text}

/-! ### Segments -/

theorem isIdle_iff : isIdle s ↔ s = [] ∨ s = ['.'] := by simp [isIdle]

theorem slash_not_mem_of_mem_splitOn (h : s ∈ t.splitOn '/') : '/' ∉ s := by
  induction t generalizing s with
  | nil =>
    rw [List.splitOn_nil, List.mem_singleton] at h
    rw [h]
    exact List.not_mem_nil
  | cons c t ih =>
    rw [List.splitOn_cons_eq_if_modifyHead] at h
    obtain ⟨first, rest, hsplit⟩ := List.exists_cons_of_ne_nil (List.splitOn_ne_nil '/' t)
    rw [hsplit] at h ih
    split at h
    · rcases List.mem_cons.mp h with rfl | h
      · exact List.not_mem_nil
      · exact ih h
    · rename_i hc
      rw [List.modifyHead_cons] at h
      rcases List.mem_cons.mp h with rfl | h
      · rw [List.mem_cons, not_or]
        exact ⟨fun he => hc (by rw [he]; exact beq_self_eq_true _), ih List.mem_cons_self⟩
      · exact ih (List.mem_cons_of_mem first h)

theorem mem_parts_iff : s ∈ parts t ↔ s ∈ t.splitOn '/' ∧ s ≠ [] ∧ s ≠ ['.'] := by
  rw [parts, List.mem_filter, Bool.not_eq_true', ← Bool.not_eq_true, isIdle_iff, not_or]

theorem slash_not_mem_of_mem_parts (h : s ∈ parts t) : '/' ∉ s :=
  slash_not_mem_of_mem_splitOn (mem_parts_iff.mp h).1

/-- A character other than a slash stands in one of the segments. -/
theorem mem_iff_mem_splitOn {c : Char} (hc : c ≠ '/') : c ∈ t ↔ ∃ s ∈ t.splitOn '/', c ∈ s := by
  induction t with
  | nil => simp
  | cons x t ih =>
    obtain ⟨first, rest, hsplit⟩ := List.exists_cons_of_ne_nil (List.splitOn_ne_nil '/' t)
    rw [List.splitOn_cons_eq_if_modifyHead, List.mem_cons, ih, hsplit]
    split
    · rename_i hx
      have hx' : c ≠ x := by rw [beq_iff_eq.mp hx]; exact hc
      simp [hx']
    · simp [or_assoc]

/-- A character other than a slash and a dot stands in one of the parts. -/
theorem mem_iff_mem_parts {c : Char} (hc : c ≠ '/') (hd : c ≠ '.') :
    c ∈ t ↔ ∃ s ∈ parts t, c ∈ s := by
  rw [mem_iff_mem_splitOn hc]
  constructor
  · rintro ⟨s, hs, hcs⟩
    refine ⟨s, mem_parts_iff.mpr ⟨hs, ?_, ?_⟩, hcs⟩
    · rintro rfl
      exact absurd hcs List.not_mem_nil
    · rintro rfl
      exact hd (List.mem_singleton.mp hcs)
  · rintro ⟨s, hs, hcs⟩
    exact ⟨s, (mem_parts_iff.mp hs).1, hcs⟩

@[simp] theorem parts_nil : parts [] = [] := rfl

/-- A slash separates parts. -/
theorem parts_append (s t : Text) : parts (s ++ '/' :: t) = parts s ++ parts t := by
  rw [parts, List.splitOn_append_cons_self, List.filter_append, parts, parts]

theorem parts_slash (t : Text) : parts ('/' :: t) = parts t := parts_append [] t

theorem IsName.not_isIdle (h : IsName s) : ¬ isIdle s := by
  rw [isIdle_iff, not_or]
  exact ⟨h.ne_nil, h.ne_dot⟩

theorem parts_of_slash_not_mem (h : '/' ∉ t) : parts t = if isIdle t then [] else [t] := by
  rw [parts, List.splitOn_eq_singleton h, List.filter_cons, List.filter_nil]
  cases isIdle t <;> rfl

theorem parts_of_isName (h : IsName s) : parts s = [s] := by
  rw [parts_of_slash_not_mem h.slash, if_neg h.not_isIdle]

/-- The parts of names that are put together with slashes are the names. -/
theorem parts_flatMap {names : List Text} (h : ∀ n ∈ names, IsName n) :
    parts (names.flatMap ('/' :: ·)) = names := by
  induction names with
  | nil => rfl
  | cons n names ih =>
    have ih' := ih fun m hm => h m (List.mem_cons_of_mem n hm)
    rw [List.flatMap_cons, List.cons_append, parts_slash]
    cases names with
    | nil => rw [List.flatMap_nil, List.append_nil, parts_of_isName (h n List.mem_cons_self)]
    | cons m names =>
      rw [List.flatMap_cons, List.cons_append, parts_slash] at ih'
      rw [List.flatMap_cons, List.cons_append, parts_append, ih',
        parts_of_isName (h n List.mem_cons_self)]
      rfl

theorem IsName.head?_ne (h : IsName s) : s.head? ≠ some '/' :=
  fun hs => h.slash (List.mem_of_mem_head? hs)

/-! ### Steps -/

theorem stepOf_eq_name (h : s ≠ ['.', '.']) : stepOf s = .name s := if_neg h

theorem map_stepOf {names : List Text} (h : ∀ n ∈ names, IsName n) :
    names.map stepOf = names.map Step.name :=
  List.map_congr_left fun n hn => stepOf_eq_name (h n hn).ne_dots

/-- **The steps of a path are its parts**, after what it starts with. -/
theorem steps_eq (p : Path) : p.steps = p.front ++ (parts p.text).map stepOf := by
  obtain ⟨first, rest, hsplit⟩ := List.exists_cons_of_ne_nil (List.splitOn_ne_nil '/' p.text)
  have hsegs : p.segments = first :: rest := hsplit
  have hparts : parts p.text =
      (if isIdle first then [] else [first]) ++ rest.filter fun s => !isIdle s := by
    rw [parts, hsplit, List.filter_cons]
    cases isIdle first <;> rfl
  unfold steps front
  rw [hsegs, hparts]
  dsimp only
  rw [List.map_append, ← List.append_assoc, List.head?_cons]
  congr 1
  by_cases ha : p.isAbsolute
  · -- the segment before the first slash is empty
    obtain ⟨t, ht⟩ : ∃ t, p.text = '/' :: t :=
      List.head?_eq_some_iff.mp (by simpa [isAbsolute] using ha)
    rw [ht, List.splitOn_cons_eq_if_modifyHead, if_pos (beq_self_eq_true _)] at hsplit
    obtain ⟨rfl, -⟩ := List.cons.inj hsplit
    rw [if_pos ha, if_pos ha]
    rfl
  rw [if_neg ha, if_neg ha]
  by_cases hn : first = []
  · subst hn
    rfl
  by_cases hd : first = ['.']
  · subst hd
    rfl
  · have hi : isIdle first = false := by
      rw [← Bool.not_eq_true, isIdle_iff, not_or]
      exact ⟨hn, hd⟩
    rw [if_neg (by simpa using hn), if_neg hd, if_neg (by simpa using hd), hi]
    rfl

/-- The part that a step stands for. -/
def Step.part? : Step → Option Text
  | .root | .here => none
  | .up => some ['.', '.']
  | .name n => some n

theorem part?_stepOf (s : Text) : (stepOf s).part? = some s := by
  unfold stepOf
  split
  · rename_i h
    rw [h]
    rfl
  · rfl

@[simp] theorem filterMap_map_stepOf (l : List Text) :
    (l.map stepOf).filterMap Step.part? = l := by
  rw [List.filterMap_map, show Step.part? ∘ stepOf = some from funext part?_stepOf,
    List.filterMap_some]

/-- The parts of a path can be read off its steps. -/
theorem parts_eq_filterMap (p : Path) : parts p.text = p.steps.filterMap Step.part? := by
  have hfront : p.front.filterMap Step.part? = [] := by
    unfold front
    split
    · rfl
    split <;> rfl
  rw [steps_eq, List.filterMap_append, hfront, filterMap_map_stepOf]
  rfl

theorem stepOf_ne_root (s : Text) : stepOf s ≠ .root := by
  unfold stepOf
  split <;> simp

/-- Whether a path is absolute can be read off its steps. -/
theorem isAbsolute_iff_mem (p : Path) : p.isAbsolute ↔ Step.root ∈ p.steps := by
  rw [steps_eq, List.mem_append]
  constructor
  · intro h
    rw [front, if_pos h]
    exact Or.inl List.mem_cons_self
  · rintro (h | h)
    · unfold front at h
      split at h
      · assumption
      split at h <;> simp at h
    · obtain ⟨s, -, hs⟩ := List.mem_map.mp h
      exact absurd hs (stepOf_ne_root s)

theorem here_not_mem_map_stepOf (l : List Text) : Step.here ∉ l.map stepOf := by
  intro h
  obtain ⟨s, -, hs⟩ := List.mem_map.mp h
  unfold stepOf at hs
  split at hs <;> simp at hs

theorem here_not_mem_steps (h : p.isAbsolute) : Step.here ∉ p.steps := by
  rw [steps_eq, List.mem_append, not_or, front, if_pos h]
  exact ⟨by simp, here_not_mem_map_stepOf _⟩

theorem isName_of_mem_steps (h : .name s ∈ p.steps) : IsName s := by
  rw [steps_eq, List.mem_append] at h
  rcases h with h | h
  · unfold front at h
    split at h
    · simp at h
    split at h <;> simp at h
  · obtain ⟨t, ht, he⟩ := List.mem_map.mp h
    unfold stepOf at he
    split at he
    · exact absurd he (by simp)
    · rename_i hdots
      obtain rfl := Step.name.inj he
      obtain ⟨-, hn, hd⟩ := mem_parts_iff.mp ht
      exact ⟨hn, hd, hdots, slash_not_mem_of_mem_parts ht⟩

theorem parts_of_steps_append {l : List Text} (h : q.steps = p.steps ++ l.map stepOf) :
    parts q.text = parts p.text ++ l := by
  rw [parts_eq_filterMap, h, List.filterMap_append, ← parts_eq_filterMap, filterMap_map_stepOf]

theorem isAbsolute_of_steps_append {l : List Text} (h : q.steps = p.steps ++ l.map stepOf) :
    q.isAbsolute = p.isAbsolute := by
  rw [Bool.eq_iff_iff, isAbsolute_iff_mem, isAbsolute_iff_mem, h, List.mem_append]
  refine or_iff_left fun hm => ?_
  obtain ⟨s, -, hs⟩ := List.mem_map.mp hm
  exact stepOf_ne_root s hs

/-! ### Paths that differ in dots only -/

theorem filterMap_filter (l : List Step) :
    (l.filter (· ≠ .here)).filterMap Step.part? = l.filterMap Step.part? := by
  induction l with
  | nil => rfl
  | cons x l ih => cases x <;> simpa [List.filterMap_cons, Step.part?] using ih

theorem parts_eq_of_filter (h : q.steps.filter (· ≠ .here) = p.steps.filter (· ≠ .here)) :
    parts q.text = parts p.text := by
  rw [parts_eq_filterMap, parts_eq_filterMap, ← filterMap_filter q.steps, h, filterMap_filter]

theorem isAbsolute_eq_of_filter (h : q.steps.filter (· ≠ .here) = p.steps.filter (· ≠ .here)) :
    q.isAbsolute = p.isAbsolute := by
  have hmem : ∀ l : List Step, Step.root ∈ l ↔ Step.root ∈ l.filter (· ≠ .here) := by
    intro l
    simp [List.mem_filter]
  rw [Bool.eq_iff_iff, isAbsolute_iff_mem, isAbsolute_iff_mem, hmem, h, ← hmem]

/-! ### Joined paths -/

theorem join_of_absolute (p : Path) (h : t.head? = some '/') : p.join t = ⟨t⟩ := if_pos h

/-- A path below another one repeats its text. -/
theorem exists_text_join (p : Path) (h : t.head? ≠ some '/') :
    ∃ gap, (gap = [] ∨ gap = ['/']) ∧ (p.join t).text = p.text ++ (gap ++ t) := by
  rw [join, if_neg h]
  split
  · exact ⟨[], Or.inl rfl, rfl⟩
  · exact ⟨['/'], Or.inr rfl, rfl⟩

/-- **A path below another one has the parts of both.** -/
theorem parts_join (p : Path) (h : t.head? ≠ some '/') :
    parts (p.join t).text = parts p.text ++ parts t := by
  rw [join, if_neg h]
  by_cases hn : p.text = []
  · rw [hn]
    rfl
  by_cases hl : p.text.getLast? = some '/'
  · obtain ⟨u, hu⟩ : ∃ u, p.text = u ++ ['/'] := List.getLast?_eq_some_iff.mp hl
    rw [if_pos (by simp [hl]), hu, List.append_assoc, List.singleton_append, parts_append,
      parts_append, parts_nil, List.append_nil]
  · rw [if_neg (by simp [hn, hl]), parts_append]

theorem isAbsolute_append (h : p.text ≠ []) (t : Text) :
    (⟨p.text ++ t⟩ : Path).isAbsolute = p.isAbsolute := by
  obtain ⟨c, u, hc⟩ := List.exists_cons_of_ne_nil h
  rw [isAbsolute, isAbsolute, hc]
  rfl

theorem head?_splitOn_append (s t : Text) :
    ((s ++ '/' :: t).splitOn '/').head? = (s.splitOn '/').head? := by
  rw [List.splitOn_append_cons_self]
  obtain ⟨first, rest, hsplit⟩ := List.exists_cons_of_ne_nil (List.splitOn_ne_nil '/' s)
  rw [hsplit]
  rfl

theorem front_join (hp : p.text ≠ []) (h : t.head? ≠ some '/') : (p.join t).front = p.front := by
  have hsegs : (p.join t).segments.head? = p.segments.head? := by
    unfold segments
    rw [join, if_neg h]
    by_cases hl : p.text.getLast? = some '/'
    · obtain ⟨u, hu⟩ : ∃ u, p.text = u ++ ['/'] := List.getLast?_eq_some_iff.mp hl
      rw [if_pos (by simp [hl]), hu, List.append_assoc, List.singleton_append, head?_splitOn_append,
        head?_splitOn_append]
    · rw [if_neg (by simp [hp, hl]), head?_splitOn_append]
  obtain ⟨gap, -, hg⟩ := exists_text_join p h
  have habs : (p.join t).isAbsolute = p.isAbsolute := by
    rw [← isAbsolute_append hp (gap ++ t), ← hg]
  rw [front, front, habs, hsegs]

theorem front_of_isName (h : IsName s) : front ⟨s⟩ = [] := by
  have hsegs : (⟨s⟩ : Path).segments = [s] := List.splitOn_eq_singleton h.slash
  rw [front, if_neg (by simpa [isAbsolute] using h.head?_ne), hsegs,
    if_neg (by simpa using h.ne_dot)]

theorem steps_join (hp : p.text ≠ []) (h : t.head? ≠ some '/') :
    (p.join t).steps = p.steps ++ (parts t).map stepOf := by
  rw [steps_eq, steps_eq, front_join hp h, parts_join p h, List.map_append, List.append_assoc]

theorem text_join_ne_nil (p : Path) (h : IsName s) : (p.join s).text ≠ [] := by
  obtain ⟨gap, -, hg⟩ := exists_text_join p h.head?_ne
  rw [hg]
  simp [h.ne_nil]

/-- A name below a path is one more step. -/
theorem steps_join_name (p : Path) (h : IsName s) : (p.join s).steps = p.steps ++ [.name s] := by
  have hstep : (parts s).map stepOf = [.name s] := by
    rw [parts_of_isName h, List.map_singleton, stepOf_eq_name h.ne_dots]
  by_cases hp : p.text = []
  · obtain rfl : p = ⟨[]⟩ := by cases p; rw [← hp]
    have hj : (⟨[]⟩ : Path).join s = ⟨s⟩ := by
      rw [join, if_neg h.head?_ne]
      rfl
    rw [hj, steps_eq, front_of_isName h, hstep]
    rfl
  · rw [steps_join hp h.head?_ne, hstep]

/-- **A walk down along names** appends these names to the steps. -/
theorem steps_foldl_join {names : List Text} (h : ∀ n ∈ names, IsName n) (p : Path) :
    (names.foldl join p).steps = p.steps ++ names.map Step.name := by
  induction names generalizing p with
  | nil => rw [List.foldl_nil, List.map_nil, List.append_nil]
  | cons n names ih =>
    rw [List.foldl_cons, ih (fun m hm => h m (List.mem_cons_of_mem n hm)),
      steps_join_name p (h n List.mem_cons_self), List.append_assoc]
    rfl

theorem getLast?_segments_join (p : Path) (h : IsName s) : (p.join s).segments.getLast? = some s := by
  have hself : s.splitOn '/' = [s] := List.splitOn_eq_singleton h.slash
  unfold segments
  rw [join, if_neg h.head?_ne]
  by_cases hp : p.text = []
  · rw [if_pos (by simp [hp]), hp, List.nil_append, hself]
    rfl
  by_cases hl : p.text.getLast? = some '/'
  · obtain ⟨u, hu⟩ : ∃ u, p.text = u ++ ['/'] := List.getLast?_eq_some_iff.mp hl
    rw [if_pos (by simp [hl]), hu, List.append_assoc, List.singleton_append,
      List.splitOn_append_cons_self, hself, List.getLast?_concat]
  · rw [if_neg (by simp [hp, hl]), List.splitOn_append_cons_self, hself, List.getLast?_concat]

end Unbundled.Path
