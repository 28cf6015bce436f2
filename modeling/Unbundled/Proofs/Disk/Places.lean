import Unbundled.Disk
import Unbundled.Proofs.Path.Steps

/-! # Places that paths lead to

A walk goes over the segments of a path one by one (`walk_eq_foldlM`). Idle segments do not move it, so
what a path leads to is decided by its parts: paths that differ in dots only lead to the same place
(`trace_congr`). Only at the very end an idle segment counts, since it asks for a folder. A walk along
names goes down by these names (`eq_append_of_walk`), and hence a path below another one leads below it
(`exists_base_of_trace`). -/

namespace Unbundled.Disk

open Unbundled.Path (IsName parts isIdle)

/-- The place that one segment leads to. -/
def move (top : Node) (place : List Text) (s : Text) : Except Fault (List Text) :=
  match top.at? place with
  | none => .error .notFound
  | some (.file _) => .error .notFolder
  | some (.folder entries) =>
    if isIdle s then .ok place
    else if s = ['.', '.'] then .ok place.dropLast
    else if maxName < Text.bytes s then .error .nameTooLong
    else if (entries.lookup s).isNone then .error .notFound
    else .ok (place ++ [s])

/-- Whether a folder lies at a place. -/
def HasFolder (top : Node) (place : List Text) : Prop :=
  ∃ entries, top.at? place = some (.folder entries)

/-- The place that relative or absolute paths start from. -/
def start (disk : Disk) (p : Path) : List Text := if p.isAbsolute then [] else disk.workingFolder

variable {top : Node} {place next r : List Text} {s : Text} {l names : List Text}

/-! ### Walks -/

theorem walk_cons (top : Node) (place : List Text) (s : Text) (rest : List Text) :
    walk top place (s :: rest) = (move top place s).bind (walk top · rest) := by
  rw [walk, move]
  cases top.at? place with
  | none => rfl
  | some node =>
    cases node with
    | file content => rfl
    | folder entries =>
      dsimp only
      split_ifs <;> rfl

/-- **A walk goes segment by segment.** -/
theorem walk_eq_foldlM (top : Node) (place l : List Text) :
    walk top place l = l.foldlM (move top) place := by
  induction l generalizing place with
  | nil => rfl
  | cons s rest ih =>
    rw [walk_cons, List.foldlM_cons]
    exact congrArg (Except.bind (move top place s)) (funext fun next => ih next)

theorem exists_of_bind_eq_ok {ε α β : Type} {x : Except ε α} {f : α → Except ε β} {b : β}
    (h : x.bind f = .ok b) : ∃ a, x = .ok a ∧ f a = .ok b := by
  cases x with
  | error e => exact absurd h (by simp [Except.bind])
  | ok a => exact ⟨a, rfl, h⟩

theorem exists_of_walk_cons {rest : List Text} (h : walk top place (s :: rest) = .ok r) :
    ∃ next, move top place s = .ok next ∧ walk top next rest = .ok r := by
  rw [walk_cons] at h
  exact exists_of_bind_eq_ok h

theorem exists_of_walk_append {l' : List Text} (h : walk top place (l ++ l') = .ok r) :
    ∃ mid, walk top place l = .ok mid ∧ walk top mid l' = .ok r := by
  rw [walk_eq_foldlM, List.foldlM_append] at h
  obtain ⟨mid, h1, h2⟩ := exists_of_bind_eq_ok h
  exact ⟨mid, by rw [walk_eq_foldlM, h1], by rw [walk_eq_foldlM, h2]⟩

theorem hasFolder_of_move (h : move top place s = .ok next) : HasFolder top place := by
  unfold move at h
  split at h
  · exact absurd h (by simp)
  · exact absurd h (by simp)
  · exact ⟨_, ‹_›⟩

theorem move_of_isIdle (hs : isIdle s) (h : HasFolder top place) :
    move top place s = .ok place := by
  obtain ⟨entries, he⟩ := h
  rw [move, he]
  exact if_pos hs

theorem eq_of_move_isIdle (hs : isIdle s) (h : move top place s = .ok next) : next = place := by
  rw [move_of_isIdle hs (hasFolder_of_move h)] at h
  exact (Except.ok.inj h).symm

theorem eq_append_of_move (hs : IsName s) (h : move top place s = .ok next) :
    next = place ++ [s] := by
  obtain ⟨entries, he⟩ := hasFolder_of_move h
  rw [move, he] at h
  dsimp only at h
  rw [if_neg hs.not_isIdle, if_neg hs.ne_dots] at h
  split_ifs at h
  exact (Except.ok.inj h).symm

/-- A walk along names goes down by these names. -/
theorem eq_append_of_walk (hn : ∀ n ∈ names, IsName n) (h : walk top place names = .ok r) :
    r = place ++ names := by
  induction names generalizing place with
  | nil => rw [List.append_nil]; exact (Except.ok.inj h).symm
  | cons n names ih =>
    obtain ⟨next, hm, hw⟩ := exists_of_walk_cons h
    rw [ih (fun m hm => hn m (List.mem_cons_of_mem n hm)) hw,
      eq_append_of_move (hn n List.mem_cons_self) hm, List.append_assoc]
    rfl

/-- Idle segments do not move a walk. -/
theorem walk_filter (h : walk top place l = .ok r) :
    walk top place (l.filter fun s => !isIdle s) = .ok r := by
  induction l generalizing place with
  | nil => exact h
  | cons s l ih =>
    obtain ⟨next, hm, hw⟩ := exists_of_walk_cons h
    by_cases hs : isIdle s
    · rw [eq_of_move_isIdle hs hm] at hw
      rw [List.filter_cons_of_neg (by simp [hs])]
      exact ih hw
    · rw [List.filter_cons_of_pos (by simp [hs]), walk_cons, hm]
      exact ih hw

/-- Idle segments may be put in, except at the end of a walk to a file. -/
theorem walk_of_walk_filter (h : walk top place (l.filter fun s => !isIdle s) = .ok r)
    (hr : HasFolder top r ∨ ∀ s ∈ l.getLast?, ¬ isIdle s) : walk top place l = .ok r := by
  induction l generalizing place with
  | nil => exact h
  | cons s l ih =>
    have hr' : HasFolder top r ∨ ∀ s ∈ l.getLast?, ¬ isIdle s := by
      refine hr.imp_right fun hl x hx => hl x ?_
      rw [List.getLast?_cons, Option.mem_def.mp hx]
      rfl
    by_cases hs : isIdle s
    · rw [List.filter_cons_of_neg (by simp [hs])] at h
      have hf : HasFolder top place := by
        -- the next segment that is not idle asks for a folder, and so does the end if there is none
        cases hl : l.filter fun s => !isIdle s with
        | cons x rest =>
          rw [hl] at h
          obtain ⟨next, hm, -⟩ := exists_of_walk_cons h
          exact hasFolder_of_move hm
        | nil =>
          rw [hl] at h
          obtain rfl : place = r := Except.ok.inj h
          refine hr.resolve_right fun hlast => ?_
          obtain ⟨x, hx⟩ : ∃ x, (s :: l).getLast? = some x := ⟨_, List.getLast?_cons⟩
          refine hlast x hx ?_
          rcases List.mem_cons.mp (List.mem_of_getLast? hx) with rfl | hm
          · exact hs
          · simpa using List.filter_eq_nil_iff.mp hl x hm
      rw [walk_cons, move_of_isIdle hs hf]
      exact ih h hr'
    · rw [List.filter_cons_of_pos (by simp [hs])] at h
      obtain ⟨next, hm, hw⟩ := exists_of_walk_cons h
      rw [walk_cons, hm]
      exact ih hw hr'

/-! ### Places of paths -/

variable {disk : Disk} {p q root : Path}

theorem trace_eq_ok_iff : disk.trace p = .ok r ↔
    '\x00' ∉ p.text ∧ p.text ≠ [] ∧ walk disk.top (disk.start p) p.segments = .ok r := by
  unfold trace start
  by_cases hz : p.text.contains '\x00'
  · rw [if_pos hz]
    simp [List.contains_iff_mem.mp hz]
  by_cases hn : p.text = []
  · simp [hn]
  · rw [if_neg hz, if_neg (by simpa using hn)]
    simp [hn, List.contains_iff_mem.not.mp hz]

/-- The place that the parts of a path lead to. -/
def trail (disk : Disk) (p : Path) : Except Fault (List Text) :=
  walk disk.top (disk.start p) (parts p.text)

theorem trail_of_trace (h : disk.trace p = .ok r) : disk.trail p = .ok r :=
  walk_filter (trace_eq_ok_iff.mp h).2.2

theorem trace_of_trail (h : disk.trail p = .ok r) (hz : '\x00' ∉ p.text) (hp : p.text ≠ [])
    (hr : HasFolder disk.top r ∨ ∀ s ∈ p.segments.getLast?, ¬ isIdle s) : disk.trace p = .ok r :=
  trace_eq_ok_iff.mpr ⟨hz, hp, walk_of_walk_filter h hr⟩

theorem nul_iff (p : Path) : '\x00' ∈ p.text ↔ ∃ s ∈ parts p.text, '\x00' ∈ s :=
  Path.mem_iff_mem_parts (by decide) (by decide)

theorem trail_congr (disk : Disk) (hs : q.steps.filter (· ≠ .here) = p.steps.filter (· ≠ .here)) :
    disk.trail q = disk.trail p := by
  rw [trail, trail, start, start, Path.isAbsolute_eq_of_filter hs, Path.parts_eq_of_filter hs]

/-- **Paths that differ in dots only lead to the same place.** -/
theorem trace_congr (h : disk.trace p = .ok r)
    (hs : q.steps.filter (· ≠ .here) = p.steps.filter (· ≠ .here)) (hq : q.text ≠ [])
    (hr : HasFolder disk.top r ∨ ∀ s ∈ q.segments.getLast?, ¬ isIdle s) :
    disk.trace q = .ok r := by
  refine trace_of_trail ?_ ?_ hq hr
  · rw [trail_congr disk hs]
    exact trail_of_trace h
  · rw [nul_iff, Path.parts_eq_of_filter hs, ← nul_iff]
    exact (trace_eq_ok_iff.mp h).1

/-- Where a path with further parts leads, its front leads somewhere. -/
theorem exists_of_trail (h : disk.trail q = .ok r) (hs : q.steps = p.steps ++ l.map Path.stepOf) :
    ∃ base, disk.trail p = .ok base ∧ walk disk.top base l = .ok r := by
  rw [trail, start, Path.isAbsolute_of_steps_append hs, Path.parts_of_steps_append hs] at h
  exact exists_of_walk_append h

/-- **A path below another one leads below it**, and the names in between are its own. -/
theorem exists_base_of_trace (hn : ∀ n ∈ names, IsName n)
    (h : disk.trace (names.foldl Path.join root) = .ok r) :
    ∃ base, (root.text = [] ∧ base = disk.workingFolder ∨ disk.trace root = .ok base) ∧
      r = base ++ names := by
  have hs : (names.foldl Path.join root).steps = root.steps ++ names.map Path.stepOf := by
    rw [Path.steps_foldl_join hn, Path.map_stepOf hn]
  obtain ⟨base, hbase, hw⟩ := exists_of_trail (trail_of_trace h) hs
  refine ⟨base, ?_, eq_append_of_walk hn hw⟩
  by_cases hroot : root.text = []
  · rw [trail, start, Path.isAbsolute, hroot] at hbase
    exact Or.inl ⟨hroot, (Except.ok.inj hbase).symm⟩
  right
  -- the root is a folder if a name follows, and the path itself if none does
  cases names with
  | nil =>
    obtain rfl : base = r := Except.ok.inj hw
    exact h
  | cons n rest =>
    obtain ⟨next, hm, -⟩ := exists_of_walk_cons hw
    refine trace_of_trail hbase ?_ hroot (Or.inl (hasFolder_of_move hm))
    have hz := (trace_eq_ok_iff.mp h).1
    rw [nul_iff, Path.parts_of_steps_append hs] at hz
    rw [nul_iff]
    rintro ⟨s, hs, hc⟩
    exact hz ⟨s, List.mem_append_left _ hs, hc⟩

/-! ### Files and folders -/

theorem node_eq_ok_iff {n : Node} :
    disk.node p = .ok n ↔ ∃ place, disk.locate p = .ok place ∧ disk.top.at? place = some n := by
  unfold node
  constructor
  · intro h
    obtain ⟨place, hl, hn⟩ := exists_of_bind_eq_ok h
    refine ⟨place, hl, ?_⟩
    split at hn
    · rename_i m hm
      rw [hm, Except.ok.inj hn]
    · exact absurd hn (by simp)
  · rintro ⟨place, hl, hn⟩
    rw [hl]
    simp only [Except.bind, hn]

theorem trace_of_locate (h : disk.locate p = .ok r) : disk.trace p = .ok r := by
  unfold locate at h
  split at h
  · exact absurd h (by simp)
  · exact h

theorem exists_trace_of_node {n : Node} (h : disk.node p = .ok n) :
    ∃ place, disk.trace p = .ok place ∧ disk.top.at? place = some n := by
  obtain ⟨place, hl, hn⟩ := node_eq_ok_iff.mp h
  exact ⟨place, trace_of_locate hl, hn⟩

theorem isFile_iff : disk.isFile p ↔ ∃ content, disk.node p = .ok (.file content) := by
  unfold isFile
  split
  · rename_i content h
    exact iff_of_true rfl ⟨content, h⟩
  · rename_i h
    exact iff_of_false Bool.false_ne_true fun ⟨content, hn⟩ => h content hn

theorem isFolder_iff : disk.isFolder p ↔ ∃ entries, disk.node p = .ok (.folder entries) := by
  unfold isFolder
  split
  · rename_i entries h
    exact iff_of_true rfl ⟨entries, h⟩
  · rename_i h
    exact iff_of_false Bool.false_ne_true fun ⟨entries, hn⟩ => h entries hn

theorem read_of_node {content : Bytes} (h : disk.node p = .ok (.file content)) :
    disk.read p = .ok content := by
  rw [read, h]

theorem read_eq_ok_iff {content : Bytes} :
    disk.read p = .ok content ↔ disk.node p = .ok (.file content) := by
  refine ⟨fun h => ?_, read_of_node⟩
  unfold read at h
  split at h
  · rename_i hn
    rw [hn, Except.ok.inj h]
  · exact absurd h (by simp)
  · exact absurd h (by simp)

/-- A text is read from a file. -/
theorem exists_node_of_readText {t : Text} (h : disk.readText p = .ok t) :
    ∃ content, disk.node p = .ok (.file content) ∧ Utf8.decode content = .ok t := by
  obtain ⟨content, hr, hd⟩ := exists_of_bind_eq_ok h
  refine ⟨content, read_eq_ok_iff.mp hr, ?_⟩
  cases hc : Utf8.decode content with
  | error fault =>
    rw [hc] at hd
    exact absurd hd (by simp [Except.mapError])
  | ok t' =>
    rw [hc] at hd
    exact congrArg Except.ok (Except.ok.inj hd)

theorem exists_trace_of_isFile (h : disk.isFile p) :
    ∃ place, disk.trace p = .ok place ∧ ¬ HasFolder disk.top place := by
  obtain ⟨content, hn⟩ := isFile_iff.mp h
  obtain ⟨place, ht, hat⟩ := exists_trace_of_node hn
  refine ⟨place, ht, ?_⟩
  rintro ⟨entries, he⟩
  rw [hat] at he
  exact absurd (Option.some.inj he) (by simp)

theorem exists_trace_of_isFolder (h : disk.isFolder p) : ∃ place, disk.trace p = .ok place := by
  obtain ⟨entries, hn⟩ := isFolder_iff.mp h
  obtain ⟨place, ht, -⟩ := exists_trace_of_node hn
  exact ⟨place, ht⟩

end Unbundled.Disk
