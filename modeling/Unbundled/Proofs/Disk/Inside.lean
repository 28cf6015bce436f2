import Unbundled.Proofs.Disk.Places

/-! # The inside of a folder

Where a path leads depends on what is a file and what is a folder, not on what the files hold. Two
disks with the same tree (`SameTree`) therefore lead every path to the same place and answer alike
whether a file or a folder lies there. If they also agree on the files inside a folder
(`AgreeInside`), then whatever is read inside of that folder is the same on both
(`AgreeInside.node_eq`).

A walk that goes up at most as far as it has come down stays inside the folder it started in
(`exists_of_walk_staysInside`). -/

namespace Unbundled

namespace Node

theorem at?_append (top : Node) (place l : List Text) :
    top.at? (place ++ l) = (top.at? place).bind (·.at? l) := by
  induction place generalizing top with
  | nil => rfl
  | cons n place ih =>
    rw [List.cons_append, at?, at?, Option.bind_assoc]
    exact congrArg (Option.bind (top.entry? n)) (funext fun node => ih node)

theorem at?_singleton (top : Node) (s : Text) : top.at? [s] = top.entry? s :=
  Option.bind_fun_some _

end Node

namespace Disk

open Unbundled.Path (isIdle)

variable {disk other : Disk} {root p : Path} {top : Node} {place next base names r l : List Text}
  {s : Text}

/-! ### Disks with the same tree -/

/-- Two disks with the same folders and files, whatever the files hold, and the same JSON library. -/
structure SameTree (disk other : Disk) : Prop where
  workingFolder : disk.workingFolder = other.workingFolder
  library : disk.library = other.library
  kind : ∀ place, (disk.top.at? place).map Node.isFolder = (other.top.at? place).map Node.isFolder

namespace SameTree

theorem isNone (h : disk.SameTree other) (place : List Text) :
    (disk.top.at? place).isNone = (other.top.at? place).isNone := by
  have hk := congrArg Option.isNone (h.kind place)
  rwa [Option.isNone_map, Option.isNone_map] at hk

theorem isFile_iff (h : disk.SameTree other) (place : List Text) :
    (∃ content, disk.top.at? place = some (.file content)) ↔
      ∃ content, other.top.at? place = some (.file content) := by
  have hfile : ∀ node : Option Node,
      (∃ content, node = some (.file content)) ↔ node.map Node.isFolder = some false := by
    rintro (_ | _ | _) <;> simp [Node.isFolder]
  rw [hfile, hfile, h.kind]

theorem isFolder_iff (h : disk.SameTree other) (place : List Text) :
    (∃ entries, disk.top.at? place = some (.folder entries)) ↔
      ∃ entries, other.top.at? place = some (.folder entries) := by
  have hfolder : ∀ node : Option Node,
      (∃ entries, node = some (.folder entries)) ↔ node.map Node.isFolder = some true := by
    rintro (_ | _ | _) <;> simp [Node.isFolder]
  rw [hfolder, hfolder, h.kind]

/-- **One segment leads to the same place.** -/
theorem move_eq (h : disk.SameTree other) (place : List Text) (s : Text) :
    move disk.top place s = move other.top place s := by
  have hk := h.kind place
  have hs := h.isNone (place ++ [s])
  rw [Node.at?_append, Node.at?_append] at hs
  unfold move
  cases hd : disk.top.at? place with
  | none =>
    cases ho : other.top.at? place with
    | none => rfl
    | some node => simp [hd, ho] at hk
  | some node =>
    cases ho : other.top.at? place with
    | none => simp [hd, ho] at hk
    | some node' =>
      rw [hd, ho] at hk hs
      rw [Option.bind_some, Option.bind_some, Node.at?_singleton, Node.at?_singleton] at hs
      cases node with
      | file content =>
        cases node' with
        | file content' => rfl
        | folder entries' => simp [Node.isFolder] at hk
      | folder entries =>
        cases node' with
        | file content' => simp [Node.isFolder] at hk
        | folder entries' =>
          have hlookup : (entries.lookup s).isNone = (entries'.lookup s).isNone := hs
          dsimp only
          rw [hlookup]

theorem walk_eq (h : disk.SameTree other) (place l : List Text) :
    walk disk.top place l = walk other.top place l := by
  rw [walk_eq_foldlM, walk_eq_foldlM, funext fun place => funext fun s => h.move_eq place s]

theorem trace_eq (h : disk.SameTree other) (p : Path) : disk.trace p = other.trace p := by
  rw [trace, trace, h.walk_eq, h.workingFolder]

theorem locate_eq (h : disk.SameTree other) (p : Path) : disk.locate p = other.locate p := by
  rw [locate, locate, h.trace_eq]

theorem isFile_eq (h : disk.SameTree other) (p : Path) : disk.isFile p = other.isFile p := by
  rw [Bool.eq_iff_iff, Disk.isFile_iff, Disk.isFile_iff]
  simp only [node_eq_ok_iff, h.locate_eq]
  rw [exists_comm, exists_comm (α := Bytes)]
  simp only [exists_and_left, h.isFile_iff]

theorem isFolder_eq (h : disk.SameTree other) (p : Path) :
    disk.isFolder p = other.isFolder p := by
  rw [Bool.eq_iff_iff, Disk.isFolder_iff, Disk.isFolder_iff]
  simp only [node_eq_ok_iff, h.locate_eq]
  rw [exists_comm, exists_comm (α := List (Text × Node))]
  simp only [exists_and_left, h.isFolder_iff]

end SameTree

/-! ### Disks that agree inside a folder -/

/-- Whether paths below `root` start from a place: from where `root` leads, or from the working folder
if it is empty. -/
def IsBase (disk : Disk) (root : Path) (base : List Text) : Prop :=
  root.text = [] ∧ base = disk.workingFolder ∨ disk.trace root = .ok base

/-- Two disks that differ at most in what the files outside a folder hold. -/
structure AgreeInside (root : Path) (disk other : Disk) : Prop extends SameTree disk other where
  content : ∀ base names content, disk.IsBase root base →
    disk.top.at? (base ++ names) = some (.file content) →
    other.top.at? (base ++ names) = some (.file content)

/-- **What lies inside of the folder is the same on both disks.** -/
theorem AgreeInside.node_eq (h : AgreeInside root disk other) (hfile : disk.isFile p)
    (hp : ∀ place, disk.trace p = .ok place → ∃ base names, disk.IsBase root base ∧
      place = base ++ names) :
    ∃ content, disk.node p = .ok (.file content) ∧ other.node p = .ok (.file content) := by
  obtain ⟨content, hn⟩ := isFile_iff.mp hfile
  refine ⟨content, hn, ?_⟩
  obtain ⟨place, hl, hat⟩ := node_eq_ok_iff.mp hn
  obtain ⟨base, names, hb, rfl⟩ := hp place (trace_of_locate hl)
  exact node_eq_ok_iff.mpr ⟨_, by rw [← h.locate_eq, hl], h.content base names content hb hat⟩

/-- A folder that something lies below is where its path leads. -/
theorem isBase_of_trail (h : disk.trail root = .ok base) (hf : HasFolder disk.top base)
    (hz : '\x00' ∉ root.text) : disk.IsBase root base := by
  by_cases hroot : root.text = []
  · rw [trail, start, Path.isAbsolute, hroot] at h
    exact Or.inl ⟨hroot, (Except.ok.inj h).symm⟩
  · exact Or.inr (trace_of_trail h hz hroot (Or.inl hf))

/-! ### Walks that stay inside -/

/-- Whether a walk along segments, begun `depth` steps down in a folder, stays inside. -/
def staysInside : Nat → List Text → Bool
  | _, [] => true
  | depth, s :: l =>
    if isIdle s then staysInside depth l
    else if s = ['.', '.'] then depth != 0 && staysInside (depth - 1) l
    else staysInside (depth + 1) l

/-- One segment goes up at most one step. -/
theorem staysInside_cons (hl : ∀ depth, staysInside depth l) (s : Text) (depth : Nat) :
    staysInside (depth + 1) (s :: l) := by
  unfold staysInside
  split_ifs
  · exact hl _
  · exact hl _
  · exact hl _

/-- Where one segment leads: nowhere else, one step up or one step down. -/
theorem move_cases (h : move top place s = .ok next) :
    (isIdle s ∧ next = place) ∨ (¬ isIdle s ∧ s = ['.', '.'] ∧ next = place.dropLast) ∨
      (¬ isIdle s ∧ s ≠ ['.', '.'] ∧ next = place ++ [s]) := by
  by_cases hi : isIdle s
  · exact Or.inl ⟨hi, eq_of_move_isIdle hi h⟩
  obtain ⟨entries, he⟩ := hasFolder_of_move h
  rw [move, he] at h
  dsimp only at h
  rw [if_neg hi] at h
  by_cases hd : s = ['.', '.']
  · rw [if_pos hd] at h
    exact Or.inr (Or.inl ⟨hi, hd, (Except.ok.inj h).symm⟩)
  · rw [if_neg hd] at h
    split_ifs at h
    exact Or.inr (Or.inr ⟨hi, hd, (Except.ok.inj h).symm⟩)

/-- **A walk that goes up no further than it has come down stays inside the folder.** -/
theorem exists_of_walk_staysInside (h : walk top (base ++ names) l = .ok r)
    (hs : staysInside names.length l) : ∃ names', r = base ++ names' := by
  induction l generalizing names with
  | nil => exact ⟨names, (Except.ok.inj h).symm⟩
  | cons s l ih =>
    obtain ⟨next, hm, hw⟩ := exists_of_walk_cons h
    unfold staysInside at hs
    rcases move_cases hm with ⟨hi, rfl⟩ | ⟨hi, hd, rfl⟩ | ⟨hi, hd, rfl⟩
    · rw [if_pos hi] at hs
      exact ih hw hs
    · rw [if_neg hi, if_pos hd, Bool.and_eq_true, bne_iff_ne] at hs
      obtain ⟨hpos, hs⟩ := hs
      rw [List.dropLast_append_of_ne_nil (List.ne_nil_of_length_pos (Nat.pos_of_ne_zero hpos))] at hw
      refine ih hw ?_
      rwa [List.length_dropLast]
    · rw [if_neg hi, if_neg hd] at hs
      rw [List.append_assoc] at hw
      refine ih hw ?_
      rwa [List.length_append, List.length_singleton]

end Disk

end Unbundled
