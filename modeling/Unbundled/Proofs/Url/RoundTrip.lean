import Mathlib.Data.List.TakeWhile
import Unbundled.Proofs.Package.Files
import Unbundled.Proofs.Url.Requests

/-! # From a path to its URL and back

A URL holds the names of a path as they are. So it is read back as written only if they are `IsVerbatim`:
a question mark or a number sign would end the path of a request, and a percent sign with two digits
would stand for a byte. With such names, a request for the URL of a path leads to this path, except
where a name holds a backslash: requests may not (`toPath?_ofNames`, `toPath?_ofNames_eq_none`).

What an import is rewritten to is requested by the browser, so the file that is served is the one that
the import was resolved to (`toPath?_ofPath`).

The other way round nothing is lost: the file of a URL has a URL, and this is the one asked for in its
normal form (`ofPath_toPath?`). -/

namespace Unbundled.Url

open Unbundled.Path (IsName parts isIdle)

/-- A name that stands for itself in a URL. -/
structure IsVerbatim (n : Text) : Prop where
  query : '?' ∉ n
  fragment : '#' ∉ n
  escape : ¬ Percent.HasEscape n

variable {disk : Disk} {root p : Path} {names : List Text} {spec url : Text}

theorem isVerbatim_of_not_mem {n : Text} (h : '?' ∉ n ∧ '#' ∉ n ∧ '%' ∉ n) : IsVerbatim n := by
  refine ⟨h.1, h.2.1, ?_⟩
  rintro ⟨a, b, -, hi⟩
  exact h.2.2 (hi.subset List.mem_cons_self)

/-! ### Reading a URL made of names -/

theorem mem_ofNames {c : Char} (h : c ∈ ofNames names) : c = '/' ∨ ∃ n ∈ names, c ∈ n := by
  unfold ofNames at h
  split at h
  · exact Or.inl (List.mem_singleton.mp h)
  · obtain ⟨n, hn, hc⟩ := List.mem_flatMap.mp h
    exact (List.mem_cons.mp hc).imp_right fun hc => ⟨n, hn, hc⟩

theorem pathPart_ofNames (h : ∀ n ∈ names, IsVerbatim n) :
    pathPart (ofNames names) = ofNames names := by
  rw [pathPart, List.takeWhile_eq_self_iff]
  intro c hc
  rcases mem_ofNames hc with rfl | ⟨n, hn, hc⟩
  · rfl
  · rw [Bool.and_eq_true, decide_eq_true_eq, decide_eq_true_eq]
    constructor
    · rintro rfl
      exact (h n hn).query hc
    · rintro rfl
      exact (h n hn).fragment hc

theorem decode_flatMap (h : ∀ n ∈ names, IsVerbatim n) :
    Percent.decode (names.flatMap ('/' :: ·)) = Text.encode (names.flatMap ('/' :: ·)) := by
  induction names with
  | nil => rfl
  | cons n names ih =>
    have hhead : ∀ d ∈ (names.flatMap ('/' :: ·)).head?, Literal.hexValue? d = none := by
      intro d hd
      cases names with
      | nil => exact absurd hd (by simp)
      | cons m rest =>
        obtain rfl : '/' = d := Option.some.inj hd
        rfl
    rw [List.flatMap_cons, List.cons_append, Percent.decode_cons rfl,
      Percent.decode_append (h n List.mem_cons_self).escape hhead,
      ih fun m hm => h m (List.mem_cons_of_mem n hm), Utf8.encode_cons, Utf8.encode_append]

theorem reads_ofNames (h : ∀ n ∈ names, IsVerbatim n) : Reads (ofNames names) (ofNames names) := by
  rw [Reads, Percent.stands_iff, pathPart_ofNames h]
  cases names with
  | nil => rfl
  | cons n rest => exact decode_flatMap h

theorem head?_ofNames (names : List Text) : (ofNames names).head? = some '/' := by
  cases names <;> rfl

/-- **A request for names leads to them.** -/
theorem toPath?_ofNames (root : Path) (hn : ∀ n ∈ names, IsOrdinary n)
    (h : ∀ n ∈ names, IsVerbatim n) :
    toPath? root (ofNames names) = some (names.foldl Path.join root) := by
  have hparts := parts_ofNames fun n hm => (hn n hm).toIsName
  refine toPath?_eq_some_iff.mpr ⟨ofNames names, reads_ofNames h, head?_ofNames names, ?_, ?_⟩
  · rwa [hparts]
  · rw [hparts]

theorem toPath?_ofNames_eq_none (root : Path) (hn : ∀ n ∈ names, IsName n)
    (h : ∀ n ∈ names, IsVerbatim n) (hb : ∃ n ∈ names, '\\' ∈ n) :
    toPath? root (ofNames names) = none := by
  obtain ⟨n, hm, hb⟩ := hb
  refine toPath?_eq_none_iff.mpr (Or.inr ⟨ofNames names, reads_ofNames h, Or.inr ⟨n, ?_, ?_⟩⟩)
  · rwa [parts_ofNames hn]
  · exact fun ho => ho.backslash hb

/-! ### Paths below the root -/

theorem Below.nul (h : Below root p names) (hz : '\x00' ∉ p.text) : ∀ n ∈ names, '\x00' ∉ n := by
  intro n hn hc
  refine hz ((Disk.nul_iff p).mpr ⟨n, ?_, hc⟩)
  rw [h.parts]
  exact List.mem_append_right _ hn

theorem filter_map_name (names : List Text) :
    (names.map Path.Step.name).filter (· ≠ .here) = names.map Path.Step.name := by
  refine List.filter_eq_self.mpr fun x hx => ?_
  obtain ⟨n, -, rfl⟩ := List.mem_map.mp hx
  rfl

theorem Below.steps_foldl (h : Below root p names) :
    (names.foldl Path.join root).steps.filter (· ≠ .here) = p.steps.filter (· ≠ .here) := by
  rw [Path.steps_foldl_join h.isName, h.steps, List.filter_append, filter_map_name]

theorem Below.toPath?_eq (h : Below root p names) (hz : '\x00' ∉ p.text)
    (hv : ∀ n ∈ names, IsVerbatim n) (hb : ∀ n ∈ names, '\\' ∉ n) :
    toPath? root (ofNames names) = some (names.foldl Path.join root) :=
  toPath?_ofNames root (fun n hn => ⟨h.isName n hn, hb n hn, h.nul hz n hn⟩) hv

/-- The path along the names leads where the file lies. -/
theorem Below.trace_foldl (h : Below root p names) (hf : disk.isFile p)
    (hroot : ∃ base, disk.trail root = .ok base ∧ Disk.HasFolder disk.top base) :
    disk.trace (names.foldl Path.join root) = disk.trace p := by
  obtain ⟨place, ht, hfile⟩ := Disk.exists_trace_of_isFile hf
  rcases List.eq_nil_or_concat names with rfl | ⟨before, n, rfl⟩
  · -- the file would be the root, which is a folder
    obtain ⟨base, hbase, hfolder⟩ := hroot
    have htrail := Disk.trail_congr disk h.steps_foldl
    rw [List.foldl_nil, hbase, Disk.trail_of_trace ht] at htrail
    rw [Except.ok.inj htrail] at hfolder
    exact absurd hfolder hfile
  · have hn : IsName n := h.isName n (by simp)
    have hjoin : (before ++ [n]).foldl Path.join root = (before.foldl Path.join root).join n := by
      rw [List.foldl_append]
      rfl
    rw [List.concat_eq_append] at h ⊢
    rw [ht]
    refine Disk.trace_congr ht h.steps_foldl ?_ (Or.inr ?_)
    · rw [hjoin]
      exact Path.text_join_ne_nil _ hn
    · rw [hjoin, Path.getLast?_segments_join _ hn]
      rintro s hs
      obtain rfl := Option.some.inj hs
      exact hn.not_isIdle

/-- **The URL of a path is read back to this path**, if its names stand for themselves; if one of them
holds a backslash, it is not read. What an import is rewritten to leads to the file that the import was
resolved to. -/
theorem toPath?_ofPath (root : Path) :
    (∀ p url, ofPath root p = .ok url → '\x00' ∉ p.text →
      ∃ names, Below root p names ∧ url = ofNames names ∧ ((∀ n ∈ names, IsVerbatim n) →
        ((∀ n ∈ names, '\\' ∉ n) → ∃ q, toPath? root url = some q ∧
          q.steps.filter (· ≠ .here) = p.steps.filter (· ≠ .here)) ∧
        ((∃ n ∈ names, '\\' ∈ n) → toPath? root url = none))) ∧
    (∀ disk spec url, Package.resolveUrl disk root spec = .ok url →
      ∃ p names, Package.resolve disk root spec = .ok p ∧ Below root p names ∧
        url = ofNames names ∧ ((∀ n ∈ names, IsVerbatim n) → (∀ n ∈ names, '\\' ∉ n) →
          ∃ q, toPath? root url = some q ∧
            q.steps.filter (· ≠ .here) = p.steps.filter (· ≠ .here) ∧
            disk.trace q = disk.trace p)) := by
  constructor
  · intro p url hu hz
    obtain ⟨names, hb, rfl⟩ := ofPath_eq_ok_iff.mp hu
    refine ⟨names, hb, rfl, fun hv => ⟨fun hn => ?_, fun hn => ?_⟩⟩
    · exact ⟨_, hb.toPath?_eq hz hv hn, hb.steps_foldl⟩
    · exact toPath?_ofNames_eq_none root hb.isName hv hn
  · intro disk spec url hu
    obtain ⟨p, names, hp, hb, rfl⟩ := Package.exists_of_resolveUrl hu
    obtain ⟨hfile, -⟩ := Package.exists_of_resolve hp
    obtain ⟨place, ht, -⟩ := Disk.exists_trace_of_isFile hfile
    have hz := (Disk.trace_eq_ok_iff.mp ht).1
    refine ⟨p, names, hp, hb, rfl, fun hv hn => ?_⟩
    exact ⟨_, hb.toPath?_eq hz hv hn, hb.steps_foldl,
      hb.trace_foldl hfile (Package.exists_folder_of_resolve hp)⟩

/-- The file of a name with a backslash has a URL, but no request for it has a file. -/
theorem exists_unread : ofPath ⟨"app".toList⟩ ⟨"app/a\\b.js".toList⟩ = .ok "/a\\b.js".toList ∧
    toPath? ⟨"app".toList⟩ "/a\\b.js".toList = none := by
  decide +kernel

/-- A project with a package `x` that has no manifest. -/
def plain : Disk where
  top := .folder [("app".toList, .folder [("node_modules".toList, .folder [("x".toList, .folder [
    ("index.js".toList, .file [])])])])]
  workingFolder := []
  library := .silent

/-- Dots that stand for a folder itself are left out on the way, and a rewritten import is served. -/
theorem toPath?_ofPath_plain :
    (ofPath ⟨"app".toList⟩ ⟨"app/./src//main.js".toList⟩ = .ok "/src/main.js".toList ∧
      ∃ q, toPath? ⟨"app".toList⟩ "/src/main.js".toList = some q ∧
        q.steps.filter (· ≠ .here) =
          (Path.steps ⟨"app/./src//main.js".toList⟩).filter (· ≠ .here)) ∧
    Package.resolveUrl plain ⟨"app".toList⟩ "x/index".toList =
      .ok "/node_modules/x/index.js".toList ∧
    ∃ p q, Package.resolve plain ⟨"app".toList⟩ "x/index".toList = .ok p ∧
      toPath? ⟨"app".toList⟩ "/node_modules/x/index.js".toList = some q ∧
      plain.trace q = plain.trace p := by
  constructor
  · have hu : ofPath ⟨"app".toList⟩ ⟨"app/./src//main.js".toList⟩ = .ok "/src/main.js".toList := by
      decide +kernel
    obtain ⟨names, hb, hn, h⟩ := (toPath?_ofPath _).1 _ _ hu (by decide)
    have hnames : names = ["src".toList, "main.js".toList] := by
      rw [← parts_ofNames hb.isName, ← hn]
      decide
    subst hnames
    have hv : ∀ n ∈ ["src".toList, "main.js".toList], IsVerbatim n :=
      fun n hm => isVerbatim_of_not_mem (by revert n; decide)
    exact ⟨hu, (h hv).1 (by decide)⟩
  · have hu : Package.resolveUrl plain ⟨"app".toList⟩ "x/index".toList =
        .ok "/node_modules/x/index.js".toList := by decide +kernel
    obtain ⟨p, names, hp, hb, hn, h⟩ := (toPath?_ofPath _).2 _ _ _ hu
    have hnames : names = ["node_modules".toList, "x".toList, "index.js".toList] := by
      rw [← parts_ofNames hb.isName, ← hn]
      decide
    subst hnames
    have hv : ∀ n ∈ ["node_modules".toList, "x".toList, "index.js".toList], IsVerbatim n :=
      fun n hm => isVerbatim_of_not_mem (by revert n; decide)
    obtain ⟨q, hq, -, ht⟩ := h hv (by decide)
    exact ⟨hu, p, q, hp, hq, ht⟩

/-! ### From a URL to its path and back -/

/-- A walk down from the root along names ends below the root, along these names. -/
theorem below_foldl (root : Path) (hn : ∀ n ∈ names, IsName n) :
    Below root (names.foldl Path.join root) names :=
  ⟨names.map .name, Path.steps_foldl_join hn root, filter_map_name names⟩

theorem ofNames_eq_intercalate (names : List Text) :
    ofNames names = '/' :: ['/'].intercalate names := by
  have hcons (n : Text) (rest : List Text) :
      (n :: rest).flatMap ('/' :: ·) = '/' :: ['/'].intercalate (n :: rest) := by
    induction rest generalizing n with
    | nil => simp
    | cons m rest ih => rw [List.flatMap_cons, ih, List.intercalate_cons_cons]; simp
  cases names with
  | nil => rfl
  | cons n rest => exact hcons n rest

/-- **A URL that has a file is put into its normal form** on the way to the file and back: a slash, and
the segments that count, one slash between them. The file never lies outside the root, whatever the
root looks like. -/
theorem ofPath_toPath? (root : Path) (url : Text) (h : toPath? root url = some p) :
    ∃ text, Reads url text ∧ ofPath root p = .ok ('/' :: ['/'].intercalate (parts text)) := by
  obtain ⟨text, hr, -, ho, rfl⟩ := toPath?_eq_some_iff.mp h
  have hn : ∀ n ∈ parts text, IsName n := fun n hm => (ho n hm).toIsName
  refine ⟨text, hr, ?_⟩
  rw [← ofNames_eq_intercalate]
  exact ofPath_eq_ok_iff.mpr ⟨parts text, below_foldl root hn, rfl⟩

/-- A root with dots in it, and a URL with an escaped slash. -/
theorem ofPath_toPath?_dots :
    toPath? ⟨"./a/../b//.".toList⟩ "/x%2Fy//./z.js?t=1".toList =
        some ⟨"./a/../b//./x/y/z.js".toList⟩ ∧
      ∃ text, Reads "/x%2Fy//./z.js?t=1".toList text ∧
        parts text = ["x".toList, "y".toList, "z.js".toList] ∧
        ofPath ⟨"./a/../b//.".toList⟩ ⟨"./a/../b//./x/y/z.js".toList⟩ = .ok "/x/y/z.js".toList := by
  have hp : toPath? ⟨"./a/../b//.".toList⟩ "/x%2Fy//./z.js?t=1".toList =
      some ⟨"./a/../b//./x/y/z.js".toList⟩ := by decide +kernel
  obtain ⟨text, hr, hu⟩ := ofPath_toPath? _ _ hp
  have htext : text = "/x/y//./z.js".toList :=
    hr.unique (reads_iff.mpr (by decide +kernel))
  subst htext
  exact ⟨hp, _, hr, by decide, hu⟩

end Unbundled.Url
