import Unbundled.Proofs.Package.Names

/-! # The search for the file of a specifier

Where the search for the file of a bare specifier leads, said without the program (`LeadsTo`): which
files it looks for, in which order, and how it fails. The paths are texts, put together with a slash
(`Path.slash`), as long as what is written for the file does not start with one (`Relative`).

* `Manifest.entry_eq_iff`: the entry of a manifest is the first field that names a file.
* `dropDots_eq_iff`: the dot segments at the front of an entry, and what is left.
* `resolve_eq_iff_leadsTo`: specifiers resolve to where the search leads, and to nothing else. -/

namespace Unbundled

/-! ### Entries -/

/-- A text that names a file: not all of it is blank. -/
def Manifest.Named (t : Text) : Prop := ∃ c ∈ t, ¬ Text.isBlank c

/-- **The entry of a manifest**: the first of its two fields that names a file. -/
inductive Manifest.Enters (m : Manifest) : Text → Prop
  | module {t : Text} (hm : m.module = some t) (ht : Named t) : Enters m t
  | main {t : Text} (hm : ∀ s ∈ m.module, ¬ Named s) (hmain : m.main = some t) (ht : Named t) :
    Enters m t
  | index (hm : ∀ s ∈ m.module, ¬ Named s) (hmain : ∀ s ∈ m.main, ¬ Named s) :
    Enters m defaultEntry

theorem Manifest.isNamed_iff {t : Text} : isNamed t ↔ Named t := by
  simp [isNamed, Named]

theorem Manifest.entry_of_enters {m : Manifest} {t : Text} (h : m.Enters t) : m.entry = t := by
  have hnot : ∀ s, ¬ Named s → isNamed s = false :=
    fun s hs => Bool.eq_false_iff.mpr (mt isNamed_iff.mp hs)
  obtain ⟨module, main⟩ := m
  cases h with
  | module hm ht =>
    obtain rfl : module = some t := hm
    cases main <;> simp [entry, isNamed_iff.mpr ht]
  | main hm hmain ht =>
    obtain rfl : main = some t := hmain
    cases module with
    | none => simp [entry, isNamed_iff.mpr ht]
    | some s => simp [entry, hnot s (hm s rfl), isNamed_iff.mpr ht]
  | index hm hmain =>
    cases module with
    | none =>
      cases main with
      | none => rfl
      | some t => simp [entry, hnot t (hmain t rfl)]
    | some s =>
      cases main with
      | none => simp [entry, hnot s (hm s rfl)]
      | some t => simp [entry, hnot s (hm s rfl), hnot t (hmain t rfl)]

theorem Manifest.exists_enters (m : Manifest) : ∃ t, m.Enters t := by
  by_cases hm : ∃ t ∈ m.module, Named t
  · obtain ⟨t, hm, ht⟩ := hm
    exact ⟨t, .module hm ht⟩
  have hm : ∀ s ∈ m.module, ¬ Named s := fun s hs hn => hm ⟨s, hs, hn⟩
  by_cases hmain : ∃ t ∈ m.main, Named t
  · obtain ⟨t, hmain, ht⟩ := hmain
    exact ⟨t, .main hm hmain ht⟩
  · exact ⟨_, .index hm fun s hs hn => hmain ⟨s, hs, hn⟩⟩

theorem Manifest.entry_eq_iff {m : Manifest} {t : Text} : m.entry = t ↔ m.Enters t := by
  refine ⟨?_, entry_of_enters⟩
  rintro rfl
  obtain ⟨t, ht⟩ := m.exists_enters
  rwa [entry_of_enters ht]

/-! ### Paths -/

/-- The path of a text in a folder, with a slash between the two if there is none. -/
def Path.slash (p : Path) (t : Text) : Path :=
  ⟨p.text ++ (if p.text = [] ∨ p.text.getLast? = some '/' then [] else ['/']) ++ t⟩

theorem Path.join_eq_slash (p : Path) {t : Text} (h : t.head? ≠ some '/') : p.join t = p.slash t := by
  rw [join, if_neg h, slash]
  by_cases hp : p.text = [] ∨ p.text.getLast? = some '/'
  · rw [if_pos (by simpa using hp), if_pos hp, List.append_nil]
  · rw [if_neg (by simpa using hp), if_neg hp, List.append_assoc, List.singleton_append]

namespace Package

open Specifier (Splits splitBare_eq_iff)

/-- The dot segments at the front of a text, and what is left without them. -/
def Undots (t rest : Text) : Prop :=
  ∃ n, t = (List.replicate n ['.', '/']).flatten ++ rest ∧ ¬ ['.', '/'] <+: rest

variable {disk : Disk} {root p : Path} {name spec t inside : Text}

theorem dropDots_of_not_isPrefix (h : ¬ ['.', '/'] <+: t) : dropDots t = t := by
  rw [dropDots]
  rintro u rfl
  exact h ⟨u, rfl⟩

theorem undots_dropDots (t : Text) : Undots t (dropDots t) := by
  fun_induction dropDots t with
  | case1 t ih =>
    obtain ⟨n, ht, hrest⟩ := ih
    refine ⟨n + 1, ?_, hrest⟩
    rw [List.replicate_succ, List.flatten_cons, List.append_assoc, ← ht]
    rfl
  | case2 t h =>
    refine ⟨0, rfl, ?_⟩
    rintro ⟨u, rfl⟩
    exact h u rfl

theorem dropDots_eq_iff {rest : Text} : dropDots t = rest ↔ Undots t rest := by
  refine ⟨fun h => h ▸ undots_dropDots t, ?_⟩
  rintro ⟨n, rfl, hrest⟩
  induction n with
  | zero => exact dropDots_of_not_isPrefix hrest
  | succ n ih => exact ih

/-! ### The search -/

/-- The folder of a package. -/
def folderOf (root : Path) (name : Text) : Path :=
  (root.slash storeFolder).slash name

/-- The manifest of a package. -/
def manifestOf (root : Path) (name : Text) : Path := (folderOf root name).slash manifestFile

/-- The content of a file is a manifest. -/
def Holds (content : Bytes) (m : Manifest) : Prop :=
  ∃ t, Utf8.decode content = .ok t ∧ Manifest.parse? t = some m

/-- The content of a file is no manifest, for the reason in the message. -/
inductive Refuses (disk : Disk) (content : Bytes) : Text → Prop
  | noText (h : ∀ t, Utf8.decode content ≠ .ok t) :
    Refuses disk content "stream did not contain valid UTF-8".toList
  | noManifest {t : Text} (ht : Utf8.decode content = .ok t) (hm : Manifest.parse? t = none) :
    Refuses disk content (disk.library.manifest t)

/-- What a manifest makes of its package: the text that is written for the entry file. -/
def Writes (disk : Disk) (root : Path) (name rest : Text) : Prop :=
  ∃ content m entry, disk.node (manifestOf root name) = .ok (.file content) ∧ Holds content m ∧
    m.Enters entry ∧ Undots entry rest

/-- **Where the search for the file of a specifier leads.** -/
inductive LeadsTo (disk : Disk) (root : Path) (spec : Text) : Except Fault Path → Prop
  | noManifest {name : Text} (hs : Splits spec name none)
    (hfile : ¬ disk.isFile (manifestOf root name)) :
    LeadsTo disk root spec (.error (.notFound name (manifestOf root name)))
  | badManifest {name message : Text} {content : Bytes} (hs : Splits spec name none)
    (hfile : disk.node (manifestOf root name) = .ok (.file content))
    (hbad : Refuses disk content message) :
    LeadsTo disk root spec (.error (.badManifest (manifestOf root name) message))
  | entry {name rest : Text} (hs : Splits spec name none) (hw : Writes disk root name rest)
    (hfile : disk.isFile ((folderOf root name).slash rest)) :
    LeadsTo disk root spec (.ok ((folderOf root name).slash rest))
  | index {name rest : Text} (hs : Splits spec name none) (hw : Writes disk root name rest)
    (hrest : ¬ disk.isFile ((folderOf root name).slash rest))
    (hfile : disk.isFile ((folderOf root name).slash Manifest.defaultEntry)) :
    LeadsTo disk root spec (.ok ((folderOf root name).slash Manifest.defaultEntry))
  | noEntry {name rest : Text} (hs : Splits spec name none) (hw : Writes disk root name rest)
    (hrest : ¬ disk.isFile ((folderOf root name).slash rest))
    (hindex : ¬ disk.isFile ((folderOf root name).slash Manifest.defaultEntry)) :
    LeadsTo disk root spec (.error (.noEntry name (folderOf root name)))
  | noFolder {name inside : Text} (hs : Splits spec name (some inside))
    (hfolder : ¬ disk.isFolder (folderOf root name)) :
    LeadsTo disk root spec (.error (.notFound name (manifestOf root name)))
  | inside {name inside : Text} (hs : Splits spec name (some inside))
    (hfolder : disk.isFolder (folderOf root name))
    (hfile : disk.isFile ((folderOf root name).slash inside)) :
    LeadsTo disk root spec (.ok ((folderOf root name).slash inside))
  | extended {name inside : Text} (hs : Splits spec name (some inside))
    (hfolder : disk.isFolder (folderOf root name))
    (hinside : ¬ disk.isFile ((folderOf root name).slash inside))
    (hfile : disk.isFile ((folderOf root name).slash (inside ++ scriptExtension))) :
    LeadsTo disk root spec (.ok ((folderOf root name).slash (inside ++ scriptExtension)))
  | noInside {name inside : Text} (hs : Splits spec name (some inside))
    (hfolder : disk.isFolder (folderOf root name))
    (hinside : ¬ disk.isFile ((folderOf root name).slash inside))
    (hext : ¬ disk.isFile ((folderOf root name).slash (inside ++ scriptExtension))) :
    LeadsTo disk root spec (.error (.noEntry (name ++ '/' :: inside) (folderOf root name)))

/-- What is written for the file of a specifier is no absolute path: neither the path in the specifier
nor what the manifest says without the dot segments at its front. -/
structure Relative (disk : Disk) (root : Path) (spec : Text) : Prop where
  inside : ∀ name inside, Splits spec name (some inside) → inside.head? ≠ some '/'
  entry : ∀ name rest, Splits spec name none → Writes disk root name rest → rest.head? ≠ some '/'

/-! ### The steps of the program -/

theorem packageFolder_eq {o : Option Text} (hs : Splits spec name o) (root : Path) :
    packageFolder root spec = folderOf root name := by
  have hn := Specifier.head?_name_ne spec
  rw [splitBare_eq_iff.mpr hs] at hn
  rw [packageFolder, splitBare_eq_iff.mpr hs, folderOf, Path.join_eq_slash root (by decide),
    Path.join_eq_slash _ hn]

theorem manifestOf_eq (root : Path) (name : Text) :
    (folderOf root name).join manifestFile = manifestOf root name :=
  Path.join_eq_slash _ (by decide)

theorem resolve_name (hs : Splits spec name none) : resolve disk root spec =
    if disk.isFile (manifestOf root name) then
      resolveEntry disk name (folderOf root name) (manifestOf root name)
    else .error (.notFound name (manifestOf root name)) := by
  have hsplit := splitBare_eq_iff.mpr hs
  rw [resolve_of_name (congrArg Prod.snd hsplit), packageFolder_eq hs, manifestOf_eq, hsplit]

theorem resolve_inside (hs : Splits spec name (some inside)) : resolve disk root spec =
    if disk.isFolder (folderOf root name) then
      resolveInside disk name (folderOf root name) inside
    else .error (.notFound name (manifestOf root name)) := by
  have hsplit := splitBare_eq_iff.mpr hs
  rw [resolve_of_inside (congrArg Prod.snd hsplit), packageFolder_eq hs, manifestOf_eq, hsplit]

theorem firstFile?_pair (disk : Disk) (p q : Path) : firstFile? disk [p, q] =
    if disk.isFile p then some p else if disk.isFile q then some q else none := by
  unfold firstFile?
  cases hp : disk.isFile p <;> cases hq : disk.isFile q <;> simp [hp, hq]

theorem readManifest_of_holds {content : Bytes} {m : Manifest}
    (hfile : disk.node p = .ok (.file content)) (h : Holds content m) :
    readManifest disk p = .ok m := by
  obtain ⟨t, hd, hm⟩ := h
  rw [readManifest, Disk.readText, Disk.read_of_node hfile]
  simp only [Except.bind, hd, Except.mapError, hm]

theorem readManifest_of_refuses {content : Bytes} {message : Text}
    (hfile : disk.node p = .ok (.file content)) (h : Refuses disk content message) :
    readManifest disk p = .error (.badManifest p message) := by
  rw [readManifest, Disk.readText, Disk.read_of_node hfile]
  cases h with
  | noText h =>
    cases hd : Utf8.decode content with
    | ok t => exact absurd hd (h t)
    | error fault =>
      simp only [Except.bind, hd, Except.mapError]
      rfl
  | noManifest ht hm => simp only [Except.bind, ht, Except.mapError, hm]

/-- Every content is a manifest, or is none for one reason. -/
theorem holds_or_refuses (disk : Disk) (content : Bytes) :
    (∃ m, Holds content m) ∨ ∃ message, Refuses disk content message := by
  cases hd : Utf8.decode content with
  | error fault => exact Or.inr ⟨_, .noText fun t ht => absurd (hd.symm.trans ht) (by simp)⟩
  | ok t =>
    cases hm : Manifest.parse? t with
    | none => exact Or.inr ⟨_, .noManifest hd hm⟩
    | some m => exact Or.inl ⟨m, t, hd, hm⟩

theorem resolveEntry_of_refuses {content : Bytes} {message : Text}
    (hfile : disk.node (manifestOf root name) = .ok (.file content))
    (h : Refuses disk content message) :
    resolveEntry disk name (folderOf root name) (manifestOf root name) =
      .error (.badManifest (manifestOf root name) message) := by
  rw [resolveEntry, readManifest_of_refuses hfile h]
  rfl

/-- The files that are tried for a name alone. -/
theorem resolveEntry_of_writes {rest : Text} (hw : Writes disk root name rest)
    (hrest : rest.head? ≠ some '/') :
    resolveEntry disk name (folderOf root name) (manifestOf root name) =
      if disk.isFile ((folderOf root name).slash rest) then .ok ((folderOf root name).slash rest)
      else if disk.isFile ((folderOf root name).slash Manifest.defaultEntry) then
        .ok ((folderOf root name).slash Manifest.defaultEntry)
      else .error (.noEntry name (folderOf root name)) := by
  obtain ⟨content, m, entry, hfile, hm, hentry, hdots⟩ := hw
  have hindex : Manifest.defaultEntry.head? ≠ some '/' := by decide
  rw [resolveEntry, readManifest_of_holds hfile hm]
  simp only [bind, Except.bind]
  rw [Manifest.entry_eq_iff.mpr hentry, dropDots_eq_iff.mpr hdots, Path.join_eq_slash _ hrest,
    Path.join_eq_slash _ hindex, firstFile?_pair]
  split_ifs <;> rfl

/-- The files that are tried for a path in a package. -/
theorem resolveInside_eq (root : Path) (hne : inside ≠ []) (hinside : inside.head? ≠ some '/') :
    resolveInside disk name (folderOf root name) inside =
      if disk.isFile ((folderOf root name).slash inside) then
        .ok ((folderOf root name).slash inside)
      else if disk.isFile ((folderOf root name).slash (inside ++ scriptExtension)) then
        .ok ((folderOf root name).slash (inside ++ scriptExtension))
      else .error (.noEntry (name ++ '/' :: inside) (folderOf root name)) := by
  have hext : (inside ++ scriptExtension).head? ≠ some '/' := by
    rwa [List.head?_append_of_ne_nil _ hne]
  rw [resolveInside, text_join_append _ hne, Path.join_eq_slash _ hinside,
    Path.join_eq_slash _ hext, firstFile?_pair]
  split_ifs <;> rfl

theorem inside_ne_nil_of_splits (hs : Splits spec name (some inside)) : inside ≠ [] := by
  cases hs with
  | inside _ hi => exact hi

/-- A package writes one text for its entry file. -/
theorem Writes.unique {rest rest' : Text} (h : Writes disk root name rest)
    (h' : Writes disk root name rest') : rest = rest' := by
  obtain ⟨content, m, entry, hnode, hm, hentry, hdots⟩ := h
  obtain ⟨content', m', entry', hnode', hm', hentry', hdots'⟩ := h'
  obtain rfl : content = content' := by
    simpa only [Except.ok.injEq, Node.file.injEq] using hnode.symm.trans hnode'
  obtain rfl : m = m' := by
    have hread := readManifest_of_holds hnode hm
    rw [readManifest_of_holds hnode hm'] at hread
    exact (Except.ok.inj hread).symm
  rw [← dropDots_eq_iff.mpr hdots, ← dropDots_eq_iff.mpr hdots', ← Manifest.entry_eq_iff.mpr hentry,
    ← Manifest.entry_eq_iff.mpr hentry']

/-! ### The program and the search -/

theorem resolve_of_leadsTo {r : Except Fault Path} (hrel : Relative disk root spec)
    (h : LeadsTo disk root spec r) : resolve disk root spec = r := by
  have hfile : ∀ {name rest}, Writes disk root name rest → disk.isFile (manifestOf root name) := by
    rintro name rest ⟨content, -, -, hnode, -⟩
    exact Disk.isFile_iff.mpr ⟨content, hnode⟩
  cases h with
  | noManifest hs hno => rw [resolve_name hs, if_neg hno]
  | badManifest hs hnode hbad =>
    rw [resolve_name hs, if_pos (Disk.isFile_iff.mpr ⟨_, hnode⟩), resolveEntry_of_refuses hnode hbad]
  | entry hs hw hyes =>
    rw [resolve_name hs, if_pos (hfile hw), resolveEntry_of_writes hw (hrel.entry _ _ hs hw), if_pos hyes]
  | index hs hw hno hyes =>
    rw [resolve_name hs, if_pos (hfile hw), resolveEntry_of_writes hw (hrel.entry _ _ hs hw), if_neg hno,
      if_pos hyes]
  | noEntry hs hw hno hindex =>
    rw [resolve_name hs, if_pos (hfile hw), resolveEntry_of_writes hw (hrel.entry _ _ hs hw), if_neg hno,
      if_neg hindex]
  | noFolder hs hno => rw [resolve_inside hs, if_neg hno]
  | inside hs hfolder hyes =>
    rw [resolve_inside hs, if_pos hfolder,
      resolveInside_eq root (inside_ne_nil_of_splits hs) (hrel.inside _ _ hs), if_pos hyes]
  | extended hs hfolder hno hyes =>
    rw [resolve_inside hs, if_pos hfolder,
      resolveInside_eq root (inside_ne_nil_of_splits hs) (hrel.inside _ _ hs), if_neg hno, if_pos hyes]
  | noInside hs hfolder hno hext =>
    rw [resolve_inside hs, if_pos hfolder,
      resolveInside_eq root (inside_ne_nil_of_splits hs) (hrel.inside _ _ hs), if_neg hno, if_neg hext]

/-- The search always comes to an end. -/
theorem exists_leadsTo (disk : Disk) (root : Path) (spec : Text) :
    ∃ r, LeadsTo disk root spec r := by
  have hs := Specifier.splits_splitBare spec
  generalize (Specifier.splitBare spec).1 = name at hs
  cases ho : (Specifier.splitBare spec).2 with
  | none =>
    rw [ho] at hs
    by_cases hfile : disk.isFile (manifestOf root name)
    swap
    · exact ⟨_, .noManifest hs hfile⟩
    obtain ⟨content, hnode⟩ := Disk.isFile_iff.mp hfile
    obtain ⟨m, hm⟩ | ⟨message, hbad⟩ := holds_or_refuses disk content
    swap
    · exact ⟨_, .badManifest hs hnode hbad⟩
    obtain ⟨entry, hentry⟩ := m.exists_enters
    have hw : Writes disk root name (dropDots entry) :=
      ⟨content, m, entry, hnode, hm, hentry, undots_dropDots entry⟩
    by_cases hyes : disk.isFile ((folderOf root name).slash (dropDots entry))
    · exact ⟨_, .entry hs hw hyes⟩
    by_cases hindex : disk.isFile ((folderOf root name).slash Manifest.defaultEntry)
    · exact ⟨_, .index hs hw hyes hindex⟩
    · exact ⟨_, .noEntry hs hw hyes hindex⟩
  | some inside =>
    rw [ho] at hs
    by_cases hfolder : disk.isFolder (folderOf root name)
    swap
    · exact ⟨_, .noFolder hs hfolder⟩
    by_cases hyes : disk.isFile ((folderOf root name).slash inside)
    · exact ⟨_, .inside hs hfolder hyes⟩
    by_cases hext : disk.isFile ((folderOf root name).slash (inside ++ scriptExtension))
    · exact ⟨_, .extended hs hfolder hyes hext⟩
    · exact ⟨_, .noInside hs hfolder hyes hext⟩

/-- **Specifiers resolve to where the search leads**, and to nothing else; and what they resolve to is a
file. -/
theorem resolve_eq_iff_leadsTo (hrel : Relative disk root spec) :
    (∀ r, resolve disk root spec = r ↔ LeadsTo disk root spec r) ∧
      ∀ p, resolve disk root spec = .ok p → ∃ content, disk.node p = .ok (.file content) := by
  refine ⟨fun r => ⟨?_, resolve_of_leadsTo hrel⟩,
    fun p hp => Disk.isFile_iff.mp (exists_of_resolve hp).1⟩
  rintro rfl
  obtain ⟨r, hr⟩ := exists_leadsTo disk root spec
  rwa [resolve_of_leadsTo hrel hr]

/-- A project with a package whose manifest has a blank field and an entry behind dot segments. -/
def dotted : Disk where
  top := .folder [("app".toList, .folder [("node_modules".toList, .folder [("@s".toList, .folder
    [("p".toList, .folder [
      ("package.json".toList,
        .file (Text.encode "\x7b\"module\": \" \", \"main\": \"././lib.js\"\x7d".toList)),
      ("lib.js".toList, .file [1]), ("index.js".toList, .file [2])])])])])]
  workingFolder := []
  library := .silent

theorem writes_dotted : Writes dotted ⟨"app".toList⟩ "@s/p".toList "lib.js".toList := by
  refine ⟨_, ⟨some [' '], some "././lib.js".toList⟩, "././lib.js".toList, rfl,
    ⟨"\x7b\"module\": \" \", \"main\": \"././lib.js\"\x7d".toList, by decide +kernel,
      by decide +kernel⟩, Manifest.entry_eq_iff.mp (by decide), 2, by decide, by decide⟩

theorem resolve_eq_iff_leadsTo_dotted :
    Relative dotted ⟨"app".toList⟩ "@s/p/".toList ∧
      resolve dotted ⟨"app".toList⟩ "@s/p/".toList =
        .ok ⟨"app/node_modules/@s/p/lib.js".toList⟩ ∧
      ∃ content, dotted.node ⟨"app/node_modules/@s/p/lib.js".toList⟩ = .ok (.file content) := by
  have hs : Splits "@s/p/".toList "@s/p".toList none := splitBare_eq_iff.mp (by decide)
  have hrel : Relative dotted ⟨"app".toList⟩ "@s/p/".toList := by
    refine ⟨fun name inside h => ?_, fun name rest h hw => ?_⟩
    · exact absurd ((splitBare_eq_iff.mpr hs).symm.trans (splitBare_eq_iff.mpr h)) (by simp)
    · obtain rfl : "@s/p".toList = name := congrArg Prod.fst
        ((splitBare_eq_iff.mpr hs).symm.trans (splitBare_eq_iff.mpr h))
      rw [hw.unique writes_dotted]
      decide
  obtain ⟨hiff, hfile⟩ := resolve_eq_iff_leadsTo hrel
  have hr := (hiff _).mpr (.entry hs writes_dotted (by decide +kernel))
  exact ⟨hrel, hr, hfile _ hr⟩

end Package

end Unbundled
