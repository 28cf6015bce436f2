import Unbundled.Proofs.Chain.Direct
import Unbundled.Proofs.Component.Paths
import Unbundled.Proofs.Disk.Inside
import Unbundled.Proofs.Url.Endings

/-! # Spellings of one request

A file can be requested by many paths: with escapes in place of characters, with dots, or with repeated
slashes. The path that leads to the file is the same for all of them (`eq_of_locate_eq`), and so is the
answer if the request paths have the same route, except where the answer names the path: in the module
of a component, and in the report that a script is not a text (`answer_spelling`). The route of a
request path is that of its file or none (`routeOf_eq_or`), so it is always the same for a file that is
no component and no script. -/

namespace Unbundled

open Unbundled.Component (SameBut)

variable {disk : Disk} {settings : ChainSettings} {root file f g : Path} {path p q u v : Text}
  {content : Bytes} {place base base' : List Text}

/-! ### The file of a request -/

theorem Disk.IsBase.unique (h : disk.IsBase root base) (h' : disk.IsBase root base') :
    base = base' := by
  have hempty : root.text = [] → ∀ place, disk.trace root ≠ .ok place :=
    fun hroot place ht => (Disk.trace_eq_ok_iff.mp ht).2.1 hroot
  rcases h with ⟨hroot, rfl⟩ | h
  · rcases h' with ⟨-, rfl⟩ | h'
    · rfl
    · exact absurd h' (hempty hroot _)
  · rcases h' with ⟨hroot, -⟩ | h'
    · exact absurd h (hempty hroot _)
    · rw [h] at h'
      exact Except.ok.inj h'

/-- **Requests that lead to the same place lead there by the same path.** -/
theorem eq_of_locate_eq (hu : Url.toPath? root u = some f) (hv : Url.toPath? root v = some g)
    (hf : disk.locate f = .ok place) (hg : disk.locate g = .ok place) : f = g := by
  obtain ⟨s, -, -, hs, rfl⟩ := Url.toPath?_eq_some_iff.mp hu
  obtain ⟨t, -, -, ht, rfl⟩ := Url.toPath?_eq_some_iff.mp hv
  obtain ⟨base, hb, rfl⟩ :=
    Disk.exists_base_of_trace (fun n hn => (hs n hn).toIsName) (Disk.trace_of_locate hf)
  obtain ⟨base', hb', hplace⟩ :=
    Disk.exists_base_of_trace (fun n hn => (ht n hn).toIsName) (Disk.trace_of_locate hg)
  obtain rfl : base = base' := Disk.IsBase.unique hb hb'
  rw [List.append_cancel_left hplace]

theorem isEnding_componentSuffix : IsEnding componentSuffix :=
  ⟨by decide, by decide, by decide, by decide, by decide⟩

theorem isEnding_of_mem_scriptSuffixes : ∀ e ∈ scriptSuffixes, IsEnding e := by
  intro e he
  simp only [scriptSuffixes, List.map_cons, List.map_nil, List.mem_cons, List.not_mem_nil,
    or_false] at he
  rcases he with rfl | rfl
  · exact ⟨by decide, by decide, by decide, by decide, by decide⟩
  · exact ⟨by decide, by decide, by decide, by decide, by decide⟩

/-- **A request path has the route of the file that it leads to, or none.** -/
theorem routeOf_eq_or (h : Url.toPath? root u = some f) :
    routeOf (Url.pathPart u) = routeOf f.text ∨ routeOf (Url.pathPart u) = .other := by
  have hends : ∀ e, IsEnding e → Text.endsWith (Url.pathPart u) e → Text.endsWith f.text e := by
    intro e he hs
    rw [Text.endsWith, List.isSuffixOf_iff_suffix] at hs ⊢
    obtain ⟨name, -, hname, htext⟩ := Url.toPath?_ending h he hs
    exact hname.trans htext
  cases hr : routeOf (Url.pathPart u) with
  | component =>
    have hf := hends _ isEnding_componentSuffix (routeOf_eq_component_iff.mp hr)
    exact Or.inl (routeOf_eq_component_iff.mpr hf).symm
  | script =>
    obtain ⟨e, he, hs⟩ := List.any_eq_true.mp (routeOf_eq_script_iff.mp hr)
    have hf := hends e (isEnding_of_mem_scriptSuffixes e he) hs
    exact Or.inl (routeOf_eq_script_iff.mpr (List.any_eq_true.mpr ⟨e, he, hf⟩)).symm
  | other => exact Or.inr rfl

/-- Requests for a file that is no component and no script have the same route. -/
theorem routeOf_eq_of_other (hu : Url.toPath? root u = some f) (hv : Url.toPath? root v = some f)
    (h : routeOf f.text = .other) : routeOf (Url.pathPart u) = routeOf (Url.pathPart v) := by
  have hother : ∀ w, Url.toPath? root w = some f → routeOf (Url.pathPart w) = .other := by
    intro w hw
    rcases routeOf_eq_or hw with hr | hr
    · rw [hr, h]
    · exact hr
  rw [hother u hu, hother v hv]

/-- The answer to a request for a file. -/
theorem answer_of_file (hu : Url.toPath? settings.root u = some file)
    (hn : disk.node file = .ok (.file content)) :
    answer disk settings u = (Context.ofRequest u).replied
      (replyOf disk settings (Url.pathPart u) file content) := by
  rw [← Url.toPath?_pathPart] at hu
  rw [answer_eq_direct, direct, reply?_of_file hu hn]
  rfl

/-! ### Replies to two spellings -/

/-- What is sent of a component module: the module, with its imports rewritten if that is asked for
and it is no report of a failure. -/
def shipped (disk : Disk) (settings : ChainSettings) (status : Nat) (module : Text) : Text :=
  if status = 200 ∧ settings.rewriteComponentImports then
    (Import.rewriteSource disk settings.root module).code
  else module

/-- Two replies that are the same but for the request paths, before imports are rewritten. -/
structure Reply.SameBut (finish : Nat → Text → Text) (p q : Text) (r r' : Reply) : Prop where
  status : r.status = r'.status
  contentType : r.contentType = r'.contentType
  body : ∃ m n, Component.SameBut p q m n ∧ r.body = .text (finish r.status m) ∧
    r'.body = .text (finish r'.status n)

theorem componentReply_sameBut (disk : Disk) (settings : ChainSettings) (p q : Text) (file : Path)
    (content : Bytes) :
    Reply.SameBut (shipped disk settings) p q (componentReply disk settings p file content)
      (componentReply disk settings q file content) := by
  unfold componentReply
  cases Utf8.decode content with
  | error fault => exact ⟨rfl, rfl, _, _, .refl p q _, rfl, rfl⟩
  | ok source =>
    dsimp only
    rcases Component.assemble_sameBut source p q with ⟨cause, hp, hq⟩ | ⟨m, n, hp, hq, h⟩
    · rw [hp, hq]
      exact ⟨rfl, rfl, _, _, Component.failureModule_sameBut p q cause, rfl, rfl⟩
    · rw [hp, hq]
      refine ⟨rfl, rfl, m, n, h, ?_, ?_⟩
      · simp only [shipped, true_and]
      · simp only [shipped, true_and]

theorem scriptReply_eq {source : Text} (h : Utf8.decode content = .ok source) (p q : Text) :
    scriptReply disk root p content = scriptReply disk root q content := by
  rw [scriptReply, scriptReply, h]

theorem message_transform (path reason : Text) :
    (Fault.transform path reason).message =
      "Transform failed for ".toList ++ (path ++ (": ".toList ++ reason)) := by
  unfold Fault.message
  dsimp only
  rw [List.append_assoc, List.append_assoc]

theorem scriptReply_sameBut {fault : Utf8.Fault} (disk : Disk) (root : Path)
    (h : Utf8.decode content = .error fault) (p q : Text) :
    Reply.SameBut (fun _ m => m) p q (scriptReply disk root p content)
      (scriptReply disk root q content) := by
  unfold scriptReply
  rw [h]
  dsimp only
  rw [message_transform, message_transform]
  exact ⟨rfl, rfl, _, _, .after _ (.path (.refl p q _)), rfl, rfl⟩

/-- **How a request is spelled does not matter** if its path has the same ending, which need not be
asked for a file that is no component and no script: the status and the content type are the same, and
so is the body, unless it names the request path. A body that does is the same but for the path. -/
theorem answer_spelling (hu : Url.toPath? settings.root u = some f)
    (hv : Url.toPath? settings.root v = some g) (hf : disk.isFile f)
    (hplace : disk.locate f = disk.locate g)
    (hroute : routeOf (Url.pathPart u) = routeOf (Url.pathPart v) ∨ routeOf f.text = .other) :
    (answer disk settings u).status = (answer disk settings v).status ∧
      (answer disk settings u).contentType = (answer disk settings v).contentType ∧
      (routeOf (Url.pathPart u) ≠ .component →
        (routeOf (Url.pathPart u) = .script → ∃ source, disk.readText f = .ok source) →
        (answer disk settings u).body = (answer disk settings v).body) ∧
      (routeOf (Url.pathPart u) = .component →
        ∃ m n, SameBut (Url.pathPart u) (Url.pathPart v) m n ∧
          (answer disk settings u).body =
            some (.text (shipped disk settings (answer disk settings u).status m)) ∧
          (answer disk settings v).body =
            some (.text (shipped disk settings (answer disk settings v).status n))) ∧
      (routeOf (Url.pathPart u) = .script → (¬ ∃ source, disk.readText f = .ok source) →
        ∃ m n, SameBut (Url.pathPart u) (Url.pathPart v) m n ∧
          (answer disk settings u).body = some (.text m) ∧
          (answer disk settings v).body = some (.text n)) := by
  obtain ⟨content, hn⟩ := Disk.isFile_iff.mp hf
  obtain ⟨place, hl, -⟩ := Disk.node_eq_ok_iff.mp hn
  obtain rfl : f = g := eq_of_locate_eq hu hv hl (hplace ▸ hl)
  have hsame : routeOf (Url.pathPart u) = routeOf (Url.pathPart v) :=
    hroute.elim id (routeOf_eq_of_other hu hv)
  rw [answer_of_file hu hn, answer_of_file hv hn, replyOf, replyOf, ← hsame]
  cases routeOf (Url.pathPart u) with
  | component =>
    obtain ⟨hs, ht, m, n, h, hm, hm'⟩ := componentReply_sameBut disk settings (Url.pathPart u)
      (Url.pathPart v) f content
    refine ⟨hs, congrArg some ht, fun hc => absurd rfl hc, fun _ => ?_, fun hc => ?_⟩
    · exact ⟨m, n, h, congrArg some hm, congrArg some hm'⟩
    · exact absurd hc (by simp)
  | script =>
    rw [readText_of_node hn]
    cases hd : Utf8.decode content with
    | ok source =>
      rw [scriptReply_eq hd (Url.pathPart u) (Url.pathPart v)]
      refine ⟨rfl, rfl, fun _ _ => rfl, fun hc => absurd hc (by simp), fun _ hno => ?_⟩
      exact absurd ⟨source, rfl⟩ hno
    | error fault =>
      obtain ⟨hs, ht, m, n, h, hm, hm'⟩ := scriptReply_sameBut disk settings.root hd
        (Url.pathPart u) (Url.pathPart v)
      refine ⟨hs, congrArg some ht, fun _ ht => ?_, fun hc => absurd hc (by simp), fun _ _ => ?_⟩
      · obtain ⟨source, hsource⟩ := ht rfl
        exact absurd hsource (by simp [Except.mapError])
      · exact ⟨m, n, h, congrArg some hm, congrArg some hm'⟩
  | other =>
    refine ⟨rfl, rfl, fun _ _ => rfl, fun hc => absurd hc (by simp), fun hc => ?_⟩
    exact absurd hc (by simp)

/-- A project with a picture, two scripts, a script that is no text, and a component whose module is
read otherwise if the path in it ends a comment. -/
def assorted : Disk where
  top := .folder [("app".toList, .folder [
    ("logo.png".toList, .file [0x89]),
    ("main.js".toList, .file (Text.encode "import 'x/y'".toList)),
    ("MAIN.JS".toList, .file (Text.encode "import 'x/y'".toList)),
    ("bad.js".toList, .file [0xFF]),
    ("*".toList, .folder [("`.vue".toList, .file (Text.encode
      "<script>/*</script><style>`;import 'x/y'</style>".toList))]),
    ("node_modules".toList, .folder [("x".toList, .folder [("y.js".toList, .file [])])])])]
  workingFolder := []
  library := .silent

/-- A project in the folder `app`, with the imports of components rewritten. -/
def rewriting : ChainSettings := ⟨⟨"app".toList⟩, true⟩

/-- A script is rewritten however it is requested, and a picture served unchanged. -/
theorem answer_spelling_assorted :
    (answer assorted rewriting "/main.js".toList).body =
        (answer assorted rewriting "/./ma%69n.js?t=1".toList).body ∧
      (answer assorted rewriting "/logo.png".toList).body =
        (answer assorted rewriting "//logo%2Epng/".toList).body := by
  constructor
  · have hu : Url.toPath? rewriting.root "/main.js".toList = some ⟨"app/main.js".toList⟩ := by
      decide +kernel
    have hv : Url.toPath? rewriting.root "/./ma%69n.js?t=1".toList =
        some ⟨"app/main.js".toList⟩ := by decide +kernel
    have hf : assorted.isFile ⟨"app/main.js".toList⟩ := by decide +kernel
    have hsource : assorted.readText ⟨"app/main.js".toList⟩ = .ok "import 'x/y'".toList := by
      decide +kernel
    exact (answer_spelling hu hv hf rfl (Or.inl (by decide +kernel))).2.2.1 (by decide +kernel)
      fun _ => ⟨_, hsource⟩
  · have hu : Url.toPath? rewriting.root "/logo.png".toList = some ⟨"app/logo.png".toList⟩ := by
      decide +kernel
    have hv : Url.toPath? rewriting.root "//logo%2Epng/".toList =
        some ⟨"app/logo.png".toList⟩ := by decide +kernel
    have hf : assorted.isFile ⟨"app/logo.png".toList⟩ := by decide +kernel
    exact (answer_spelling hu hv hf rfl (Or.inr (by decide +kernel))).2.2.1 (by decide +kernel)
      fun hs => absurd hs (by decide +kernel)

/-- Two answers for one file can differ. The report that a script is no text names the request path.
And where the path in a component module ends a comment, an import after it is rewritten that is part of
the comment otherwise. -/
theorem exists_answers_apart :
    Url.toPath? rewriting.root "/bad.js".toList = some ⟨"app/bad.js".toList⟩ ∧
      Url.toPath? rewriting.root "/b%61d.js".toList = some ⟨"app/bad.js".toList⟩ ∧
      assorted.isFile ⟨"app/bad.js".toList⟩ ∧
      (answer assorted rewriting "/bad.js".toList).body =
        some (.text (("Transform failed for /bad.js: source is not valid UTF-8 " ++
          "(invalid utf-8 sequence of 1 bytes from index 0)").toList)) ∧
      (answer assorted rewriting "/b%61d.js".toList).body =
        some (.text (("Transform failed for /b%61d.js: source is not valid UTF-8 " ++
          "(invalid utf-8 sequence of 1 bytes from index 0)").toList)) ∧
      Url.toPath? rewriting.root "/*/\x60.vue".toList = some ⟨"app/*/\x60.vue".toList⟩ ∧
      Url.toPath? rewriting.root "/%2A/\x60.vue".toList = some ⟨"app/*/\x60.vue".toList⟩ ∧
      assorted.isFile ⟨"app/*/\x60.vue".toList⟩ ∧
      (answer assorted rewriting "/*/\x60.vue".toList).body ≠
        (answer assorted ⟨rewriting.root, false⟩ "/*/\x60.vue".toList).body ∧
      (answer assorted rewriting "/%2A/\x60.vue".toList).body =
        (answer assorted ⟨rewriting.root, false⟩ "/%2A/\x60.vue".toList).body := by
  refine ⟨?_, ?_, ?_, ?_, ?_, ?_, ?_, ?_, ?_, ?_⟩ <;> decide +kernel

end Unbundled
