import Unbundled.Proofs.Chain.Spelling

/-! # Scripts that are rewritten

Whether the imports of a script are rewritten is decided by the ending of the request path, and
whether a file is sent as a script by the extension of the file, in either case
(`ofPath_eq_javascript_iff`). The two are not the same: a script whose request path does not end like
one is sent as it is (`rewritten_iff`, `exists_unrewritten`). -/

namespace Unbundled

variable {disk : Disk} {settings : ChainSettings} {file : Path} {path target : Text}
  {content : Bytes} {r : Reply}

/-! ### Content types -/

theorem ofPath_eq_javascript_iff : ContentType.ofPath file = ContentType.javascript ↔
    ∃ e, file.extension? = some e ∧ Text.sameIgnoringCase "js".toList e := by
  have honly : ∀ x ∈ ContentType.known, x.2 = ContentType.javascript → x.1 = "js".toList := by
    decide
  unfold ContentType.ofPath
  cases file.extension? with
  | none =>
    refine iff_of_false (by decide) ?_
    rintro ⟨e, he, -⟩
    exact absurd he (by simp)
  | some e =>
    dsimp only
    constructor
    · intro h
      split at h
      · rename_i name type hfind
        have hname := honly _ (List.mem_of_find?_eq_some hfind) h
        have hsame := List.find?_some hfind
        dsimp only at hname hsame
        exact ⟨e, rfl, hname ▸ hsame⟩
      · exact absurd h (by decide)
    · rintro ⟨e', he, hsame⟩
      obtain rfl := Option.some.inj he
      have hlower : Text.lowerAscii e = Text.lowerAscii "js".toList := (beq_iff_eq.mp hsame).symm
      simp only [Text.sameIgnoringCase, hlower]
      rfl

theorem ofPath_join_indexFile (folder : Path) :
    ContentType.ofPath (folder.join indexFile) = ContentType.html := by
  have hextension : (folder.join indexFile).extension? = some "html".toList := by
    rw [Path.extension?, Path.fileName?_join folder isName_indexFile]
    rfl
  rw [ContentType.ofPath, hextension]
  rfl

/-! ### Replies with a script -/

/-- An answer other than `404` is a reply. -/
theorem exists_reply_of_status (h : (answer disk settings target).status = 200) :
    ∃ r, reply? disk settings (Url.pathPart target) = some r ∧
      answer disk settings target = (Context.ofRequest target).replied r := by
  rw [answer_eq_direct, direct] at h ⊢
  cases hr : reply? disk settings (Url.pathPart target) with
  | none =>
    rw [hr] at h
    exact absurd h (by simp)
  | some r => exact ⟨r, rfl, rfl⟩

/-- A script is never an index page. -/
theorem exists_file_of_reply (h : reply? disk settings path = some r)
    (ht : r.contentType = ContentType.javascript) :
    ∃ file content, Url.toPath? settings.root path = some file ∧
      disk.node file = .ok (.file content) ∧ r = replyOf disk settings path file content := by
  rcases reply?_cases disk settings path with
    ⟨file, content, hp, hn, hr⟩ | ⟨folder, content, -, -, -, hr⟩ | ⟨-, -, hr⟩
  · rw [hr] at h
    exact ⟨file, content, hp, hn, (Option.some.inj h).symm⟩
  · rw [hr] at h
    obtain rfl := Option.some.inj h
    have htype : ContentType.html = ContentType.javascript := ofPath_join_indexFile folder ▸ ht
    exact absurd htype (by decide)
  · rw [hr] at h
    exact absurd h (by simp)

theorem exists_source_of_scriptReply {root : Path}
    (h : (scriptReply disk root path content).status = 200) :
    ∃ source, Utf8.decode content = .ok source ∧
      (scriptReply disk root path content).body =
        .text (Import.rewriteSource disk root source).code := by
  unfold scriptReply at h ⊢
  cases hd : Utf8.decode content with
  | ok source => exact ⟨source, rfl, rfl⟩
  | error fault =>
    rw [hd] at h
    exact absurd h (by simp)

theorem fileReply_of_javascript (h : ContentType.ofPath file = ContentType.javascript) :
    (fileReply file content).body = .raw content := by
  unfold fileReply
  rw [h]
  rfl

/-- Whether the bytes of a body are those of a file with its imports rewritten. -/
def Body.IsRewritten (disk : Disk) (root : Path) (content : Bytes) (b : Body) : Prop :=
  ∃ source, Utf8.decode content = .ok source ∧
    b.content = Text.encode (Import.rewriteSource disk root source).code

/-- The bytes of the file itself are rewritten only if there is nothing to rewrite. -/
theorem isRewritten_raw_iff {root : Path} : (Body.raw content).IsRewritten disk root content ↔
    ∃ source, Utf8.decode content = .ok source ∧
      (Import.rewriteSource disk root source).code = source := by
  refine exists_congr fun source => and_congr_right fun hd => ?_
  rw [Body.content, Utf8.decode_eq_ok_iff.mp hd]
  exact ⟨fun h => (Utf8.encode_inj h).symm, fun h => by rw [h]⟩

/-- **Which scripts are rewritten.** Of what is sent as a script and is no component, it is what has
been requested by a path with the ending of a script, and what nothing needs to be rewritten in. All
the rest is sent as it is, because the file found has the extension of a script, in either case. -/
theorem rewritten_iff (hs : (answer disk settings target).status = 200)
    (ht : (answer disk settings target).contentType = some ContentType.javascript)
    (hc : ¬ (routeOf (Url.pathPart target) = .component ∧
      ∃ file, Url.toPath? settings.root target = some file ∧ disk.isFile file)) :
    ∃ file content body, Url.toPath? settings.root target = some file ∧
      disk.read file = .ok content ∧ (answer disk settings target).body = some body ∧
      (body.IsRewritten disk settings.root content ↔
        routeOf (Url.pathPart target) = .script ∨
          ∃ source, Utf8.decode content = .ok source ∧
            (Import.rewriteSource disk settings.root source).code = source) ∧
      (routeOf (Url.pathPart target) ≠ .script → body = .raw content ∧
        ∃ e, file.extension? = some e ∧ Text.sameIgnoringCase "js".toList e) := by
  obtain ⟨r, hr, ha⟩ := exists_reply_of_status hs
  rw [ha] at hs ht
  obtain ⟨file, content, hp, hn, rfl⟩ := exists_file_of_reply hr (Option.some.inj ht)
  rw [Url.toPath?_pathPart] at hp
  rw [ha]
  refine ⟨file, content, _, hp, Disk.read_of_node hn, rfl, ?_⟩
  have hs' : (replyOf disk settings (Url.pathPart target) file content).status = 200 := hs
  have ht' := Option.some.inj ht
  unfold replyOf at hs' ht' ⊢
  cases hroute : routeOf (Url.pathPart target) with
  | component => exact absurd ⟨hroute, file, hp, Disk.isFile_iff.mpr ⟨content, hn⟩⟩ hc
  | script =>
    rw [hroute] at hs'
    obtain ⟨source, hd, hbody⟩ := exists_source_of_scriptReply hs'
    refine ⟨iff_of_true ⟨source, hd, ?_⟩ (Or.inl rfl), fun hne => absurd rfl hne⟩
    dsimp only
    rw [hbody, Body.content]
  | other =>
    rw [hroute] at ht'
    dsimp only
    rw [fileReply_of_javascript ht', isRewritten_raw_iff]
    refine ⟨(or_iff_right (by simp)).symm, fun _ => ⟨rfl, ofPath_eq_javascript_iff.mp ht'⟩⟩

/-- A script that is requested by its name is rewritten. -/
theorem rewritten_iff_assorted :
    (answer assorted rewriting "/main.js".toList).status = 200 ∧
      (answer assorted rewriting "/main.js".toList).contentType = some ContentType.javascript ∧
      ∃ file content body, Url.toPath? rewriting.root "/main.js".toList = some file ∧
        assorted.read file = .ok content ∧
        (answer assorted rewriting "/main.js".toList).body = some body ∧
        body.IsRewritten assorted rewriting.root content := by
  have hs : (answer assorted rewriting "/main.js".toList).status = 200 := by decide +kernel
  have ht : (answer assorted rewriting "/main.js".toList).contentType =
      some ContentType.javascript := by decide +kernel
  have hr : routeOf (Url.pathPart "/main.js".toList) = .script := by decide
  have hc : routeOf (Url.pathPart "/main.js".toList) ≠ .component := by decide
  obtain ⟨file, content, body, hp, hread, hb, hiff, -⟩ := rewritten_iff hs ht fun h => hc h.1
  exact ⟨hs, ht, file, content, body, hp, hread, hb, hiff.mpr (Or.inl hr)⟩

/-- A script is sent with its imports as they are if its ending is escaped in the request path, or has
a slash after it, or is in upper case. -/
theorem exists_unrewritten :
    (Import.rewriteSource assorted rewriting.root "import 'x/y'".toList).code =
        "import \"/node_modules/x/y.js\"".toList ∧
      ∀ target ∈ ["/main%2Ejs", "/main.js/", "/MAIN.JS"].map String.toList,
        (answer assorted rewriting target).status = 200 ∧
          (answer assorted rewriting target).contentType = some ContentType.javascript ∧
          routeOf (Url.pathPart target) ≠ .component ∧
          (Url.toPath? rewriting.root target).map assorted.read =
            some (.ok (Text.encode "import 'x/y'".toList)) ∧
          (answer assorted rewriting target).body =
            some (.raw (Text.encode "import 'x/y'".toList)) := by
  constructor
  · decide +kernel
  · decide +kernel

end Unbundled
