import Mathlib.Tactic.Common
import Unbundled.Chain.Standard
import Unbundled.Proofs.Disk.Places

/-! # The standard chain, told directly

The stages of the standard chain ask for the file of a request one after the other, and a stage in
front of them changes what they have answered. All together they do one thing: look up what the path
leads to and reply with its content, in a way that the end of the path decides (`Route`). This module
tells the reply without stages (`reply?`) and shows that the chain gives it.

* `reply?_cases`: what a request path can lead to, and what the stages find there.
* `runStages_standard`: what the chain makes of any context.
* `serve_standard`: the answer to a request, its failures included. -/

namespace Unbundled

variable {σ : Type}

/-! ### Replies -/

/-- What a request is answered with. -/
structure Reply where
  status : Nat
  contentType : Text
  body : Body
  deriving DecidableEq, Repr

/-- A context with the reply in it. -/
def Context.replied (c : Context) (r : Reply) : Context :=
  { c with status := r.status, contentType := some r.contentType, body := some r.body }

/-- What the end of a request path says about it. -/
inductive Route
  | component
  | script
  | other
  deriving DecidableEq, Repr

/-- The route of a request path. -/
def routeOf (path : Text) : Route :=
  if Text.endsWith path componentSuffix then .component
  else if scriptSuffixes.any (Text.endsWith path) then .script
  else .other

/-- The reply to a request for a component: its module, or a module that reports why there is none. -/
def componentReply (disk : Disk) (settings : ChainSettings) (path : Text) (file : Path)
    (content : Bytes) : Reply :=
  let failure (fault : Fault) : Reply :=
    ⟨500, ContentType.javascript, .text (Component.failureModule fault.message)⟩
  match Utf8.decode content with
  | .error _ => failure (.read file .notText)
  | .ok source =>
    match Component.assemble path (Component.idOf path) source with
    | .error fault => failure (.component fault)
    | .ok code =>
      ⟨200, ContentType.javascript, .text <|
        if settings.rewriteComponentImports then
          (Import.rewriteSource disk settings.root code).code
        else code⟩

/-- The reply to a request for a script: the script with its imports rewritten, if it is a text. -/
def scriptReply (disk : Disk) (root : Path) (path : Text) (content : Bytes) : Reply :=
  match Utf8.decode content with
  | .ok source =>
    ⟨200, ContentType.javascript, .text (Import.rewriteSource disk root source).code⟩
  | .error fault =>
    ⟨500, ContentType.plainText, .text (Fault.transform path
      ("source is not valid UTF-8 (".toList ++ fault.message ++ [')'])).message⟩

/-- The reply to a request for any other file: its content, with the reload client if it is a page. -/
def fileReply (file : Path) (content : Bytes) : Reply :=
  ⟨200, ContentType.ofPath file,
    if ContentType.isHtml (ContentType.ofPath file) then
      match Utf8.decode content with
      | .ok page => .text (Reload.inject page)
      | .error _ => .raw content
    else .raw content⟩

/-- The reply to a request path that leads to a file. -/
def replyOf (disk : Disk) (settings : ChainSettings) (path : Text) (file : Path)
    (content : Bytes) : Reply :=
  match routeOf path with
  | .component => componentReply disk settings path file content
  | .script => scriptReply disk settings.root path content
  | .other => fileReply file content

/-- The reply to a request path, if there is one: a file is replied with, and a folder through its
index page. -/
def reply? (disk : Disk) (settings : ChainSettings) (path : Text) : Option Reply :=
  match Url.toPath? settings.root path with
  | none => none
  | some file =>
    match disk.node file with
    | .ok (.file content) => some (replyOf disk settings path file content)
    | .ok (.folder _) =>
      match disk.node (file.join indexFile) with
      | .ok (.file content) => some (fileReply (file.join indexFile) content)
      | _ => none
    | .error _ => none

/-- The answer to a request, told directly. -/
def direct (disk : Disk) (settings : ChainSettings) (target : Text) : Context :=
  let path := Url.pathPart target
  match reply? disk settings path with
  | none => ⟨path, 404, none, none⟩
  | some r => ⟨path, r.status, some r.contentType, some r.body⟩

variable {disk : Disk} {settings : ChainSettings} {root file : Path} {path : Text}
  {content : Bytes} {c d : Context} {next : Handler σ} {log log' : σ}

/-! ### Routes -/

theorem routeOf_eq_component_iff :
    routeOf path = .component ↔ Text.endsWith path componentSuffix := by
  unfold routeOf
  split_ifs <;> simp_all

/-- No path ends like a script and like a component. -/
theorem not_endsWith_componentSuffix (h : scriptSuffixes.any (Text.endsWith path)) :
    ¬ Text.endsWith path componentSuffix := by
  intro hc
  obtain ⟨e, he, hs⟩ := List.any_eq_true.mp h
  have hlength : ∀ e ∈ scriptSuffixes, e.length ≤ componentSuffix.length := by decide
  have hapart : ∀ e ∈ scriptSuffixes, ¬ e <:+ componentSuffix := by decide
  rw [Text.endsWith, List.isSuffixOf_iff_suffix] at hs hc
  exact hapart e he (List.suffix_of_suffix_length_le hs hc (hlength e he))

theorem routeOf_eq_script_iff :
    routeOf path = .script ↔ scriptSuffixes.any (Text.endsWith path) := by
  unfold routeOf
  split_ifs with hc hs
  · simpa using fun hs => not_endsWith_componentSuffix hs hc
  · simpa using hs
  · simpa using hs

theorem not_any_scriptSuffixes_of_routeOf (h : routeOf path = .other) :
    ¬ scriptSuffixes.any (Text.endsWith path) := by
  rw [← routeOf_eq_script_iff, h]
  simp

theorem isName_indexFile : Path.IsName indexFile :=
  ⟨by decide, by decide, by decide, by decide⟩

/-! ### What the stages find -/

theorem requestedFile?_of_file (hp : Url.toPath? root path = some file)
    (hn : disk.node file = .ok (.file content)) : requestedFile? disk root path = some file := by
  rw [requestedFile?, hp]
  exact if_pos (Disk.isFile_iff.mpr ⟨content, hn⟩)

theorem requestedFile?_eq_none
    (h : ∀ file, Url.toPath? root path = some file → ¬ disk.isFile file) :
    requestedFile? disk root path = none := by
  unfold requestedFile?
  cases hp : Url.toPath? root path with
  | none => rfl
  | some file => exact if_neg (h file hp)

theorem staticFile?_of_file (hp : Url.toPath? root path = some file)
    (hn : disk.node file = .ok (.file content)) : staticFile? disk root path = some file := by
  rw [staticFile?, hp]
  exact if_pos (Disk.isFile_iff.mpr ⟨content, hn⟩)

theorem staticFile?_of_folder {entries : List (Text × Node)}
    (hp : Url.toPath? root path = some file) (hn : disk.node file = .ok (.folder entries)) :
    staticFile? disk root path =
      if disk.isFile (file.join indexFile) then some (file.join indexFile) else none := by
  have hfile : ¬ disk.isFile file := by
    rw [Disk.isFile_iff, hn]
    simp
  have hfolder : disk.isFolder file = true := Disk.isFolder_iff.mpr ⟨entries, hn⟩
  rw [staticFile?, hp]
  dsimp only
  rw [if_neg hfile, hfolder, Bool.true_and]

theorem staticFile?_of_error {fault : Disk.Fault} (hp : Url.toPath? root path = some file)
    (hn : disk.node file = .error fault) : staticFile? disk root path = none := by
  have hfile : ¬ disk.isFile file := by
    rw [Disk.isFile_iff, hn]
    simp
  have hfolder : ¬ (disk.isFolder file && disk.isFile (file.join indexFile)) := by
    rw [Bool.and_eq_true, Disk.isFolder_iff, hn]
    simp
  rw [staticFile?, hp]
  dsimp only
  rw [if_neg hfile, if_neg hfolder]

/-! ### What there is to reply with -/

theorem reply?_of_file (hp : Url.toPath? settings.root path = some file)
    (hn : disk.node file = .ok (.file content)) :
    reply? disk settings path = some (replyOf disk settings path file content) := by
  rw [reply?, hp]
  dsimp only
  rw [hn]

theorem reply?_of_error {fault : Disk.Fault} (hp : Url.toPath? settings.root path = some file)
    (hn : disk.node file = .error fault) : reply? disk settings path = none := by
  rw [reply?, hp]
  dsimp only
  rw [hn]

theorem reply?_of_folder {entries : List (Text × Node)}
    (hp : Url.toPath? settings.root path = some file) (hn : disk.node file = .ok (.folder entries)) :
    reply? disk settings path =
      match disk.node (file.join indexFile) with
      | .ok (.file content) => some (fileReply (file.join indexFile) content)
      | _ => none := by
  rw [reply?, hp]
  dsimp only
  rw [hn]

/-- **The three things that can happen to a request path.** It leads to a file; it leads to a folder
with an index page, which only the last stage finds; or no stage finds anything. -/
theorem reply?_cases (disk : Disk) (settings : ChainSettings) (path : Text) :
    (∃ file content, Url.toPath? settings.root path = some file ∧
        disk.node file = .ok (.file content) ∧
        reply? disk settings path = some (replyOf disk settings path file content)) ∨
      (∃ (folder : Path) (content : Bytes), requestedFile? disk settings.root path = none ∧
        staticFile? disk settings.root path = some (folder.join indexFile) ∧
        disk.node (folder.join indexFile) = .ok (.file content) ∧
        reply? disk settings path = some (fileReply (folder.join indexFile) content)) ∨
      (requestedFile? disk settings.root path = none ∧
        staticFile? disk settings.root path = none ∧ reply? disk settings path = none) := by
  cases hp : Url.toPath? settings.root path with
  | none =>
    refine Or.inr (Or.inr ⟨requestedFile?_eq_none (by simp [hp]), ?_, ?_⟩)
    · rw [staticFile?, hp]
    · rw [reply?, hp]
  | some file =>
    cases hn : disk.node file with
    | error fault =>
      refine Or.inr (Or.inr ⟨?_, staticFile?_of_error hp hn, reply?_of_error hp hn⟩)
      exact requestedFile?_eq_none (by simp [hp, Disk.isFile_iff, hn])
    | ok node =>
      cases node with
      | file content => exact Or.inl ⟨file, content, rfl, hn, reply?_of_file hp hn⟩
      | folder entries =>
        have hno : requestedFile? disk settings.root path = none :=
          requestedFile?_eq_none (by simp [hp, Disk.isFile_iff, hn])
        have hstatic := staticFile?_of_folder hp hn
        have hreply := reply?_of_folder hp hn
        by_cases hi : disk.isFile (file.join indexFile)
        · obtain ⟨content, hindex⟩ := Disk.isFile_iff.mp hi
          rw [if_pos hi] at hstatic
          rw [hindex] at hreply
          exact Or.inr (Or.inl ⟨file, content, hno, hstatic, hindex, hreply⟩)
        · rw [if_neg hi] at hstatic
          refine Or.inr (Or.inr ⟨hno, hstatic, ?_⟩)
          rw [hreply]
          split
          · rename_i content hindex
            exact absurd (Disk.isFile_iff.mpr ⟨content, hindex⟩) hi
          · rfl

/-! ### What the stages reply -/

theorem readText_of_node (hn : disk.node file = .ok (.file content)) :
    disk.readText file = (Utf8.decode content).mapError fun _ => .notText := by
  rw [Disk.readText, Disk.read_of_node hn]
  rfl

theorem answerComponent_eq (hn : disk.node file = .ok (.file content)) :
    answerComponent disk settings file c =
      c.replied (componentReply disk settings c.path file content) := by
  unfold answerComponent Component.compileFile componentReply
  rw [readText_of_node hn]
  cases Utf8.decode content with
  | error fault => rfl
  | ok source =>
    dsimp only [Except.mapError]
    cases Component.assemble c.path (Component.idOf c.path) source <;> rfl

theorem answerScript_eq (hn : disk.node file = .ok (.file content)) :
    answerScript disk root file c = c.replied (scriptReply disk root c.path content) := by
  unfold answerScript readScript scriptReply
  rw [Disk.read_of_node hn]
  dsimp only
  cases Utf8.decode content <;> rfl

theorem injectClient_of_not_isHtml {r : Reply} (h : ContentType.isHtml r.contentType = false) :
    injectClient (c.replied r) = c.replied r := by
  have htype : (c.replied r).contentType.any ContentType.isHtml = false := h
  rw [injectClient, htype]
  rfl

theorem contentType_componentReply (disk : Disk) (settings : ChainSettings) (path : Text)
    (file : Path) (content : Bytes) :
    (componentReply disk settings path file content).contentType = ContentType.javascript := by
  unfold componentReply
  cases Utf8.decode content with
  | error fault => rfl
  | ok source =>
    dsimp only
    cases Component.assemble path (Component.idOf path) source <;> rfl

theorem injectClient_componentReply :
    injectClient (c.replied (componentReply disk settings path file content)) =
      c.replied (componentReply disk settings path file content) := by
  refine injectClient_of_not_isHtml ?_
  rw [contentType_componentReply]
  decide

theorem injectClient_scriptReply :
    injectClient (c.replied (scriptReply disk root path content)) =
      c.replied (scriptReply disk root path content) := by
  refine injectClient_of_not_isHtml ?_
  unfold scriptReply
  cases Utf8.decode content with
  | error fault => exact (by decide : ContentType.isHtml ContentType.plainText = false)
  | ok source => exact (by decide : ContentType.isHtml ContentType.javascript = false)

/-- A page gets the reload client after it has been served. -/
theorem injectClient_respond :
    injectClient (c.respond (ContentType.ofPath file) (.raw content)) =
      c.replied (fileReply file content) := by
  have htype : (c.respond (ContentType.ofPath file) (.raw content)).contentType.any
      ContentType.isHtml = ContentType.isHtml (ContentType.ofPath file) := rfl
  unfold injectClient fileReply
  rw [htype]
  cases ContentType.isHtml (ContentType.ofPath file) with
  | false => rfl
  | true =>
    dsimp only [Context.respond, Option.map, injectBody]
    cases Utf8.decode content <;> rfl

/-! ### What the stages do -/

theorem handle_componentStage (h : requestedFile? disk settings.root c.path = some file)
    (hr : routeOf c.path = .component) :
    (componentStage disk settings).handle next c log =
      ⟨.done, answerComponent disk settings file c, log⟩ := by
  unfold componentStage
  dsimp only
  rw [if_pos (routeOf_eq_component_iff.mp hr), h]

theorem handle_componentStage_next
    (h : requestedFile? disk settings.root c.path = none ∨ routeOf c.path ≠ .component) :
    (componentStage disk settings).handle next c log = next c log := by
  unfold componentStage
  dsimp only
  rcases h with h | h
  · rw [h]
    exact ite_self _
  · rw [if_neg (routeOf_eq_component_iff.not.mp h)]

theorem handle_scriptStage (h : requestedFile? disk root c.path = some file)
    (hr : routeOf c.path = .script) :
    (scriptStage disk root).handle next c log = ⟨.done, answerScript disk root file c, log⟩ := by
  unfold scriptStage
  dsimp only
  rw [if_pos (routeOf_eq_script_iff.mp hr), h]

theorem handle_scriptStage_next
    (h : requestedFile? disk root c.path = none ∨ routeOf c.path = .other) :
    (scriptStage disk root).handle next c log = next c log := by
  unfold scriptStage
  dsimp only
  rcases h with h | h
  · rw [h]
    exact ite_self _
  · rw [if_neg (not_any_scriptSuffixes_of_routeOf h)]

theorem handle_staticStage (h : staticFile? disk root c.path = some file)
    (hn : disk.node file = .ok (.file content)) :
    (staticStage disk root).handle next c log =
      ⟨.done, c.respond (ContentType.ofPath file) (.raw content), log⟩ := by
  unfold staticStage
  dsimp only
  rw [h]
  dsimp only
  rw [Disk.read_of_node hn]

theorem handle_staticStage_next (h : staticFile? disk root c.path = none) :
    (staticStage disk root).handle next c log = next c log := by
  unfold staticStage
  dsimp only
  rw [h]

/-! ### The chain -/

/-- The stages that serve files, in their order. -/
def fileStages (disk : Disk) (settings : ChainSettings) : List (Stage σ) :=
  [componentStage disk settings, scriptStage disk settings.root, staticStage disk settings.root]

theorem runStages_cons (stage : Stage σ) (rest : List (Stage σ)) :
    runStages (stage :: rest) = stage.handle (runStages rest) := rfl

theorem handle_htmlStage (h : next c log = ⟨.done, d, log'⟩) :
    htmlStage.handle next c log = ⟨.done, injectClient d, log'⟩ := by
  unfold htmlStage
  dsimp only
  rw [h]

theorem handle_boundary (h : next c log = ⟨.done, d, log'⟩) :
    boundary.handle next c log = ⟨.done, d, log'⟩ := by
  unfold boundary
  dsimp only
  rw [h]

/-- What the file stages answer without failing passes through the boundary, and a page gets the
reload client on its way. -/
theorem runStages_standard_of_done
    (h : runStages (fileStages disk settings) c log = ⟨.done, d, log'⟩) :
    runStages (standard disk settings) c log = ⟨.done, injectClient d, log'⟩ := by
  have hstages : (standard disk settings : List (Stage σ)) =
      boundary :: htmlStage :: fileStages disk settings := rfl
  simp only [hstages, runStages_cons]
  exact handle_boundary (handle_htmlStage h)

/-- Requests that do not lead to a file are left to the last stage. -/
theorem runStages_fileStages_of_no_file (h : requestedFile? disk settings.root c.path = none) :
    runStages (fileStages disk settings) c log =
      (staticStage disk settings.root).handle (runStages []) c log := by
  rw [fileStages, runStages_cons, handle_componentStage_next (Or.inl h), runStages_cons,
    handle_scriptStage_next (Or.inl h), runStages_cons]

theorem runStages_standard_of_file (hp : Url.toPath? settings.root c.path = some file)
    (hn : disk.node file = .ok (.file content)) :
    runStages (standard disk settings) c log =
      ⟨.done, c.replied (replyOf disk settings c.path file content), log⟩ := by
  have hfile := requestedFile?_of_file hp hn
  unfold replyOf
  cases hr : routeOf c.path with
  | component =>
    rw [runStages_standard_of_done (handle_componentStage hfile hr), answerComponent_eq hn,
      injectClient_componentReply]
  | script =>
    have hnext : runStages (fileStages disk settings) c log =
        ⟨.done, answerScript disk settings.root file c, log⟩ := by
      rw [fileStages, runStages_cons, handle_componentStage_next (Or.inr (by simp [hr])),
        runStages_cons, handle_scriptStage hfile hr]
    rw [runStages_standard_of_done hnext, answerScript_eq hn, injectClient_scriptReply]
  | other =>
    have hnext : runStages (fileStages disk settings) c log =
        ⟨.done, c.respond (ContentType.ofPath file) (.raw content), log⟩ := by
      rw [fileStages, runStages_cons, handle_componentStage_next (Or.inr (by simp [hr])),
        runStages_cons, handle_scriptStage_next (Or.inr hr), runStages_cons,
        handle_staticStage (staticFile?_of_file hp hn) hn]
    rw [runStages_standard_of_done hnext, injectClient_respond]

/-- **What the standard chain makes of a context.** It replies if the path leads to a file, or to a
folder with an index page. A context that gets no reply only has the reload client added to the page
that it holds already, if any. -/
theorem runStages_standard (disk : Disk) (settings : ChainSettings) (c : Context) (log : σ) :
    runStages (standard disk settings) c log =
      ⟨.done,
        match reply? disk settings c.path with
        | some r => c.replied r
        | none => injectClient c,
        log⟩ := by
  rcases reply?_cases disk settings c.path with
    ⟨file, content, hp, hn, hr⟩ | ⟨folder, content, hno, hstatic, hn, hr⟩ | ⟨hno, hstatic, hr⟩
  · rw [hr]
    exact runStages_standard_of_file hp hn
  · rw [hr]
    dsimp only
    rw [← injectClient_respond]
    refine runStages_standard_of_done ?_
    rw [runStages_fileStages_of_no_file hno, handle_staticStage hstatic hn]
  · rw [hr]
    refine runStages_standard_of_done ?_
    rw [runStages_fileStages_of_no_file hno, handle_staticStage_next hstatic]
    rfl

theorem serve_eq (disk : Disk) (settings : ChainSettings) (target : Text) (log : σ) :
    serve (standard disk settings) target log = ⟨.done, direct disk settings target, log⟩ := by
  have hpath : (Context.ofRequest target).path = Url.pathPart target := rfl
  rw [serve, runStages_standard, hpath, direct]
  cases reply? disk settings (Url.pathPart target) <;> rfl

theorem answer_eq_direct (disk : Disk) (settings : ChainSettings) (target : Text) :
    answer disk settings target = direct disk settings target := by
  rw [answer, serve_eq]

/-- **The standard chain gives the direct answer**, whatever log it passes on, and keeps the path of
the request. -/
theorem serve_standard (disk : Disk) (settings : ChainSettings) (target : Text) :
    (∀ log : σ, serve (standard disk settings) target log =
      ⟨.done, direct disk settings target, log⟩) ∧
      answer disk settings target = direct disk settings target ∧
      (answer disk settings target).path = Url.pathPart target := by
  have hanswer := answer_eq_direct disk settings target
  refine ⟨serve_eq disk settings target, hanswer, ?_⟩
  rw [hanswer, direct]
  cases reply? disk settings (Url.pathPart target) <;> rfl

end Unbundled
