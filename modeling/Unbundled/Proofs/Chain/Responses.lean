import Unbundled.Http
import Unbundled.Proofs.Chain.Direct
import Unbundled.Proofs.Text.Utf8
import Unbundled.Proofs.Url.Requests

/-! # Responses

The chain either leaves a request as it came, without a body and a content type, or puts both into it
together with a status (`Settled`). So only two of the forms of a response occur: the message
that nothing was found, and the content that the chain has found, a text in UTF-8 and bytes as they
are (`Http.Responds`).

* `Http.pathPart_pathOf`: the chain is given a path without query and fragment.
* `settled_answer`: what the chain leaves behind.
* `Http.handle_responds`: the response to a request. -/

namespace Unbundled

variable {disk : Disk} {settings : ChainSettings} {path target : Text} {file : Path}
  {content : Bytes} {r : Reply} {c : Context}

/-! ### Replies -/

/-- The ends of the paths that a failure can be the answer to. -/
def failingSuffixes : List Text := [".vue", ".js", ".mjs"].map String.toList

theorem any_failingSuffixes_iff :
    failingSuffixes.any (Text.endsWith path) ↔ routeOf path ≠ .other := by
  have hsuffixes : failingSuffixes = componentSuffix :: scriptSuffixes := by decide
  rw [hsuffixes, List.any_cons, Bool.or_eq_true, ← routeOf_eq_component_iff, ← routeOf_eq_script_iff]
  cases routeOf path <;> simp

theorem status_componentReply (disk : Disk) (settings : ChainSettings) (path : Text) (file : Path)
    (content : Bytes) : (componentReply disk settings path file content).status = 200 ∨
      (componentReply disk settings path file content).status = 500 := by
  unfold componentReply
  cases Utf8.decode content with
  | error fault => exact Or.inr rfl
  | ok source =>
    dsimp only
    cases Component.assemble path (Component.idOf path) source with
    | error fault => exact Or.inr rfl
    | ok code => exact Or.inl rfl

theorem status_scriptReply (disk : Disk) (root : Path) (path : Text) (content : Bytes) :
    (scriptReply disk root path content).status = 200 ∨
      (scriptReply disk root path content).status = 500 := by
  unfold scriptReply
  cases Utf8.decode content with
  | error fault => exact Or.inr rfl
  | ok source => exact Or.inl rfl

/-- A request path that leads to a file and ends like that of a component or of a script. -/
def CanFail (disk : Disk) (settings : ChainSettings) (path : Text) : Prop :=
  failingSuffixes.any (Text.endsWith path) ∧
    ∃ file, Url.toPath? settings.root path = some file ∧ disk.isFile file

/-- **A reply is a success**, or a failure to serve a component or a script. -/
theorem status_of_reply (h : reply? disk settings path = some r) :
    r.status = 200 ∨ r.status = 500 ∧ CanFail disk settings path := by
  rcases reply?_cases disk settings path with
    ⟨file, content, hp, hn, hr⟩ | ⟨folder, content, -, -, -, hr⟩ | ⟨-, -, hr⟩
  · obtain rfl := Option.some.inj (hr.symm.trans h)
    have hfile := Disk.isFile_iff.mpr ⟨content, hn⟩
    rw [CanFail, any_failingSuffixes_iff]
    unfold replyOf
    cases routeOf path with
    | component =>
      exact (status_componentReply disk settings path file content).imp_right
        fun hs => ⟨hs, by simp, file, hp, hfile⟩
    | script =>
      exact (status_scriptReply disk settings.root path content).imp_right
        fun hs => ⟨hs, by simp, file, hp, hfile⟩
    | other => exact Or.inl rfl
  · obtain rfl := Option.some.inj (hr.symm.trans h)
    exact Or.inl rfl
  · exact absurd (hr.symm.trans h) (by simp)

/-! ### What the chain leaves behind -/

/-- **What a request is left as**: as it came, or with a status, a content type and a body. -/
inductive Settled (disk : Disk) (settings : ChainSettings) (path : Text) : Context → Prop
  | untouched : Settled disk settings path ⟨path, 404, none, none⟩
  | served (type : Text) (body : Body) : Settled disk settings path ⟨path, 200, some type, some body⟩
  | failed (type : Text) (body : Body) : CanFail disk settings path →
      Settled disk settings path ⟨path, 500, some type, some body⟩

theorem settled_answer (disk : Disk) (settings : ChainSettings) (target : Text) :
    Settled disk settings (Url.pathPart target) (answer disk settings target) := by
  rw [answer_eq_direct, direct]
  cases hr : reply? disk settings (Url.pathPart target) with
  | none => exact .untouched
  | some r =>
    dsimp only
    rcases status_of_reply hr with hs | ⟨hs, hfail⟩
    · rw [hs]
      exact .served r.contentType r.body
    · rw [hs]
      exact .failed r.contentType r.body hfail

namespace Http

/-! ### Responses -/

/-- The path of a target has no query and no fragment. -/
theorem pathPart_pathOf (target : Text) : Url.pathPart (pathOf target) = pathOf target := by
  unfold pathOf
  cases afterHost? target with
  | some rest =>
    dsimp only
    split
    · rfl
    · exact Url.pathPart_pathPart rest
  | none =>
    dsimp only
    split
    · exact Url.pathPart_pathPart _
    · rfl
    · rfl

/-- **What a response tells about the context** that the chain has left. -/
structure Responds (disk : Disk) (settings : ChainSettings) (path : Text) (c : Context)
    (r : Response) : Prop where
  status_eq : r.status = c.status
  status : r.status = 200 ∨ r.status = 404 ∨ r.status = 500
  missing_iff : r.status = 404 ↔ c.body = none ∧ c.contentType = none
  missing : r.status = 404 → r = ⟨404, "text/plain".toList, none,
    ("Not Found: ".toList ++ path).flatMap String.utf8EncodeChar⟩
  found : r.status ≠ 404 →
    c.body ≠ none ∧ c.contentType = some r.contentType ∧ r.cacheControl = some "no-cache".toList
  text : ∀ t, c.body = some (.text t) → r.body = t.flatMap String.utf8EncodeChar
  raw : ∀ content, c.body = some (.raw content) → r.body = content
  failed : r.status = 500 → (∃ suffix ∈ [".vue", ".js", ".mjs"].map String.toList, suffix <:+ path) ∧
    ∃ file, Url.toPath? settings.root path = some file ∧ disk.isFile file

theorem respond_untouched (path : Text) :
    respond ⟨path, 404, none, none⟩ = ⟨404, "text/plain".toList, none,
      ("Not Found: ".toList ++ path).flatMap String.utf8EncodeChar⟩ := by
  rw [← Utf8.encode_eq]
  rfl

theorem respond_of_body {status : Nat} (hs : statusOf status = status) (path type : Text)
    (body : Body) : respond ⟨path, status, some type, some body⟩ =
      ⟨status, type, some "no-cache".toList, body.content⟩ := by
  rw [respond, hs]
  rfl

theorem exists_suffix_of_canFail (h : CanFail disk settings path) :
    ∃ suffix ∈ failingSuffixes, suffix <:+ path := by
  obtain ⟨suffix, hmem, hends⟩ := List.any_eq_true.mp h.1
  exact ⟨suffix, hmem, List.isSuffixOf_iff_suffix.mp hends⟩

/-- A context with a status, a content type and a body responds with them. -/
theorem responds_of_body {status : Nat} (type : Text) (body : Body)
    (hs : status = 200 ∨ status = 500 ∧ CanFail disk settings path) :
    Responds disk settings path ⟨path, status, some type, some body⟩
      (respond ⟨path, status, some type, some body⟩) := by
  have hstatus : statusOf status = status ∧ status ≠ 404 := by
    rcases hs with rfl | ⟨rfl, -⟩ <;> decide
  rw [respond_of_body hstatus.1]
  exact
    { status_eq := rfl
      status := hs.imp_right fun h => Or.inr h.1
      missing_iff := iff_of_false hstatus.2 (by simp)
      missing := fun h => absurd h hstatus.2
      found := fun _ => ⟨by simp, rfl, rfl⟩
      text := by
        rintro t ⟨⟩
        exact Utf8.encode_eq t
      raw := by
        rintro content ⟨⟩
        rfl
      failed := by
        rintro (rfl : status = 500)
        obtain ⟨-, hfail⟩ := hs.resolve_left (by decide)
        exact ⟨exists_suffix_of_canFail hfail, hfail.2⟩ }

theorem responds_of_settled (h : Settled disk settings path c) :
    Responds disk settings path c (respond c) := by
  cases h with
  | untouched =>
    rw [respond_untouched]
    exact
      { status_eq := rfl
        status := Or.inr (Or.inl rfl)
        missing_iff := iff_of_true rfl ⟨rfl, rfl⟩
        missing := fun _ => rfl
        found := fun h => absurd rfl h
        text := fun t h => absurd h (by simp)
        raw := fun content h => absurd h (by simp)
        failed := fun h => absurd h (by simp) }
  | served type body => exact responds_of_body type body (Or.inl rfl)
  | failed type body hfail => exact responds_of_body type body (Or.inr ⟨rfl, hfail⟩)

/-- **The response to a request.** It has the status that the chain has left, which is one of three. With
`404`, nothing is in the context and the response says so; otherwise the response is what is in the
context, both a content type and a body, byte by byte. A failure is about a component or a script that
is there. -/
theorem handle_responds (disk : Disk) (settings : ChainSettings) (target : Text) :
    Responds disk settings (pathOf target) (answer disk settings (pathOf target))
      (handle disk settings target) := by
  have hsettled := settled_answer disk settings (pathOf target)
  rw [pathPart_pathOf] at hsettled
  exact responds_of_settled hsettled

/-- A script with a character of two bytes, and bytes that are no text. -/
def bilingual : Disk where
  top := .folder [("a.js".toList, .file [0x27, 0xC3, 0xA9, 0x27]), ("b.bin".toList, .file [0xFF, 0])]
  workingFolder := []
  library := .silent

/-- A file that is served as a text and one that is served as it is come over with their bytes, and
what is not there is named. -/
theorem handle_responds_bilingual :
    let response := handle bilingual ⟨⟨"/".toList⟩, true⟩
    (response "/a.js".toList).status = 200 ∧
      (response "/a.js?t".toList).body = [0x27, 0xC3, 0xA9, 0x27] ∧
      (response "/b.bin".toList).body = [0xFF, 0] ∧
      response "/c".toList =
        ⟨404, "text/plain".toList, none, "Not Found: /c".toList.flatMap String.utf8EncodeChar⟩ := by
  intro response
  have h := handle_responds bilingual ⟨⟨"/".toList⟩, true⟩
  refine ⟨?_, ?_, ?_, ?_⟩
  · exact (h "/a.js".toList).status_eq.trans (by decide +kernel)
  · exact (h "/a.js?t".toList).text "'é'".toList (by decide +kernel)
  · exact (h "/b.bin".toList).raw [0xFF, 0] (by decide +kernel)
  · exact (h "/c".toList).missing
      ((h "/c".toList).missing_iff.mpr ⟨by decide +kernel, by decide +kernel⟩)

end Http

end Unbundled
