import Unbundled.Chain.Probe
import Unbundled.Proofs.Chain.Direct
import Unbundled.Proofs.Chain.Wording

/-! # Failures on their way back

A failure or a crash leaves the stages of a chain one after the other, the last one first, until a
boundary turns it into an answer. The stages in front of the boundary see this answer and not the
failure.

* `serve_boundary`: whatever the stages behind a boundary do, the chain comes to its end, with what
  they have made of the request or with their failure as the answer.
* `serve_chain`: what recorders in front of a last stage log, wherever the boundaries stand between
  them. -/

namespace Unbundled

variable {σ : Type}

/-! ### Boundaries -/

/-- The wording of a failure or a crash. -/
def Finish.message? : Finish → Option Text
  | done => none
  | failed fault => some fault.message
  | crashed payload => some payload.describe

theorem Finish.words_iff {f : Finish} {t : Text} : f.Words t ↔ f.message? = some t := by
  constructor
  · intro h
    cases h with
    | failed h => exact congrArg some (Fault.words_iff.mp h)
    | crashed | unknown => rfl
  · intro h
    rcases f with _ | fault | t | _
    · exact absurd h (by simp [message?])
    · exact .failed (Fault.words_iff.mpr (Option.some.inj h))
    · exact Option.some.inj h ▸ .crashed t
    · exact Option.some.inj h ▸ .unknown

theorem Finish.message?_eq_none_iff {f : Finish} : f.message? = none ↔ f = .done := by
  cases f <;> simp [message?]

theorem Finish.Words.unique {f : Finish} {t u : Text} (ht : f.Words t) (hu : f.Words u) : t = u :=
  Option.some.inj ((words_iff.mp ht).symm.trans (words_iff.mp hu))

/-- A stage that does not come to its end says why. -/
theorem Finish.exists_words {f : Finish} (h : f ≠ .done) : ∃ t, f.Words t := by
  obtain ⟨t, ht⟩ := Option.ne_none_iff_exists'.mp (mt message?_eq_none_iff.mp h)
  exact ⟨t, words_iff.mpr ht⟩

/-- What comes back from a boundary, given what comes back from behind it. -/
def Outcome.contained (out : Outcome σ) : Outcome σ :=
  match out.finish.message? with
  | none => out
  | some message => ⟨.done, out.context.failInternal message, out.log⟩

theorem Outcome.contained_of_done {out : Outcome σ} (h : out.finish = .done) :
    out.contained = out := by
  rw [contained, Finish.message?_eq_none_iff.mpr h]

theorem Outcome.contained_of_message {out : Outcome σ} {message : Text}
    (h : out.finish.message? = some message) :
    out.contained = ⟨.done, out.context.failInternal message, out.log⟩ := by
  rw [contained, h]

theorem Outcome.finish_contained (out : Outcome σ) : out.contained.finish = .done := by
  cases h : out.finish.message? with
  | none =>
    have hdone := Finish.message?_eq_none_iff.mp h
    rw [contained_of_done hdone, hdone]
  | some message => rw [contained_of_message h]

theorem Outcome.log_contained (out : Outcome σ) : out.contained.log = out.log := by
  cases h : out.finish.message? with
  | none => rw [contained_of_done (Finish.message?_eq_none_iff.mp h)]
  | some message => rw [contained_of_message h]

theorem runStages_boundary (rest : List (Stage σ)) (c : Context) (log : σ) :
    runStages (boundary :: rest) c log = (runStages rest c log).contained := by
  rw [runStages_cons, Outcome.contained]
  unfold boundary
  dsimp only
  cases (runStages rest c log).finish <;> rfl

/-- A boundary comes to its end. -/
theorem finish_boundary (rest : List (Stage σ)) (c : Context) (log : σ) :
    (runStages (boundary :: rest) c log).finish = .done := by
  rw [runStages_boundary, Outcome.finish_contained]

theorem serve_of_done {stages : List (Stage σ)} {target : Text} {log : σ}
    (h : (runStages stages (Context.ofRequest target) log).finish = .done) :
    serve stages target log = runStages stages (Context.ofRequest target) log := by
  rw [serve, h]

/-- **A boundary in front of any stages.** The chain neither fails nor crashes, from whatever context
it starts, and the log stays as the stages behind the boundary have left it. If these come to their
end, so does the context; if not, their failure in words is the answer, in place of any answer that
they had given, and the path is the one that they had left. -/
theorem serve_boundary (rest : List (Stage σ)) :
    (∀ c log, (runStages (boundary :: rest) c log).finish = .done) ∧
      ∀ target log,
        let out := runStages rest (Context.ofRequest target) log
        let served := serve (boundary :: rest) target log
        served.finish = .done ∧ served.log = out.log ∧
          (out.finish = .done → served.context = out.context) ∧
          (out.finish ≠ .done → ∃ t, out.finish.Words t ∧
            served.context = ⟨out.context.path, 500, some "text/plain".toList, some (.text t)⟩) := by
  refine ⟨finish_boundary rest, fun target log => ?_⟩
  intro out served
  have hserved : served = out.contained := by
    rw [← runStages_boundary]
    exact serve_of_done (finish_boundary rest _ _)
  rw [hserved]
  refine ⟨out.finish_contained, out.log_contained, fun h => ?_, fun h => ?_⟩
  · rw [Outcome.contained_of_done h]
  · obtain ⟨t, ht⟩ := Finish.exists_words h
    refine ⟨t, ht, ?_⟩
    rw [Outcome.contained_of_message (Finish.words_iff.mp ht)]
    rfl

/-- A stage answers, and the next one fails or crashes: in place of the answer there are the words of
the failure, with what a library says in them, or those of the crash. -/
theorem serve_boundary_partial :
    let answered (last : Probe) := (serve [boundary,
      (Probe.respondThenNext "text/html".toList (.text "<p>".toList)).stage, last.stage]
        "/a?b".toList []).context
    answered (.raise (.transform "/a".toList "disk on fire".toList)) =
        ⟨"/a".toList, 500, some "text/plain".toList,
          some (.text "Transform failed for /a: disk on fire".toList)⟩ ∧
      answered (.raise (.package (.badManifest ⟨"/x".toList⟩ "no object".toList))) =
        ⟨"/a".toList, 500, some "text/plain".toList,
          some (.text "invalid package manifest /x: no object".toList)⟩ ∧
      answered (.crash (.message "index out of bounds".toList)) =
        ⟨"/a".toList, 500, some "text/plain".toList,
          some (.text "panic: index out of bounds".toList)⟩ ∧
      answered (.crash .unknown) =
        ⟨"/a".toList, 500, some "text/plain".toList, some (.text "panic: unknown panic".toList)⟩ := by
  intro answered
  have hanswered (last : Probe) := ((serve_boundary
    [(Probe.respondThenNext "text/html".toList (.text "<p>".toList)).stage, last.stage]).2
      "/a?b".toList []).2.2.2
  refine ⟨?_, ?_, ?_, ?_⟩
  · obtain ⟨t, ht, hc⟩ :=
      hanswered (.raise (.transform "/a".toList "disk on fire".toList)) (by decide)
    obtain rfl := ht.unique (.failed (.transform _ _))
    exact hc
  · obtain ⟨t, ht, hc⟩ :=
      hanswered (.raise (.package (.badManifest ⟨"/x".toList⟩ "no object".toList))) (by decide)
    obtain rfl := ht.unique (.failed (.package (.badManifest _ _)))
    exact hc
  · obtain ⟨t, ht, hc⟩ := hanswered (.crash (.message "index out of bounds".toList)) (by decide)
    obtain rfl := ht.unique (.crashed _)
    exact hc
  · obtain ⟨t, ht, hc⟩ := hanswered (.crash .unknown) (by decide)
    obtain rfl := ht.unique .unknown
    exact hc

/-! ### Recorders -/

/-- A stage in front of the last one. -/
inductive Layer
  | recorder (name : Text)
  | boundary
  deriving DecidableEq, Repr

/-- A layer as a stage. -/
def Layer.stage : Layer → Stage Lines
  | recorder name => (Probe.record name).stage
  | boundary => Unbundled.boundary

/-- What a last stage does: how it ends, and what it has made of the context by then. -/
structure Ending where
  finish : Finish
  change : Context → Context

/-- An ending as a stage. It runs nothing behind it and logs nothing. -/
def Ending.stage (last : Ending) : Stage Lines where
  name := "scripted".toList
  handle _ c log := ⟨last.finish, last.change c, log⟩

/-- The chain of some layers and a last stage. -/
def chain (layers : List Layer) (last : Ending) : List (Stage Lines) :=
  layers.map Layer.stage ++ [last.stage]

/-- The names of the recorders, in their order. -/
def recorders (layers : List Layer) : List Text :=
  layers.filterMap fun
    | .recorder name => some name
    | .boundary => none

/-- What the recorders log while a request passes them. -/
def passed (layers : List Layer) (c : Context) : Lines :=
  (recorders layers).map fun name => Probe.entry name "before".toList c

/-- What the recorders log while an answer comes back through them. -/
def returned (layers : List Layer) (c : Context) : Lines :=
  (recorders layers).reverse.map fun name => Probe.entry name "after".toList c

/-- The layers up to the last boundary: a failure behind all of them does not come through to them. -/
def shielded : List Layer → List Layer
  | [] => []
  | layer :: rest => if .boundary ∈ layer :: rest then layer :: shielded rest else []

variable {layers : List Layer} {last : Ending} {name : Text} {c d : Context} {log log' : Lines}

@[simp] theorem passed_nil : passed [] c = [] := rfl

@[simp] theorem returned_nil : returned [] c = [] := rfl

@[simp] theorem passed_recorder :
    passed (.recorder name :: layers) c = Probe.entry name "before".toList c :: passed layers c :=
  rfl

@[simp] theorem passed_boundary : passed (.boundary :: layers) c = passed layers c := rfl

@[simp] theorem returned_recorder :
    returned (.recorder name :: layers) c =
      returned layers c ++ [Probe.entry name "after".toList c] := by
  have hnames : recorders (.recorder name :: layers) = name :: recorders layers := rfl
  rw [returned, hnames, List.reverse_cons, List.map_append]
  rfl

@[simp] theorem returned_boundary : returned (.boundary :: layers) c = returned layers c := rfl

theorem passed_ofRequest (layers : List Layer) (target : Text) :
    passed layers (Context.ofRequest target) =
      (recorders layers).map (· ++ " before 404".toList) := by
  have hstatus : Text.ofNat 404 = "404".toList := by decide
  refine List.map_congr_left fun name _ => ?_
  rw [Probe.entry, List.append_assoc, Context.ofRequest, hstatus]
  rfl

theorem returned_eq (layers : List Layer) (c : Context) :
    returned layers c = (recorders layers).reverse.map
      (· ++ " after ".toList ++ Nat.toDigits 10 c.status) := by
  refine List.map_congr_left fun name _ => ?_
  rw [Probe.entry, List.append_assoc, List.append_assoc]
  rfl

theorem returned_failInternal (layers : List Layer) (c : Context) (t : Text) :
    returned layers (c.failInternal t) =
      (recorders layers).reverse.map (· ++ " after 500".toList) := by
  have hstatus : Nat.toDigits 10 500 = "500".toList := by decide
  rw [returned_eq]
  refine List.map_congr_left fun name _ => ?_
  rw [Context.failInternal, Context.fail, List.append_assoc, hstatus]
  rfl

theorem shielded_of_mem {layer : Layer} (h : .boundary ∈ layer :: layers) :
    shielded (layer :: layers) = layer :: shielded layers := if_pos h

theorem shielded_of_not_mem (h : .boundary ∉ layers) : shielded layers = [] := by
  cases layers with
  | nil => rfl
  | cons layer layers => exact if_neg h

theorem handle_recorder {next : Handler Lines}
    (h : next c (log ++ [Probe.entry name "before".toList c]) = ⟨.done, d, log'⟩) :
    (Layer.recorder name).stage.handle next c log =
      ⟨.done, d, log' ++ [Probe.entry name "after".toList d]⟩ := by
  unfold Layer.stage Probe.stage Probe.handle
  dsimp only
  rw [h]

/-- A recorder does not see a failure come back. -/
theorem handle_recorder_of_message {next : Handler Lines} {message : Text} {out : Outcome Lines}
    (h : next c (log ++ [Probe.entry name "before".toList c]) = out)
    (hm : out.finish.message? = some message) :
    (Layer.recorder name).stage.handle next c log = out := by
  unfold Layer.stage Probe.stage Probe.handle
  dsimp only
  rw [h]
  cases hf : out.finish with
  | done => exact absurd hm (by simp [hf, Finish.message?])
  | failed fault => rfl
  | crashed payload => rfl

theorem runStages_last (last : Ending) (c : Context) (log : Lines) :
    runStages (chain [] last) c log = ⟨last.finish, last.change c, log⟩ := rfl

theorem runStages_layer (layer : Layer) (layers : List Layer) (last : Ending) :
    runStages (chain (layer :: layers) last) =
      layer.stage.handle (runStages (chain layers last)) := rfl

theorem runStages_chain_boundary (layers : List Layer) (last : Ending) (c : Context) (log : Lines) :
    runStages (chain (.boundary :: layers) last) c log =
      (runStages (chain layers last) c log).contained :=
  runStages_boundary (chain layers last) c log

/-- If the last stage comes to its end, all recorders log twice. -/
theorem runStages_chain_of_done (h : last.finish = .done) (layers : List Layer) (c : Context)
    (log : Lines) :
    runStages (chain layers last) c log =
      ⟨.done, last.change c, log ++ passed layers c ++ returned layers (last.change c)⟩ := by
  induction layers generalizing log with
  | nil => rw [runStages_last, h, passed_nil, returned_nil, List.append_nil, List.append_nil]
  | cons layer layers ih =>
    cases layer with
    | recorder name =>
      rw [runStages_layer, handle_recorder (ih _), passed_recorder, returned_recorder]
      simp only [List.append_assoc, List.cons_append, List.nil_append]
    | boundary =>
      rw [runStages_chain_boundary, ih, Outcome.contained_of_done rfl, passed_boundary,
        returned_boundary]

variable {message : Text}

/-- A failure behind layers without a boundary comes through all of them. -/
theorem runStages_chain_of_not_mem (hm : last.finish.message? = some message)
    (h : .boundary ∉ layers) (c : Context) (log : Lines) :
    runStages (chain layers last) c log =
      ⟨last.finish, last.change c, log ++ passed layers c⟩ := by
  induction layers generalizing log with
  | nil => rw [runStages_last, passed_nil, List.append_nil]
  | cons layer layers ih =>
    cases layer with
    | recorder name =>
      have hrest : .boundary ∉ layers := fun hb => h (List.mem_cons_of_mem _ hb)
      rw [runStages_layer, handle_recorder_of_message (ih hrest _) hm, passed_recorder,
        List.append_assoc]
      rfl
    | boundary => exact absurd List.mem_cons_self h

/-- A failure behind layers with a boundary comes through those after the last one. -/
theorem runStages_chain_of_mem (hm : last.finish.message? = some message)
    (h : .boundary ∈ layers) (c : Context) (log : Lines) :
    runStages (chain layers last) c log =
      ⟨.done, (last.change c).failInternal message,
        log ++ passed layers c ++
          returned (shielded layers) ((last.change c).failInternal message)⟩ := by
  induction layers generalizing log with
  | nil => exact absurd h List.not_mem_nil
  | cons layer layers ih =>
    rw [shielded_of_mem h]
    cases layer with
    | recorder name =>
      have hrest : .boundary ∈ layers := (List.mem_cons.mp h).resolve_left (by simp)
      rw [runStages_layer, handle_recorder (ih hrest _), passed_recorder, returned_recorder]
      simp only [List.append_assoc, List.cons_append, List.nil_append]
    | boundary =>
      rw [runStages_chain_boundary, passed_boundary, returned_boundary]
      by_cases hb : .boundary ∈ layers
      · rw [ih hb, Outcome.contained_of_done rfl]
      · rw [runStages_chain_of_not_mem hm hb, Outcome.contained_of_message hm,
          shielded_of_not_mem hb, returned_nil, List.append_nil]

/-- **What recorders log**, for any layers in front of any last stage. All of them log the request, in
the order of the chain. If the last stage comes to its end, all log the answer, in reverse order. If
it fails or crashes, those in front of the last boundary do, and the answer is the failure. Without a
boundary nobody does: a failure is answered at the end, and a crash leaves the chain. -/
theorem serve_chain (layers : List Layer) (last : Ending) (target : Text) (log : Lines) :
    let d := last.change (Context.ofRequest target)
    let before := (recorders layers).map (· ++ " before 404".toList)
    (last.finish = .done →
        serve (chain layers last) target log =
          ⟨.done, d, log ++ before ++
            (recorders layers).reverse.map (· ++ " after ".toList ++ Nat.toDigits 10 d.status)⟩) ∧
      (last.finish ≠ .done → .boundary ∈ layers → ∃ t, last.finish.Words t ∧
        serve (chain layers last) target log =
          ⟨.done, ⟨d.path, 500, some "text/plain".toList, some (.text t)⟩, log ++ before ++
            (recorders (shielded layers)).reverse.map (· ++ " after 500".toList)⟩) ∧
      (.boundary ∉ layers →
        (∀ fault, last.finish = .failed fault → ∃ t, fault.Words t ∧
          serve (chain layers last) target log =
            ⟨.done, ⟨d.path, 500, some "text/plain".toList, some (.text t)⟩, log ++ before⟩) ∧
        ∀ payload, last.finish = .crashed payload →
          serve (chain layers last) target log = ⟨.crashed payload, d, log ++ before⟩) := by
  intro d before
  have hbefore : passed layers (Context.ofRequest target) = before := passed_ofRequest layers target
  refine ⟨fun h => ?_, fun h hb => ?_, fun hb => ⟨fun fault h => ?_, fun payload h => ?_⟩⟩
  · have hrun := runStages_chain_of_done h layers (Context.ofRequest target) log
    rw [serve_of_done (by rw [hrun]), hrun, hbefore, returned_eq]
  · obtain ⟨t, ht⟩ := Finish.exists_words h
    have hrun := runStages_chain_of_mem (Finish.words_iff.mp ht) hb (Context.ofRequest target) log
    refine ⟨t, ht, ?_⟩
    rw [serve_of_done (by rw [hrun]), hrun, hbefore, returned_failInternal]
    rfl
  · have hm : last.finish.message? = some fault.message := by rw [h]; rfl
    refine ⟨fault.message, Fault.words_iff.mpr rfl, ?_⟩
    rw [serve, runStages_chain_of_not_mem hm hb, h, hbefore]
    rfl
  · have hm : last.finish.message? = some payload.describe := by rw [h]; rfl
    rw [serve, runStages_chain_of_not_mem hm hb, h, hbefore]

/-- A crash behind a boundary between two recorders: both log the request, and the one in front of the
boundary logs the answer. Without the boundary the crash leaves the chain. -/
theorem serve_chain_crash :
    serve (chain [.recorder ['a'], .boundary, .recorder ['b']] ⟨.crashed .unknown, id⟩) ['/'] [] =
        ⟨.done, ⟨['/'], 500, some "text/plain".toList, some (.text "panic: unknown panic".toList)⟩,
          ["a before 404", "b before 404", "a after 500"].map String.toList⟩ ∧
      serve (chain [.recorder ['a'], .recorder ['b']] ⟨.crashed .unknown, id⟩) ['/'] [] =
        ⟨.crashed .unknown, ⟨['/'], 404, none, none⟩,
          ["a before 404", "b before 404"].map String.toList⟩ := by
  constructor
  · obtain ⟨t, ht, h⟩ := (serve_chain [.recorder ['a'], .boundary, .recorder ['b']]
      ⟨.crashed .unknown, id⟩ ['/'] []).2.1 (by decide) (by decide)
    obtain rfl := ht.unique .unknown
    exact h
  · exact ((serve_chain [.recorder ['a'], .recorder ['b']] ⟨.crashed .unknown, id⟩ ['/'] []).2.2
      (by decide)).2 .unknown rfl

/-- The probes that answer, fail and crash are endings. -/
example (contentType : Text) (body : Body) (fault : Fault) (payload : Crash) :
    (Probe.respond contentType body).stage = Ending.stage ⟨.done, (·.respond contentType body)⟩ ∧
      (Probe.raise fault).stage = Ending.stage ⟨.failed fault, id⟩ ∧
      (Probe.crash payload).stage = Ending.stage ⟨.crashed payload, id⟩ :=
  ⟨rfl, rfl, rfl⟩

end Unbundled
