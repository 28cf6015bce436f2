import Unbundled.Proofs.Chain.Unwinding
import Unbundled.Proofs.Text.Parts

/-! # Running the chain again

The reload client stands in a page at most once: a page that has got it carries the client's marker
(`includes_inject`), so it is left as it is the next time. A chain that runs on what it has just
produced therefore changes nothing, whatever it started from, and a second stage that adds the client
does nothing on top of the first one (`standard_repeat`). -/

namespace Unbundled

variable {σ : Type}

/-! ### The client -/

theorem marker_infix_tag : Reload.marker <:+: Reload.tag := by
  unfold Reload.tag
  exact (List.infix_append _ _ _).trans (List.prefix_append _ _).isInfix

/-- A page with the client carries the marker of the client. -/
theorem includes_inject (page : Text) : Text.includes (Reload.inject page) Reload.marker := by
  have htag : ∀ before after : Text, Text.includes (before ++ Reload.tag ++ after) Reload.marker :=
    fun before after => Text.includes_iff.mpr (marker_infix_tag.trans ⟨before, after, rfl⟩)
  unfold Reload.inject
  split
  · assumption
  · split
    · rename_i before after _
      rw [List.append_assoc]
      exact htag before _
    · have h := htag page []
      rwa [List.append_nil] at h

theorem inject_inject (page : Text) : Reload.inject (Reload.inject page) = Reload.inject page :=
  if_pos (includes_inject page)

/-- A body that is a text with the client already keeps it, and bytes that are no text stay such. -/
theorem injectBody_injectBody (b : Body) : injectBody (injectBody b) = injectBody b := by
  cases b with
  | text page => rw [injectBody, injectBody, inject_inject]
  | raw content =>
    cases h : Utf8.decode content with
    | ok page => simp only [injectBody, h, inject_inject]
    | error fault => simp only [injectBody, h]

theorem injectClient_injectClient (c : Context) :
    injectClient (injectClient c) = injectClient c := by
  by_cases h : c.contentType.any ContentType.isHtml
  · have hc : injectClient c = { c with body := c.body.map injectBody } := if_pos h
    rw [hc, injectClient, if_pos h, Option.map_map]
    congr 2
    exact funext injectBody_injectBody
  · have hc : injectClient c = c := if_neg h
    rw [hc, hc]

/-- A second stage that adds the client does nothing, also to a failure. -/
theorem handle_htmlStage_htmlStage (next : Handler σ) (c : Context) (log : σ) :
    htmlStage.handle (htmlStage.handle next) c log = htmlStage.handle next c log := by
  unfold htmlStage
  dsimp only
  cases h : (next c log).finish with
  | done =>
    dsimp only
    rw [injectClient_injectClient]
  | failed fault => simp only [h]
  | crashed payload => simp only [h]

/-! ### Stages that come to their end -/

/-- The stage comes to its end whenever the stages behind it do. -/
def Stage.Ends (stage : Stage σ) : Prop :=
  ∀ next : Handler σ, (∀ c log, (next c log).finish = .done) →
    ∀ c log, (stage.handle next c log).finish = .done

theorem finish_runStages {stages : List (Stage σ)} (h : ∀ stage ∈ stages, stage.Ends) (c : Context)
    (log : σ) : (runStages stages c log).finish = .done := by
  induction stages generalizing c log with
  | nil => rfl
  | cons stage stages ih =>
    rw [runStages_cons]
    exact h stage List.mem_cons_self _
      (ih fun stage hs => h stage (List.mem_cons_of_mem _ hs)) c log

variable (disk : Disk) (settings : ChainSettings) (root : Path)

theorem ends_htmlStage : (htmlStage : Stage σ).Ends := by
  intro next hnext c log
  unfold htmlStage
  dsimp only
  rw [hnext]

theorem ends_componentStage : (componentStage disk settings : Stage σ).Ends := by
  intro next hnext c log
  unfold componentStage
  dsimp only
  split
  · split
    · rfl
    · exact hnext c log
  · exact hnext c log

theorem ends_scriptStage : (scriptStage disk root : Stage σ).Ends := by
  intro next hnext c log
  unfold scriptStage
  dsimp only
  split
  · split
    · rfl
    · exact hnext c log
  · exact hnext c log

theorem ends_staticStage : (staticStage disk root : Stage σ).Ends := by
  intro next hnext c log
  unfold staticStage
  dsimp only
  split
  · exact hnext c log
  · split
    · rfl
    · exact hnext c log

/-! ### The chain -/

/-- The standard stages behind the boundary. -/
def pageStages : List (Stage σ) := htmlStage :: fileStages disk settings

/-- None of the standard stages fails, so the boundary in front of them has nothing to do. -/
theorem runStages_pageStages (c : Context) (log : σ) :
    runStages (pageStages disk settings) c log = runStages (standard disk settings) c log := by
  have hends : ∀ stage ∈ (pageStages disk settings : List (Stage σ)), stage.Ends := by
    simp only [pageStages, fileStages, List.forall_mem_cons, List.not_mem_nil, false_imp_iff,
      implies_true, and_true]
    exact ⟨ends_htmlStage, ends_componentStage disk settings, ends_scriptStage disk settings.root,
      ends_staticStage disk settings.root⟩
  have hstages : (standard disk settings : List (Stage σ)) =
      boundary :: pageStages disk settings := rfl
  rw [hstages, runStages_boundary, Outcome.contained_of_done (finish_runStages hends c log)]

theorem runStages_standard_twice (c d : Context) (log log' : σ)
    (h : runStages (standard disk settings) c log = ⟨.done, d, log'⟩) :
    runStages (standard disk settings) d log' = ⟨.done, d, log'⟩ := by
  rw [runStages_standard] at h ⊢
  obtain ⟨-, rfl, rfl⟩ := Outcome.mk.inj h
  cases hr : reply? disk settings c.path with
  | some r =>
    have hpath : (c.replied r).path = c.path := rfl
    dsimp only
    rw [hpath, hr]
    rfl
  | none =>
    have hpath : (injectClient c).path = c.path := by
      unfold injectClient
      split <;> rfl
    dsimp only
    rw [hpath, hr]
    dsimp only
    rw [injectClient_injectClient]

/-- **Running the standard chain again changes nothing**, from whatever context it has run the first
time, with the boundary or without it. Nor does a second stage that adds the reload client change
anything, whatever the stages behind it do. So no page gets the client twice. -/
theorem standard_repeat :
    (∀ stages ∈ [standard disk settings, pageStages disk settings], ∀ (c : Context) (log : σ),
      let once := runStages stages c log
      once.finish = .done ∧ runStages stages once.context once.log = once) ∧
      ∀ rest : List (Stage σ),
        runStages (htmlStage :: htmlStage :: rest) = runStages (htmlStage :: rest) := by
  have hstandard : ∀ (c : Context) (log : σ),
      let once := runStages (standard disk settings) c log
      once.finish = .done ∧
        runStages (standard disk settings) once.context once.log = once := by
    intro c log once
    have hdone : once.finish = .done := finish_boundary (pageStages disk settings) c log
    have honce : once = ⟨.done, once.context, once.log⟩ := by rw [← hdone]
    exact ⟨hdone, (runStages_standard_twice disk settings c _ log _ honce).trans honce.symm⟩
  refine ⟨?_, fun rest => ?_⟩
  · simp only [List.forall_mem_cons, List.not_mem_nil, false_imp_iff, implies_true, and_true]
    refine ⟨hstandard, ?_⟩
    intro c log
    simp only [runStages_pageStages]
    exact hstandard c log
  · funext c log
    simp only [runStages_cons]
    exact handle_htmlStage_htmlStage _ c log

end Unbundled
