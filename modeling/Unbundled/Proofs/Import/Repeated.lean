import Mathlib.Data.List.Forall2
import Unbundled.Proofs.Import.Ascending
import Unbundled.Proofs.Import.Reworded
import Unbundled.Proofs.Package.Files
import Unbundled.Proofs.Url.RoundTrip

/-! # Rewriting twice

The rewriting of a source is a reworded source (`exists_reworded`): the literal of every replaced import
is the literal of its URL. A URL is an absolute specifier, so a second pass finds nothing to replace
there, and what did not resolve before does not resolve now. For a tidy source the second scan finds
what the first one found, and the second pass changes nothing (`rewriteSource_rewriteSource`). -/

namespace Unbundled.Import

open Source

variable {c : Cursor} {disk : Disk} {emit : Import → Text → Text} {g t t' : Text} {i j : Import}
  {is is' : List Import} {m n : Nat} {q : Char} {root : Path} {source : Text}

/-- The import `j` stands in the rewritten source for the import `i`. -/
structure Renamed (disk : Disk) (root : Path) (i j : Import) : Prop where
  kind : j.kind = i.kind
  replaced : isReplaced disk root i → Specifier.form j.raw = .absolute ∧
    ∃ url, Package.resolveUrl disk root i.raw = .ok url ∧ quoted '"' j.raw = Literal.quote url
  kept : ¬ isReplaced disk root i → j.raw = i.raw

/-! ### What a second pass makes of an import -/

theorem head?_of_resolveUrl {spec url : Text} (h : Package.resolveUrl disk root spec = .ok url) :
    url.head? = some '/' := by
  obtain ⟨p, names, -, -, rfl⟩ := Package.exists_of_resolveUrl h
  exact Url.head?_ofNames names

theorem form_of_head? {url : Text} (h : url.head? = some '/') :
    Specifier.form (url.flatMap Literal.escape) = .absolute := by
  obtain ⟨u, rfl⟩ := List.head?_eq_some_iff.mp h
  rfl

theorem resolveUrl_of_verdict? {url : Text} (h : verdict? disk root i = some (.ok url)) :
    Package.resolveUrl disk root i.raw = .ok url := by
  unfold verdict? at h
  split at h
  · exact Option.some.inj h
  · exact absurd h (by simp)

theorem exists_of_isReplaced (h : isReplaced disk root i) :
    ∃ url, verdict? disk root i = some (.ok url) := by
  unfold isReplaced at h
  split at h
  · rename_i url hv
    exact ⟨url, hv⟩
  · exact absurd h Bool.false_ne_true

theorem emitted_of_not_isReplaced (h : ¬ isReplaced disk root i) (literal : Text) :
    emitted disk root i literal = literal := by
  rcases hv : verdict? disk root i with _ | _ | url
  · rw [emitted, hv]
  · rw [emitted, hv]
  · exact absurd (by rw [isReplaced, hv]) h

/-- The literal that is put in the place of an import, and the import that it makes. -/
theorem exists_emitted (disk : Disk) (root : Path) (hq : isQuote q) (hin : Inside q i.raw) :
    ∃ q' raw', isQuote q' ∧ Inside q' raw' ∧ emitted disk root i (quoted q i.raw) = quoted q' raw' ∧
      ∀ n, Renamed disk root i (specifier i.kind n q' raw') := by
  by_cases hr : isReplaced disk root i
  · obtain ⟨url, hv⟩ := exists_of_isReplaced hr
    have hurl := resolveUrl_of_verdict? hv
    refine ⟨'"', url.flatMap Literal.escape, by decide, inside_flatMap_escape url, ?_, fun n =>
      ⟨rfl, fun _ => ⟨form_of_head? (head?_of_resolveUrl hurl), url, hurl, rfl⟩, absurd hr⟩⟩
    rw [emitted, hv]
    rfl
  · exact ⟨q, i.raw, hq, hin, emitted_of_not_isReplaced hr _,
      fun n => ⟨rfl, fun h => absurd h hr, fun _ => rfl⟩⟩

/-- Nothing is left to be done where an import has been replaced, and anywhere else the second pass does
what the first one has done. -/
theorem Renamed.verdict?_eq (h : Renamed disk root i j) :
    verdict? disk root j = if isReplaced disk root i then none else verdict? disk root i := by
  split
  · rename_i hr
    rw [verdict?, Specifier.isBare, (h.replaced hr).1]
    rfl
  · rename_i hr
    rw [verdict?, verdict?, h.kept hr]

theorem Renamed.not_isReplaced (h : Renamed disk root i j) : ¬ isReplaced disk root j := by
  intro hj
  obtain ⟨url, hv⟩ := exists_of_isReplaced hj
  rw [h.verdict?_eq] at hv
  split_ifs at hv with hr
  exact hr (by rw [isReplaced, hv])

theorem Renamed.report?_eq (h : Renamed disk root i j) :
    report? disk root j = report? disk root i := by
  have hj := h.verdict?_eq
  by_cases hr : isReplaced disk root i
  · obtain ⟨url, hv⟩ := exists_of_isReplaced hr
    rw [if_pos hr] at hj
    rw [report?, report?, hj, hv]
  · rw [if_neg hr] at hj
    rw [report?, report?, hj, h.kept hr]

/-! ### The rewritten source -/

theorem ascend_after (h : Reworded (m + Text.bytes g) t is n t' is') :
    ascend emit m (g ++ t) is = g ++ ascend emit (m + Text.bytes g) t is := by
  generalize hm : m + Text.bytes g = m' at h
  cases h with
  | done => rfl
  | @literal _ _ rest _ raw _ q _ is _ gap kind =>
    subst hm
    set i := specifier kind (m + Text.bytes g + Text.bytes gap) q raw
    have hstart : i.start = m + Text.bytes g + Text.bytes gap := rfl
    have hstart' : i.start = m + Text.bytes (g ++ gap) := by
      rw [hstart, Text.bytes_append, Nat.add_assoc]
    have hstop : i.stop = i.start + Text.bytes (quoted q raw) := rfl
    rw [← List.append_assoc, ascend_cons emit hstart' hstop, ascend_cons emit hstart hstop]
    simp only [List.append_assoc]

/-- **The rewritten source** is the source with other literals. -/
theorem exists_reworded (disk : Disk) (root : Path) (c : Cursor) (n : Nat) :
    ∃ is', Reworded c.offset c.ahead (scanFrom c) n
        (ascend (emitted disk root) c.offset c.ahead (scanFrom c)) is' ∧
      List.Forall₂ (Renamed disk root) (scanFrom c) is' := by
  fun_induction scanFrom c generalizing n with
  | case1 c hc => exact ⟨[], .done _ _ _, .nil⟩
  | case2 c x t hc ih =>
    obtain ⟨p, hw, he⟩ := walk_step hc
    -- the text up to the place where the turn ends or reads its literal
    obtain ⟨k, rfl⟩ := hw.onward
    suffices hp : ∃ is', Reworded (c.advance k).offset (c.advance k).ahead
          ((step c x t).1.toList ++ scanFrom (step c x t).2) (n + Text.bytes (c.ahead.take k))
          (ascend (emitted disk root) (c.advance k).offset (c.advance k).ahead
            ((step c x t).1.toList ++ scanFrom (step c x t).2)) is' ∧
        List.Forall₂ (Renamed disk root) ((step c x t).1.toList ++ scanFrom (step c x t).2) is' by
      obtain ⟨is', hr, hf⟩ := hp
      rw [Cursor.offset_advance, Cursor.ahead_advance] at hr
      refine ⟨is', ?_, hf⟩
      have ha : ascend (emitted disk root) _ _ _ = _ := ascend_after hr
      rw [List.take_append_drop] at ha
      have hr' := hr.after
      rw [List.take_append_drop, ← ha] at hr'
      exact hr'
    generalize c.advance k = p at he
    generalize n + Text.bytes (c.ahead.take k) = n
    cases hi : (step c x t).1 with
    | none =>
      rw [← he.eq_of_none hi]
      exact ih n
    | some i =>
      obtain ⟨q, rest, hq, hin, hp, hd, hstart, hstop⟩ := (he.read hi).shape
      obtain ⟨q', raw', hq', hin', hemit, hrenamed⟩ := exists_emitted disk root hq hin
      have hlast := (he.read hi).stop_eq
      obtain ⟨is', hr, hf⟩ := ih (n + Text.bytes (quoted q' raw'))
      have hspec : specifier i.kind p.offset q i.raw = i := by rw [specifier, ← hstart, ← hstop]
      have hascend := @ascend_cons (emitted disk root) p.offset i (scanFrom (step c x t).2) [] _ rest
        (by rw [hstart, Text.bytes_nil, Nat.add_zero]) hstop
      have hahead : (step c x t).2.ahead = rest := by rw [hd]
      rw [hemit, hstop, hstart, List.nil_append, List.nil_append, ← hp] at hascend
      rw [hahead, ← hlast, hstop, hstart] at hr
      have hr' := Reworded.literal (m := p.offset) (n := n) [] i.kind hq hq' hin' hr
      simp only [List.nil_append, Text.bytes_nil, Nat.add_zero, hspec] at hr'
      rw [← hp, ← hascend] at hr'
      exact ⟨_, hr', .cons (hrenamed n) hf⟩

/-! ### The second pass -/

theorem scan_code (disk : Disk) (root : Path) (h : Tidy source) :
    List.Forall₂ (Renamed disk root) (scan source) (scan (rewriteSource disk root source).code) := by
  obtain ⟨is', hr, hf⟩ := exists_reworded disk root (Cursor.start source) 0
  have hcode : (rewriteSource disk root source).code =
      ascend (emitted disk root) 0 source (scan source) := by rw [rewrite_scan]
  have hscan := scan_eq_of_reworded h (hcode ▸ hr)
  rw [hscan]
  exact hf

theorem not_isReplaced_of_mem (h : List.Forall₂ (Renamed disk root) is is') :
    ∀ j ∈ is', ¬ isReplaced disk root j := by
  induction h with
  | nil => exact fun j hj => absurd hj List.not_mem_nil
  | cons hij _ ih => exact List.forall_mem_cons.mpr ⟨hij.not_isReplaced, ih⟩

theorem filterMap_report?_eq (h : List.Forall₂ (Renamed disk root) is is') :
    is'.filterMap (report? disk root) = is.filterMap (report? disk root) := by
  induction h with
  | nil => rfl
  | cons hij _ ih => rw [List.filterMap_cons, List.filterMap_cons, hij.report?_eq, ih]

/-- **A second pass changes nothing**, if the source is tidy: the code stays, nothing is replaced, and
the same imports are reported. The second scan finds as many imports as the first one, of the same
kinds: the replaced ones are absolute now, and the others are as they were. -/
theorem rewriteSource_rewriteSource (disk : Disk) (root : Path) (source : Text) (h : Tidy source) :
    rewriteSource disk root (rewriteSource disk root source).code =
        ⟨(rewriteSource disk root source).code, 0, (rewriteSource disk root source).unresolved⟩ ∧
      (scan (rewriteSource disk root source).code).length = (scan source).length ∧
      List.Forall₂ (Renamed disk root) (scan source) (scan (rewriteSource disk root source).code) := by
  have hscan := scan_code disk root h
  refine ⟨?_, hscan.length_eq.symm, hscan⟩
  have hnone := not_isReplaced_of_mem hscan
  have hreport := filterMap_report?_eq hscan
  have hunresolved : (rewriteSource disk root source).unresolved =
      (scan source).filterMap (report? disk root) := by rw [rewrite_scan]
  generalize (rewriteSource disk root source).code = code at hnone hreport ⊢
  rw [hunresolved, ← hreport, rewrite_scan, Outcome.mk.injEq]
  refine ⟨?_, ?_, rfl⟩
  · exact ascend_eq_self _ (placed_scanFrom (Cursor.start code)) fun j hj literal =>
      emitted_of_not_isReplaced (hnone j hj) literal
  · rw [List.countP_eq_zero]
    exact hnone

/-- A replaced import, one that does not resolve and one that is no package, around strings and regular
expressions that are closed. -/
theorem rewriteSource_rewriteSource_mixed :
    let rest := "a=`$\x7b/'/.test(\"'\")\x7d`;export*from'gone';import(\"./b\")".toList
    let source := "import 'x/y';".toList ++ rest
    let code := "import \"/node_modules/x/y.js\";".toList ++ rest
    Tidy source ∧ (rewriteSource stocked ⟨"app".toList⟩ source).code = code ∧
      (rewriteSource stocked ⟨"app".toList⟩ source).rewritten = 1 ∧
      (rewriteSource stocked ⟨"app".toList⟩ code).code = code ∧
      (rewriteSource stocked ⟨"app".toList⟩ code).rewritten = 0 ∧
      (rewriteSource stocked ⟨"app".toList⟩ code).unresolved.map Prod.fst = ["gone".toList] ∧
      (scan code).length = 3 := by
  intro rest source code
  have htidy : Tidy source := by decide +kernel
  have hcode : (rewriteSource stocked ⟨"app".toList⟩ source).code = code := by
    rw [rewrite_scan]
    decide +kernel
  obtain ⟨hsecond, hlength, -⟩ := rewriteSource_rewriteSource stocked ⟨"app".toList⟩ source htidy
  rw [hcode] at hsecond hlength
  refine ⟨htidy, hcode, ?_, by rw [hsecond], by rw [hsecond], ?_, ?_⟩
  · rw [rewrite_scan]
    decide +kernel
  · rw [hsecond, rewrite_scan]
    decide +kernel
  · rw [hlength]
    decide +kernel

/-- A quote that stands for itself is closed by the new literal, and the import is lost. -/
example :
    let source := "\" import 'x/y'".toList
    ¬ Tidy source ∧ (scan source).length = 1 ∧
      scan (rewriteSource stocked ⟨"app".toList⟩ source).code = [] := by
  decide +kernel

end Unbundled.Import
