import Mathlib.Data.List.Perm.Basic
import Unbundled.Proofs.Import.Ascending

/-! # Rewriting with any specifiers

The rewriting need not be handed the specifiers of a scan. Whatever spans they claim, each is taken at
its turn, by descending start, and passed over if its literal is no span of the source or reaches above
the last one replaced (`Fits`). `Takes` says which specifiers are replaced and which are reported, and
`Spliced` what the code is: the source with the spans of the first ones replaced and the rest kept.

The code may also be put together in one text that is edited in place (`rewriteInPlace?`). An edit
outside this text, or inside a character of it, has no result. The text below the floor is the source
still, so it never comes to this.

* `stands_take`, `take?_draft`: one more specifier.
* `rewrite_spliced`: the rewriting with any specifiers.
* `rewrite_perm`: specifiers that start apart may be given in any order. -/

namespace Unbundled.Import

variable {disk : Disk} {root : Path} {source : Text} {imports is order : List Import} {i : Import}
  {p : Pending} {pos floor : Nat}

/-! ### Spans -/

theorem spanOf?_eq_some_iff {a b : Nat} {s m u : Text} : spanOf? source a b = some (s, m, u) ↔
    source = s ++ (m ++ u) ∧ a = Text.bytes s ∧ b = a + Text.bytes m := by
  constructor
  · intro h
    unfold spanOf? at h
    split at h
    · obtain ⟨⟨upTo, after⟩, hupTo, hrest⟩ := Option.bind_eq_some_iff.mp h
      obtain ⟨⟨before, inside⟩, hbefore, hparts⟩ := Option.bind_eq_some_iff.mp hrest
      obtain ⟨rfl, hb⟩ := Text.append_of_splitAt? hupTo
      obtain ⟨rfl, ha⟩ := Text.append_of_splitAt? hbefore
      obtain ⟨rfl, rfl, rfl⟩ : before = s ∧ inside = m ∧ after = u := by simpa using hparts
      rw [Text.bytes_append] at hb
      exact ⟨List.append_assoc _ _ _, ha.symm, by omega⟩
    · exact absurd h (by simp)
  · rintro ⟨rfl, rfl, rfl⟩
    exact spanOf?_append s m u

/-- The literal of a specifier is a span of the source that ends at the floor or below it. -/
def Fits (source : Text) (floor : Nat) (i : Import) : Prop :=
  ∃ before inside after, source = before ++ (inside ++ after) ∧ i.start = Text.bytes before ∧
    i.stop = i.start + Text.bytes inside ∧ i.stop ≤ floor

theorem admits_iff : p.admits source i ↔ Fits source p.floor i := by
  rw [Pending.admits, Bool.and_eq_true, decide_eq_true_eq, Option.isSome_iff_exists]
  constructor
  · rintro ⟨hf, ⟨before, inside, after⟩, hs⟩
    obtain ⟨h, hstart, hstop⟩ := spanOf?_eq_some_iff.mp hs
    exact ⟨before, inside, after, h, hstart, hstop, hf⟩
  · rintro ⟨before, inside, after, h, hstart, hstop, hf⟩
    exact ⟨hf, _, spanOf?_eq_some_iff.mpr ⟨h, hstart, hstop⟩⟩

/-! ### Which specifiers are replaced -/

/-- What becomes of specifiers that are taken one after another: those that are replaced, and the report
on those without a URL. The floor is the start of the last one replaced. -/
inductive Takes (disk : Disk) (root : Path) (source : Text) :
    Nat → List Import → List Import → List (Text × Package.Fault) → Prop
  | done (floor : Nat) : Takes disk root source floor [] [] []
  | replace {floor : Nat} {i : Import} {rest replaced : List Import}
      {reported : List (Text × Package.Fault)} {url : Text} : Fits source floor i →
      Specifier.isBare i.raw → Package.resolveUrl disk root i.raw = .ok url →
      Takes disk root source i.start rest replaced reported →
      Takes disk root source floor (i :: rest) (i :: replaced) reported
  | report {floor : Nat} {i : Import} {rest replaced : List Import}
      {reported : List (Text × Package.Fault)} {reason : Package.Fault} : Fits source floor i →
      Specifier.isBare i.raw → Package.resolveUrl disk root i.raw = .error reason →
      Takes disk root source floor rest replaced reported →
      Takes disk root source floor (i :: rest) replaced ((i.raw, reason) :: reported)
  | pass {floor : Nat} {i : Import} {rest replaced : List Import}
      {reported : List (Text × Package.Fault)} : ¬ (Fits source floor i ∧ Specifier.isBare i.raw) →
      Takes disk root source floor rest replaced reported →
      Takes disk root source floor (i :: rest) replaced reported

/-- The specifiers that are replaced lie apart, below the floor. -/
theorem Takes.apart {replaced : List Import} {reported : List (Text × Package.Fault)}
    (h : Takes disk root source floor order replaced reported) :
    (∀ i ∈ replaced, i.start ≤ i.stop ∧ i.stop ≤ floor) ∧
      replaced.Pairwise fun i j => j.stop ≤ i.start := by
  induction h with
  | done => exact ⟨by simp, .nil⟩
  | @replace _ i _ _ _ _ hf _ _ _ ih =>
    obtain ⟨hbelow, hapart⟩ := ih
    obtain ⟨-, inside, -, -, -, hstop, hle⟩ := hf
    refine ⟨fun j hj => ?_, List.pairwise_cons.mpr ⟨fun j hj => (hbelow j hj).2, hapart⟩⟩
    have hself : i.start ≤ i.stop := by omega
    rcases List.mem_cons.mp hj with rfl | hj
    · exact ⟨hself, hle⟩
    · have := hbelow j hj
      omega
  | report _ _ _ _ ih => exact ih
  | pass _ _ ih => exact ih

/-! ### What the code is -/

/-- The text after `rest`, which starts at byte `pos`, has been given the literals of their URLs in
place of the spans of some specifiers. -/
inductive Spliced (disk : Disk) (root : Path) : Nat → Text → List Import → Text → Prop
  | nil (pos : Nat) (rest : Text) : Spliced disk root pos rest [] rest
  | cons {pos : Nat} {rest code url : Text} {i : Import} {imports : List Import}
      (gap inside : Text) : i.start = pos + Text.bytes gap → i.stop = i.start + Text.bytes inside →
      Package.resolveUrl disk root i.raw = .ok url → Spliced disk root i.stop rest imports code →
      Spliced disk root pos (gap ++ (inside ++ rest)) (i :: imports)
        (gap ++ (Literal.quote url ++ code))

theorem Spliced.after {rest code : Text} (gap : Text)
    (h : Spliced disk root (pos + Text.bytes gap) rest imports code) :
    Spliced disk root pos (gap ++ rest) imports (gap ++ code) := by
  cases h with
  | nil => exact .nil pos _
  | cons gap' inside hs he hu h =>
    rw [← List.append_assoc, ← List.append_assoc gap]
    exact .cons (gap ++ gap') inside (by rw [hs, Text.bytes_append]; omega) he hu h

/-- A run that has replaced the specifiers `is`: the source is untouched up to the floor, and from there
on it has been spliced. -/
def Pending.Stands (disk : Disk) (root : Path) (source : Text) (is : List Import) (p : Pending) : Prop :=
  ∃ front back, source = front ++ back ∧ p.floor = Text.bytes front ∧
    Spliced disk root p.floor back is p.code

/-- The parts of the source around a specifier that fits. -/
theorem Pending.Stands.parts (h : p.Stands disk root source is) (hf : Fits source p.floor i) :
    ∃ before inside gap back, source = before ++ (inside ++ (gap ++ back)) ∧
      i.start = Text.bytes before ∧ i.stop = i.start + Text.bytes inside ∧
      p.floor = i.stop + Text.bytes gap ∧ between source i.stop p.floor = gap ∧
      Spliced disk root p.floor back is p.code := by
  obtain ⟨front, back, hs, hfloor, hspliced⟩ := h
  obtain ⟨before, inside, after, hs', hstart, hstop, hle⟩ := hf
  have hsplit : before ++ inside ++ after = front ++ back := by rw [List.append_assoc, ← hs', hs]
  have hinside : Text.bytes (before ++ inside) = i.stop := by
    rw [Text.bytes_append, ← hstart, hstop]
  obtain ⟨gap, rfl, rfl⟩ := Text.exists_append_of_bytes_le hsplit (by omega)
  have hgap : p.floor = i.stop + Text.bytes gap := by rw [hfloor, Text.bytes_append, hinside]
  refine ⟨before, inside, gap, back, hs', hstart, hstop, hgap, ?_, hspliced⟩
  rw [hs', ← List.append_assoc, hgap, ← hinside, between_append]

/-! ### One more specifier -/

theorem take_of_not_fits (h : ¬ (Fits source p.floor i ∧ Specifier.isBare i.raw)) :
    p.take disk root source i = p := by
  rw [Pending.take, if_neg]
  rwa [Bool.and_eq_true, admits_iff]

theorem take_of_error {reason : Package.Fault} (hf : Fits source p.floor i)
    (hb : Specifier.isBare i.raw) (hr : Package.resolveUrl disk root i.raw = .error reason) :
    p.take disk root source i = { p with unresolved := (i.raw, reason) :: p.unresolved } := by
  rw [Pending.take, if_pos ((Bool.and_eq_true _ _).mpr ⟨admits_iff.mpr hf, hb⟩), hr]

theorem take_of_ok {url : Text} (hf : Fits source p.floor i)
    (hb : Specifier.isBare i.raw) (hr : Package.resolveUrl disk root i.raw = .ok url) :
    p.take disk root source i =
      { p with
        floor := i.start
        code := Literal.quote url ++ between source i.stop p.floor ++ p.code
        rewritten := p.rewritten + 1 } := by
  rw [Pending.take, if_pos ((Bool.and_eq_true _ _).mpr ⟨admits_iff.mpr hf, hb⟩), hr]

/-- **One more specifier is replaced.** -/
theorem stands_take {url : Text} (h : p.Stands disk root source is) (hf : Fits source p.floor i)
    (hb : Specifier.isBare i.raw) (hr : Package.resolveUrl disk root i.raw = .ok url) :
    (p.take disk root source i).Stands disk root source (i :: is) := by
  obtain ⟨before, inside, gap, back, hs, hstart, hstop, hfloor, hbetween, hspliced⟩ := h.parts hf
  rw [take_of_ok hf hb hr, hbetween]
  refine ⟨before, inside ++ (gap ++ back), hs, hstart, ?_⟩
  rw [hfloor] at hspliced
  have hfront : i.start = i.start + Text.bytes [] := rfl
  have hcode := Spliced.cons [] inside hfront hstop hr (hspliced.after gap)
  rwa [List.nil_append, List.nil_append, ← List.append_assoc (Literal.quote url)] at hcode

/-- **A whole run**, from any place of it on. -/
theorem exists_takes (h : p.Stands disk root source is) (order : List Import) :
    ∃ replaced reported, Takes disk root source p.floor order replaced reported ∧
      (order.foldl (Pending.take disk root source) p).Stands disk root source
        (replaced.reverse ++ is) ∧
      (order.foldl (Pending.take disk root source) p).rewritten = p.rewritten + replaced.length ∧
      (order.foldl (Pending.take disk root source) p).unresolved =
        reported.reverse ++ p.unresolved := by
  induction order generalizing p is with
  | nil => exact ⟨[], [], .done _, h, rfl, rfl⟩
  | cons i order ih =>
    rw [List.foldl_cons]
    by_cases hf : Fits source p.floor i ∧ Specifier.isBare i.raw
    · cases hr : Package.resolveUrl disk root i.raw with
      | ok url =>
        have hnext := stands_take h hf.1 hf.2 hr
        rw [take_of_ok hf.1 hf.2 hr] at hnext ⊢
        obtain ⟨replaced, reported, ht, hstands, hcount, hreport⟩ := ih hnext
        refine ⟨i :: replaced, reported, .replace hf.1 hf.2 hr ht, ?_, ?_, hreport⟩
        · rwa [List.reverse_cons, List.append_assoc]
        · rw [hcount, List.length_cons]
          dsimp only
          omega
      | error reason =>
        have hnext : ({ p with unresolved := (i.raw, reason) :: p.unresolved } :
          Pending).Stands disk root source is := h
        rw [take_of_error hf.1 hf.2 hr]
        obtain ⟨replaced, reported, ht, hstands, hcount, hreport⟩ := ih hnext
        refine ⟨replaced, (i.raw, reason) :: reported, .report hf.1 hf.2 hr ht, hstands, hcount, ?_⟩
        rw [hreport, List.reverse_cons, List.append_assoc]
        rfl
    · rw [take_of_not_fits hf]
      obtain ⟨replaced, reported, ht, hrest⟩ := ih h
      exact ⟨replaced, reported, .pass hf ht, hrest⟩

/-! ### Rewriting in place -/

/-- The text with `new` in place of the bytes from `start` to `stop`, if these are a span of it. -/
def replaceSpan? (code : Text) (start stop : Nat) (new : Text) : Option Text :=
  (spanOf? code start stop).map fun (before, _, after) => before ++ (new ++ after)

/-- A rewriting under way in one text. The report is in the order of the run. -/
structure Draft where
  floor : Nat
  code : Text
  rewritten : Nat
  unresolved : List (Text × Package.Fault)

/-- Takes the next specifier, going down. -/
def Draft.take? (disk : Disk) (root : Path) (source : Text) (d : Draft) (i : Import) :
    Option Draft :=
  if i.stop ≤ d.floor && (spanOf? source i.start i.stop).isSome && Specifier.isBare i.raw then
    match Package.resolveUrl disk root i.raw with
    | .ok url =>
      (replaceSpan? d.code i.start i.stop (Literal.quote url)).map fun code =>
        { d with floor := i.start, code, rewritten := d.rewritten + 1 }
    | .error reason => some { d with unresolved := d.unresolved ++ [(i.raw, reason)] }
  else some d

/-- Rewriting with given specifiers, in one text. -/
def rewriteInPlace? (disk : Disk) (root : Path) (source : Text) (imports : List Import) :
    Option Outcome :=
  ((descending imports).foldlM (Draft.take? disk root source)
    ⟨Text.bytes source, source, 0, []⟩).map fun d => ⟨d.code, d.rewritten, d.unresolved.reverse⟩

/-- The text that a run stands for. -/
def Pending.draft (source : Text) (p : Pending) : Draft :=
  ⟨p.floor, between source 0 p.floor ++ p.code, p.rewritten, p.unresolved.reverse⟩

theorem between_front (front back : Text) :
    between (front ++ back) 0 (Text.bytes front) = front := by
  have h := between_append [] front back
  rwa [List.nil_append, Text.bytes_nil, Nat.zero_add] at h

/-- **The span of a specifier that fits is a span of the edited text**, too. -/
theorem take?_draft (h : p.Stands disk root source is) :
    (p.draft source).take? disk root source i = some ((p.take disk root source i).draft source) := by
  have hadmits : (i.stop ≤ (p.draft source).floor && (spanOf? source i.start i.stop).isSome &&
      Specifier.isBare i.raw) = (p.admits source i && Specifier.isBare i.raw) := rfl
  rw [Draft.take?, hadmits]
  by_cases hf : Fits source p.floor i ∧ Specifier.isBare i.raw
  · rw [if_pos ((Bool.and_eq_true _ _).mpr ⟨admits_iff.mpr hf.1, hf.2⟩)]
    cases hr : Package.resolveUrl disk root i.raw with
    | ok url =>
      obtain ⟨before, inside, gap, back, hs, hstart, hstop, hfloor, hbetween, -⟩ := h.parts hf.1
      have hfront : between source 0 p.floor = before ++ (inside ++ gap) := by
        have hsplit : source = before ++ (inside ++ gap) ++ back := by
          rw [hs, List.append_assoc, List.append_assoc]
        have hbytes : p.floor = Text.bytes (before ++ (inside ++ gap)) := by
          rw [Text.bytes_append, Text.bytes_append]
          omega
        rw [hsplit, hbytes, between_front]
      have hspan : spanOf? (p.draft source).code i.start i.stop =
          some (before, inside, gap ++ p.code) := by
        refine spanOf?_eq_some_iff.mpr ⟨?_, hstart, hstop⟩
        rw [Pending.draft, hfront, List.append_assoc, List.append_assoc]
      have hbefore : between source 0 i.start = before := by rw [hs, hstart, between_front]
      dsimp only
      rw [replaceSpan?, hspan, take_of_ok hf.1 hf.2 hr, hbetween, Pending.draft, Pending.draft]
      dsimp only [Option.map_some]
      rw [hbefore, List.append_assoc]
    | error reason =>
      rw [take_of_error hf.1 hf.2 hr, Pending.draft, Pending.draft]
      dsimp only
      rw [List.reverse_cons]
  · rw [if_neg (by rwa [Bool.and_eq_true, admits_iff]), take_of_not_fits hf]

theorem foldlM_draft (h : p.Stands disk root source is) (order : List Import) :
    order.foldlM (Draft.take? disk root source) (p.draft source) =
      some ((order.foldl (Pending.take disk root source) p).draft source) := by
  induction order generalizing p is with
  | nil => rfl
  | cons i order ih =>
    obtain ⟨replaced, -, -, hnext, -⟩ := exists_takes h [i]
    rw [List.foldlM_cons, take?_draft h, List.foldl_cons]
    exact ih hnext

/-! ### The rewriting -/

/-- Specifiers that start alike are taken in the order of the list. -/
theorem filter_descending (imports : List Import) (n : Nat) :
    (descending imports).filter (·.start = n) = imports.filter (·.start = n) := by
  have hsub : (imports.filter (·.start = n)).Sublist (descending imports) := by
    refine List.sublist_mergeSort (fun i j k => ?_) (fun i j => ?_) ?_ List.filter_sublist
    · simp only [decide_eq_true_eq]
      omega
    · simp only [Bool.or_eq_true, decide_eq_true_eq]
      omega
    · refine List.pairwise_of_forall_mem_list fun i hi j hj => ?_
      have hi := of_decide_eq_true (List.mem_filter.mp hi).2
      have hj := of_decide_eq_true (List.mem_filter.mp hj).2
      rw [decide_eq_true_eq, hi, hj]
  have hfilter := hsub.filter (·.start = n)
  rw [List.filter_filter] at hfilter
  simp only [Bool.and_self] at hfilter
  exact (hfilter.eq_of_length ((perm_descending imports).filter _).length_eq.symm).symm

/-- **Rewriting with any specifiers.** They are taken by descending start, those that start alike in the
order of the list. The code is the source with the spans of some of them replaced, which lie apart, each
by the literal of its URL: those that are bare, have a URL and fit below the last one replaced. They are
counted, and those without a URL are reported the other way round. An edit in place is never one outside
the text or inside a character. -/
theorem rewrite_spliced (disk : Disk) (root : Path) (source : Text) (imports : List Import) :
    ∃ order replaced reported,
      (order.Perm imports ∧ order.Pairwise (fun i j => j.start ≤ i.start) ∧
        ∀ n, order.filter (·.start = n) = imports.filter (·.start = n)) ∧
      Takes disk root source (Text.bytes source) order replaced reported ∧
      replaced.Pairwise (fun i j => j.stop ≤ i.start) ∧
      Spliced disk root 0 source replaced.reverse (rewrite disk root source imports).code ∧
      (rewrite disk root source imports).rewritten = replaced.length ∧
      (rewrite disk root source imports).unresolved = reported.reverse ∧
      rewriteInPlace? disk root source imports = some (rewrite disk root source imports) := by
  have hstart : (⟨Text.bytes source, [], 0, []⟩ : Pending).Stands disk root source [] :=
    ⟨source, [], (List.append_nil source).symm, rfl, .nil _ _⟩
  have hdraft : (⟨Text.bytes source, source, 0, []⟩ : Draft) =
      (⟨Text.bytes source, [], 0, []⟩ : Pending).draft source := by
    have h := between_front source []
    rw [List.append_nil] at h
    rw [Pending.draft, h, List.append_nil]
    rfl
  obtain ⟨replaced, reported, htakes, hstands, hcount, hreport⟩ :=
    exists_takes hstart (descending imports)
  refine ⟨descending imports, replaced, reported,
    ⟨perm_descending imports, pairwise_descending imports, filter_descending imports⟩, htakes,
    htakes.apart.2, ?_, ?_, ?_, ?_⟩
  · obtain ⟨front, back, hs, hfloor, hspliced⟩ := hstands
    rw [List.append_nil, hfloor, ← Nat.zero_add (Text.bytes front)] at hspliced
    have hcode := hspliced.after front
    rw [← hs] at hcode
    rw [rewrite, hfloor]
    dsimp only
    have hfront := between_front front back
    rw [← hs] at hfront
    rwa [hfront]
  · rw [rewrite, hcount, Nat.zero_add]
  · rw [rewrite, hreport, List.append_nil]
  · rw [rewriteInPlace?, hdraft, foldlM_draft hstart, Option.map_some]
    dsimp only [Pending.draft]
    rw [List.reverse_reverse]
    rfl

/-! ### The order of the list -/

theorem descending_perm {imports' : List Import} (hp : imports.Perm imports')
    (hs : imports.Pairwise fun i j => i.start ≠ j.start) :
    descending imports' = descending imports :=
  descending_eq_of_perm ((perm_descending imports).trans hp) (pairwise_descending_lt hs)

/-- **The order of the specifiers does not matter**, if they start apart, and those of a scan do:
overlapping or no spans of the source at all, they are taken by descending start. -/
theorem rewrite_perm (disk : Disk) (root : Path) (source : Text) :
    (∀ imports imports' : List Import, imports.Perm imports' →
      imports.Pairwise (fun i j => i.start ≠ j.start) →
      rewrite disk root source imports' = rewrite disk root source imports) ∧
    ∀ imports : List Import, imports.Perm (scan source) →
      rewrite disk root source imports = rewriteSource disk root source := by
  constructor
  · intro imports imports' hp hs
    rw [rewrite, rewrite, descending_perm hp hs]
  · intro imports hp
    have hs : (scan source).Pairwise fun i j => i.start ≠ j.start :=
      (pairwise_start_lt source).imp Nat.ne_of_lt
    rw [rewriteSource, rewrite, rewrite, descending_perm hp.symm hs]

/-- Of three spans, the one in the middle overlaps the last one and is passed over. -/
theorem rewrite_perm_overlapping :
    let imports : List Import := [⟨0, 3, "x/y".toList, .static⟩, ⟨2, 5, "x/y".toList, .static⟩,
      ⟨4, 6, "x/y".toList, .static⟩]
    imports.Perm imports.reverse ∧ imports.Pairwise (fun i j => i.start ≠ j.start) ∧
      rewrite stocked ⟨"app".toList⟩ "abcdef".toList imports.reverse =
        rewrite stocked ⟨"app".toList⟩ "abcdef".toList imports ∧
      rewrite stocked ⟨"app".toList⟩ "abcdef".toList imports =
        ⟨"\"/node_modules/x/y.js\"d\"/node_modules/x/y.js\"".toList, 2, []⟩ := by
  intro imports
  have hp : imports.Perm imports.reverse := (List.reverse_perm imports).symm
  have hs : imports.Pairwise fun i j => i.start ≠ j.start := by decide
  have horder : descending imports = imports.reverse := descending_eq_reverse (by decide)
  refine ⟨hp, hs, (rewrite_perm stocked _ _).1 imports imports.reverse hp hs, ?_⟩
  rw [rewrite, horder]
  decide +kernel

end Unbundled.Import
