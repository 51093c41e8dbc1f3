import BlockLang.Proofs.Lowering.Acceptance
import Mathlib.Data.List.Perm.Subperm

/-!
# How often a mistake is reported

A statement with a mistake is reported and left out, and lowering goes on behind it. An expression
that is come by once can make one mistake: its own test fails once, or it is given up before. So the
places of the reports are counted by the places in the tree (`Visits.Admits`), and that is kept by
every way in which lowering is put together (`Lower.Follows.tells`).

**It is not true that no mistake is reported twice.** What stands in the targets of a spread is come
by three times, and a lambda in an index there reports what is in it each time
(`Program.reported_thrice`). With the targets set aside, two reports with one span are two
expressions with one span (`Program.reported_again`).
-/

namespace BlockLang

open List

/-! ## Counting places -/

namespace Visit

/-- The place, in the file that reports are made for. -/
def isAt (file : UInt64) (place : Span) (v : Visit) : Bool :=
  v.place?.any fun span => span.inFile file == place

/-- Whether there may be more than one report. -/
def isLoose : Visit → Bool
  | expr _ again => again
  | stray _ => true
  | body _ _ _ => false

theorem isAt_repeated (file : UInt64) (place : Span) (v : Visit) :
    v.repeated.isAt file place = v.isAt file place := by
  cases v <;> rfl

/-- What has a place and is gone through more than once is loose. -/
theorem isLoose_repeated {file : UInt64} {v : Visit} (h : v.isAt file place = true) :
    v.repeated.isLoose = true := by
  cases v with
  | body kind arity span => simp [isAt, place?] at h
  | _ => rfl

theorem repeated_of_isLoose {v : Visit} (h : v.isLoose = true) : v.repeated = v := by
  cases v with
  | expr span again =>
    have hagain : again = true := h
    rw [hagain]
    rfl
  | _ => rfl

end Visit

namespace Visits

/-- Nothing at the place is loose. -/
def Steady (vs : Visits) (file : UInt64) (place : Span) : Prop :=
  ∀ v ∈ vs, v.isAt file place = true → v.isLoose = false

/-- At a steady place there are no more reports than there is in the tree. -/
def Admits (vs : Visits) (file : UInt64) (reports : List Diagnostic) : Prop :=
  ∀ place, vs.Steady file place →
    (reports.map (·.span)).count place ≤ vs.countP (Visit.isAt file place)

namespace Admits

variable {vs ws : Visits} {file : UInt64} {ds es : List Diagnostic}

theorem nil : vs.Admits file [] :=
  fun _ _ => Nat.zero_le _

theorem append (hd : vs.Admits file ds) (he : ws.Admits file es) :
    (vs ++ ws : Visits).Admits file (ds ++ es) := by
  intro place hsteady
  have hleft : vs.Steady file place := fun v hv => hsteady v (mem_append_left _ hv)
  have hright : ws.Steady file place := fun v hv => hsteady v (mem_append_right _ hv)
  rw [map_append, count_append, countP_append]
  exact Nat.add_le_add (hd place hleft) (he place hright)

theorem sublist (h : vs.Admits file ds) (hsub : es.Sublist ds) : vs.Admits file es :=
  fun place hsteady => Nat.le_trans ((hsub.map _).count_le place) (h place hsteady)

theorem perm (h : vs.Admits file ds) (hperm : es.Perm ds) : vs.Admits file es := by
  intro place hsteady
  rw [(hperm.map _).count_eq place]
  exact h place hsteady

theorem single {span : Span} {mistake : Mistake} {spans : List Span} (hplaces : vs.Places spans)
    (hspan : span ∈ spans) : vs.Admits file [{ mistake, span := span.inFile file }] := by
  obtain ⟨v, hv, hplace⟩ := hplaces span hspan
  intro place _
  by_cases heq : span.inFile file = place
  · have hat : v.isAt file place = true := by simp [Visit.isAt, hplace, heq]
    have hpos : 0 < vs.countP (Visit.isAt file place) := countP_pos_iff.mpr ⟨v, hv, hat⟩
    simpa [heq] using hpos
  · simp [heq]

theorem cover (h : vs.Admits file ds) (hcovers : ws.Covers vs) : ws.Admits file ds := by
  intro place hsteady
  have hnot : ∀ v ∈ vs, v.isAt file place = true → v.repeated ∉ ws := by
    intro v hv hat hmem
    have hloose := Visit.isLoose_repeated hat
    rw [hsteady _ hmem (by rwa [Visit.isAt_repeated])] at hloose
    exact absurd hloose (by simp)
  have hsteady' : vs.Steady file place := by
    intro v hv hat
    by_contra hloose
    have hsame := Visit.repeated_of_isLoose (eq_true_of_ne_false hloose)
    have hmem : v ∈ ws := (hcovers.mem hv).elim id fun hmem => hsame ▸ hmem
    exact hnot v hv hat (hsame.symm ▸ hmem)
  have hsub : (vs.filter (Visit.isAt file place)).Subperm (ws.filter (Visit.isAt file place)) := by
    refine subperm_ext_iff.mpr fun v hv => ?_
    obtain ⟨hmem, hat⟩ := mem_filter.mp hv
    rw [count_filter hat, count_filter hat]
    exact (hcovers v hmem).resolve_left (hnot v hmem hat)
  refine Nat.le_trans (h place hsteady') ?_
  rw [countP_eq_length_filter, countP_eq_length_filter]
  exact hsub.length_le

end Admits

end Visits

namespace Lower

variable {α β : Type}

/-! ## What is reported on the way -/

/-- The reports that are new in an outcome, with the one that it is given up with. -/
def Tells (vs : Visits) (file : UInt64) (s : LoweringState) :
    EStateM.Result Diagnostic LoweringState α → Prop
  | .ok _ s' => ∃ new, s'.mistakes = s.mistakes ++ new ∧ vs.Admits file new
  | .error d s' => ∃ new, s'.mistakes = s.mistakes ++ new ∧ vs.Admits file (new ++ [d])

theorem Tells.behind {vs ws : Visits} {file : UInt64} (h : Tells ws file s₁ r)
    (hnew : s₁.mistakes = s.mistakes ++ new) (hadmits : vs.Admits file new) :
    Tells (vs ++ ws) file s r := by
  cases r with
  | ok a s₂ =>
    obtain ⟨new', hnew', hadmits'⟩ := h
    exact ⟨new ++ new', by rw [hnew', hnew, append_assoc], hadmits.append hadmits'⟩
  | error d s₂ =>
    obtain ⟨new', hnew', hadmits'⟩ := h
    refine ⟨new ++ new', by rw [hnew', hnew, append_assoc], ?_⟩
    rw [append_assoc]
    exact hadmits.append hadmits'

theorem Tells.cover {vs ws : Visits} {file : UInt64} (h : Tells vs file s r)
    (hcovers : ws.Covers vs) : Tells ws file s r := by
  cases r with
  | ok a s₂ | error d s₂ =>
    obtain ⟨new, hnew, hadmits⟩ := h
    exact ⟨new, hnew, hadmits.cover hcovers⟩

theorem Tests.tells {vs : Visits} (h : Tests m spans) (hplaces : vs.Places spans) (c : Context)
    (s : LoweringState) : Tells vs c.options.file s (m c s) := by
  rcases h c s with ⟨a, scopes, hok⟩ | ⟨mistake, span, hspan, scopes, herror⟩
  · have hrun : m c s = .ok a { s with scopes } := hok c.options (.refl _)
    rw [hrun]
    exact ⟨[], (append_nil _).symm, .nil⟩
  · rw [herror]
    exact ⟨[], (append_nil _).symm, .single hplaces hspan⟩

/-- **What follows a tree reports no more than there is in the tree.** -/
theorem Follows.tells {vs : Visits} (h : Follows m vs) :
    ∀ (c : Context) (s : LoweringState), Tells vs c.options.file s (m c s) := by
  induction h with
  | test hm hplaces => exact hm.tells hplaces
  | after hm hplaces _ ih =>
    rename_i m f spans vs _
    intro c s
    rw [bind_run]
    rcases hm c s with ⟨a, scopes, hok⟩ | ⟨mistake, span, hspan, scopes, herror⟩
    · have hrun : m c s = .ok a { s with scopes } := hok c.options (.refl _)
      rw [hrun]
      exact ih a c { s with scopes }
    · rw [herror]
      exact ⟨[], (append_nil _).symm, .single hplaces hspan⟩
  | bind _ _ ihm ihf =>
    rename_i m f vs ws _ _
    intro c s
    have hm := ihm c s
    rw [bind_run]
    cases hs : m c s with
    | error d s₁ =>
      rw [hs] at hm
      exact hm.cover (.of_sublist (sublist_append_left _ _))
    | ok a s₁ =>
      rw [hs] at hm
      obtain ⟨new, hnew, hadmits⟩ := hm
      exact (ihf a c s₁).behind hnew hadmits
  | recover fallback _ ih =>
    rename_i m vs _
    intro c s
    have hm := ih c s
    rw [recover_run]
    cases hs : m c s with
    | ok a s' =>
      rw [hs] at hm
      exact hm
    | error d s' =>
      rw [hs] at hm
      obtain ⟨new, hnew, hadmits⟩ := hm
      refine ⟨new ++ [d], ?_, hadmits⟩
      show s'.mistakes ++ [d] = _
      rw [hnew, append_assoc]
  | ask _ _ ih => exact fun c s => ih c c s
  | inContext hf _ ih =>
    rename_i m change vs _
    intro c s
    have hoptions : (change.make c).options = c.options := by
      rw [show change.make c = _ from hf c c.options]
    rw [during_run, ← hoptions]
    exact ih (change.make c) s
  | loop _ _ ihc ihb =>
    rename_i condition body f vs ws _ _
    intro c s
    have hcondition := ihc { c with inLoop := true } (s.enterLoop c.scope)
    unfold inLoop
    rw [reading_run]
    dsimp only
    cases hs : condition { c with inLoop := true } (s.enterLoop c.scope) with
    | ok code s₁ =>
      rw [hs] at hcondition
      obtain ⟨new, hnew, hadmits⟩ := hcondition
      have hbody := (ihb { c with inLoop := true } s₁).behind hnew hadmits
      dsimp only
      cases hs' : body { c with inLoop := true } s₁ with
      | ok codes s₂ | error d s₂ =>
        rw [hs'] at hbody
        exact hbody
    | error d s₁ =>
      rw [hs] at hcondition
      obtain ⟨new, hnew, hadmits⟩ := hcondition
      have hbody := ihb { c with inLoop := true } s₁
      dsimp only
      cases hs' : body { c with inLoop := true } s₁ with
      | ok codes s₂ =>
        -- the mistake of the condition comes last
        rw [hs'] at hbody
        obtain ⟨new', hnew', hadmits'⟩ := hbody
        refine ⟨new ++ new', ?_, (hadmits.append hadmits').perm ?_⟩
        · show s₂.mistakes = _
          rw [hnew', hnew, append_assoc]
          rfl
        · rw [append_assoc, append_assoc]
          exact perm_append_comm.append_left new
      | error d' s₂ =>
        have hbody := hbody.behind hnew (hadmits.sublist (sublist_append_left _ _))
        rw [hs'] at hbody
        exact hbody
  | built kind arity span name inner f _ hinner _ ih =>
    rename_i code vs _ _
    intro c s
    unfold inBody
    rw [reading_run]
    dsimp only
    have hoptions : (inner (s.scopes.openScope c.scope kind).1 c).options = c.options := by
      rw [show inner _ c = _ from hinner _ c c.options]
    have hcode := ih (inner (s.scopes.openScope c.scope kind).1 c) (s.enter c.scope kind)
    rw [hoptions] at hcode
    have hcode := hcode.cover (.of_sublist (sublist_cons_self (.body kind arity span) vs))
    cases hs : code (inner (s.scopes.openScope c.scope kind).1 c) (s.enter c.scope kind) with
    | error d s' | ok result s' =>
      rw [hs] at hcode
      exact hcode
  | cover _ hcovers ih => exact fun c s => (ih c s).cover hcovers

end Lower

/-! ## Programs -/

namespace Program

variable {p : Program} {options : LowerOptions} {ds : List Diagnostic}

theorem lower_error_iff :
    p.lower options = .error ds ↔ (p.lowering options).mistakes = ds ∧ ds ≠ [] := by
  unfold lower
  dsimp only
  cases hmistakes : (p.lowering options).mistakes with
  | nil => simp
  | cons d rest =>
    simp only [isEmpty_cons, Bool.false_eq_true, if_false, Except.error.injEq]
    constructor
    · rintro rfl
      exact ⟨rfl, by simp⟩
    · exact fun h => h.1

theorem reports_admitted (h : p.lower options = .error ds) : p.visits.Admits options.file ds := by
  obtain ⟨hmistakes, _⟩ := lower_error_iff.mp h
  obtain ⟨codes, s, hcodes, heq⟩ := p.lowering_eq options
  have htells := (Lower.Minds.statements p.body).follows.tells (context options)
    (({} : LoweringState).enter 0 .topLevel)
  rw [hcodes] at htells
  obtain ⟨new, hnew, hadmits⟩ := htells
  have hds : new = ds := by
    rw [← hmistakes, heq]
    exact hnew.symm
  exact hds ▸ hadmits

theorem exists_spans_of_two_visits {file : UInt64} (hspans : p.spans.Nodup)
    (hsteady : p.visits.Steady file place) (htwo : 2 ≤ p.visits.countP (Visit.isAt file place)) :
    ∃ span ∈ p.spans, ∃ other ∈ p.spans, other ≠ span ∧ span.inFile file = place ∧
      other.inFile file = place := by
  have hspan : ∀ v ∈ p.visits.filter (Visit.isAt file place),
      ∃ span, v.span? = some span ∧ span.inFile file = place := by
    intro v hv
    obtain ⟨hmem, hat⟩ := mem_filter.mp hv
    have hloose := hsteady v hmem hat
    cases v with
    | expr span again => exact ⟨span, rfl, by simpa [Visit.isAt, Visit.place?] using hat⟩
    | stray span => exact absurd hloose (by simp [Visit.isLoose])
    | body kind arity span => exact absurd hat (by simp [Visit.isAt, Visit.place?])
  rw [countP_eq_length_filter] at htwo
  have hsub : ((p.visits.filter (Visit.isAt file place)).filterMap Visit.span?).Sublist p.spans :=
    List.Sublist.filterMap _ filter_sublist
  cases hl : p.visits.filter (Visit.isAt file place) with
  | nil => simp [hl] at htwo
  | cons v more =>
    cases more with
    | nil => simp [hl] at htwo
    | cons w rest =>
      rw [hl] at hspan hsub
      obtain ⟨span, hv, hplace⟩ := hspan v (by simp)
      obtain ⟨other, hw, hplace'⟩ := hspan w (by simp)
      rw [filterMap_cons_some hv, filterMap_cons_some hw] at hsub
      have hne := (nodup_cons.mp (hsub.nodup hspans)).1
      refine ⟨span, hsub.subset (by simp), other, hsub.subset (by simp), ?_, hplace, hplace'⟩
      rintro rfl
      exact hne (by simp)

/-- **Where two reports have one span** although no two expressions have: the span is that of an
expression in a target that is gone through more than once, or that of a callable which stands for
a default value without a span, or two expressions of different files are reported as if they were
in one file. -/
theorem reported_again {place : Span} (h : p.lower options = .error ds) (hspans : p.spans.Nodup)
    (htwice : 2 ≤ (ds.map (·.span)).count place) :
    ∃ span, span.inFile options.file = place ∧
      (.expr span true ∈ p.visits ∨ .stray span ∈ p.visits ∨
        span ∈ p.spans ∧ ∃ other ∈ p.spans, other ≠ span ∧ other.inFile options.file = place) := by
  by_cases hsteady : p.visits.Steady options.file place
  · have htwo := Nat.le_trans htwice (reports_admitted h place hsteady)
    obtain ⟨span, hspan, other, hother, hne, hplace, hplace'⟩ :=
      exists_spans_of_two_visits hspans hsteady htwo
    exact ⟨span, hplace, Or.inr (Or.inr ⟨hspan, other, hother, hne, hplace'⟩)⟩
  · unfold Visits.Steady at hsteady
    push Not at hsteady
    obtain ⟨v, hv, hat, hloose⟩ := hsteady
    cases v with
    | expr span again =>
      have hagain : again = true := by simpa [Visit.isLoose] using hloose
      exact ⟨span, by simpa [Visit.isAt, Visit.place?] using hat, Or.inl (hagain ▸ hv)⟩
    | stray span =>
      exact ⟨span, by simpa [Visit.isAt, Visit.place?] using hat, Or.inr (Or.inl hv)⟩
    | body kind arity span => exact absurd hat (by simp [Visit.isAt, Visit.place?])

/-- `$a[-> { x }], $b = $c`, where nothing is known of `x`. -/
def lambdaInTarget : Program where
  body := [⟨{ start := 0, stop := 19 }, .multiAssign
    ⟨[⟨{ start := 0, stop := 10 }, .index ⟨{ start := 0, stop := 2 }, .globalVar "a"⟩
        [⟨{ start := 3, stop := 9 }, .lambda ⟨{ start := 3, stop := 9 },
          ⟨Params.empty, [⟨{ start := 6, stop := 7 }, .localVar "x"⟩]⟩⟩⟩]⟩,
      ⟨{ start := 12, stop := 14 }, .globalVar "b"⟩], none, []⟩
    (some ⟨{ start := 17, stop := 19 }, .globalVar "c"⟩)⟩]

/-- The one mistake in it. -/
def unknownInTarget : Diagnostic :=
  { mistake := .unresolvedLocal "x", span := { start := 6, stop := 7 } }

theorem lambdaInTarget_mistakes : (lambdaInTarget.lowering {}).mistakes =
    [unknownInTarget, unknownInTarget, unknownInTarget] := by
  decide +kernel

theorem lambdaInTarget_spans : lambdaInTarget.spans.Nodup := by
  decide +kernel

theorem lambdaInTarget_lower : lambdaInTarget.lower {} =
    .error [unknownInTarget, unknownInTarget, unknownInTarget] :=
  lower_error_iff.mpr ⟨lambdaInTarget_mistakes, by simp⟩

/-- The mistake in `lambdaInTarget` is reported for each way in which the right side may spread. -/
theorem reported_thrice : lambdaInTarget.spans.Nodup ∧
    ∃ d, lambdaInTarget.lower {} = .error [d, d, d] :=
  ⟨lambdaInTarget_spans, unknownInTarget, lambdaInTarget_lower⟩

/-- The place of the mistake in `lambdaInTarget` is one in a target. -/
theorem lambdaInTarget_reported_again :
    ∃ ds place span, lambdaInTarget.lower {} = .error ds ∧ lambdaInTarget.spans.Nodup ∧
      2 ≤ (ds.map (·.span)).count place ∧ span.inFile 0 = place ∧
      (.expr span true ∈ lambdaInTarget.visits ∨ .stray span ∈ lambdaInTarget.visits ∨
        span ∈ lambdaInTarget.spans ∧
          ∃ other ∈ lambdaInTarget.spans, other ≠ span ∧ other.inFile 0 = place) := by
  have htwice : 2 ≤ ([unknownInTarget, unknownInTarget, unknownInTarget].map
      (·.span)).count unknownInTarget.span := by decide
  obtain ⟨span, hplace, hwhere⟩ :=
    reported_again lambdaInTarget_lower lambdaInTarget_spans htwice
  exact ⟨_, _, span, lambdaInTarget_lower, lambdaInTarget_spans, htwice, hplace, hwhere⟩

end Program

end BlockLang
