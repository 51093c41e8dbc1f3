import BlockLang.Proofs.Lowering.Expr
import BlockLang.Proofs.Syntax.Visits

/-!
# Lowering follows the tree

`Lowers` is what lowering did, seen from the states it went through. Some questions are about
lowering itself: what it would have done with other options, how often it can have come by the same
expression, which construct a body was made for. They need to know how lowering is put together, and
`Lower.Follows` says so: a part of lowering is made of tests, of other parts in a row, of parts with
something around them, of loops and of bodies, and **all that it comes by in the tree is in a list**
(`Visits`). What is true of everything that follows a tree is an induction over nine cases. That
lowering an expression follows the expression is shown together with what it sees to there
(`Lower.Minds.expr`).

A test (`Lower.Tests`) builds nothing: it asks for references, and it may give up. It is here that
the options come in. A test that goes well goes well, and in the same way, with fewer checks.
-/

namespace BlockLang

open List

/-- The options `o'` check nothing that `o` does not check. The file does not matter. -/
structure LowerOptions.Relaxes (o' o : LowerOptions) : Prop where
  forward : o'.rejectForwardReferences = true → o.rejectForwardReferences = true
  strict : o'.strictLocals = true → o.strictLocals = true

theorem LowerOptions.Relaxes.refl (o : LowerOptions) : o.Relaxes o := ⟨id, id⟩

/-- The span as it is reported. -/
def Span.inFile (span : Span) (file : UInt64) : Span := { span with file }

/-- Where a mistake is reported that is made here. -/
def Visit.place? : Visit → Option Span
  | expr span _ | stray span => some span
  | body _ _ _ => none

/-- Every one of the spans is the place of something in the list. -/
def Visits.Places (vs : Visits) (spans : List Span) : Prop :=
  ∀ span ∈ spans, ∃ v ∈ vs, v.place? = some span

namespace Lower

variable {α β : Type}

/-! ## Tests -/

/-- A part that builds nothing and reports nothing. It gives up at one of the spans, or else it
gives the same answer whenever less is checked. -/
def Tests (m : Lower α) (spans : List Span) : Prop :=
  ∀ (c : Context) (s : LoweringState),
    (∃ a scopes, ∀ o : LowerOptions, o.Relaxes c.options →
      m { c with options := o } s = .ok a { s with scopes }) ∨
    ∃ mistake, ∃ span ∈ spans, ∃ scopes,
      m c s = .error { mistake, span := span.inFile c.options.file } { s with scopes }

namespace Tests

variable {spans : List Span}

theorem pure : Tests (Pure.pure a : Lower α) spans :=
  fun _ s => Or.inl ⟨a, s.scopes, fun _ _ => rfl⟩

variable {span : Span}

theorem fail (mistake : Mistake) (h : span ∈ spans) :
    Tests (Lower.fail mistake span : Lower α) spans :=
  fun _ s => Or.inr ⟨mistake, span, h, s.scopes, rfl⟩

theorem bind {m : Lower α} {f : α → Lower β} (hm : Tests m spans) (hf : ∀ a, Tests (f a) spans) :
    Tests (m >>= f) spans := by
  intro c s
  rcases hm c s with ⟨a, scopes, hok⟩ | ⟨mistake, span, hspan, scopes, herror⟩
  · have hrun : ∀ o : LowerOptions, o.Relaxes c.options →
        (m >>= f) { c with options := o } s = f a { c with options := o } { s with scopes } := by
      intro o ho
      rw [bind_run, hok o ho]
    rcases hf a c { s with scopes } with
      ⟨b, scopes', hok'⟩ | ⟨mistake, span, hspan, scopes', herror⟩
    · exact Or.inl ⟨b, scopes', fun o ho => (hrun o ho).trans (hok' o ho)⟩
    · exact Or.inr ⟨mistake, span, hspan, scopes', (hrun _ (.refl _)).trans herror⟩
  · refine Or.inr ⟨mistake, span, hspan, scopes, ?_⟩
    rw [bind_run, herror]

theorem map {m : Lower α} {f : α → β} (hm : Tests m spans) : Tests (f <$> m) spans := by
  rw [map_eq_pure_bind]
  exact hm.bind fun _ => .pure

/-- What a test makes of the context, as long as that is not the options. -/
theorem ask {f : Context → Lower α} (hf : ∀ c, Tests (f c) spans)
    (hsame : ∀ (c : Context) (o : LowerOptions), f { c with options := o } = f c) :
    Tests (MonadReader.read >>= f) spans := by
  intro c s
  have hrun : ∀ o : LowerOptions, (MonadReader.read >>= f : Lower α) { c with options := o } s =
      f c { c with options := o } s := by
    intro o
    rw [← hsame c o]
    rfl
  rcases hf c c s with ⟨a, scopes, hok⟩ | ⟨mistake, span, hspan, scopes, herror⟩
  · exact Or.inl ⟨a, scopes, fun o ho => (hrun o).trans (hok o ho)⟩
  · exact Or.inr ⟨mistake, span, hspan, scopes, (hrun c.options).trans herror⟩

theorem mapM {f : α → Lower β} (hf : ∀ a, Tests (f a) spans) :
    ∀ as : List α, Tests (as.mapM f) spans
  | [] => by
    rw [mapM_nil]
    exact .pure
  | a :: rest => by
    rw [mapM_cons]
    exact (hf a).bind fun _ => (mapM hf rest).bind fun _ => .pure

/-! ### References -/

theorem onCurrent (f : ScopeId → Scopes → α × Scopes) : Tests (do
      let scope := (← read).scope
      onScopes (f scope)) spans :=
  fun c s => Or.inl ⟨(f c.scope s.scopes).1, (f c.scope s.scopes).2, fun _ _ => rfl⟩

theorem resolve? (name : String) : Tests (Lower.resolve? name) spans :=
  onCurrent fun scope s => s.resolve scope name

theorem resolveForAssignment (name : String) : Tests (Lower.resolveForAssignment name) spans :=
  onCurrent fun scope s => s.resolveForAssignment scope name

theorem declareAll (names : List String) : Tests (Lower.declareAll names) spans :=
  onCurrent fun scope s => ((), s.declareAll scope names)

theorem currentScope : Tests Lower.currentScope spans :=
  onCurrent fun scope s => ((s.get? scope).getD default, s)

theorem nilAsArray : Tests Lower.nilAsArray spans :=
  ask (fun _ => .pure) fun _ _ => rfl

/-- One of the two places where the options matter: a name that is not known. -/
theorem readLocal (name : String) (h : span ∈ spans) : Tests (Lower.readLocal name span) spans := by
  refine (resolve? name).bind fun found => ?_
  cases found with
  | some l => exact .pure
  | none =>
    intro c s
    have hassigned : Tests (do return Code.readLocal (← Lower.resolveForAssignment name)) spans :=
      (resolveForAssignment name).bind fun _ => .pure
    by_cases hstrict : c.options.strictLocals = true
    · refine Or.inr ⟨.unresolvedLocal name, span, h, s.scopes, ?_⟩
      show (if c.options.strictLocals = true then _ else _ : Lower Code) c s = _
      rw [if_pos hstrict]
      rfl
    · rcases hassigned c s with ⟨a, scopes, hok⟩ | ⟨mistake, span, hspan, scopes, herror⟩
      · refine Or.inl ⟨a, scopes, fun o ho => ?_⟩
        -- what is not checked is not checked by the others either
        have hlenient : ¬o.strictLocals = true := fun hs => hstrict (ho.strict hs)
        show (if o.strictLocals = true then _ else _ : Lower Code) { c with options := o } s = _
        rw [if_neg hlenient]
        exact hok o ho
      · refine Or.inr ⟨mistake, span, hspan, scopes, ?_⟩
        show (if c.options.strictLocals = true then _ else _ : Lower Code) c s = _
        rw [if_neg hstrict]
        exact herror

/-! ### Placement -/

theorem requireMethod (mistake : Mistake) (h : span ∈ spans) :
    Tests (Lower.requireMethod mistake span) spans := by
  refine ask (fun c => ?_) fun _ _ => rfl
  cases c.method with
  | some params => exact .pure
  | none => exact .fail mistake h

theorem requireClosureOrLoop (mistake : Mistake) (h : span ∈ spans) :
    Tests (Lower.requireClosureOrLoop mistake span) spans := by
  refine ask (fun c => ?_) fun _ _ => rfl
  cases c.kind.isClosure || c.inLoop with
  | true => exact .pure
  | false => exact .fail mistake h

theorem breakTarget (h : span ∈ spans) : Tests (Lower.breakTarget span) spans := by
  refine currentScope.bind fun scope => ?_
  cases scope.breakId with
  | some id => exact .pure
  | none => exact .fail _ h

theorem returnWith (value : Code) (h : span ∈ spans) :
    Tests (Lower.returnWith value span) spans := by
  refine currentScope.bind fun scope => ask (fun c => ?_) fun _ _ => rfl
  split
  · exact .pure
  · exact .pure
  · exact .fail _ h

theorem replay (params : Params) (h : span ∈ spans) : Tests (Lower.replay params span) spans := by
  have hread : ∀ name, Tests (Lower.replayRead span name) spans := by
    intro name
    refine (resolve? name).bind fun found => ?_
    cases found with
    | some l => exact .pure
    | none => exact .fail _ h
  unfold Lower.replay
  cases replayObstacle? params with
  | some what => exact .bind (.fail _ h) fun _ =>
      (mapM hread _).bind fun _ => (mapM (fun _ => (hread _).map) _).bind fun _ => .pure
  | none => exact (mapM hread _).bind fun _ => (mapM (fun _ => (hread _).map) _).bind fun _ => .pure

end Tests

/-! ## Parts -/

/-- **How lowering is put together**, and what it comes by in the tree. -/
inductive Follows : {α : Type} → Lower α → Visits → Prop
  | test {α : Type} {m : Lower α} {spans : List Span} {vs : Visits} :
      Tests m spans → vs.Places spans → Follows m vs
  /-- A test before a part. Only one of the two is ever given up on. -/
  | after {α β : Type} {m : Lower α} {f : α → Lower β} {spans : List Span} {vs : Visits} :
      Tests m spans → vs.Places spans → (∀ a, Follows (f a) vs) → Follows (m >>= f) vs
  | bind {α β : Type} {m : Lower α} {f : α → Lower β} {vs ws : Visits} :
      Follows m vs → (∀ a, Follows (f a) ws) → Follows (m >>= f) (vs ++ ws)
  | recover {α : Type} {m : Lower α} {vs : Visits} (fallback : α) :
      Follows m vs → Follows (Lower.recover fallback m) vs
  /-- The context may be looked at, but not the options. -/
  | ask {α : Type} {f : Context → Lower α} {vs : Visits} :
      (∀ c, Follows (f c) vs) →
      (∀ (c : Context) (o : LowerOptions), f { c with options := o } = f c) →
        Follows (MonadReader.read >>= f) vs
  | inContext {α : Type} {m : Lower α} {change : Change} {vs : Visits} :
      (∀ (c : Context) (o : LowerOptions),
        change.make { c with options := o } = { change.make c with options := o }) →
      Follows m vs → Follows (during change m) vs
  | loop {α : Type} {condition : Lower Code} {body : Lower (List Code)}
      {f : BreakId → Code → List Code → α} {vs ws : Visits} :
      Follows condition vs → Follows body ws → Follows (inLoop condition body f) (vs ++ ws)
  | built {α : Type} {code : Lower Code} {vs : Visits} (kind : BodyKind) (arity : Arity)
      (span : Span) (name : Context → String) (inner : ScopeId → Context → Context)
      (f : BodyId → Option BreakId → α) :
      (∀ (c : Context) (o : LowerOptions), name { c with options := o } = name c) →
      (∀ (scope : ScopeId) (c : Context) (o : LowerOptions),
        inner scope { c with options := o } = { inner scope c with options := o }) →
      Follows code vs → Follows (inBody kind arity span name inner f code)
        (.body kind arity span :: vs)
  | cover {α : Type} {m : Lower α} {vs ws : Visits} :
      Follows m vs → ws.Covers vs → Follows m ws

namespace Follows

variable {vs ws us : Visits}

theorem places_nil : vs.Places [] := by
  intro span hspan
  simp at hspan

variable {m : Lower α} {f : α → Lower β} {span : Span}

theorem quiet (h : Tests m []) : Follows m vs := .test h places_nil

theorem pure : Follows (Pure.pure a : Lower α) vs := quiet .pure

theorem first (hm : Tests m []) (hf : ∀ a, Follows (f a) vs) : Follows (m >>= f) vs :=
  .after hm places_nil hf

theorem ending (hm : Follows m vs) (hf : ∀ a, Tests (f a) []) : Follows (m >>= f) vs := by
  have hf : ∀ a, Follows (f a) [] := fun a => quiet (hf a)
  have h := hm.bind hf
  rwa [append_nil] at h

theorem sublist (hm : Follows m vs) (h : vs.Sublist ws) : Follows m ws :=
  hm.cover (.of_sublist h)

theorem perm (hm : Follows m vs) (h : vs.Perm ws) : Follows m ws :=
  hm.cover (.of_perm h)

/-- What is gone through more than once may be gone through twice. -/
theorem twice (hm : Follows m (vs.repeated ++ vs.repeated)) : Follows m vs.repeated := by
  refine hm.cover (.of_repeated fun v hv => ?_)
  obtain ⟨w, hw, rfl⟩ := mem_map.mp ((mem_append.mp hv).elim id id)
  rw [Visit.repeated_repeated]
  exact mem_map_of_mem hw

theorem ofRun (hm : Follows m' vs) (h : ∀ c s, m c s = m' c s) : Follows m vs := by
  rwa [Lower.ext h]

/-! ### The pieces that do not recurse -/

theorem node (hm : Follows m vs) : Follows m (.expr span false :: vs) :=
  hm.sublist (sublist_cons_self _ _)

theorem tested (hm : Tests m [span]) (hf : ∀ a, Follows (f a) vs) :
    Follows (m >>= f) (.expr span false :: vs) := by
  refine .after hm (fun place hplace => ?_) fun a => (hf a).node
  rw [mem_singleton.mp hplace]
  exact ⟨.expr span false, mem_cons_self, rfl⟩

theorem leaf (hm : Tests m [span]) : Follows m [.expr span false] := by
  rw [← bind_pure m]
  exact tested hm fun _ => .pure

/-- The other place where the options matter: a default value that reads a later parameter. -/
theorem testsForward (mistake : Mistake) (place : Span) : Tests (do
      if (← read).options.rejectForwardReferences then
        Lower.fail mistake place) [place] := by
  intro c s
  by_cases hreject : c.options.rejectForwardReferences = true
  · refine Or.inr ⟨mistake, place, mem_singleton_self _, s.scopes, ?_⟩
    show (if c.options.rejectForwardReferences = true then _ else _ : Lower Unit) c s = _
    rw [if_pos hreject]
    rfl
  · refine Or.inl ⟨(), s.scopes, fun o ho => ?_⟩
    have hnot : ¬o.rejectForwardReferences = true := fun h => hreject (ho.forward h)
    show (if o.rejectForwardReferences = true then _ else _ : Lower Unit)
      { c with options := o } s = _
    rw [if_neg hnot]
    rfl

theorem places_default (span : Span) (e : Located Expr) :
    (Visit.strays span e ++ Expr.visits e : Visits).Places
      [if e.span = {} then span else e.span] := by
  obtain ⟨own, value⟩ := e
  intro place hplace
  rw [mem_singleton.mp hplace]
  unfold Visit.strays Expr.visits
  by_cases hspan : own = {}
  · exact ⟨.stray span, by simp [hspan], by simp [hspan, Visit.place?]⟩
  · exact ⟨.expr own false, by simp, by simp [hspan, Visit.place?]⟩

end Follows

end Lower

end BlockLang
