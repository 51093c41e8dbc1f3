import BlockLang.Arity
import BlockLang.Code.Reference

/-!
# What there is to come by in a tree

Lowering goes through the tree once, with one exception: **the targets of a spread are gone through
again and again**, for an array that is large enough, for one that is not, and for a value that is
no array at all. `Visit` is what lowering can come by, and `Expr.visits` lists it for a tree, every
expression once, with a note whether it stands in such a target.

The list knows nothing of the order of things and nothing of how often something that is gone
through again is gone through. Two lists are therefore compared by `Visits.Covers`.
-/

namespace BlockLang

/-- What lowering can come by in a tree. -/
inductive Visit where
  /-- An expression. `again` says that it stands in a target that is gone through more than once. -/
  | expr (span : Span) (again : Bool)
  /-- A default value without a span, which is spoken of with the span of its callable. -/
  | stray (span : Span)
  /-- Something that becomes a body of its own. -/
  | body (kind : BodyKind) (arity : Arity) (span : Span)
deriving DecidableEq, Repr

namespace Visit

/-- The same, in a target that is gone through more than once. -/
def repeated : Visit → Visit
  | expr span _ => expr span true
  | v => v

/-- The span of an expression. -/
def span? : Visit → Option Span
  | expr span _ => some span
  | _ => none

@[simp] theorem repeated_repeated (v : Visit) : v.repeated.repeated = v.repeated := by
  cases v <;> rfl

end Visit

abbrev Visits := List Visit

namespace Visits

/-- All of it, gone through more than once. -/
def repeated (vs : Visits) : Visits := vs.map Visit.repeated

/-- Gone through more than once or not. -/
def repeatedIf : Bool → Visits → Visits
  | true, vs => vs.repeated
  | false, vs => vs

@[simp] theorem repeated_append (vs ws : Visits) :
    (vs ++ ws : Visits).repeated = vs.repeated ++ ws.repeated :=
  List.map_append

/-- All of `vs` is in `ws`, as often, unless it is gone through again there anyway. -/
def Covers (ws vs : Visits) : Prop :=
  ∀ v ∈ vs, v.repeated ∈ ws ∨ vs.count v ≤ ws.count v

namespace Covers

variable {us vs ws : Visits}

theorem of_sublist (h : vs.Sublist ws) : ws.Covers vs :=
  fun v _ => Or.inr (h.count_le v)

theorem of_perm (h : vs.Perm ws) : ws.Covers vs :=
  fun v _ => Or.inr (Nat.le_of_eq (h.count_eq v))

theorem of_repeated (h : ∀ v ∈ vs, v.repeated ∈ ws) : ws.Covers vs :=
  fun v hv => Or.inl (h v hv)

theorem mem (h : ws.Covers vs) (hv : v ∈ vs) : v ∈ ws ∨ v.repeated ∈ ws := by
  rcases h v hv with hw | hle
  · exact Or.inr hw
  · exact Or.inl (List.count_pos_iff.mp (Nat.lt_of_lt_of_le (List.count_pos_iff.mpr hv) hle))

end Covers

end Visits

/-! ## The tree -/

/-- Whether the value is spread over the targets. An array of as many items as there are targets is
not, and neither is what a single rest takes. -/
def Targets.spread : Targets → Option (Located Expr) → Bool
  | ⟨pre, none, []⟩, some ⟨_, .array items⟩ =>
    !((Expr.fixedItems? (.array items)).isSome && items.length == pre.length)
  | ⟨[], some _, []⟩, some _ => false
  | _, _ => true

@[simp] theorem Targets.spread_none (targets : Targets) : targets.spread none = true := by
  unfold Targets.spread
  split
  · contradiction
  · contradiction
  · rfl

/-- What there is to say of a default value in a callable at `span`, besides what is in it. -/
def Visit.strays (span : Span) (e : Located Expr) : Visits :=
  if e.span = {} then [.stray span] else []

mutual

/-- What there is to come by in an expression. -/
def Expr.visits : Located Expr → Visits
  | ⟨span, e⟩ => .expr span false :: e.partVisits span

def Expr.partVisits (span : Span) : Expr → Visits
  | .array items => Expr.visitsEach items
  | .hash pairs => Expr.visitsPairs pairs
  | .splat inner | .not inner => Expr.visits inner
  | .assign target value => Target.visits target ++ Expr.visits value
  | .multiAssign targets value =>
    Visits.repeatedIf (targets.spread value) targets.visits ++ Expr.visitsOption value
  | .call receiver _ args block =>
    Expr.visitsOption receiver ++ Expr.visitsEach args ++ BlockArg.visits block
  | .super args block => Expr.visitsEach args ++ BlockArg.visits block
  | .bareSuper block => BlockArg.visits block
  | .yield args => Expr.visitsEach args
  | .define _ params body =>
    .body .method params.arity span :: (params.visits span ++ Expr.visitsEach body)
  | .lambda literal => BlockLiteral.visits .lambda literal
  | .classDef _ superclass body =>
    Expr.visitsOption superclass ++ .body .classBody {} span :: Expr.visitsEach body
  | .moduleDef _ body => .body .moduleBody {} span :: Expr.visitsEach body
  | .ifElse condition thenBranch elseBranch =>
    Expr.visits condition ++ Expr.visitsEach thenBranch ++ Expr.visitsEach elseBranch
  | .loop condition body _ _ => Expr.visits condition ++ Expr.visitsEach body
  | .forEach target iterable body =>
    Expr.visits iterable ++
      .body .block { pre := 1 } span :: (Target.visits target ++ Expr.visitsEach body)
  | .and left right | .or left right => Expr.visits left ++ Expr.visits right
  | .breakWith value | .nextWith value | .returnWith value => Expr.visitsOption value
  | .sequence body => Expr.visitsEach body
  | _ => []

def Expr.visitsOption : Option (Located Expr) → Visits
  | none => []
  | some e => Expr.visits e

def Expr.visitsEach : List (Located Expr) → Visits
  | [] => []
  | e :: rest => Expr.visits e ++ Expr.visitsEach rest

def Expr.visitsPairs : List (Located Expr × Located Expr) → Visits
  | [] => []
  | (key, value) :: rest => Expr.visits key ++ Expr.visits value ++ Expr.visitsPairs rest

/-- What there is to come by when a value is assigned to the target. -/
def Target.visits : Located Target → Visits
  | ⟨_, .index receiver args⟩ => Expr.visits receiver ++ Expr.visitsEach args
  | ⟨_, .attribute receiver _⟩ => Expr.visits receiver
  | ⟨_, .nested targets⟩ => targets.visits.repeated
  | _ => []

def Target.visitsEach : List (Located Target) → Visits
  | [] => []
  | target :: rest => Target.visits target ++ Target.visitsEach rest

def RestTarget.visits : Option RestTarget → Visits
  | some (.named target) => Target.visits target
  | _ => []

/-- What there is to come by when each of the targets is assigned once. -/
def Targets.visits : Targets → Visits
  | ⟨pre, rest, post⟩ => Target.visitsEach pre ++ RestTarget.visits rest ++ Target.visitsEach post

def BlockArg.visits : Option BlockArg → Visits
  | none => []
  | some (.pass value) => Expr.visits value
  | some (.literal block) => BlockLiteral.visits .block block

def BlockLiteral.visits (kind : BodyKind) : Located BlockLiteral → Visits
  | ⟨span, ⟨params, body⟩⟩ =>
    .body kind params.arity span :: (params.visits span ++ Expr.visitsEach body)

/-- The parameters of a callable at `span`. Patterns are targets of a spread. -/
def Params.visits (span : Span) : Params → Visits
  | ⟨pre, optional, _, post, keywords, _, _, _⟩ =>
    OptionalParam.visits span optional ++ KeywordParam.visits span keywords ++
      (Pattern.visits pre ++ Pattern.visits post).repeated

def OptionalParam.visits (span : Span) : List (Located OptionalParam) → Visits
  | [] => []
  | ⟨_, ⟨_, value⟩⟩ :: rest =>
    Visit.strays span value ++ Expr.visits value ++ OptionalParam.visits span rest

def KeywordParam.visits (span : Span) : List (Located KeywordParam) → Visits
  | [] => []
  | ⟨_, ⟨_, none⟩⟩ :: rest => KeywordParam.visits span rest
  | ⟨_, ⟨_, some value⟩⟩ :: rest =>
    Visit.strays span value ++ Expr.visits value ++ KeywordParam.visits span rest

def Pattern.visits : List (Located Pattern) → Visits
  | [] => []
  | ⟨_, .required _⟩ :: rest => Pattern.visits rest
  | ⟨_, .destructure targets⟩ :: rest => targets.visits ++ Pattern.visits rest

end

def Program.visits (p : Program) : Visits := Expr.visitsEach p.body

/-- The spans of all expressions of the program, each as often as there are expressions with it. -/
def Program.spans (p : Program) : List Span := p.visits.filterMap Visit.span?

end BlockLang
