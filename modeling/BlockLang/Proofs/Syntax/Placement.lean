import BlockLang.Code.Reference
import BlockLang.Syntax.Names

/-!
# Where control flow may stand

A `break` needs a closure or a loop to leave, a `return` something to return from, a `yield` or a
`super` a method. Whether they have it is a matter of the tree alone: of the bodies and loops that
an expression stands in (`Enclosure`), innermost first. `Expr.parts` says what every form of the tree
puts around its parts, `Expr.Within` follows it down, and `Expr.legalIn` is the rule.

Lowering decides the same question with what it hands down and what it notes in the scopes. That
the two agree is the subject of `Proofs/Lowering/Acceptance.lean`; nothing here mentions lowering.
-/

namespace BlockLang

/-- What an expression can stand in: a body, or a loop of a body. -/
inductive Enclosure where
  | program
  | method (params : Params)
  /-- The body of a class or module. -/
  | classBody
  /-- The body of a block or of a `for`. -/
  | block
  | lambda
  | loop

namespace Enclosure

def isLoop : Enclosure → Bool
  | loop => true
  | _ => false

def isBlock : Enclosure → Bool
  | block => true
  | _ => false

def isLambda : Enclosure → Bool
  | lambda => true
  | _ => false

/-- What a `return` can end. -/
def isReturnable : Enclosure → Bool
  | program | method _ | lambda => true
  | _ => false

def params? : Enclosure → Option Params
  | method params => some params
  | _ => none

/-! ## Innermost first -/

/-- The expression is in a loop of its innermost body. -/
def inLoop (around : List Enclosure) : Bool := around.head?.any isLoop

/-- The innermost body is a closure. -/
def inClosure (around : List Enclosure) : Bool :=
  (around.find? (!·.isLoop)).any fun body => body.isBlock || body.isLambda

/-- Outward through blocks, the first other body can be returned from. -/
def canReturn (around : List Enclosure) : Bool :=
  (around.find? fun k => !k.isLoop && !k.isBlock).any isReturnable

/-- Outward through closures, the parameters of the method that is the first other body. -/
def method? (around : List Enclosure) : Option Params :=
  (around.find? fun k => !k.isLoop && !k.isBlock && !k.isLambda).bind params?

end Enclosure

def Pattern.isPlain : Pattern → Bool
  | .required _ => true
  | .destructure _ => false

/-- Parameters that a bare `super` can pass on. -/
def Params.replayable (p : Params) : Bool :=
  p.post.isEmpty && p.keywords.isEmpty && p.keywordRest.isNone && p.pre.all (·.value.isPlain)

namespace Expr

/-- **The rule of placement**, for one node. -/
def legalIn (around : List Enclosure) : Expr → Bool
  | .breakWith _ | .nextWith _ | .redo | .retry =>
    Enclosure.inClosure around || Enclosure.inLoop around
  | .returnWith _ => Enclosure.canReturn around || Enclosure.inLoop around
  | .yield _ | .super _ _ => (Enclosure.method? around).isSome
  | .bareSuper _ => (Enclosure.method? around).any (·.replayable)
  | _ => true

end Expr

/-! ## The parts of an expression -/

/-- The expressions in a pattern: receivers and indices of the places it assigns. -/
def Pattern.exprs : Pattern → List (Located Expr)
  | .required _ => []
  | .destructure targets => targets.scopeChildren

/-- The expressions in a parameter list. -/
def Params.exprs (p : Params) : List (Located Expr) :=
  p.pre.flatMap (·.value.exprs) ++ p.optional.map (·.value.default) ++
    p.post.flatMap (·.value.exprs) ++ p.keywords.flatMap (·.value.default.toList)

/-- Parts with what is put around them. -/
abbrev Parts := List (List Enclosure × Located Expr)

namespace Parts

/-- Parts that nothing is put around. -/
def here (es : List (Located Expr)) : Parts := es.map fun e => ([], e)

def inside (k : Enclosure) (es : List (Located Expr)) : Parts := es.map fun e => ([k], e)

/-- Parameters and statements of a callable. -/
def callable (k : Enclosure) (params : Params) (body : List (Located Expr)) : Parts :=
  inside k (params.exprs ++ body)

def closure (k : Enclosure) (literal : Located BlockLiteral) : Parts :=
  callable k literal.value.params literal.value.body

def blockArg : Option BlockArg → Parts
  | none => []
  | some (.pass value) => here [value]
  | some (.literal block) => closure .block block

end Parts

namespace Expr

open Parts in
/-- The direct parts. Defaults and patterns belong to the callable, the target of a `for` to its
body; a superclass and what a `for` goes through stand outside. -/
def parts : Expr → Parts
  | .array items => here items
  | .hash pairs => here (pairs.flatMap fun (key, value) => [key, value])
  | .splat inner | .not inner => here [inner]
  | .assign target value => here (target.value.scopeChildren ++ [value])
  | .multiAssign targets value => here (targets.scopeChildren ++ value.toList)
  | .call receiver _ args block => here (receiver.toList ++ args) ++ blockArg block
  | .super args block => here args ++ blockArg block
  | .bareSuper block => blockArg block
  | .yield args => here args
  | .define _ params body => callable (.method params) params body
  | .lambda literal => closure .lambda literal
  | .classDef _ superclass body => here superclass.toList ++ inside .classBody body
  | .moduleDef _ body => inside .classBody body
  | .ifElse condition thenBranch elseBranch => here (condition :: thenBranch ++ elseBranch)
  | .loop condition body _ _ => inside .loop (condition :: body)
  | .forEach target iterable body =>
    here [iterable] ++ inside .block (target.value.scopeChildren ++ body)
  | .and left right | .or left right => here [left, right]
  | .breakWith value | .nextWith value | .returnWith value => here value.toList
  | .sequence body => here body
  | _ => []

/-- An expression at any depth, with all that stands between it and the whole. -/
inductive Within : Located Expr → List Enclosure → Located Expr → Prop
  | self (e : Located Expr) : Within e [] e
  | part {e part x : Located Expr} {k around : List Enclosure} :
      (k, part) ∈ e.value.parts → Within part around x → Within e (around ++ k) x

theorem forall_within {P : Located Expr → Prop} {e : Located Expr} :
    (∀ around x, Within e around x → P x) ↔
      P e ∧ ∀ part ∈ e.value.parts.map (·.2), ∀ around x, Within part around x → P x := by
  constructor
  · intro h
    refine ⟨h [] e (.self e), fun part hpart around x hx => ?_⟩
    obtain ⟨⟨k, _⟩, hmem, rfl⟩ := List.mem_map.mp hpart
    exact h (around ++ k) x (.part hmem hx)
  · rintro ⟨hself, hparts⟩ around x hx
    cases hx with
    | self => exact hself
    | part hpart hx => exact hparts _ (List.mem_map.mpr ⟨_, hpart, rfl⟩) _ x hx

/-- The expression and everything in it is legally placed. -/
def Legal (around : List Enclosure) (e : Located Expr) : Prop :=
  ∀ k x, Within e k x → x.value.legalIn (k ++ around) = true

/-- Every one of the parts is legally placed. -/
def LegalParts (around : List Enclosure) (parts : Parts) : Prop :=
  ∀ k e, (k, e) ∈ parts → Legal (k ++ around) e

theorem legal_iff :
    Legal around e ↔ e.value.legalIn around = true ∧ LegalParts around e.value.parts := by
  constructor
  · intro h
    refine ⟨h [] e (.self e), fun k part hpart q x hx => ?_⟩
    rw [← List.append_assoc]
    exact h (q ++ k) x (.part hpart hx)
  · rintro ⟨hself, hparts⟩ k x hx
    cases hx with
    | self => exact hself
    | part hpart hx =>
      rw [List.append_assoc]
      exact hparts _ _ hpart _ _ hx

end Expr

/-- An expression of the program, with all that it stands in. -/
def Program.Has (p : Program) (around : List Enclosure) (x : Located Expr) : Prop :=
  ∃ e ∈ p.body, ∃ k, Expr.Within e k x ∧ around = k ++ [.program]

theorem Program.forall_has {p : Program} {P : Located Expr → Prop} :
    (∀ around x, p.Has around x → P x) ↔ ∀ e ∈ p.body, ∀ k x, Expr.Within e k x → P x := by
  constructor
  · exact fun h e he k x hx => h _ x ⟨e, he, k, hx, rfl⟩
  · rintro h _ x ⟨e, he, k, hx, rfl⟩
    exact h e he k x hx

/-! ## Callables -/

/-- A method, lambda or block, as it is written. -/
structure Callable where
  kind : BodyKind
  span : Span
  params : Params
  body : List (Located Expr)

def Callable.closure (kind : BodyKind) (literal : Located BlockLiteral) : Callable :=
  ⟨kind, literal.span, literal.value.params, literal.value.body⟩

/-- The block that is written out with a call. -/
def BlockArg.callables : Option BlockArg → List Callable
  | some (.literal block) => [.closure .block block]
  | _ => []

/-- The callables that the node itself writes out. -/
def Expr.callables : Located Expr → List Callable
  | ⟨span, .define _ params body⟩ => [⟨.method, span, params, body⟩]
  | ⟨_, .lambda literal⟩ => [.closure .lambda literal]
  | ⟨_, .call _ _ _ block⟩ | ⟨_, .super _ block⟩ | ⟨_, .bareSuper block⟩ =>
    BlockArg.callables block
  | _ => []

/-- The program has the callable somewhere. -/
def Program.HasCallable (p : Program) (k : Callable) : Prop :=
  ∃ around x, p.Has around x ∧ k ∈ Expr.callables x

end BlockLang
