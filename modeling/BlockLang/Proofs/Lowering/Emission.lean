import BlockLang.Proofs.Lowering.Surroundings
import BlockLang.Proofs.Scopes.Hidden

/-!
# What lowered code is put together from

`Lowers` says what lowering does to the scopes and bodies. It forgets how code is put together, and
there is an order in it: a hidden variable is written before it is read, the items of an array are
taken where the array is known to be one, a parameter has its slot before anything is asked for.
`Emits` keeps that order. It reads as a calculus: from what is at hand (`Supply`) more is made, a
reference is asked for, a body is finished, and the state moves on.

Only parts that go through without a mistake are described, so that every part has been lowered
and nothing was given up.

Which names may be asked for, and which of them may be read, is left open (`Policy`): where names of
a program and names of hidden variables are kept apart, a request for a name of the program never
finds a hidden variable.
-/

namespace BlockLang

open List

/-- Names of variables. -/
abbrev Names := String → Prop

/-- What is put together, and under which options. -/
structure Policy where
  options : LowerOptions
  node : Located Expr → Prop

namespace Policy

variable (ρ : Policy)

/-- The names that may be asked for. -/
def name (n : String) : Prop := ∃ x, ρ.node x ∧ n ∈ x.value.variableNames

def callable (k : Callable) : Prop := ∃ x, ρ.node x ∧ k ∈ Expr.callables x

end Policy

/-- The code of the body of a `for`. -/
def Lower.loopCode (target : Located Target) (body : List (Located Expr)) : Lower Code := do
  let item ← Lower.addTemp "for"
  let assignment ← Lower.recover .nil (Lower.assign target (.readLocal item))
  let body ← Lower.statements body
  return .join [.writeLocal item (.argument 0 .isNil), assignment, .join body]

/-- The variable is hidden or one that a method has for itself, or reading it is allowed. -/
def MayRead (N : Names) (name : String) : Prop :=
  isHidden name = true ∨ (∃ n, name = frameGlobalSlot n) ∨ N name

/-- What is at hand while code is put together. -/
inductive Supply where
  | code (c : Code)
  /-- A variable that may be written. -/
  | reference (l : Local)
  /-- A variable that may be read. -/
  | readable (l : Local)
  /-- A hidden variable that items are taken from. -/
  | items (l : Local)
  /-- A name that the scope itself has declared. -/
  | own (name : String)

namespace Code

/-- Nodes that mention no variable themselves and take nothing from an array. What a method has for
itself is a variable as well. -/
def isNeutral : Code → Bool
  | .readLocal _ | .writeLocal _ _ | .index _ _ | .slice _ _ _ | .atLeast _ _ => false
  | .readGlobal name | .writeGlobal name _ => !isFrameGlobal name
  | _ => true

/-- Nodes that are not what comes of joining: no sequence, and a result that may be left out only
after code that leaves nothing out. -/
def isFlat : Code → Bool
  | .sequence _ => false
  | .elidable body _ => body.items.all isSolid
  | _ => true

/-- The node takes something from the array in a hidden variable. -/
inductive TakesFrom (array : Local) : Code → Prop
  | index (position : Int) : TakesFrom array (.index (.readLocal array) position)
  | slice (start endOffset : Nat) : TakesFrom array (.slice (.readLocal array) start endOffset)
  | atLeast (size : Nat) : TakesFrom array (.atLeast (.readLocal array) size)

/-- A value that is spread over targets: the items are taken only from what is not nil. -/
def spread (array : Local) (value : Code) (onNil : NilAsArray) (size : Nat)
    (nothing large small : List Code) : Code :=
  .join [
    .writeLocal array (.splatCast value onNil),
    .ifElse (.isNil (.readLocal array)) (.join nothing)
      (.ifElse (.atLeast (.readLocal array) size) (.join large) (.join small))]

/-- The binding code of a block that takes an array apart if that is all it gets. -/
def eitherWay (array : Local) (fromItems positional : List Code) : Code :=
  .ifElse .shouldDestructure
    (.join (.writeLocal array (.splatCast (.argument 0 .isNil) .arrayWithNil) :: fromItems))
    (.join positional)

end Code

/-- The hidden variables that are no arrays to be taken apart. -/
def plainHints : List String := ["rhs", "masgn", "for"]

/-- The request may be made with what is at hand. -/
def Request.Allowed (ρ : Policy) (E : List Supply) : Request → Prop
  | .known name | .assigned name => ρ.name name
  | .frameGlobal _ => True
  | .own name => .own name ∈ E
  | .temp hint => hint ∈ plainHints

namespace LoweringState

def addTemp (s : LoweringState) (k : ScopeId) (hint : String) : LoweringState :=
  { s with scopes := (s.scopes.addTemp k hint).2 }

def declareAll (s : LoweringState) (k : ScopeId) (names : List String) : LoweringState :=
  { s with scopes := s.scopes.declareAll k names }

end LoweringState

/-- What the code of a body was made of, and the names that were declared for it: a callable or a
loop, lowered in a context of its own, or what is neither. -/
inductive Stems (ρ : Policy) (inner : ScopeId) (code : Code) (s s' : LoweringState) :
    BodyKind → Arity → Span → List String → Prop
  | callable (k : Callable) (c : Context) : ρ.callable k → c.scope = inner →
      c.options = ρ.options → c.kind = k.kind → (k.kind = .method → c.method = some k.params) →
      Lower.callable k.params (Lower.binding k.span k.params) (Lower.statements k.body) c s =
        .ok code s' →
      Stems ρ inner code s s' k.kind k.params.arity k.span k.params.declaredNames
  | loop (span : Span) (target : Located Target) (iterable : Located Expr)
      (body : List (Located Expr)) (c : Context) : ρ.node ⟨span, .forEach target iterable body⟩ →
      c.scope = inner → Lower.loopCode target body c s = .ok code s' →
      Stems ρ inner code s s' .block { pre := 1 } span []
  | plain {kind : BodyKind} {arity : Arity} {span : Span} :
      kind ∈ [.topLevel, .classBody, .moduleBody] → Stems ρ inner code s s' kind arity span []

/-- **How code is put together**: from what is at hand in a scope, and what is at hand after it. The
names `N` may be read in the scope itself. -/
inductive Emits (ρ : Policy) : Names → ScopeId → List Supply → LoweringState →
    List Supply → LoweringState → Prop
  | supplied : (∀ x ∈ G, x ∈ E) → Emits ρ N k E s G s
  /-- What has been made is at hand from then on. -/
  | step : Emits ρ N k E s G s₁ → Emits ρ N k (G ++ E) s₁ G' s₂ → Emits ρ N k E s G' s₂
  | node {c : Code} : (c.isNeutral && c.isFlat) = true → (∀ part ∈ c.children, .code part ∈ E) →
        Emits ρ N k E s [.code c] s
  | join {pieces : List Code} :
      (∀ c ∈ pieces, .code c ∈ E) → Emits ρ N k E s [.code (.join pieces)] s
  | read {l : Local} : .readable l ∈ E → Emits ρ N k E s [.code (.readLocal l)] s
  | write {l : Local}
      {value : Code} :
      .reference l ∈ E → .code value ∈ E → Emits ρ N k E s [.code (.writeLocal l value)] s
  | take {array : Local}
      {c : Code} :
      .items array ∈ E → c.TakesFrom array → Emits ρ N k E s [.code c] s
  | reference {l : Local}
      (r : Request) :
      r.Allowed ρ E → (s.scopes.answer k r).1 = some l →
        Emits ρ N k E s [.reference l] { s with scopes := (s.scopes.answer k r).2 }
  | readable {l : Local} : .reference l ∈ E → MayRead N l.name → Emits ρ N k E s [.readable l] s
  /-- The items are taken in two ways, and in neither if there are none. -/
  | spread {value : Code} {large small nothing : List Code} (onNil : NilAsArray) (size : Nat) :
      .code value ∈ E →
      Emits ρ N k (.items (s.scopes.addTemp k "array").1 :: E) (s.addTemp k "array")
        (large.map .code) s₁ →
      Emits ρ N k (.items (s.scopes.addTemp k "array").1 :: E) s₁ (small.map .code) s₂ →
      Emits ρ N k E s₂ (nothing.map .code) s₃ →
        Emits ρ N k E s
          [.code (.spread (s.scopes.addTemp k "array").1 value onNil size nothing large small)] s₃
  | eitherWay {positional fromItems : List Code} : (∀ c ∈ positional, .code c ∈ E) →
      Emits ρ N k (.items (s.scopes.addTemp k "destructure").1 :: E) (s.addTemp k "destructure")
        (fromItems.map .code) s' →
        Emits ρ N k E s
          [.code (.eitherWay (s.scopes.addTemp k "destructure").1 fromItems positional)] s'
  | loop : Emits ρ N k E (s.enterLoop k) G s' → Emits ρ N k E s G (s'.setBreak k (s.breakOf k))
  /-- The names of a new body are declared before anything in it is lowered. -/
  | body {inner : ScopeId} {kind : BodyKind} {code : Code} {names : List String} (name : String)
      (arity : Arity) (span : Span) :
      inner = (s.scopes.openScope k kind).1 → (∀ n ∈ names, ρ.name n) →
      Stems ρ inner code (s.enter k kind) s' kind arity span names →
      Emits ρ (fun _ => True) inner (names.map .own) ((s.enter k kind).declareAll inner names)
        [.code code] s' →
        Emits ρ N k E s [] (s'.finish (s'.bodyOf s.nextBody name kind inner arity span code))

namespace Emits

variable {ρ : Policy} {N : Names} {k : ScopeId} {E G G' : List Supply}
  {s s₁ s₂ : LoweringState}

theorem weaken (h : Emits ρ N k E s G s₁) (hE : ∀ x ∈ E, x ∈ E') : Emits ρ N k E' s G s₁ := by
  have hgrown : ∀ {E E' : List Supply} (G : List Supply), (∀ x ∈ E, x ∈ E') →
      ∀ x ∈ G ++ E, x ∈ G ++ E' := by
    intro E E' G hE x hx
    rcases mem_append.mp hx with hx | hx
    · exact mem_append_left _ hx
    · exact mem_append_right _ (hE x hx)
  induction h generalizing E' with
  | supplied hG => exact .supplied fun x hx => hE x (hG x hx)
  | step _ _ ih₁ ih₂ => exact .step (ih₁ hE) (ih₂ (hgrown _ hE))
  | node hc hparts => exact .node hc fun part hpart => hE _ (hparts part hpart)
  | join hpieces => exact .join fun c hc => hE _ (hpieces c hc)
  | read hl => exact .read (hE _ hl)
  | readable hl hname => exact .readable (hE _ hl) hname
  | write hl hvalue => exact .write (hE _ hl) (hE _ hvalue)
  | take harray hc => exact .take (hE _ harray) hc
  | reference r hr hl =>
    refine .reference r ?_ hl
    cases r with
    | own name => exact hE _ hr
    | known name | assigned name | frameGlobal name | temp hint => exact hr
  | spread onNil size hvalue _ _ _ ih₁ ih₂ ih₃ =>
    exact .spread onNil size (hE _ hvalue) (ih₁ (hgrown [_] hE)) (ih₂ (hgrown [_] hE)) (ih₃ hE)
  | eitherWay hpositional _ ih =>
    exact .eitherWay (fun c hc => hE _ (hpositional c hc)) (ih (hgrown [_] hE))
  | loop _ ih => exact .loop (ih hE)
  | body name arity span hinner hnames hstems h _ =>
    exact .body name arity span hinner hnames hstems h

theorem append (h₁ : Emits ρ N k E s G s₁) (h₂ : Emits ρ N k E s₁ G' s₂) :
    Emits ρ N k E s (G ++ G') s₂ := by
  have hlater : Emits ρ N k (G ++ E) s₁ G' s₂ := h₂.weaken fun _ => mem_append_right _
  refine .step h₁ (.step hlater (.supplied fun x hx => ?_))
  rcases mem_append.mp hx with hx | hx
  · exact mem_append_right _ (mem_append_left _ hx)
  · exact mem_append_left _ hx

theorem usable (r : Request) (hr : r.Allowed ρ E) (hl : (s.scopes.answer k r).1 = some l)
    (hread : MayRead N (s.scopes.requested r)) :
    Emits ρ N k E s [.reference l, .readable l] { s with scopes := (s.scopes.answer k r).2 } := by
  refine .step (.reference r hr hl) (.append (G := [_]) (.supplied (by simp)) (.readable (by simp) ?_))
  rw [Scopes.name_answer hl]
  exact hread

end Emits

/-! ## Emitting only adds -/

namespace LoweringState

theorem Advances.andThen {s s₁ s₂ : LoweringState} {k : Nat} (hs : s.Sound) (hk : k < s.nextBody)
    (h₁ : s.Advances (s.scopes.ancestry k) s₁)
    (h₂ : s₁.Sound → k < s₁.nextBody → s₁.Advances (s₁.scopes.ancestry k) s₂) :
    s.Advances (s.scopes.ancestry k) s₂ := by
  have h₂ := h₂ h₁.sound (h₁.lt hs hk)
  rw [h₁.grows.ancestry hs.wellFormed h₁.sound.wellFormed (hs.size ▸ hk)] at h₂
  exact h₁.trans hs h₂

theorem advances_declareAll {k : Nat} : ∀ (names : List String) {s : LoweringState}, s.Sound →
    k < s.nextBody → s.Advances (s.scopes.ancestry k) (s.declareAll k names)
  | [], _, hs, _ => .refl hs
  | name :: rest, _, hs, hk =>
    (advances_reference hs hk (.own name)).andThen hs hk fun hs' hk' =>
      advances_declareAll rest hs' hk'

theorem forall_finish {P : Code → Prop} (hnil : P .nil) {s : LoweringState} {body : Body}
    (h : ∀ b other, s.unit.body? b = some other → P other.code) (hbody : P body.code) :
    ∀ b other, (s.finish body).unit.body? b = some other → P other.code := by
  intro b other hother
  by_cases hb : b = body.id
  · subst hb
    cases Option.some.inj (hother.symm.trans (CodeUnit.body?_add_self s.unit body))
    exact hbody
  · rcases s.unit.body?_add_ne hb with heq | ⟨_, hplaced⟩
    · exact h b other (heq ▸ hother)
    · cases Option.some.inj (hother.symm.trans hplaced)
      exact hnil

end LoweringState

end BlockLang
