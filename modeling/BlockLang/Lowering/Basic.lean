import BlockLang.Code.Unit
import BlockLang.Lowering.Diagnostic
import BlockLang.Scope

/-!
# Lowering: what it knows and what it builds

Lowering goes through the tree once. The `Context` is what a part of the tree inherits from the
parts around it, and the `LoweringState` is what has been built: scopes, bodies and the mistakes
that were found. A mistake gives up the part where it stands and keeps what was built up to there.

There is only one context, and it is changed in place (`Lowerer`): before a body, a loop or the
value of a `next` is lowered something is saved, and afterwards it is put back (`Change`), also when
a mistake was found in between. That every part leaves the context as it was is part of what a part
is (`Lower`), so each way to put parts together comes with the proof of it.
-/

namespace BlockLang

/-- What lowering checks, and the file that mistakes are reported in. -/
structure LowerOptions where
  file : UInt64 := 0
  /-- Refuse default values that read a parameter bound later. -/
  rejectForwardReferences : Bool := true
  /-- Refuse variables that were never assigned; otherwise they are nil. -/
  strictLocals : Bool := true
deriving DecidableEq, Repr, Inhabited

/-- What a part of the tree inherits. -/
structure Context where
  options : LowerOptions := {}
  scope : ScopeId
  kind : BodyKind
  /-- Inside a loop of this body. -/
  inLoop : Bool := false
  /-- Inside the value of a `next`. -/
  inNext : Bool := false
  /-- The parameters of the method around it, blocks and lambdas looked through. -/
  method : Option Params := none
  /-- What blocks are named for. -/
  scopeName : String

/-- What has been built. -/
structure LoweringState where
  scopes : Scopes := {}
  unit : CodeUnit := {}
  nextBody : BodyId := 0
  mistakes : List Diagnostic := []

/-- What lowering works on. -/
structure Lowerer where
  /-- The context of the part that is being lowered. -/
  context : Context
  built : LoweringState

/-- What there is after a part, whether it succeeded or not. -/
def Lowerer.after {α : Type} : EStateM.Result Diagnostic Lowerer α → Lowerer
  | .ok _ l | .error _ l => l

/-- A part of lowering. It may change the context, but it leaves it as it was. -/
structure Lower (α : Type) where
  act : EStateM Diagnostic Lowerer α
  restores : ∀ l, (Lowerer.after (act l)).context = l.context

/-- A change of the context for a while: how it is made, and how it is taken back with the help of
what was saved. -/
structure Change where
  make : Context → Context
  takeBack : Context → Context → Context
  takeBack_make : ∀ c, takeBack c (make c) = c

namespace Change

/-- The whole context is replaced, and put back. -/
def replace (inner : Context → Context) : Change where
  make := inner
  takeBack saved _ := saved
  takeBack_make _ := rfl

/-- The value of a `next`. -/
def next : Change where
  make c := { c with inNext := true }
  takeBack saved c := { c with inNext := saved.inNext }
  takeBack_make _ := rfl

/-- The parts of a loop. -/
def loop : Change where
  make c := { c with inLoop := true }
  takeBack saved c := { c with inLoop := saved.inLoop }
  takeBack_make _ := rfl

end Change

namespace Lower

variable {α β : Type}

/-- What a part does in a context to what has been built. -/
def run (part : Lower α) (c : Context) (s : LoweringState) :
    EStateM.Result Diagnostic LoweringState α :=
  match part.act ⟨c, s⟩ with
  | .ok a l => .ok a l.built
  | .error d l => .error d l.built

instance : CoeFun (Lower α) fun _ =>
    Context → LoweringState → EStateM.Result Diagnostic LoweringState α := ⟨run⟩

theorem restores_bind (part : Lower α) (f : α → Lower β) (l : Lowerer) :
    (Lowerer.after (EStateM.bind part.act (fun a => (f a).act) l)).context = l.context := by
  have hpart := part.restores l
  unfold EStateM.bind
  split
  · rename_i a l' hact
    rw [hact] at hpart
    exact ((f a).restores l').trans hpart
  · rename_i d l' hact
    rwa [hact] at hpart

theorem restores_tryCatch (part : Lower α) (f : Diagnostic → Lower α) (l : Lowerer) :
    (Lowerer.after (match part.act l with
      | .ok a l' => .ok a l'
      | .error d l' => (f d).act l')).context = l.context := by
  have hpart := part.restores l
  split
  · rename_i a l' hact
    rwa [hact] at hpart
  · rename_i d l' hact
    rw [hact] at hpart
    exact ((f d).restores l').trans hpart

instance : Monad Lower where
  pure a := ⟨EStateM.pure a, fun _ => rfl⟩
  bind part f := ⟨EStateM.bind part.act fun a => (f a).act, restores_bind part f⟩

instance : MonadExceptOf Diagnostic Lower where
  throw d := ⟨EStateM.throw d, fun _ => rfl⟩
  tryCatch part f := ⟨_, restores_tryCatch part f⟩

instance : MonadReaderOf Context Lower where
  read := ⟨fun l => .ok l.context l, fun _ => rfl⟩

instance : MonadStateOf LoweringState Lower where
  get := ⟨fun l => .ok l.built l, fun _ => rfl⟩
  set s := ⟨fun l => .ok () { l with built := s }, fun _ => rfl⟩
  modifyGet f := ⟨fun l => .ok (f l.built).1 { l with built := (f l.built).2 }, fun _ => rfl⟩

/-- Lowers a part while the context is changed. -/
def during (change : Change) (part : Lower α) : Lower α where
  act l :=
    let takeBack (l' : Lowerer) : Lowerer :=
      { l' with context := change.takeBack l.context l'.context }
    match part.act { l with context := change.make l.context } with
    | .ok a l' => .ok a (takeBack l')
    | .error d l' => .error d (takeBack l')
  restores l := by
    have hpart := part.restores { l with context := change.make l.context }
    refine Eq.trans ?_ (change.takeBack_make l.context)
    dsimp only
    split <;> rename_i hact <;> rw [hact] at hpart <;>
      exact congrArg (change.takeBack l.context) hpart

/-! ## Mistakes -/

/-- Gives up because of a mistake. -/
def fail (mistake : Mistake) (span : Span) : Lower α := do
  throw { mistake, span := { span with file := (← read).options.file } }

def report (d : Diagnostic) : Lower Unit :=
  modify fun s => { s with mistakes := s.mistakes ++ [d] }

/-- Reports a mistake and goes on with `fallback`. -/
def recover (fallback : α) (part : Lower α) : Lower α :=
  tryCatch part fun d => do
    report d
    return fallback

/-- The outcome of a part, to be given up on later. -/
def attempt (part : Lower α) : Lower (Except Diagnostic α) :=
  tryCatch (Except.ok <$> part) fun d => return .error d

/-! ## Variables -/

/-- Changes the scopes. -/
def onScopes (f : Scopes → α × Scopes) : Lower α :=
  modifyGet fun s =>
    let (a, scopes) := f s.scopes
    (a, { s with scopes })

def currentScope : Lower Scope := do
  return ((← get).scopes.get? (← read).scope).getD default

/-- A known name, from the current scope. -/
def resolve? (name : String) : Lower (Option Local) := do
  let scope := (← read).scope
  onScopes fun s => s.resolve scope name

/-- A name to assign, from the current scope. -/
def resolveForAssignment (name : String) : Lower Local := do
  let scope := (← read).scope
  onScopes fun s => s.resolveForAssignment scope name

def resolveFrameGlobal (name : String) : Lower Local := do
  let scope := (← read).scope
  onScopes fun s => s.resolveFrameGlobal scope name

/-- A variable of the current scope itself. -/
def ownLocal (name : String) : Lower Local := do
  let scope := (← read).scope
  let slot ← onScopes fun s => s.declare scope name
  return { level := 0, slot, name }

def declareAll (names : List String) : Lower Unit := do
  let scope := (← read).scope
  onScopes fun s => ((), s.declareAll scope names)

/-- A hidden variable of the current scope. -/
def addTemp (hint : String) : Lower Local := do
  let scope := (← read).scope
  onScopes fun s => s.addTemp scope hint

/-- Reading a variable. One that was never assigned is a mistake, or nil. -/
def readLocal (name : String) (span : Span) : Lower Code := do
  match ← resolve? name with
  | some found => return .readLocal found
  | none =>
    if (← read).options.strictLocals then
      fail (.unresolvedLocal name) span
    else
      return .readLocal (← resolveForAssignment name)

/-- Writing a global; some of them are variables of the method. -/
def writeGlobal (name : String) (value : Code) : Lower Code := do
  if isFrameGlobal name then
    return .writeLocal (← resolveFrameGlobal name) value
  else
    return .writeGlobal name value

def readGlobal (name : String) : Lower Code := do
  if isFrameGlobal name then
    return .readLocal (← resolveFrameGlobal name)
  else
    return .readGlobal name

/-! ## Bodies -/

def reserveBody : Lower BodyId :=
  modifyGet fun s => (s.nextBody, { s with nextBody := s.nextBody + 1 })

/-- The context of a closure in the current body. -/
def closureContext (scope : ScopeId) (kind : BodyKind) (c : Context) : Context :=
  { c with scope, kind, inLoop := false, inNext := false }

/-- The context of a body that names are not looked for around. -/
def rootContext (scope : ScopeId) (kind : BodyKind) (method : Option Params) (name : String)
    (c : Context) : Context :=
  { c with scope, kind, inLoop := false, inNext := false, method, scopeName := name }

/-- Lowers a body with its own context and adds it to the unit. The answer is what a `break` in it
leaves. -/
def addBody (id : BodyId) (name : String) (kind : BodyKind) (scope : ScopeId) (arity : Arity)
    (span : Span) (inner : Context → Context) (code : Lower Code) : Lower (Option BreakId) := do
  let code ← during (.replace inner) code
  modifyGet fun s =>
    let own := (s.scopes.get? scope).getD default
    let body : Body :=
      { id, name, kind, arity, slots := own.slots, captured := own.captured,
        returnId := own.returnId, breakId := own.breakId, code, span }
    (own.breakId, { s with unit := s.unit.add body })

/-- Lowers the parts of a loop, in which a `break` leaves the loop. -/
def withLoop (id : BreakId) (part : Lower α) : Lower α := do
  let scope := (← read).scope
  let outer := (← currentScope).breakId
  let setBreak (b : Option BreakId) : Lower Unit :=
    onScopes fun s => ((), s.modify scope fun own => { own with breakId := b })
  setBreak (some id)
  let result ← during .loop part
  setBreak outer
  return result

/-- Catches the `break` of a block around the call that it is passed to. -/
def catchBreak (id : Option BreakId) (call : Code) : Code :=
  match id with
  | some id => .catchBreak id call
  | none => call

/-- Refuses what may only stand in a closure or a loop. -/
def requireClosureOrLoop (mistake : Mistake) (span : Span) : Lower Unit := do
  let c ← read
  unless c.kind.isClosure || c.inLoop do
    fail mistake span

end Lower

end BlockLang
