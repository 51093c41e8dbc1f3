import BlockLang.Code.Reference

/-!
# Lexical scopes

Every body has a scope, which gives its variables their slots. Scopes are only added and slots
only appended, so a reference that was found once stays right. A scope's parent is older than the
scope, which bounds every walk outward.

* `Scopes.ancestry` — the scope and those around it, innermost first.
* `Scopes.lookup` — the nearest scope of the ancestry that has a name.
* `Scopes.resolve`, `Scopes.resolveForAssignment`, `Scopes.resolveFrameGlobal` — a reference to a
  name, which marks the scopes that it walks through as captured.
-/

namespace BlockLang

/-- The scope of one body. -/
structure Scope where
  /-- The scope around it, unless names are not looked for further out. -/
  parent : Option ScopeId := none
  kind : BodyKind
  /-- The names that have a slot, by slot. -/
  slots : List String := []
  /-- A name that is assigned and known nowhere is declared here. -/
  ownsNewNames : Bool
  /-- A name that is assigned is declared here, known further out or not. -/
  hidesOuterNames : Bool
  /-- The number of closures around it. -/
  depth : Nat := 0
  returnId : Option ReturnId := none
  /-- What a `break` leaves; a loop sets its own while its parts are lowered. -/
  breakId : Option BreakId := none
  /-- A reference reaches through this scope to one further out. -/
  captured : Bool := false
deriving DecidableEq, Repr, Inhabited

namespace Scope

def isBlock (s : Scope) : Bool := s.kind == .block

def slot? (s : Scope) (name : String) : Option SlotId := s.slots.idxOf? name

/-- The scope with a slot for `name`. -/
def addSlot (s : Scope) (name : String) : Scope := { s with slots := s.slots ++ [name] }

end Scope

/-- Globals that every method has for itself. -/
def isFrameGlobal (name : String) : Bool := name == "~" || name == "_"

/-- The slot of such a global. -/
def frameGlobalSlot (name : String) : String := "$" ++ name

/-- Where a name was found. -/
structure Resolution where
  level : Nat
  scope : ScopeId
  slot : SlotId
deriving DecidableEq, Repr

/-- All scopes of a program, and the identities that are given out next. -/
structure Scopes where
  scopes : Array Scope := #[]
  nextReturn : Nat := 0
  nextBreak : Nat := 0
  nextTemp : Nat := 0
deriving DecidableEq, Repr, Inhabited

namespace Scopes

def get? (s : Scopes) (id : ScopeId) : Option Scope := s.scopes[id]?

def size (s : Scopes) : Nat := s.scopes.size

def modify (s : Scopes) (id : ScopeId) (f : Scope → Scope) : Scopes :=
  { s with scopes := s.scopes.modify id f }

/-! ## New identities and scopes -/

def freshReturn (s : Scopes) : ReturnId × Scopes :=
  (⟨s.nextReturn⟩, { s with nextReturn := s.nextReturn + 1 })

def freshBreak (s : Scopes) : BreakId × Scopes :=
  (⟨s.nextBreak⟩, { s with nextBreak := s.nextBreak + 1 })

def push (s : Scopes) (scope : Scope) : ScopeId × Scopes :=
  (s.size, { s with scopes := s.scopes.push scope })

/-- The scope of a program, method, class or module. Names are not looked for around it; only
programs and methods can be returned from. -/
def addRoot (s : Scopes) (kind : BodyKind) : ScopeId × Scopes :=
  let scope : Scope := { kind, ownsNewNames := true, hidesOuterNames := true }
  match kind with
  | .topLevel | .method =>
    let (returnId, s) := s.freshReturn
    s.push { scope with returnId := some returnId }
  | _ => s.push scope

/-- The scope of a block. Its `return` leaves what the one around it leaves. -/
def addBlock (s : Scopes) (parent : ScopeId) (ownsNewNames : Bool) : ScopeId × Scopes :=
  let outer := s.get? parent
  let (breakId, s) := s.freshBreak
  s.push {
    parent := some parent
    kind := .block
    ownsNewNames
    hidesOuterNames := false
    depth := (outer.map (·.depth)).getD 0 + 1
    returnId := outer.bind (·.returnId)
    breakId := some breakId }

/-- The scope of a lambda, which can be returned from. -/
def addLambda (s : Scopes) (parent : ScopeId) : ScopeId × Scopes :=
  let outer := s.get? parent
  let (returnId, s) := s.freshReturn
  let (breakId, s) := s.freshBreak
  s.push {
    parent := some parent
    kind := .lambda
    ownsNewNames := true
    hidesOuterNames := false
    depth := (outer.map (·.depth)).getD 0 + 1
    returnId := some returnId
    breakId := some breakId }

/-! ## Slots -/

/-- The slot of `name` in this very scope, which is added if need be. -/
def declare (s : Scopes) (id : ScopeId) (name : String) : SlotId × Scopes :=
  match s.get? id with
  | none => (0, s)
  | some scope =>
    match scope.slot? name with
    | some slot => (slot, s)
    | none => (scope.slots.length, s.modify id (·.addSlot name))

/-- Slots for all the names, in order. -/
def declareAll (s : Scopes) (id : ScopeId) (names : List String) : Scopes :=
  names.foldl (fun s name => (s.declare id name).2) s

/-- A slot that no name of a program can have. -/
def addTemp (s : Scopes) (id : ScopeId) (hint : String) : Local × Scopes :=
  let name := s!"%{hint}_{s.nextTemp}"
  let (slot, s) := { s with nextTemp := s.nextTemp + 1 : Scopes }.declare id name
  ({ level := 0, slot, name }, s)

/-! ## Walking outward -/

/-- At most `n` scopes outward from `id`. -/
def outward (s : Scopes) : Nat → ScopeId → List ScopeId
  | 0, _ => []
  | n + 1, id =>
    match s.get? id with
    | none => []
    | some scope =>
      id ::
        match scope.parent with
        | none => []
        | some parent => s.outward n parent

/-- The scope and those around it, innermost first. Parents are older, so there are no more than
`id + 1`. -/
def ancestry (s : Scopes) (id : ScopeId) : List ScopeId := s.outward (id + 1) id

/-- The first scope of a list that has the name. -/
def lookupIn (s : Scopes) (name : String) (level : Nat) : List ScopeId → Option Resolution
  | [] => none
  | id :: rest =>
    match (s.get? id).bind (·.slot? name) with
    | some slot => some { level, scope := id, slot }
    | none => s.lookupIn name (level + 1) rest

/-- The nearest scope around `id` that has the name. -/
def lookup (s : Scopes) (id : ScopeId) (name : String) : Option Resolution :=
  s.lookupIn name 0 (s.ancestry id)

/-- The nearest scope around `id` with the property, or else the outermost one. -/
def nearest (s : Scopes) (id : ScopeId) (p : Scope → Bool) : ScopeId :=
  let chain := s.ancestry id
  let found := chain.find? fun i => (s.get? i).any p
  (found <|> chain.getLast?).getD id

/-- Where an unknown name that is assigned in `id` is declared. -/
def declarationTarget (s : Scopes) (id : ScopeId) : ScopeId :=
  s.nearest id fun scope => scope.hidesOuterNames || scope.ownsNewNames

def nearestNonBlock (s : Scopes) (id : ScopeId) : ScopeId :=
  s.nearest id fun scope => !scope.isBlock

/-! ## References -/

def markCaptured (s : Scopes) (ids : List ScopeId) : Scopes :=
  ids.foldl (fun s id => s.modify id fun scope => { scope with captured := true }) s

/-- A reference to what a look-up found, from the scope where it started. The scopes on the way
are marked. -/
def refer (s : Scopes) (id : ScopeId) (name : String) (r : Resolution) : Local × Scopes :=
  let kind := if name.startsWith "$" then LocalKind.frameGlobal else .variable
  ({ level := r.level, slot := r.slot, kind, name },
    s.markCaptured ((s.ancestry id).take r.level))

/-- A reference to a name that is known. -/
def resolve (s : Scopes) (id : ScopeId) (name : String) : Option Local × Scopes :=
  match s.lookup id name with
  | none => (none, s)
  | some r => let (found, s) := s.refer id name r; (some found, s)

/-- A reference to a name that `home` is to declare if it is not known. If it is not known even
then, the scope itself declares it, as one of the kind. -/
def resolveOr (s : Scopes) (id home : ScopeId) (kind : LocalKind) (name : String) :
    Local × Scopes :=
  match s.lookup id name with
  | some r => s.refer id name r
  | none =>
    let s := (s.declare home name).2
    match s.lookup id name with
    | some r => s.refer id name r
    | none =>
      let (slot, s) := s.declare id name
      ({ level := 0, slot, kind, name }, s)

/-- A reference to a name that is assigned, and declared if need be. -/
def resolveForAssignment (s : Scopes) (id : ScopeId) (name : String) : Local × Scopes :=
  let hides := (s.get? id).any (·.hidesOuterNames)
  let s := if hides then (s.declare id name).2 else s
  s.resolveOr id (s.declarationTarget id) .variable name

/-- A reference to a global that the nearest method has for itself. -/
def resolveFrameGlobal (s : Scopes) (id : ScopeId) (name : String) : Local × Scopes :=
  s.resolveOr id (s.nearestNonBlock id) .frameGlobal (frameGlobalSlot name)

end Scopes

end BlockLang
