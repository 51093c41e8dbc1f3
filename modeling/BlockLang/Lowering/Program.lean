import BlockLang.Lowering.Expr

/-!
# Lowering programs

A program becomes a unit of code, or the list of its mistakes.
-/

namespace BlockLang

/-- The name of the body of a program. -/
def mainName : String := "<main>"

/-- Lowers the statements of a program as the first body. -/
def Lower.program (p : Program) : Lower Unit := do
  let scope := (← read).scope
  let id ← reserveBody
  let _ ← addBody id mainName .topLevel scope {} p.span (fun c => c)
    (Code.join <$> statements p.body)

/-- What lowering builds for a program. -/
def Program.lowering (p : Program) (options : LowerOptions) : LoweringState :=
  let (scope, scopes) := ({} : Scopes).addRoot .topLevel
  let context : Context := { options, scope, kind := .topLevel, scopeName := mainName }
  match (Lower.program p).run context { scopes } with
  | .ok _ s => s
  | .error d s => { s with mistakes := s.mistakes ++ [d] }

/-- The unit of a program without mistakes. -/
def Program.lower (p : Program) (options : LowerOptions) : Except (List Diagnostic) CodeUnit :=
  let s := p.lowering options
  if s.mistakes.isEmpty then .ok s.unit else .error s.mistakes

/-- How a failed lowering is reported. -/
def loweringFailure (mistakes : List Diagnostic) : String :=
  s!"lowering failed with {mistakes.length} error(s)"

end BlockLang
