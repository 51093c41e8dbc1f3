import BlockLang.Syntax.Basic

/-!
# Mistakes in programs

What lowering can refuse, where, and how it is said.
-/

namespace BlockLang

/-- What a program gets wrong. -/
inductive Mistake where
  | breakOutsideLoop
  | nextOutsideLoop
  | redoOutsideLoop
  | retryOutsideLoop
  | returnOutsideMethod
  | unresolvedLocal (name : String)
  | superOutsideMethod
  /-- A bare `super` in a method with parameters that it cannot pass on. -/
  | unsupportedReplay (what : String)
  /-- The default value of a parameter reads one that is bound later. -/
  | forwardReference (parameter name : String)
  | yieldOutsideMethod
deriving DecidableEq, Repr

namespace Mistake

def message : Mistake → String
  | breakOutsideLoop => "Invalid break (not in a block or loop)"
  | nextOutsideLoop => "Invalid next (not in a block or loop)"
  | redoOutsideLoop => "Invalid redo (not in a block or loop)"
  | retryOutsideLoop => "Invalid retry (not in a block or loop)"
  | returnOutsideMethod => "Invalid return (no enclosing method, lambda or loop)"
  | unresolvedLocal name => s!"Undefined local variable: {name}"
  | superOutsideMethod => "super called outside of a method"
  | unsupportedReplay what => s!"Implicit super cannot forward {what} parameters"
  | forwardReference parameter name =>
    s!"Default value of `{parameter}` refers to later parameter `{name}`"
  | yieldOutsideMethod => "Yield outside of a method body"

/-- The kind of mistake, for tools. -/
def kind : Mistake → String
  | breakOutsideLoop => "InvalidBreak"
  | nextOutsideLoop => "InvalidNext"
  | redoOutsideLoop => "InvalidRedo"
  | retryOutsideLoop => "InvalidRetry"
  | returnOutsideMethod => "InvalidReturn"
  | unresolvedLocal _ => "UnresolvedLocal"
  | superOutsideMethod => "SuperOutsideMethod"
  | unsupportedReplay _ => "UnsupportedReplay"
  | forwardReference _ _ => "ForwardParameterReference"
  | yieldOutsideMethod => "YieldOutsideMethod"

end Mistake

/-- A mistake and its place. -/
structure Diagnostic where
  mistake : Mistake
  span : Span
deriving DecidableEq, Repr

def Diagnostic.message (d : Diagnostic) : String := d.mistake.message

/-- The message under its heading. -/
def Diagnostic.text (d : Diagnostic) : String := "Lower error: " ++ d.message

end BlockLang
