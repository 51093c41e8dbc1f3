import BlockLang.Arity
import BlockLang.Code.Reference

/-!
# Faults

What can go wrong while code runs. A fault ends the run with an error of the program; a crash ends
it with no answer at all.
-/

namespace BlockLang

/-- An error of the running program. -/
inductive Fault where
  | wrongCount (given : Nat) (arity : Arity)
  /-- A positional argument at `index` is not there. -/
  | noArgument (given index : Nat)
  /-- A core method got the wrong number of arguments. -/
  | wrongCountIn (method : String) (given expected : Nat)
  | unknownKeyword (key : String)
  | noIndex
  | noBlockForProc
  | noMethodName
  | negativeCount
  | missingKeyword (name : String)
  | noMethod (method receiver : String)
  | unknownBody (id : BodyId)
  | notArray (given : String)
  | notProc (given : String)
  /-- `to_ary` of `given` answered something that is no array. -/
  | badConversion (given answer : String)
  | notSuperclass (given : String)
  | notKey (given : String)
  | noInstanceVars (given : String)
  | noConversionOf (given wanted : String)
  | noConversion (wanted : String)
  | notCoercible (given wanted : String)
  | unknownConstant (name : String)
  | divisionByZero
  | integerOverflow
  | indexTooSmall (index : Int64)
  | indexTooBig (index : Int64)
  | noBlock
  | superOutsideMethod
  | breakEscaped
  | nextEscaped
  | redoEscaped
  | retryEscaped
  | returnEscaped
  | noFrame (name : String)
  | tooDeep
deriving DecidableEq, Repr

/-- The range of argument counts that an arity accepts. -/
def Arity.countText (a : Arity) : String :=
  match a.maximum? with
  | some limit => if limit == a.required then s!"{limit}" else s!"{a.required}..{limit}"
  | none => s!"{a.required}+"

namespace Fault

/-- The kind of error, for tools. -/
def kind : Fault → String
  | wrongCount _ _ | noArgument _ _ | wrongCountIn _ _ _ | unknownKeyword _ | noIndex
  | noBlockForProc | noMethodName | negativeCount => "ArgumentError"
  | missingKeyword _ => "MissingKeyword"
  | noMethod _ _ => "NoMethod"
  | unknownBody _ | notArray _ | notProc _ | badConversion _ _ | notSuperclass _ | notKey _
  | noInstanceVars _ | noConversionOf _ _ | noConversion _ | notCoercible _ _ => "TypeError"
  | unknownConstant _ => "NameError"
  | divisionByZero => "ZeroDivision"
  | integerOverflow | indexTooSmall _ | indexTooBig _ => "Range"
  | noBlock | superOutsideMethod | breakEscaped | nextEscaped | redoEscaped | retryEscaped
  | returnEscaped => "LocalJump"
  | noFrame _ => "UndefinedLocal"
  | tooDeep => "StackOverflow"

/-- What is said about the error, without its heading. -/
def detail : Fault → String
  | wrongCount given arity =>
    s!"wrong number of arguments (given {given}, expected {arity.countText})"
  | noArgument given index =>
    s!"wrong number of arguments (given {given}, expected at least {index + 1})"
  | wrongCountIn method given expected =>
    s!"wrong number of arguments (given {given}, expected {expected}) in `{method}'"
  | unknownKeyword key => s!"unknown keyword: {key}"
  | noIndex => "missing index argument"
  | noBlockForProc => "tried to create Proc object without a block"
  | noMethodName => "no method name given"
  | negativeCount => "negative argument"
  | missingKeyword name => s!"missing keyword: :{name}"
  | noMethod method receiver => s!"undefined method `{method}' for {receiver}"
  | unknownBody id => s!"unknown body body{id}"
  | notArray given => s!"expected Array, got {given}"
  | notProc given => s!"wrong argument type {given} (expected Proc)"
  | badConversion given answer =>
    s!"can't convert {given} to Array ({given}#to_ary gives {answer})"
  | notSuperclass given => s!"superclass must be a Class ({given} given)"
  | notKey given => s!"{given} cannot be used as a hash key"
  | noInstanceVars given => s!"can't modify instance variables of {given}"
  | noConversionOf given wanted => s!"no implicit conversion of {given} into {wanted}"
  | noConversion wanted => s!"no implicit conversion into {wanted}"
  | notCoercible given wanted => s!"{given} can't be coerced into {wanted}"
  | unknownConstant name => s!"uninitialized constant {name}"
  | divisionByZero => "divided by 0"
  | integerOverflow => "integer overflow"
  | indexTooSmall index => s!"index {index.toInt} too small for array"
  | indexTooBig index => s!"index {index.toInt} too big"
  | noBlock => "no block given (yield)"
  | superOutsideMethod => "super called outside of method"
  | breakEscaped => "break from proc-closure"
  | nextEscaped => "unexpected next"
  | redoEscaped => "unexpected redo"
  | retryEscaped => "retry outside of rescue clause"
  | returnEscaped => "unexpected return"
  | noFrame name => s!"undefined local variable `{name}' (no captured frame)"
  | tooDeep => "stack level too deep"

/-- The class of error that a message starts with. -/
def heading : Fault → String
  | wrongCount _ _ | noArgument _ _ | wrongCountIn _ _ _ | unknownKeyword _ | noIndex
  | noBlockForProc | noMethodName | negativeCount | missingKeyword _ => "ArgumentError: "
  | noMethod _ _ => "NoMethodError: "
  | unknownBody _ | notArray _ | notProc _ | badConversion _ _ | notSuperclass _ | notKey _
  | noInstanceVars _ | noConversionOf _ _ | noConversion _ | notCoercible _ _ => "TypeError: "
  | unknownConstant _ => "NameError: "
  | divisionByZero => "ZeroDivisionError: "
  | integerOverflow | indexTooSmall _ | indexTooBig _ => "RangeError: "
  | noBlock | superOutsideMethod | breakEscaped | nextEscaped | redoEscaped | retryEscaped
  | returnEscaped => "LocalJumpError: "
  | noFrame _ => ""
  | tooDeep => "SystemStackError: "

def message (f : Fault) : String := f.heading ++ f.detail

end Fault

/-- The end of a run without an answer. -/
inductive Crash where
  /-- The end of a slice is no machine integer. -/
  | sliceTooLong
  /-- A repeated text does not fit into memory. -/
  | textTooLong
  /-- An array or hash that contains itself was to be shown or compared. -/
  | endlessValue
  /-- A number of arguments is no machine word. -/
  | countTooBig
  /-- A parameter was to be read from before the first argument. -/
  | beforeArguments
  /-- A frame has no room for a variable. -/
  | noRoom
deriving DecidableEq, Repr

/-- Why an operation has no value. -/
inductive Trouble where
  | fault (f : Fault)
  | crash (c : Crash)
deriving DecidableEq, Repr

end BlockLang
