import BlockLang.Value.Text

/-!
# Reading arguments

A callable that takes keywords takes them from its last argument, when that is a hash and not one
of the required arguments. The hash is the carrier of the keywords and is no positional argument.
-/

namespace BlockLang

namespace Store

/-- The hash that carries keywords. -/
def carrier? (s : Store) (args : List Value) (required : Nat) : Option (Table Key Value) :=
  if args.length ≤ required then none
  else match args.getLast? with
    | some (.hash id) => some (s.hash id)
    | _ => none

/-- The number of arguments without the carrier. -/
def positionalCount (s : Store) (args : List Value) (keywords : Bool) (required : Nat) : Nat :=
  if keywords && (s.carrier? args required).isSome then args.length - 1 else args.length

/-- Whether a keyword of the carrier is one of the names. -/
def isNamed (names : List String) : Key → Bool
  | .symbol name => names.contains name
  | _ => false

/-- The fault of arguments that do not fit. -/
def arityFault? (s : Store) (arity : Arity) (args : List Value) : Option Fault :=
  let given := s.positionalCount args arity.takesKeywords arity.required
  if !arity.accepts given then some (.wrongCount given arity)
  else if arity.takesKeywords && !arity.hasKeywordRest then do
    let carrier ← s.carrier? args arity.required
    let unknown ← carrier.keys.find? fun key => !isNamed arity.keywords key
    some (.unknownKeyword unknown.inspect)
  else none

/-- The argument at a position. The fault of one that is missing tells how many there have to
be. -/
def argument (args : List Value) (i : Nat) (missing : MissingArgument) : Except Trouble Value :=
  match args[i]?, missing with
  | some v, _ => .ok v
  | none, .isNil => .ok .nil
  | none, .isError =>
    .error (if Arity.isWord (i + 1) then .fault (.noArgument args.length i)
      else .crash .countTooBig)

/-- Whether there are enough arguments for an optional parameter. The minimum counts a carrier,
there or not. -/
def suppliesOptional (s : Store) (args : List Value) (minimum : Nat) (keywords : Bool)
    (required : Nat) : Bool :=
  let needed :=
    if keywords && (s.carrier? args required).isNone then minimum - 1 else minimum
  needed ≤ args.length

/-- The arguments from `start` on, without the last `post`. -/
def restArgument (s : Store) (args : List Value) (start post : Nat) (keywords : Bool)
    (required : Nat) : List Value :=
  let stop := s.positionalCount args keywords required - post
  (args.take stop).drop start

/-- A required argument at the end: counted from the end when there are enough arguments, and from
the front otherwise. There is nil after the last argument, and nothing before the first. -/
def postArgument (s : Store) (args : List Value) (fromEnd forward minimum : Nat)
    (keywords : Bool) (required : Nat) : Except Crash Value :=
  let count := s.positionalCount args keywords required
  let positional := args.take count
  if count < minimum then .ok (positional.getD forward .nil)
  else if count < fromEnd then .error .beforeArguments
  else .ok (positional.getD (count - fromEnd) .nil)

def keywordArgument? (s : Store) (args : List Value) (name : String) (required : Nat) :
    Option Value :=
  (s.carrier? args required).bind fun carrier => carrier.get? (.symbol name)

/-- The keywords that are not among `excluded`. -/
def keywordRest (s : Store) (args : List Value) (required : Nat) (excluded : List String) :
    Table Key Value :=
  match s.carrier? args required with
  | none => {}
  | some carrier => carrier.filterKeys fun key => !isNamed excluded key

end Store

end BlockLang
