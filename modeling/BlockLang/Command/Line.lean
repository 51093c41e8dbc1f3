/-!
# Command lines

`lower`, `run` and `check` each take the file with the syntax tree, and options before or after
it. An option is given at most once, `-v` once on either side of the command's name.
-/

namespace BlockLang

/-- What `lower` prints. -/
inductive Emit where
  | listing
  | summary
deriving DecidableEq, Repr, Inhabited

/-- What is to be done with a program. -/
inductive Action where
  | lower (emit : Emit) (lenient : Bool)
  | run
  | check
deriving DecidableEq, Repr, Inhabited

/-- A command line that asks for something to be done. -/
structure Command where
  action : Action
  /-- The file with the syntax tree. -/
  input : String
  /-- The file that the tree was read from, for reports. -/
  source : Option String := none
deriving DecidableEq, Repr

/-- A command line that asks for nothing to be done. -/
inductive Refusal where
  | help
  | version
  | usage
deriving DecidableEq, Repr

/-- The commands. -/
inductive Verb where
  | lower
  | run
  | check
deriving DecidableEq, Repr

def Verb.ofText? : String → Option Verb
  | "lower" => some .lower
  | "run" => some .run
  | "check" => some .check
  | _ => none

def Emit.ofText? : String → Option Emit
  | "ir" => some .listing
  | "summary" => some .summary
  | _ => none

namespace Command

/-- What has been given so far. -/
structure Given where
  verbose : Bool := false
  input : Option String := none
  source : Option String := none
  emit : Option Emit := none
  lenient : Bool := false

/-- Takes what may be given once. -/
def once {α : Type} (before : Option α) (now : α) : Except Refusal (Option α) :=
  match before with
  | none => .ok (some now)
  | some _ => .error .usage

/-- Whether an argument is written as an option. A lone dash is not. -/
def isOption (arg : String) : Bool := arg.startsWith "-" && arg != "-"

/-- Options of one letter, several behind one dash; `-V` is known before the name of the command
only. What the first letters ask for is done whatever stands behind them. -/
def letters (beforeName verbose : Bool) : List Char → Except Refusal Bool
  | [] => .ok verbose
  | 'v' :: rest => if verbose then .error .usage else letters beforeName true rest
  | 'h' :: _ => .error .help
  | 'V' :: _ => .error (if beforeName then .version else .usage)
  | _ => .error .usage

namespace Given

def setVerbose (g : Given) : Except Refusal Given :=
  if g.verbose then .error .usage else .ok { g with verbose := true }

def setLenient (g : Given) : Except Refusal Given :=
  if g.lenient then .error .usage else .ok { g with lenient := true }

/-- Files have names. -/
def setInput (g : Given) (path : String) : Except Refusal Given := do
  if path.isEmpty then .error .usage
  else return { g with input := ← once g.input path }

def setSource (g : Given) (path : String) : Except Refusal Given := do
  if path.isEmpty then .error .usage
  else return { g with source := ← once g.source path }

def setEmit (g : Given) (value : String) : Except Refusal Given := do
  match Emit.ofText? value with
  | none => .error .usage
  | some emit => return { g with emit := ← once g.emit emit }

/-- The part of an argument behind the name and the sign `=`. -/
def valueOf? (name arg : String) : Option String :=
  if (name.toList ++ ['=']).isPrefixOf arg.toList then
    some (String.ofList (arg.toList.drop (name.length + 1)))
  else none

/-- An argument that stands for itself. -/
def setSingle (g : Given) (verb : Verb) (arg : String) : Except Refusal Given :=
  if !isOption arg then g.setInput arg
  else if arg == "--verbose" then g.setVerbose
  else if arg == "--help" then .error .help
  else if arg == "--lenient" && verb = .lower then g.setLenient
  else match valueOf? "--source" arg, valueOf? "--emit" arg with
    | some path, _ => g.setSource path
    | none, some value => if verb = .lower then g.setEmit value else .error .usage
    | none, none =>
      if arg.startsWith "--" then .error .usage
      else do return { g with verbose := ← letters false g.verbose (arg.toList.drop 1) }

/-- Arguments behind the mark `--` are files, whatever they look like. -/
def setInputs (g : Given) : List String → Except Refusal Given
  | [] => .ok g
  | path :: rest => do (← g.setInput path).setInputs rest

/-- The arguments of a command. -/
def setAll (g : Given) (verb : Verb) : List String → Except Refusal Given
  | [] => .ok g
  | "--" :: rest => g.setInputs rest
  | "--source" :: value :: rest =>
    if isOption value then .error .usage else do (← g.setSource value).setAll verb rest
  | "--emit" :: value :: rest =>
    if isOption value || verb ≠ .lower then .error .usage
    else do (← g.setEmit value).setAll verb rest
  | arg :: rest => do (← g.setSingle verb arg).setAll verb rest

/-- What was asked for; a file has to be given. -/
def command (g : Given) (verb : Verb) : Except Refusal Command :=
  match g.input with
  | none => .error .usage
  | some input =>
    let action := match verb with
      | .lower => Action.lower (g.emit.getD .listing) g.lenient
      | .run => .run
      | .check => .check
    .ok { action, input, source := g.source }

end Given

/-- Reads a command line: options of all commands, a command, and its own arguments. -/
def parse (verbose : Bool) : List String → Except Refusal Command
  | [] => .error .usage
  | "--verbose" :: rest => if verbose then .error .usage else parse true rest
  | "--help" :: _ => .error .help
  | "--version" :: _ => .error .version
  | ["help"] => .error .help
  | ["help", topic] =>
    if (Verb.ofText? topic).isSome || topic == "help" then .error .help else .error .usage
  | name :: rest => do
    match Verb.ofText? name with
    | none =>
      if isOption name && !name.startsWith "--" then do
        parse (← letters true verbose (name.toList.drop 1)) rest
      else .error .usage
    | some verb =>
      let given ← ({} : Given).setAll verb rest
      given.command verb

def ofArgs (args : List String) : Except Refusal Command := parse false args

/-- The files that a command may read. -/
def files (c : Command) : List String := c.input :: c.source.toList

end Command

end BlockLang
