import BlockLang.Code.Listing
import BlockLang.Command.Directory
import BlockLang.Command.Line
import BlockLang.Json.Writer
import BlockLang.Lowering.Program
import BlockLang.Machine.Run
import BlockLang.Syntax.Decode

/-!
# Reports of commands

What a command prints and how it ends, given the contents of files.
-/

namespace BlockLang

/-- The end of a command: its exit code and what it prints. -/
structure Report where
  exit : Nat
  out : String := ""
  err : String := ""
deriving DecidableEq, Repr

namespace Report

def success (out : String) : Report := { exit := 0, out }

def failure (err : String) : Report := { exit := 1, err }

def ofRefusal : Refusal → Report
  | .help => success helpText
  | .version => success "0.1.0\n"
  | .usage => { exit := 2, err := helpText }
where
  helpText :=
    "Commands:\n" ++
    "  lower FILE [--source FILE] [--emit ir|summary] [--lenient]\n" ++
    "  run FILE [--source FILE]\n" ++
    "  check FILE [--source FILE]\n" ++
    "Options:\n" ++
    "  -v, --verbose\n"

end Report

def cannotRead (path : String) (reason : Unreadable) : String :=
  s!"failed to read {path}: {reason.message}"

/-- A line for each mistake, with its place in the file. -/
def mistakeLines (path : String) (mistakes : List Diagnostic) : String :=
  String.join (mistakes.map fun d =>
    s!"{path}:{d.span.start.toNat}..{d.span.stop.toNat}: {d.message}\n")

namespace Command

/-- The report on a program with mistakes. Those of a source that can be read go to the output. -/
def mistakesReport (read : ReadFile) (c : Command) (mistakes : List Diagnostic) : Report :=
  let count := s!"{mistakes.length} error(s)\n"
  match c.source with
  | none => .failure (mistakeLines c.input mistakes ++ count)
  | some path =>
    match read path with
    | .ok _ => { exit := 1, out := mistakeLines path mistakes, err := count }
    | .error reason =>
      .failure (s!"Warning: {cannotRead path reason}\n" ++ mistakeLines c.input mistakes ++ count)

/-- Reads and lowers the program, and reports why that failed. -/
def load (read : ReadFile) (c : Command) (options : LowerOptions) : Except Report CodeUnit :=
  match read c.input with
  | .error reason => .error (.failure s!"Error: {cannotRead c.input reason}\n")
  | .ok text =>
    match Program.parse? text with
    | none => .error (.failure "Error: invalid syntax tree\n")
    | some program =>
      match program.lower options with
      | .error mistakes => .error (mistakesReport read c mistakes)
      | .ok u => .ok u

def runReport (u : CodeUnit) : Report :=
  match Setting.run { unit := u, maxDepth := commandMaxDepth } {} with
  | some (.value _, session) => .success session.store.output
  | some (.fault f, session) =>
    { exit := 1, out := session.store.output, err := f.message ++ "\n" }
  | some (.crash _, _) | none => .failure "Error: interpreter thread panicked\n"

/-- What a command prints and how it ends. -/
def report (read : ReadFile) (c : Command) : Report :=
  let lenient := match c.action with
    | .lower _ lenient => lenient
    | _ => false
  match c.load read { strictLocals := !lenient } with
  | .error report => report
  | .ok u =>
    match c.action with
    | .lower .listing _ => .success u.listing
    | .lower .summary _ => .success (u.summaries.pretty ++ "\n")
    | .run => runReport u
    | .check => .success s!"Lowering passed! ({u.bodies.size} bodies)\n"

end Command

/-- What a command line prints and how it ends. -/
def reportOn (read : ReadFile) (args : List String) : Report :=
  match Command.ofArgs args with
  | .error refusal => .ofRefusal refusal
  | .ok c => c.report read

end BlockLang
