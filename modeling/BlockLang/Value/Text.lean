import BlockLang.Decimal.Layout
import BlockLang.Text.Quoted
import BlockLang.Value.Store

/-!
# Values as text

`inspect` shows a value so that its type can be seen, `display` shows it for output. Arrays and
hashes show what they contain, so one that contains itself has no text; the number of containers
bounds how deep the others go.
-/

namespace BlockLang

/-- Numbers that are no integers show their digits without an exponent. -/
def valueNumber : Decimal.Layout := ⟨0, none⟩

/-- A number: integers with all digits and one zero after the point. -/
def floatText (x : Float) : String :=
  match Decimal.integer? x with
  | some (negative, n) => (if negative then "-" else "") ++ s!"{n}.0"
  | none => Decimal.render valueNumber x

/-- A key of a hash. -/
def Key.inspect : Key → String
  | nil => "nil"
  | bool true => "true"
  | bool false => "false"
  | int i => s!"{i.toInt}"
  | text t => Text.quoted t
  | symbol name => s!":{name}"

namespace Store

/-- The number of containers. -/
def containers (s : Store) : Nat := s.arrays.size + s.hashes.size

/-- A value with what it contains, at most `n` containers deep. -/
def inspectWithin (s : Store) : Nat → Value → Option String
  | _, .nil => some "nil"
  | _, .bool true => some "true"
  | _, .bool false => some "false"
  | _, .int i => some s!"{i.toInt}"
  | _, .float x => some (floatText x)
  | _, .text t => some (Text.quoted t)
  | _, .symbol name => some s!":{name}"
  | _, .closure id =>
    let c := s.closure id
    let mark := if c.lambda then " (lambda)" else ""
    some s!"#<Proc:body{c.body}{mark}>"
  | _, .object id => some s!"#<{(s.classInfo (s.object id).classId).name}>"
  | _, .classRef id => some (s.classInfo id).name
  | 0, .array _ => none
  | 0, .hash _ => none
  | n + 1, .array id => do
    let parts ← (s.array id).toList.mapM (s.inspectWithin n)
    some ("[" ++ ", ".intercalate parts ++ "]")
  | n + 1, .hash id => do
    let parts ← (s.hash id).entries.mapM fun (key, value) => do
      let shown ← s.inspectWithin n value
      match key with
      | .symbol name => some s!"{name}: {shown}"
      | other => some s!"{other.inspect} => {shown}"
    some ("\x7b" ++ ", ".intercalate parts ++ "\x7d")

/-- Looking deeper than there are containers shows nothing more. -/
def inspect? (s : Store) (v : Value) : Option String := s.inspectWithin (s.containers + 1) v

/-- A value for output. -/
def display? (s : Store) : Value → Option String
  | .nil => some ""
  | .text t => some t
  | .symbol name => some name
  | v => s.inspect? v

/-- The lines of a value: an array has those of its items, an empty one a blank line. -/
def linesWithin (s : Store) : Nat → Value → Option String
  | 0, .array _ => none
  | n + 1, .array id => do
    let items := (s.array id).toList
    if items.isEmpty then some "\n"
    else some (String.join (← items.mapM (s.linesWithin n)))
  | _, v => (s.display? v).map (· ++ "\n")

def lines? (s : Store) (v : Value) : Option String := s.linesWithin (s.containers + 1) v

end Store

end BlockLang
