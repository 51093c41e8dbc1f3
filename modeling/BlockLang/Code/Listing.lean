import BlockLang.Code.Unit
import BlockLang.Decimal.Layout
import BlockLang.Text.Quoted

/-!
# Listings

Code as indented text: a line for every piece of code, two blanks for every level, a parenthesis
opened before a form and closed on the last line of its parts. The printer goes through the code by
itself, and does not ask for `Code.children`.
-/

namespace BlockLang

/-- Numbers in listings show a fraction or an exponent; the exponent from 10^16 on and below
10^-4. -/
def listingNumber : Decimal.Layout := ⟨1, some (-4, 16)⟩

def MissingArgument.text : MissingArgument → String
  | isNil => "nil"
  | isError => "error"

def NilAsArray.text : NilAsArray → String
  | arrayWithNil => "array-with-nil"
  | emptyArray => "empty-array"

/-! ## What stands on a line -/

/-- What the text of a line is put together from. -/
inductive Piece where
  | fixed (text : String)
  | name (text : String)
  | names (texts : List String)
  | reference (l : Local)
  | arity (a : Arity)
  | nat (n : Nat)
  | int (i : Int)
  | float (x : Float)
  | quoted (text : String)

namespace Piece

def text : Piece → String
  | fixed t | name t => t
  | names ts => " ".intercalate ts
  | reference l => l.text
  | arity a => a.text
  | nat n => toString n
  | int i => toString i
  | float x => Decimal.render listingNumber x
  | quoted t => Text.quoted t

end Piece

/-- How the line of a piece of code begins: a word by itself, or the head of a form. -/
structure Label where
  isForm : Bool
  pieces : List Piece

def Label.text (l : Label) : String := String.join (l.pieces.map Piece.text)

namespace Code

/-- The first line of a piece of code. -/
def label : Code → Label
  | .nil => ⟨false, [.fixed "nil"]⟩
  | .bool value => ⟨false, [.fixed (if value then "true" else "false")]⟩
  | .integer value => ⟨false, [.int value.toInt]⟩
  | .float value => ⟨false, [.float value]⟩
  | .text value => ⟨false, [.quoted value]⟩
  | .symbol own => ⟨false, [.fixed ":", .name own]⟩
  | .self => ⟨false, [.fixed "self"]⟩
  | .array _ => ⟨true, [.fixed "array"]⟩
  | .hash _ => ⟨true, [.fixed "hash"]⟩
  | .splat _ => ⟨true, [.fixed "splat"]⟩
  | .sequence _ => ⟨true, [.fixed "seq"]⟩
  | .ifElse _ _ _ => ⟨true, [.fixed "if"]⟩
  | .and _ _ => ⟨true, [.fixed "and"]⟩
  | .or _ _ => ⟨true, [.fixed "or"]⟩
  | .not _ => ⟨true, [.fixed "not"]⟩
  | .elidable _ _ => ⟨true, [.fixed "elidable"]⟩
  | .readLocal source => ⟨true, [.fixed "read ", .reference source]⟩
  | .writeLocal target _ => ⟨true, [.fixed "write ", .reference target]⟩
  | .readInstanceVar own => ⟨true, [.fixed "ivar @", .name own]⟩
  | .writeInstanceVar own _ => ⟨true, [.fixed "ivar= @", .name own]⟩
  | .readClassVar own => ⟨true, [.fixed "cvar @@", .name own]⟩
  | .writeClassVar own _ => ⟨true, [.fixed "cvar= @@", .name own]⟩
  | .readGlobal own => ⟨true, [.fixed "gvar $", .name own]⟩
  | .writeGlobal own _ => ⟨true, [.fixed "gvar= $", .name own]⟩
  | .constant own => ⟨true, [.fixed "const ", .name own]⟩
  | .checkArity counts => ⟨true, [.fixed "check-arity ", .arity counts]⟩
  | .argument i missing =>
    ⟨true, [.fixed "arg ", .nat i, .fixed " missing=", .fixed missing.text]⟩
  | .optionalArgument i minimum keywords _ _ =>
    ⟨true, [.fixed "opt-arg ", .nat i, .fixed " min=", .nat minimum,
      .fixed (if keywords then " kw" else "")]⟩
  | .restArgument start post _ _ =>
    ⟨true, [.fixed "rest-arg ", .nat start, .fixed "..-", .nat post]⟩
  | .postArgument fromEnd forward minimum _ _ =>
    ⟨true, [.fixed "post-arg -", .nat fromEnd, .fixed " or ", .nat forward, .fixed " min=",
      .nat minimum]⟩
  | .keywordArgument keyword _ _ => ⟨true, [.fixed "kwarg ", .name keyword]⟩
  | .keywordRestArgument _ excluded =>
    ⟨true, [.fixed "kwrest-arg except [", .names excluded, .fixed "]"]⟩
  | .missingKeyword keyword => ⟨true, [.fixed "missing-kwarg ", .name keyword]⟩
  | .blockArgument => ⟨true, [.fixed "block-arg"]⟩
  | .shouldDestructure => ⟨true, [.fixed "should-destructure"]⟩
  | .index _ i => ⟨true, [.fixed "index ", .int i]⟩
  | .slice _ start endOffset =>
    ⟨true, [.fixed "slice ", .nat start, .fixed "..-", .nat endOffset]⟩
  | .atLeast _ size => ⟨true, [.fixed "at-least ", .nat size]⟩
  | .splatCast _ onNil => ⟨true, [.fixed "splat-cast ", .fixed onNil.text]⟩
  | .isNil _ => ⟨true, [.fixed "nil?"]⟩
  | .call _ method _ _ => ⟨true, [.fixed "call ", .name method]⟩
  | .super _ _ forwardBlock => ⟨true, [.fixed (if forwardBlock then "super &" else "super")]⟩
  | .yield _ => ⟨true, [.fixed "yield"]⟩
  | .closure body lambda =>
    ⟨true, [.fixed (if lambda then "lambda" else "proc"), .fixed " body", .nat body]⟩
  | .catchBreak id _ => ⟨true, [.fixed "catch-break brk", .nat id.index]⟩
  | .define method body => ⟨true, [.fixed "def ", .name method, .fixed " body", .nat body]⟩
  | .openClass opened _ isModule body =>
    ⟨true, [.fixed (if isModule then "module " else "class "), .name opened, .fixed " body",
      .nat body]⟩
  | .loop _ _ bodyFirst id =>
    ⟨true, [.fixed (if bodyFirst then "do-while brk" else "while brk"), .nat id.index]⟩
  | .breakWith id _ => ⟨true, [.fixed "break brk", .nat id.index]⟩
  | .nextWith _ => ⟨true, [.fixed "next"]⟩
  | .redo => ⟨true, [.fixed "redo"]⟩
  | .retry => ⟨true, [.fixed "retry"]⟩
  | .returnWith id _ => ⟨true, [.fixed "return ret", .nat id.index]⟩

/-! ## Lines -/

def indent (level : Nat) : String := String.join (List.replicate level "  ")

/-- Closes a parenthesis on the last line. -/
def closeLast : List String → List String
  | [] => []
  | [last] => [last ++ ")"]
  | line :: rest => line :: closeLast rest

/-- A piece of code and the lines of its parts. The last line of the parts closes a form. -/
def nested (level : Nat) (c : Code) (parts : List (List String)) : List String :=
  if !c.label.isForm then [indent level ++ c.label.text]
  else if parts.isEmpty then [indent level ++ "(" ++ c.label.text ++ ")"]
  else closeLast ((indent level ++ "(" ++ c.label.text) :: parts.flatten)

mutual

/-- The lines of a piece of code at a level: for every kind of code, the parts that are shown. A
call without a receiver shows the one that it has. -/
def lines : Code → Nat → List String
  | c@.nil, level | c@(.bool _), level | c@(.integer _), level | c@(.float _), level
  | c@(.text _), level | c@(.symbol _), level | c@.self, level | c@(.readLocal _), level
  | c@(.readInstanceVar _), level | c@(.readClassVar _), level | c@(.readGlobal _), level
  | c@(.constant _), level | c@(.checkArity _), level | c@(.argument _ _), level
  | c@(.restArgument _ _ _ _), level | c@(.postArgument _ _ _ _ _), level
  | c@(.keywordRestArgument _ _), level | c@(.missingKeyword _), level | c@.blockArgument, level
  | c@.shouldDestructure, level | c@(.closure _ _), level | c@(.define _ _), level
  | c@.redo, level | c@.retry, level => nested level c []
  | c@(.array items), level | c@(.sequence items), level | c@(.yield items), level =>
    nested level c (linesEach items (level + 1))
  | c@(.hash pairs), level => nested level c (linesPairs pairs (level + 1))
  | c@(.ifElse condition thenBranch elseBranch), level =>
    nested level c
      [lines condition (level + 1), lines thenBranch (level + 1), lines elseBranch (level + 1)]
  | c@(.and left right), level | c@(.or left right), level | c@(.elidable left right), level
  | c@(.loop left right _ _), level =>
    nested level c [lines left (level + 1), lines right (level + 1)]
  | c@(.splat value), level | c@(.not value), level | c@(.writeLocal _ value), level
  | c@(.writeInstanceVar _ value), level | c@(.writeClassVar _ value), level
  | c@(.writeGlobal _ value), level | c@(.optionalArgument _ _ _ _ value), level
  | c@(.keywordArgument _ _ value), level | c@(.index value _), level
  | c@(.slice value _ _), level | c@(.atLeast value _), level | c@(.splatCast value _), level
  | c@(.isNil value), level | c@(.catchBreak _ value), level | c@(.breakWith _ value), level
  | c@(.nextWith value), level | c@(.returnWith _ value), level =>
    nested level c [lines value (level + 1)]
  | c@(.call none _ args block), level =>
    nested level c (nested (level + 1) .self [] ::
      (linesEach args (level + 1) ++ linesOption block (level + 1)))
  | c@(.call (some receiver) _ args block), level =>
    nested level c (lines receiver (level + 1) ::
      (linesEach args (level + 1) ++ linesOption block (level + 1)))
  | c@(.super args block _), level =>
    nested level c (linesEach args (level + 1) ++ linesOption block (level + 1))
  | c@(.openClass _ superclass _ _), level =>
    nested level c (linesOption superclass (level + 1))

def linesEach : List Code → Nat → List (List String)
  | [], _ => []
  | c :: rest, level => lines c level :: linesEach rest level

def linesPairs : List (Code × Code) → Nat → List (List String)
  | [], _ => []
  | (key, value) :: rest, level => lines key level :: lines value level :: linesPairs rest level

def linesOption : Option Code → Nat → List (List String)
  | none, _ => []
  | some c, level => [lines c level]

end

def listing (c : Code) (level : Nat) : String :=
  String.join ((c.lines level).map (· ++ "\n"))

/-- Whether the numbers of arguments that the code checks for are machine words. -/
def isCountable (c : Code) : Bool :=
  c.preorder.all fun
    | .checkArity arity => arity.isCountable
    | _ => true

/-- The listing, if all numbers of arguments can be shown. -/
def listing? (c : Code) (level : Nat) : Option String :=
  if c.isCountable then some (c.listing level) else none

end Code

/-- A line on the body, a line on its variables, and its code. -/
def Body.listing (b : Body) : String :=
  let returnPart := (b.returnId.map fun r => " return=" ++ r.text).getD ""
  let breakPart := (b.breakId.map fun r => " break=" ++ r.text).getD ""
  let capturedPart := if b.captured then " captured" else ""
  let slots := b.slots.mapIdx fun i name => s!" {i}={name}"
  s!"body{b.id} {b.kind.text} \"{b.name}\" arity={b.arity.text}" ++ returnPart ++ breakPart ++
    capturedPart ++ "\n  slots:" ++ String.join slots ++ "\n" ++ b.code.listing 1

/-- The bodies, a blank line after each. -/
def CodeUnit.listing (u : CodeUnit) : String :=
  String.join (u.bodies.toList.map fun b => b.listing ++ "\n")

/-- The listing, if all numbers of arguments can be shown. -/
def CodeUnit.listing? (u : CodeUnit) : Option String :=
  if u.bodies.all fun b => b.arity.isCountable && b.code.isCountable then some u.listing
  else none

end BlockLang
