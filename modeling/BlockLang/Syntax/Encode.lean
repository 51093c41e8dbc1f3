import BlockLang.Decimal.Layout
import BlockLang.Syntax.Basic

/-!
# Syntax trees as JSON

Records are objects with every field present. A form with contents is an object with one member,
named for the form; a form without contents is a string.
-/

namespace BlockLang

def Span.toJson (s : Span) : Json :=
  .record [("start", .nat s.start.toNat), ("end", .nat s.stop.toNat),
    ("file_id", .nat s.file.toNat)]

/-- A form with contents. -/
def Json.form (name : String) (contents : Json) : Json :=
  .record [(name, contents)]

/-- A value in its place. -/
def Located.json (span : Span) (value : Json) : Json :=
  .record [("span", span.toJson), ("value", value)]

/-- A number; those that are not finite have no JSON form. -/
def Json.float (x : Float) : Json :=
  match Decimal.numeral? x with
  | some n => .number n
  | none => .null

def Json.optional : Option Json → Json
  | none => .null
  | some j => j

def RestParam.toJson (r : RestParam) : Json :=
  .record [("name", .optional (r.name.map .text))]

mutual

/-- An expression without its place. -/
def Expr.toJson : Expr → Json
  | .nil => .text "Nil"
  | .bool true => .text "True"
  | .bool false => .text "False"
  | .integer value => .form "Integer" (.int value.toInt)
  | .float value => .form "Float" (.float value)
  | .text value => .form "Str" (.text value)
  | .symbol name => .form "Symbol" (.text name)
  | .array items => .form "Array" (.array (Expr.listJson items))
  | .hash pairs => .form "Hash" (.array (Expr.pairsJson pairs))
  | .splat inner => .form "Splat" (Expr.locatedJson inner)
  | .self => .text "SelfRef"
  | .localVar name => .form "LocalVar" (.text name)
  | .bareName name => .form "VCall" (.text name)
  | .instanceVar name => .form "InstanceVar" (.text name)
  | .classVar name => .form "ClassVar" (.text name)
  | .globalVar name => .form "GlobalVar" (.text name)
  | .constant name => .form "Const" (.text name)
  | .assign target value =>
    .form "Assign" (.record [("target", Target.locatedJson target),
      ("value", Expr.locatedJson value)])
  | .multiAssign targets value =>
    .form "MultipleAssign" (.record [("targets", targets.toJson),
      ("value", Expr.optionJson value)])
  | .call receiver method args block =>
    .form "Call" (.record [("receiver", Expr.optionJson receiver), ("method", .text method),
      ("args", .array (Expr.listJson args)), ("block", BlockArg.optionJson block)])
  | .super args block =>
    .form "Super" (.record [("args", .array (Expr.listJson args)),
      ("block", BlockArg.optionJson block)])
  | .bareSuper block => .form "ZSuper" (.record [("block", BlockArg.optionJson block)])
  | .yield args => .form "Yield" (.array (Expr.listJson args))
  | .define name params body =>
    .form "Def" (.record [("name", Located.json name.span (.text name.value)),
      ("params", params.toJson), ("body", .array (Expr.listJson body))])
  | .lambda literal => .form "Lambda" (BlockLiteral.locatedJson literal)
  | .classDef name superclass body =>
    .form "ClassDef" (.record [("name", .text name), ("superclass", Expr.optionJson superclass),
      ("body", .array (Expr.listJson body))])
  | .moduleDef name body =>
    .form "ModuleDef" (.record [("name", .text name), ("body", .array (Expr.listJson body))])
  | .ifElse condition thenBranch elseBranch =>
    .form "If" (.record [("condition", Expr.locatedJson condition),
      ("then_branch", .array (Expr.listJson thenBranch)),
      ("else_branch", .array (Expr.listJson elseBranch))])
  | .loop condition body bodyFirst negated =>
    .form "While" (.record [("condition", Expr.locatedJson condition),
      ("body", .array (Expr.listJson body)), ("do_while", .bool bodyFirst),
      ("until", .bool negated)])
  | .forEach target iterable body =>
    .form "For" (.record [("target", Target.locatedJson target),
      ("iterable", Expr.locatedJson iterable), ("body", .array (Expr.listJson body))])
  | .and left right => .form "And" (.array [Expr.locatedJson left, Expr.locatedJson right])
  | .or left right => .form "Or" (.array [Expr.locatedJson left, Expr.locatedJson right])
  | .not inner => .form "Not" (Expr.locatedJson inner)
  | .breakWith value => .form "Break" (Expr.optionJson value)
  | .nextWith value => .form "Next" (Expr.optionJson value)
  | .redo => .text "Redo"
  | .retry => .text "Retry"
  | .returnWith value => .form "Return" (Expr.optionJson value)
  | .sequence body => .form "Begin" (.array (Expr.listJson body))

def Expr.locatedJson : Located Expr → Json
  | ⟨span, value⟩ => Located.json span value.toJson

def Expr.optionJson : Option (Located Expr) → Json
  | none => .null
  | some e => Expr.locatedJson e

def Expr.listJson : List (Located Expr) → List Json
  | [] => []
  | e :: rest => Expr.locatedJson e :: Expr.listJson rest

def Expr.pairsJson : List (Located Expr × Located Expr) → List Json
  | [] => []
  | (key, value) :: rest =>
    .array [Expr.locatedJson key, Expr.locatedJson value] :: Expr.pairsJson rest

/-- A target without its place. -/
def Target.toJson : Target → Json
  | .localVar name => .form "Local" (.text name)
  | .instanceVar name => .form "InstanceVar" (.text name)
  | .classVar name => .form "ClassVar" (.text name)
  | .globalVar name => .form "Global" (.text name)
  | .index receiver args =>
    .form "Index" (.record [("receiver", Expr.locatedJson receiver),
      ("args", .array (Expr.listJson args))])
  | .attribute receiver name =>
    .form "Attribute" (.record [("receiver", Expr.locatedJson receiver), ("name", .text name)])
  | .nested targets => .form "Nested" targets.toJson

def Target.locatedJson : Located Target → Json
  | ⟨span, value⟩ => Located.json span value.toJson

def Target.listJson : List (Located Target) → List Json
  | [] => []
  | t :: rest => Target.locatedJson t :: Target.listJson rest

def RestTarget.optionJson : Option RestTarget → Json
  | none => .null
  | some (.named target) => .form "Named" (Target.locatedJson target)
  | some .anonymous => .text "Anonymous"

def Targets.toJson : Targets → Json
  | ⟨pre, rest, post⟩ =>
    .record [("pre", .array (Target.listJson pre)), ("rest", RestTarget.optionJson rest),
      ("post", .array (Target.listJson post))]

def BlockArg.optionJson : Option BlockArg → Json
  | none => .null
  | some (.literal block) => .form "Literal" (BlockLiteral.locatedJson block)
  | some (.pass value) => .form "Pass" (Expr.locatedJson value)

def BlockLiteral.locatedJson : Located BlockLiteral → Json
  | ⟨span, ⟨params, body⟩⟩ =>
    Located.json span
      (.record [("params", params.toJson), ("body", .array (Expr.listJson body))])

def Pattern.listJson : List (Located Pattern) → List Json
  | [] => []
  | ⟨span, .required name⟩ :: rest =>
    Located.json span (.form "Required" (.text name)) :: Pattern.listJson rest
  | ⟨span, .destructure targets⟩ :: rest =>
    Located.json span (.form "Destructure" targets.toJson) :: Pattern.listJson rest

def OptionalParam.listJson : List (Located OptionalParam) → List Json
  | [] => []
  | ⟨span, ⟨name, value⟩⟩ :: rest =>
    Located.json span (.record [("name", .text name), ("default", Expr.locatedJson value)]) ::
      OptionalParam.listJson rest

def KeywordParam.listJson : List (Located KeywordParam) → List Json
  | [] => []
  | ⟨span, ⟨name, value⟩⟩ :: rest =>
    Located.json span (.record [("name", .text name), ("default", Expr.optionJson value)]) ::
      KeywordParam.listJson rest

def Params.toJson : Params → Json
  | ⟨pre, optional, rest, post, keywords, keywordRest, block, blockLocals⟩ =>
    .record [("pre", .array (Pattern.listJson pre)),
      ("optional", .array (OptionalParam.listJson optional)),
      ("rest", .optional (rest.map fun r => Located.json r.span r.value.toJson)),
      ("post", .array (Pattern.listJson post)),
      ("keywords", .array (KeywordParam.listJson keywords)),
      ("keyword_rest", .optional (keywordRest.map fun r => Located.json r.span r.value.toJson)),
      ("block", .optional (block.map fun b => Located.json b.span (.text b.value))),
      ("block_locals",
        .array (blockLocals.map fun b => Located.json b.span (.text b.value)))]

end

def Program.toJson (p : Program) : Json :=
  .record [("body", .array (Expr.listJson p.body)), ("span", p.span.toJson)]

end BlockLang
