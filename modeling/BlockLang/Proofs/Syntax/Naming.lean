import BlockLang.Proofs.Syntax.Placement

/-!
# Names that a program may have

Lowering makes variables of its own and gives them names that start with `%`. A program has none
such (`Program.Plain`): the names that it reads, assigns or declares are those of its nodes
(`Expr.variableNames`), wherever they stand.
-/

namespace BlockLang

/-- Names that start with `%` are those of hidden variables. -/
def isHidden (name : String) : Bool := name.toList.head? == some '%'

/-- The names that a block declares, if it is written out. -/
def BlockArg.declaredNames : Option BlockArg → List String
  | some (.literal block) => block.value.params.declaredNames
  | _ => []

namespace Expr

/-- The names of variables that the node itself reads, assigns or declares. -/
def variableNames : Expr → List String
  | .localVar name | .bareName name => [name]
  | .define _ params _ => params.declaredNames
  | .lambda literal => literal.value.params.declaredNames
  | .call _ _ _ block | .super _ block | .bareSuper block => BlockArg.declaredNames block
  | e => e.assignedNames

/-- No variable in the expression has the name of a hidden one. -/
def Plain (e : Located Expr) : Prop :=
  ∀ around x, Within e around x → ∀ name ∈ x.value.variableNames, isHidden name = false

theorem plain_iff : Plain e ↔
    (∀ name ∈ e.value.variableNames, isHidden name = false) ∧
      ∀ part ∈ e.value.parts.map (·.2), Plain part :=
  forall_within

/-- The expression is plain, and not deeper than `depth`. -/
def isPlainTo : Nat → Located Expr → Bool
  | 0, _ => false
  | depth + 1, e =>
    e.value.variableNames.all (!isHidden ·) && e.value.parts.all fun part => isPlainTo depth part.2

theorem plain_of_isPlainTo : ∀ {depth : Nat} {e : Located Expr}, isPlainTo depth e = true → Plain e
  | depth + 1, e, h => by
    rw [isPlainTo, Bool.and_eq_true, List.all_eq_true, List.all_eq_true] at h
    refine plain_iff.mpr ⟨fun name hname => by simpa using h.1 name hname, fun part hpart => ?_⟩
    obtain ⟨⟨k, _⟩, hmem, rfl⟩ := List.mem_map.mp hpart
    exact plain_of_isPlainTo (h.2 _ hmem)

end Expr

/-- No variable of the program has the name of a hidden one. -/
def Program.Plain (p : Program) : Prop :=
  ∀ around x, p.Has around x → ∀ name ∈ x.value.variableNames, isHidden name = false

theorem Program.plain_iff {p : Program} : p.Plain ↔ ∀ e ∈ p.body, Expr.Plain e :=
  forall_has

theorem Program.plain_of_isPlainTo {p : Program} (depth : Nat)
    (h : p.body.all (Expr.isPlainTo depth) = true) : p.Plain :=
  plain_iff.mpr fun e he => Expr.plain_of_isPlainTo (List.all_eq_true.mp h e he)

end BlockLang
