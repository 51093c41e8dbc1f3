import BlockLang.Proofs.Lowering.WellScoped
import BlockLang.Syntax.Build

/-!
# Variables of lowered programs

Two statements about the code of a program that was lowered without a mistake, said of the unit
alone. **Every reference means what it says** (`Program.lower_refers`): the body at its level
outward has a slot of its number, and the slot has its name. **A body keeps the frame around it
exactly when something walks through it** (`Program.lower_captured_iff`): a reference in the body
itself to a variable further out, or one in a closure `d` levels below that goes out more than `d`
levels. Neither mentions scopes, which are gone by then.
-/

namespace BlockLang

namespace Program

variable {p : Program} {options : LowerOptions} {u : CodeUnit}

theorem lower_of_isEmpty (h : (p.lowering options).mistakes.isEmpty = true) :
    p.lower options = .ok (p.lowering options).unit := by
  unfold lower
  simp only [h, if_true]

/-- A program without a mistake, and one of its bodies that passes a test. -/
theorem lower_body (p : Program) (b : BodyId) (test : Body → Bool)
    (h : ((p.lowering {}).mistakes.isEmpty && ((p.lowering {}).unit.body? b).any test) = true) :
    p.lower {} = .ok (p.lowering {}).unit ∧
      ∃ body, (p.lowering {}).unit.body? b = some body ∧ test body = true := by
  obtain ⟨hempty, hfound⟩ := Bool.and_eq_true_iff.mp h
  exact ⟨lower_of_isEmpty hempty, (Option.any_eq_true _ _).mp hfound⟩

/-- **Every reference names a slot of the body at its level**, and only closures refer to the
bodies around them. Outward of a body is the one body whose code creates it. -/
theorem lower_refers (h : p.lower options = .ok u) :
    (∀ b outward, u.parent? b = some outward ↔
      ∃ outer, u.body? outward = some outer ∧ outer.code.creates b = true) ∧
    ∀ b body l, u.body? b = some body → body.code.Refers l →
      (∃ a owner, u.ancestor? l.level b = some a ∧ u.body? a = some owner ∧
        l.slot < owner.slots.length ∧ owner.slots[l.slot]? = some l.name) ∧
      (body.kind.isClosure = false → l.level = 0) := by
  have hu := lower_wellScoped h
  refine ⟨fun b outward => hu.parent?_eq_some_iff, fun b body l hb hl => ?_⟩
  obtain ⟨a, owner, hanc, howner, hslot⟩ := hu.slot hb (Code.refers_iff.mp hl)
  refine ⟨⟨a, owner, hanc, howner, (List.getElem?_eq_some_iff.mp hslot).1, hslot⟩, fun hkind => ?_⟩
  cases hlevel : l.level with
  | zero => rfl
  | succ n =>
    rw [hlevel, hu.ancestor?_root hb hkind n] at hanc
    simp at hanc

/-- `x = 1; -> { -> { x } }`: the lambda in between mentions no variable itself. -/
def nestedLambdas : Program where
  body := [Build.assign "x" (Build.integer 1),
    Build.lambda Params.empty [Build.lambda Params.empty [Build.localVar "x"]]]

/-- The inner lambda of `nestedLambdas` refers to `x` two bodies outward. -/
theorem nestedLambdas_refers :
    ∃ u body l, nestedLambdas.lower {} = .ok u ∧ u.body? 2 = some body ∧ body.code.Refers l ∧
      l.level = 2 ∧ l.name = "x" ∧ ∃ a owner, u.ancestor? l.level 2 = some a ∧
        u.body? a = some owner ∧ l.slot < owner.slots.length ∧
          owner.slots[l.slot]? = some l.name := by
  obtain ⟨hlower, body, hbody, hl⟩ := nestedLambdas.lower_body 2 (fun body =>
    .variable { level := 2, slot := 0, name := "x" } ∈ body.code.mentions) (by decide +kernel)
  have hl := Code.refers_iff.mpr (of_decide_eq_true hl)
  exact ⟨_, body, _, hlower, hbody, hl, rfl, rfl, ((lower_refers hlower).2 2 body _ hbody hl).1⟩

/-- **A body keeps the frame that its closure was created in exactly when a reference walks through
it**: one in the body itself, or in a closure `d` levels below it, that goes out more than `d`
levels. -/
theorem lower_captured_iff (h : p.lower options = .ok u) {b : BodyId} {body : Body}
    (hb : u.body? b = some body) :
    body.captured = true ↔ ∃ d e inner l, u.ancestor? d e = some b ∧ u.body? e = some inner ∧
      inner.code.Refers l ∧ d < l.level := by
  have hu := lower_wellScoped h
  constructor
  · intro hc
    exact hu.exists_refers_of_walks (hu.needed hb hc) rfl hb rfl
  · rintro ⟨d, e, inner, l, hanc, hinner, hl, hlt⟩
    obtain ⟨a, between, ha, hbetween, hc⟩ := hu.link hinner (Code.refers_iff.mp hl) d hlt
    rw [hanc, Option.some.injEq] at ha
    rw [← ha, hb, Option.some.injEq] at hbetween
    exact hbetween ▸ hc

/-- The outer lambda of `nestedLambdas` keeps its frame for the inner one. -/
theorem nestedLambdas_captured :
    ∃ u body, nestedLambdas.lower {} = .ok u ∧ u.body? 1 = some body ∧ body.captured = true ∧
      ∃ d e inner l, u.ancestor? d e = some 1 ∧ u.body? e = some inner ∧ inner.code.Refers l ∧
        d < l.level := by
  obtain ⟨hlower, body, hbody, hc⟩ := nestedLambdas.lower_body 1 (·.captured) (by decide +kernel)
  exact ⟨_, body, hlower, hbody, hc, (lower_captured_iff hlower hbody).mp hc⟩

end Program

end BlockLang
