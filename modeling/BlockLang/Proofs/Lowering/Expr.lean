import BlockLang.Proofs.Lowering.Pieces

/-!
# Lowering the tree

The recursion on the tree. Every part of it meets the same postcondition: what it does is a
`Lowers`, and the code that it answers was made from what it obtained (`Made`). The theorems are
mutual in the way the definitions are, one case for each form of the tree, and what a form needs of
its parts comes from the recursion.

**The statement has to speak about every context**, because a block or method is lowered in another
one than the expression around it; and of an assignment it has to speak about every value, because
the value is lowered by whoever asks for the assignment. A value is therefore described by what was
obtained for it (`owned`) and what it was handed (`vs`).
-/

namespace BlockLang

open List

namespace Lower

namespace Meets

variable {c : Context}

/-- What assigning a value to a target meets, whatever the value was made from. -/
def AssignMeets (assign : Code → Lower Code) (c : Context) : Prop :=
  ∀ (vs owned : List Mention) (value : Code), Made vs owned [value] →
    Meets (assign value) c fun ms code => Made vs (ms ++ owned) [code]

theorem assembled (h : Meets m c fun ms code => Made [] ms [code]) : Meets m c Assembled :=
  h.noArguments.mono fun _ _ h => .unguarded h.1 h.2

theorem joined (h : Meets m c fun ms codes => Made [] ms codes) :
    Meets (Code.join <$> m) c fun ms code => Made [] ms [code] :=
  .map (h.mono fun _ _ h => h.join)

/-- What the parts of an expression meet that is lowered in another way where it stands: the inside
of a splat among arguments, the items of an array that is spread over targets. -/
structure SpreadMeets (e : Located Expr) (c : Context) : Prop where
  splat : ∀ s inner, e = ⟨s, .splat inner⟩ →
    Meets (Lower.expr inner) c fun ms code => Made [] ms [code]
  items : ∀ s items, e = ⟨s, .array items⟩ →
    Meets (Lower.args items) c fun ms codes => Made [] ms codes
  temps : ∀ s items, e = ⟨s, .array items⟩ → Meets (Lower.itemTemps items) c
    fun ms items => Made [] ms (items.map fun item => .writeLocal item.1 item.2)

theorem args_cons (he : Meets (Lower.expr e) c fun ms code => Made [] ms [code])
    (hspread : SpreadMeets e c)
    (hrest : Meets (Lower.args rest) c fun ms codes => Made [] ms codes) :
    Meets (Lower.args (e :: rest)) c fun ms codes => Made [] ms codes := by
  have hcons : ∀ {m : Lower Code}, (Meets m c fun ms code => Made [] ms [code]) →
      Meets (do
        let first ← m
        let rest ← Lower.args rest
        return first :: rest) c fun ms codes => Made [] ms codes := by
    intro m hm
    refine hm.step fun p first hfirst => ?_
    refine hrest.last fun q rest hrest => ?_
    exact hfirst.cons hrest
  unfold Lower.args
  split
  · exact .pure .nil
  · rename_i s inner tail heq
    cases heq
    exact hcons (.map ((hspread.splat s inner rfl).mono fun ms code h => .plain rfl rfl h))
  · rename_i e' tail _ heq
    cases heq
    exact hcons he

/-- A multiple assignment, given what its targets and its right side meet. A right side that is an
array of as many items as there are targets is never built; a single rest takes the value as it
is. -/
theorem multiAssign {span : Span} {pre post : List (Located Target)} {rest : Option RestTarget}
    {value : Located Expr} (hpre : EachMeets pre.length (Lower.assignEach pre) c)
    (hrest : RestMeets (Lower.assignRest rest) c)
    (hpost : EachMeets post.length (Lower.assignEach post) c)
    (hnamed : ∀ target, rest = some (.named target) → AssignMeets (Lower.assign target) c)
    (hvalue : Meets (Lower.expr value) c fun ms code => Made [] ms [code])
    (hspread : SpreadMeets value c) :
    Meets (Lower.expr ⟨span, .multiAssign ⟨pre, rest, post⟩ (some value)⟩) c
      fun ms code => Made [] ms [code] := by
  have harray : ∀ s items, value = ⟨s, .array items⟩ →
      Meets (Code.array <$> Lower.args items) c fun ms code => Made [] ms [code] := fun s items h =>
    .map ((hspread.items s items h).mono fun ms codes h => .plain rfl rfl h)
  unfold Lower.expr
  -- only the five forms of a multiple assignment with a right side are left
  split <;> rename_i heq <;> cases heq
  · rename_i s items
    split
    · refine (hspread.temps s items rfl).step fun p items hitems => ?_
      exact assignItems hpre hitems
    · refine (harray s items rfl).step fun p right hright => ?_
      refine (keepingRight hright fun temp => ?_).mono fun ms code h => h.swap
      have htemp : Made [.variable temp] [] [Code.readLocal temp] := .borrowed (by simp)
      refine (destructure hpre (fun _ _ _ => .pure .nil) (fun _ _ _ => .pure .nil) htemp).mono
        fun ms code h => ?_
      rwa [append_nil] at h
  · rename_i target s items
    refine (harray s items rfl).step fun p right hright => ?_
    exact (hnamed target rfl [] p right hright).mono fun ms code h => h.swap
  · rename_i target _
    refine hvalue.step fun p right hright => ?_
    refine nilAsArray.step fun q onNil hq => ?_
    subst hq
    refine (keepingRight hright fun temp => ?_).mono fun ms code h => h.swap
    have htemp : Made [.variable temp] [] [Code.readLocal temp] := .borrowed (by simp)
    have hcast : Made [.variable temp] [] [Code.splatCast (.readLocal temp) onNil] :=
      .plain rfl rfl htemp
    refine (hnamed target rfl _ _ _ hcast).mono fun ms code h => ?_
    rwa [append_nil] at h
  · exact hvalue
  · refine hvalue.step fun p right hright => ?_
    refine (keepingRight hright fun temp => ?_).mono fun ms code h => h.swap
    have htemp : Made [.variable temp] [] [Code.readLocal temp] := .borrowed (by simp)
    refine (destructure hpre hrest hpost htemp).mono fun ms code h => ?_
    rwa [append_nil] at h

theorem forBody (hassign : AssignMeets (Lower.assign target) c)
    (hbody : Meets (Lower.statements body) c fun ms codes => Made [] ms codes) :
    Meets (do
      let item ← Lower.addTemp "for"
      let bind := Code.writeLocal item (.argument 0 .isNil)
      let assignment ← Lower.recover .nil (Lower.assign target (.readLocal item))
      let body ← Lower.statements body
      return .join [bind, assignment, .join body]) c Assembled := by
  refine assembled ((addTemp "for").step fun q item hq => ?_)
  obtain ⟨rfl, hlevel⟩ := hq
  have hitem : Made [.variable item] [] [Code.readLocal item] := .borrowed (by simp)
  have hassign := hassign _ _ _ hitem
  refine (hassign.recover (.plain rfl rfl .nil)).step fun q assignment hassignment => ?_
  refine hbody.step fun r body hbody => .pure ?_
  have hargument : Made [.variable item] [] [Code.argument 0 .isNil] := .plain rfl rfl .nil
  have hbind : Made [.variable item] [.variable item]
      [Code.writeLocal item (.argument 0 .isNil)] := hargument.writeLocal
  have hall := (hbind.cons (hassignment.cons hbody.join.lend)).join
  refine hall.congr (by simp) ?_ ?_
  · intro x hx
    simpa using hx
  · intro x hx _
    simpa using hx

mutual

theorem expr : ∀ (e : Located Expr) (c : Context),
    Meets (Lower.expr e) c fun ms code => Made [] ms [code]
  | ⟨_, .nil⟩, _ | ⟨_, .bool _⟩, _ | ⟨_, .integer _⟩, _ | ⟨_, .float _⟩, _
  | ⟨_, .text _⟩, _ | ⟨_, .symbol _⟩, _ | ⟨_, .self⟩, _ | ⟨_, .instanceVar _⟩, _ =>
    .pure (.plain rfl rfl .nil)
  | ⟨_, .array items⟩, c => by
    refine (args items c).last fun p items h => ?_
    exact .plain rfl rfl h
  | ⟨_, .hash entries⟩, c => by
    refine (pairs entries c).last fun p entries h => ?_
    exact .plain rfl rfl h
  | ⟨_, .splat inner⟩, c | ⟨_, .not inner⟩, c => by
    refine (expr inner c).last fun p inner h => ?_
    exact .plain rfl rfl h
  | ⟨span, .localVar name⟩, _ => readLocal name span
  | ⟨_, .bareName name⟩, _ => bareName name
  | ⟨_, .classVar _⟩, _ | ⟨_, .constant _⟩, _ => .pure (.plain rfl rfl .nil)
  | ⟨_, .globalVar name⟩, _ => readGlobal name
  | ⟨_, .assign target value⟩, c => by
    refine (expr value c).step fun p value hvalue => ?_
    exact (assign target c [] p value hvalue).mono fun q code h => h.swap
  | ⟨_, .multiAssign ⟨pre, rest, post⟩ none⟩, c => by
    have hnil : Made [] [] [Code.nil] := .plain rfl rfl .nil
    refine (destructure (assignEach pre c) (assignRest rest c) (assignEach post c) hnil).mono
      fun ms code h => ?_
    rwa [append_nil] at h
  | ⟨_, .multiAssign ⟨pre, rest, post⟩ (some value)⟩, c =>
    multiAssign (assignEach pre c) (assignRest rest c) (assignEach post c) (named rest c)
      (expr value c) (spread value c)
  | ⟨_, .call receiver method arguments block⟩, c => by
    refine (optionalExpr receiver c).step fun p receiver hreceiver => ?_
    refine (args arguments c).step fun q arguments harguments => ?_
    refine (blockOperand block c).last fun r block hblock => ?_
    rw [← append_assoc]
    exact hreceiver.call harguments hblock
  | ⟨span, .super arguments block⟩, c => by
    refine (requireMethod _ span).step fun p _ hp => ?_
    subst hp
    refine (args arguments c).step fun q arguments harguments => ?_
    refine (blockOperand block c).last fun r block hblock => ?_
    exact harguments.super hblock
  | ⟨span, .bareSuper block⟩, c => by
    refine (requireMethod _ span).step fun p params hp => ?_
    subst hp
    refine (replay params span).step fun q arguments harguments => ?_
    refine (blockOperand block c).last fun r block hblock => ?_
    exact harguments.super hblock
  | ⟨span, .yield arguments⟩, c => by
    refine (requireMethod _ span).step fun p _ hp => ?_
    subst hp
    refine (args arguments c).last fun q arguments harguments => ?_
    exact (Made.plain rfl rfl harguments).own (by simp [Mention.isKept])
  | ⟨span, .define ⟨_, name⟩ params body⟩, c =>
    built (rootBody_eq fun _ _ => rfl) (.root rfl rfl)
      (fun _ => callable (binding span params _) (statements body _))
      (fun id _ => by
        have hdefine : Made [] _ [Code.define name id] := .node rfl .nil
        exact hdefine)
  | ⟨_, .lambda literal⟩, c => by
    exact (closure literal true c).last fun _ _ h => h
  | ⟨span, .classDef name superclass body⟩, c => by
    refine (optionalExpr superclass c).step fun p superclass hsuperclass => ?_
    refine built (rootBody_eq fun _ _ => rfl) (.root rfl rfl)
      (fun _ => assembled (joined (statements body _))) (fun id _ => ?_)
    have hopen : Made [] _ [Code.openClass name superclass false id] := .node rfl hsuperclass
    exact hopen.swap
  | ⟨span, .moduleDef name body⟩, c =>
    built (rootBody_eq fun _ _ => rfl) (.root rfl rfl)
      (fun _ => assembled (joined (statements body _)))
      (fun id _ => by
        have hopen : Made [] _ [Code.openClass name none true id] := .node rfl .nil
        exact hopen)
  | ⟨_, .ifElse condition thenBranch elseBranch⟩, c => by
    refine (expr condition c).step fun p condition hcondition => ?_
    refine (statements thenBranch c).step fun q thenBranch hthen => ?_
    refine (statements elseBranch c).last fun r elseBranch helse => ?_
    exact .plain rfl rfl (hcondition.cons (hthen.join.cons helse.join))
  | ⟨_, .loop condition body bodyFirst negated⟩, c => by
    refine loop loop_eq (statements_total body) (expr condition _) (statements body _) ?_
    intro id p condition q body hcondition hbody
    cases negated with
    | false => exact .plain rfl rfl (hcondition.cons hbody.join)
    | true =>
      have hnot : Made [] p [Code.not condition] := .plain rfl rfl hcondition
      exact .plain rfl rfl (hnot.cons hbody.join)
  | ⟨span, .forEach target iterable body⟩, c => by
    refine (expr iterable c).step fun p iterable hiterable => ?_
    refine built blockBody_eq (.closure rfl) (fun scope => ?_) (fun id breakId => ?_)
    · exact forBody (assign target _) (statements body _)
    · have hclosure : Made [] _ [Code.closure id false] := .node rfl .nil
      have hcall : Made [] _ [Code.call (some iterable) "each" [] (some (.closure id false))] :=
        .plain rfl rfl (hiterable.cons hclosure)
      exact hcall.catchBreak
  | ⟨_, .and left right⟩, c | ⟨_, .or left right⟩, c => by
    refine (expr left c).step fun p left hleft => ?_
    refine (expr right c).last fun q right hright => ?_
    exact .plain rfl rfl (hleft.cons hright)
  | ⟨span, .breakWith value⟩, c => by
    refine (breakTarget span).step fun p id hp => ?_
    subst hp
    refine (optionalExpr value c).last fun q value hvalue => ?_
    exact .plain rfl rfl hvalue.getD
  | ⟨span, .nextWith value⟩, c => by
    refine (requireClosureOrLoop _ span).step fun p _ hp => ?_
    subst hp
    refine (inContext rfl rfl (optionalExpr value _)).last fun q value hvalue => ?_
    exact .plain rfl rfl hvalue.getD
  | ⟨span, .redo⟩, c | ⟨span, .retry⟩, c => by
    refine (requireClosureOrLoop _ span).step fun p _ hp => .pure ?_
    subst hp
    exact .plain rfl rfl .nil
  | ⟨span, .returnWith value⟩, c => by
    refine (optionalExpr value c).step fun p value hvalue => ?_
    exact returnWith span hvalue.getD
  | ⟨_, .sequence body⟩, c => by
    refine (statements body c).last fun p codes h => ?_
    exact h.join

theorem optionalExpr : ∀ (e : Option (Located Expr)) (c : Context),
    Meets (Lower.optionalExpr e) c fun ms code => Made [] ms code.toList
  | none, _ => .pure .nil
  | some e, c => by
    exact (expr e c).last fun _ _ h => h

theorem statements : ∀ (body : List (Located Expr)) (c : Context),
    Meets (Lower.statements body) c fun ms codes => Made [] ms codes
  | [], _ => .pure .nil
  | e :: rest, c => by
    refine ((expr e c).recover (.plain rfl rfl .nil)).step fun p first hfirst => ?_
    refine (statements rest c).last fun q rest hrest => ?_
    exact hfirst.cons hrest

theorem spread : ∀ (e : Located Expr) (c : Context), SpreadMeets e c
  | ⟨_, e⟩, c => by
    cases e with
    | splat inner =>
      refine ⟨fun s inner' h => ?_, by simp, by simp⟩
      cases h
      exact expr inner c
    | array items =>
      refine ⟨by simp, fun s items' h => ?_, fun s items' h => ?_⟩
      · cases h
        exact args items c
      · cases h
        exact itemTemps items c
    | _ => exact ⟨by simp, by simp, by simp⟩

theorem args : ∀ (es : List (Located Expr)) (c : Context),
    Meets (Lower.args es) c fun ms codes => Made [] ms codes
  | [], _ => .pure .nil
  | e :: rest, c => args_cons (expr e c) (spread e c) (args rest c)

theorem pairs : ∀ (es : List (Located Expr × Located Expr)) (c : Context),
    Meets (Lower.pairs es) c fun ms codes => Made [] ms (codes.flatMap fun p => [p.1, p.2])
  | [], _ => .pure .nil
  | (key, value) :: rest, c => by
    refine (expr key c).step fun p key hkey => ?_
    refine (expr value c).step fun q value hvalue => ?_
    refine (pairs rest c).last fun r rest hrest => ?_
    exact hkey.cons (hvalue.cons hrest)

theorem itemTemps : ∀ (es : List (Located Expr)) (c : Context), Meets (Lower.itemTemps es) c
      fun ms items => Made [] ms (items.map fun item => .writeLocal item.1 item.2)
  | [], _ => .pure .nil
  | e :: rest, c => by
    refine (expr e c).step fun p value hvalue => ?_
    refine (addTemp "masgn").step fun q temp hq => ?_
    obtain ⟨rfl, _⟩ := hq
    refine (itemTemps rest c).last fun r rest hrest => ?_
    rw [← append_assoc]
    have hwrite : Made [] ([.variable temp] ++ p) [Code.writeLocal temp value] := hvalue.writeLocal
    exact hwrite.swap.cons hrest

theorem assign : ∀ (target : Located Target) (c : Context), AssignMeets (Lower.assign target) c
  | ⟨_, .localVar name⟩, _, vs, owned, value, hvalue => by
    refine (resolveForAssignment name).step fun p l hp => .pure ?_
    subst hp
    exact hvalue.writeLocal
  | ⟨_, .instanceVar name⟩, _, vs, owned, value, hvalue
  | ⟨_, .classVar name⟩, _, vs, owned, value, hvalue => .pure (.plain rfl rfl hvalue)
  | ⟨_, .globalVar name⟩, _, vs, owned, value, hvalue => writeGlobal name hvalue
  | ⟨_, .index receiver indices⟩, c, vs, owned, value, hvalue => by
    refine (expr receiver c).step fun p receiver hreceiver => ?_
    refine (args indices c).step fun q indices hindices => .pure ?_
    have hparts := hreceiver.lend.cons (hindices.lend.append hvalue)
    rw [append_nil, append_assoc]
    exact .plain rfl rfl (by simpa [Code.children] using hparts)
  | ⟨_, .attribute receiver name⟩, c, vs, owned, value, hvalue => by
    refine (expr receiver c).last fun p receiver hreceiver => ?_
    exact .plain rfl rfl (hreceiver.lend.cons hvalue)
  | ⟨_, .nested ⟨pre, rest, post⟩⟩, c, vs, owned, value, hvalue =>
    destructure (assignEach pre c) (assignRest rest c) (assignEach post c) hvalue

theorem assignEach : ∀ (targets : List (Located Target)) (c : Context),
    EachMeets targets.length (Lower.assignEach targets) c
  | [], _, _, _, _ => .pure .nil
  | target :: rest, c, vs, value, hvalue => by
    have hfirst : Made vs [] [value 0] := .borrowed (by simpa using hvalue 0 (by simp))
    refine (assign target c vs [] (value 0) hfirst).step fun p first hfirst => ?_
    refine (assignEach rest c vs (fun i => value (i + 1)) fun i hi =>
      hvalue (i + 1) (by simpa using hi)).step fun q rest hrest => .pure ?_
    rw [append_nil] at hfirst ⊢
    exact hfirst.cons hrest

theorem assignRest : ∀ (rest : Option RestTarget) (c : Context), RestMeets (Lower.assignRest rest) c
  | none, _, _, _, _ | some .anonymous, _, _, _, _ => .pure .nil
  | some (.named target), c, vs, value, hvalue => by
    have hvalue : Made vs [] [value] := .borrowed (by simpa using hvalue)
    refine (assign target c vs [] value hvalue).step fun p code h => .pure h

theorem named : ∀ (rest : Option RestTarget) (c : Context) (target : Located Target),
    rest = some (.named target) → AssignMeets (Lower.assign target) c
  | none, _, _, h | some .anonymous, _, _, h => nomatch h
  | some (.named target), c, _, h => by
    cases h
    exact assign target c

theorem blockOperand : ∀ (block : Option BlockArg) (c : Context),
    Meets (Lower.blockOperand block) c fun ms block => Made [] ms block.codes
  | none, _ => .pure .nil
  | some (.pass value), c => by
    exact (expr value c).last fun _ _ h => h
  | some (.literal block), c => by
    exact (closure block false c).last fun _ _ h => h

theorem closure : ∀ (literal : Located BlockLiteral) (lambda : Bool) (c : Context),
    Meets (Lower.closure literal lambda) c fun ms code => Made [] ms [code.1]
  | ⟨span, ⟨params, body⟩⟩, lambda, c =>
    built closure_eq (.closure (by cases lambda <;> rfl))
      (fun scope => callable (binding span params _) (statements body _))
      (fun id breakId => by
        have hclosure : Made [] _ [Code.closure id lambda] := .node rfl .nil
        cases lambda <;> exact hclosure)

theorem binding (span : Span) : ∀ (params : Params) (c : Context),
    Meets (Lower.binding span params) c fun ms codes => ∃ writes,
      codes = checks c.kind params ++ writes ∧ Made (lentBy c.kind params) ms writes
  | ⟨pre, optional, rest, post, keywords, keywordRest, block, blockLocals⟩, c => by
    refine prelude ⟨pre, optional, rest, post, keywords, keywordRest, block, blockLocals⟩ ?_
      (bindEach pre c) (bindEach post c)
    refine (optionalDefaults span _ optional c).step fun p codes hoptional => ?_
    refine (keywordDefaults span _ keywords c).last fun q codes' hkeywords => ?_
    exact ⟨hoptional.1, hkeywords.1, hoptional.2.append hkeywords.2⟩

theorem optionalDefaults (span : Span) : ∀ (pending : List String)
    (params : List (Located OptionalParam)) (c : Context),
    Meets (Lower.optionalDefaults span pending params) c
      fun ms codes => params.length = codes.length ∧ Made [] ms codes
  | _, [], _ => .pure ⟨rfl, .nil⟩
  | pending, ⟨_, ⟨name, value⟩⟩ :: rest, c => by
    refine (defaultValue name _ span value (expr value c)).step fun p first hfirst => ?_
    refine (optionalDefaults span _ rest c).last fun q codes hrest => ?_
    exact ⟨by simp [hrest.1], hfirst.cons hrest.2⟩

theorem keywordDefaults (span : Span) : ∀ (pending : List String)
    (params : List (Located KeywordParam)) (c : Context),
    Meets (Lower.keywordDefaults span pending params) c
      fun ms codes => params.length = codes.length ∧ Made [] ms codes
  | _, [], _ => .pure ⟨rfl, .nil⟩
  | pending, ⟨_, ⟨name, none⟩⟩ :: rest, c => by
    refine (keywordDefaults span _ rest c).step fun q codes hrest => .pure ?_
    have hmissing : Made [] [] [Code.missingKeyword name] := .plain rfl rfl .nil
    rw [append_nil]
    exact ⟨by simp [hrest.1], hmissing.cons hrest.2⟩
  | pending, ⟨_, ⟨name, some value⟩⟩ :: rest, c => by
    refine (defaultValue name _ span value (expr value c)).step fun p first hfirst => ?_
    refine (keywordDefaults span _ rest c).last fun q codes hrest => ?_
    exact ⟨by simp [hrest.1], hfirst.cons hrest.2⟩

theorem bindEach : ∀ (patterns : List (Located Pattern)) (c : Context),
    EachMeets patterns.length (Lower.bindEach patterns) c
  | [], _, _, _, _ => .pure .nil
  | ⟨_, .required name⟩ :: rest, c, vs, value, hvalue => by
    have hfirst : Made vs [] [value 0] := .borrowed (by simpa using hvalue 0 (by simp))
    refine (writeOwn name hfirst).step fun p first hfirst => ?_
    refine (bindEach rest c vs (fun i => value (i + 1)) fun i hi =>
      hvalue (i + 1) (by simpa using hi)).step fun q rest hrest => .pure ?_
    rw [append_nil] at hfirst ⊢
    exact hfirst.cons hrest
  | ⟨_, .destructure ⟨pre, middle, post⟩⟩ :: rest, c, vs, value, hvalue => by
    have hfirst : Made vs [] [value 0] := .borrowed (by simpa using hvalue 0 (by simp))
    refine (destructure (assignEach pre c) (assignRest middle c) (assignEach post c) hfirst).step
      fun p first hfirst => ?_
    refine (bindEach rest c vs (fun i => value (i + 1)) fun i hi =>
      hvalue (i + 1) (by simpa using hi)).step fun q rest hrest => .pure ?_
    rw [append_nil] at hfirst ⊢
    exact hfirst.cons hrest

end

end Meets

end Lower

end BlockLang
