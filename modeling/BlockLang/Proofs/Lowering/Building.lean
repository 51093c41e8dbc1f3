import BlockLang.Proofs.Lowering.Acceptance
import BlockLang.Proofs.Lowering.Assembling

/-!
# How every part puts its code together

The recursion on the tree, with the rules of `Lower.Builds`. What it needs of the tree is that its
names and callables are within the policy and that what it reads may be read (`Context.Clear`), and
what it needs of the scope is that parameters have been declared before they are bound.

The main result is `Lower.Builds.expr` with its siblings: **what the lowering of an expression
returns was emitted in the scope of its context**, by the steps of `Emits`, and stands where it may.
-/

namespace BlockLang

variable {ρ : Policy} {c : Context}

open List

/-! ## The parts of one scope -/

theorem Expr.inScopeEach_eq (es : List (Located Expr)) :
    Expr.inScopeEach es = es.flatMap Expr.inScope := by
  induction es with
  | nil => rfl
  | cons e rest ih => rw [Expr.inScopeEach, ih, flatMap_cons]

theorem Expr.inScopePairs_eq (es : List (Located Expr × Located Expr)) :
    Expr.inScopePairs es = (es.flatMap fun (key, value) => [key, value]).flatMap Expr.inScope := by
  induction es with
  | nil => rfl
  | cons e rest ih => simp [Expr.inScopePairs, ih]

theorem Expr.inScopeOption_eq (e : Option (Located Expr)) :
    Expr.inScopeOption e = e.toList.flatMap Expr.inScope := by
  cases e <;> simp [Expr.inScopeOption]

theorem BlockArg.inScope_eq (block : Option BlockArg) :
    BlockArg.inScope block = (BlockArg.scopeChildren block).flatMap Expr.inScope := by
  rcases block with _ | (_ | _) <;> simp [BlockArg.inScope, BlockArg.scopeChildren]

mutual

theorem Target.inScope_eq : ∀ target : Located Target,
    Target.inScope target = target.value.scopeChildren.flatMap Expr.inScope
  | ⟨_, .index receiver args⟩ => by
    simp [Target.inScope, Target.scopeChildren, Expr.inScopeEach_eq]
  | ⟨_, .attribute receiver _⟩ => by simp [Target.inScope, Target.scopeChildren]
  | ⟨_, .nested targets⟩ => Targets.inScope_eq targets
  | ⟨_, .localVar _⟩ | ⟨_, .instanceVar _⟩ | ⟨_, .classVar _⟩ | ⟨_, .globalVar _⟩ => rfl

theorem Targets.inScope_eq : ∀ targets : Targets,
    targets.inScope = targets.scopeChildren.flatMap Expr.inScope
  | ⟨pre, rest, post⟩ => by
    simp only [Targets.inScope, Targets.scopeChildren, flatMap_append,
      Target.inScopeEach_eq pre, RestTarget.inScope_eq rest, Target.inScopeEach_eq post]

theorem RestTarget.inScope_eq : ∀ rest : Option RestTarget,
    RestTarget.inScope rest = (RestTarget.scopeChildren rest).flatMap Expr.inScope
  | none | some .anonymous => rfl
  | some (.named target) => Target.inScope_eq target

theorem Target.inScopeEach_eq : ∀ targets : List (Located Target),
    Target.inScopeEach targets = (Target.scopeChildrenEach targets).flatMap Expr.inScope
  | [] => rfl
  | target :: rest => by
    rw [Target.inScopeEach, Target.inScope_eq target, Target.inScopeEach_eq rest,
      Target.scopeChildrenEach, flatMap_append]

end

theorem Expr.inScope_eq (e : Located Expr) :
    Expr.inScope e = e :: e.value.scopeChildren.flatMap Expr.inScope := by
  obtain ⟨span, value⟩ := e
  cases value <;> simp [Expr.inScope, Expr.scopeChildren, Expr.inScopeEach_eq,
    Expr.inScopePairs_eq, Expr.inScopeOption_eq, BlockArg.inScope_eq, Target.inScope_eq,
    Targets.inScope_eq]

theorem BlockArg.mem_blockArg_of_scopeChildren (h : x ∈ BlockArg.scopeChildren block) :
    ([], x) ∈ Parts.blockArg block := by
  rcases block with _ | (_ | _) <;> simp_all [BlockArg.scopeChildren, Parts.blockArg, Parts.here]

theorem Expr.mem_parts_of_scopeChildren {e : Expr} (h : x ∈ e.scopeChildren) :
    x ∈ e.parts.map (·.2) := by
  cases e <;>
    simp only [Expr.scopeChildren, Expr.parts, Parts.here, Parts.inside, map_append,
      map_map, mem_append, mem_map, Function.comp_apply, exists_eq_right] at h ⊢ <;>
    grind [→ BlockArg.mem_blockArg_of_scopeChildren]

/-! ## What may be lowered -/

/-- The names that the node itself reads in its scope. -/
def Expr.readNames (method : Option Params) : Expr → List String
  | .localVar name | .bareName name => [name]
  | .bareSuper _ => method.elim [] Params.replayNames
  | _ => []

/-- Everything in the expression is within the policy. -/
def Expr.Suits (ρ : Policy) (e : Located Expr) : Prop := ∀ around x, Within e around x → ρ.node x

/-- What is lowered in the context is within the policy, and what it reads there may be read. -/
structure Context.Clear (ρ : Policy) (N : Names) (c : Context) (names : List String)
    (es : List (Located Expr)) : Prop where
  options : c.options = ρ.options
  method : ∀ params, c.method = some params → ∀ name ∈ params.replayNames, ρ.name name
  names : ∀ name ∈ names, ρ.name name
  exprs : ∀ e ∈ es, Expr.Suits ρ e
  reads : ∀ e ∈ es, ∀ x ∈ Expr.inScope e, ∀ name ∈ x.value.readNames c.method, N name

namespace Context.Clear

variable {ρ : Policy} {N : Names} {c : Context} {names : List String} {es : List (Located Expr)}
  {e : Located Expr}

theorem mono (h : c.Clear ρ N names es) (hnames : ∀ name ∈ names', name ∈ names)
    (hes : ∀ e ∈ es', e ∈ es) : c.Clear ρ N names' es' :=
  ⟨h.options, h.method, fun name hname => h.names name (hnames name hname),
    fun e he => h.exprs e (hes e he), fun e he => h.reads e (hes e he)⟩

/-- From an expression to what it has inside, wherever that is read. -/
theorem inside (h : c.Clear ρ N [] [e]) :
    c.Clear ρ (fun _ => True) e.value.variableNames (e.value.parts.map (·.2)) :=
  have hsuits := Expr.forall_within.mp (h.exprs e mem_cons_self)
  ⟨h.options, h.method, fun _ hn => ⟨e, hsuits.1, hn⟩, hsuits.2, fun _ _ _ _ _ _ => trivial⟩

theorem node (h : c.Clear ρ N [] [e]) : c.Clear ρ N e.value.variableNames e.value.scopeChildren := by
  refine ⟨h.options, h.method, h.inside.names, fun x hx => ?_, fun part hpart x hx => ?_⟩
  · exact h.inside.exprs x (Expr.mem_parts_of_scopeChildren hx)
  · refine h.reads e mem_cons_self x ?_
    rw [Expr.inScope_eq]
    exact mem_cons_of_mem _ (mem_flatMap.mpr ⟨part, hpart, hx⟩)

theorem read (h : c.Clear ρ N [] [e]) : ∀ name ∈ e.value.readNames c.method, N name := by
  refine h.reads e mem_cons_self e ?_
  rw [Expr.inScope_eq]
  exact mem_cons_self

theorem self (h : c.Clear ρ N [] [e]) : ρ.node e := h.exprs e mem_cons_self [] e (.self e)

theorem callable (h : c.Clear ρ N [] [e]) (hk : k ∈ Expr.callables e) : ρ.callable k :=
  ⟨e, h.self, hk⟩

theorem parts (h : c.Clear ρ N [] [e]) (hes : ∀ x ∈ es', x ∈ e.value.scopeChildren) :
    c.Clear ρ N [] es' :=
  h.node.mono (by simp) hes

theorem head (h : c.Clear ρ N names (e :: rest)) : c.Clear ρ N [] [e] :=
  h.mono (by simp) (by simp)

theorem tail (h : c.Clear ρ N names (e :: rest)) : c.Clear ρ N names rest :=
  h.mono (fun _ hn => hn) fun _ => mem_cons_of_mem _

theorem inContext {c' : Context} (h : c.Clear ρ N names es) (hoptions : c'.options = c.options)
    (hmethod : c'.method = c.method) : c'.Clear ρ N names es :=
  ⟨hoptions ▸ h.options, hmethod ▸ h.method, h.names, h.exprs, hmethod ▸ h.reads⟩

end Context.Clear

/-- The targets of an assignment may be lowered. -/
structure ClearTargets (ρ : Policy) (N : Names) (c : Context) (pre : List (Located Target))
    (rest : Option RestTarget) (post : List (Located Target)) : Prop where
  pre : c.Clear ρ N (Target.namesEach pre) (Target.scopeChildrenEach pre)
  rest : c.Clear ρ N (RestTarget.names rest) (RestTarget.scopeChildren rest)
  post : c.Clear ρ N (Target.namesEach post) (Target.scopeChildrenEach post)

theorem ClearTargets.of_clear {N : Names} {pre post : List (Located Target)}
    {rest : Option RestTarget}
    (h : c.Clear ρ N (Targets.names ⟨pre, rest, post⟩) (Targets.scopeChildren ⟨pre, rest, post⟩)) :
    ClearTargets ρ N c pre rest post := by
  refine ⟨h.mono ?_ ?_, h.mono ?_ ?_, h.mono ?_ ?_⟩ <;>
    simp +contextual [Targets.names, Targets.scopeChildren]

namespace Context.Clear

variable {ρ : Policy} {N : Names} {c : Context} {e : Located Expr}

theorem targets {value : Option (Located Expr)} (h : c.Clear ρ N [] [e])
    (he : e.value = .multiAssign ⟨pre, rest, post⟩ value) : ClearTargets ρ N c pre rest post := by
  refine .of_clear (h.node.mono ?_ ?_)
  · simp [he, Expr.variableNames, Expr.assignedNames]
  · simp +contextual [he, Expr.scopeChildren]

end Context.Clear

/-- A callable may be lowered in the context. -/
structure ClearCallable (ρ : Policy) (c : Context) (k : Callable) : Prop where
  clear : c.Clear ρ (fun _ => True) k.params.declaredNames (k.params.exprs ++ k.body)
  callable : ρ.callable k

/-- The block of a call may be lowered: it is passed on, or written out. -/
structure ClearBlock (ρ : Policy) (N : Names) (c : Context) (block : Option BlockArg) : Prop where
  passed : c.Clear ρ N [] (BlockArg.scopeChildren block)
  literal : ∀ k ∈ BlockArg.callables block, ClearCallable ρ c k

theorem Context.Clear.block {ρ : Policy} {N : Names} {c : Context} {e : Located Expr}
    (block : Option BlockArg) (h : c.Clear ρ N [] [e])
    (hpassed : ∀ x ∈ BlockArg.scopeChildren block, x ∈ e.value.scopeChildren)
    (hnames : ∀ name ∈ BlockArg.declaredNames block, name ∈ e.value.variableNames)
    (hparts : ∀ part ∈ Parts.blockArg block, part ∈ e.value.parts)
    (hcallables : ∀ k ∈ BlockArg.callables block, k ∈ Expr.callables e) :
    ClearBlock ρ N c block := by
  refine ⟨h.parts hpassed, fun k hk => ⟨?_, h.callable (hcallables k hk)⟩⟩
  obtain ⟨literal, rfl, rfl⟩ : ∃ literal, block = some (.literal literal) ∧
      k = .closure .block literal := by
    rcases block with _ | (_ | _) <;> simp_all [BlockArg.callables]
  refine h.inside.mono hnames fun x hx => mem_map.mpr ⟨([.block], x), hparts _ ?_, rfl⟩
  exact mem_map.mpr ⟨x, hx, rfl⟩

theorem Params.mem_declaredNames_iff {p : Params} {name : String} : name ∈ p.declaredNames ↔
    name ∈ Params.patternNames p.pre ∨
    (∃ o ∈ p.optional, name = o.value.name ∨ name ∈ Expr.declaredNames o.value.default) ∨
    (∃ r ∈ p.rest, name = r.value.slotName) ∨ name ∈ Params.patternNames p.post ∨
    (∃ key ∈ p.keywords, name = key.value.name ∨
      ∃ default ∈ key.value.default, name ∈ Expr.declaredNames default) ∨
    (∃ r ∈ p.keywordRest, name = r.value.keywordSlotName) ∨ (∃ b ∈ p.block, name = b.value) ∨
    ∃ b ∈ p.blockLocals, name = b.value := by
  unfold Params.declaredNames
  rw [mem_addNames]
  simp only [not_mem_nil, false_or, mem_append, mem_flatMap, mem_cons,
    mem_map, Option.mem_toList, Option.mem_def, or_assoc, @eq_comm _ _ name]

theorem Context.Clear.inMethod {params : Params} {es : List (Located Expr)}
    (h : c.Clear ρ (fun _ => True) params.declaredNames es) (scope : ScopeId) (name : String) :
    (Lower.rootContext scope .method (some params) name c).Clear ρ (fun _ => True)
      params.declaredNames es := by
  refine ⟨h.options, fun p hp n hn => ?_, h.names, h.exprs, fun _ _ _ _ _ _ => trivial⟩
  cases hp
  exact h.names n (Lower.mem_declaredNames_of_replayNames hn)

theorem Context.Clear.inClass {es : List (Located Expr)} (h : c.Clear ρ (fun _ => True) [] es)
    (scope : ScopeId) (kind : BodyKind) (name : String) :
    (Lower.rootContext scope kind none name c).Clear ρ (fun _ => True) [] es :=
  ⟨h.options, nofun, nofun, h.exprs, fun _ _ _ _ _ _ => trivial⟩

/-! ## Where parameters come from -/

namespace ArgumentSource

variable {E : List Supply} {source : ArgumentSource}

/-- If the values are items, the variable that they are taken from is at hand. -/
def Sourced (E : List Supply) (source : ArgumentSource) : Prop :=
  ∀ array, source = .items array → .items array ∈ E

theorem Sourced.weaken (h : Sourced E source) (hE : ∀ x ∈ E, x ∈ E') : Sourced E' source :=
  fun array harray => hE _ (h array harray)

theorem supplies_atPosition (h : source.Sourced E) (i : Nat) :
    Supplies E [.code (source.atPosition i)] := by
  cases source with
  | arguments missing => exact .leaf rfl rfl
  | items array => exact .take (h array rfl) (.index _)

theorem supplies_optional (h : source.Sourced E) (arity : Arity) (position : Nat) {default : Code}
    (hdefault : .code default ∈ E) :
    Supplies E [.code (source.optional arity position default)] := by
  cases source with
  | arguments missing =>
    refine .node rfl fun part hpart => ?_
    rw [mem_singleton.mp hpart]
    exact .code_of_mem hdefault
  | items array =>
    refine .node rfl fun part hpart => ?_
    simp only [optional, Code.children, mem_cons, not_mem_nil, or_false] at hpart
    rcases hpart with rfl | rfl | rfl
    · exact .take (h array rfl) (.atLeast _)
    · exact .take (h array rfl) (.index _)
    · exact .code_of_mem hdefault

theorem supplies_rest (h : source.Sourced E) (arity : Arity) :
    Supplies E [.code (source.rest arity)] := by
  cases source with
  | arguments missing => exact .leaf rfl rfl
  | items array => exact .take (h array rfl) (.slice _ _)

theorem supplies_post (h : source.Sourced E) (arity : Arity) (i : Nat) :
    Supplies E [.code (source.post arity i)] := by
  cases source with
  | arguments missing => exact .leaf rfl rfl
  | items array =>
    refine .node rfl fun part hpart => ?_
    simp only [post, Code.children, mem_cons, not_mem_nil, or_false] at hpart
    rcases hpart with rfl | rfl | rfl
    · exact .take (h array rfl) (.atLeast _)
    · exact .take (h array rfl) (.index _)
    · exact .take (h array rfl) (.index _)

end ArgumentSource

namespace Lower

/-! ## What an assignment answers -/

theorem destructure_solid {pre post : Nat} {assignPre assignPost : (Nat → Code) → Lower (List Code)}
    {assignRest : Code → Lower (List Code)} {value code : Code} {s s' : LoweringState}
    (h : Lower.destructure pre post assignPre assignRest assignPost value c s = .ok code s') :
    code.items.all Code.isSolid = true := by
  -- the array, what nil is, and three times three lists of assignments
  iterate 11 obtain ⟨_, _, -, h⟩ := ok_of_bind h
  cases h
  rfl

/-- An assignment leaves nothing out when it is joined with other code. -/
theorem assign_solid {value code : Code} {s s' : LoweringState} :
    ∀ {target : Located Target}, Lower.assign target value c s = .ok code s' →
      code.items.all Code.isSolid = true
  | ⟨_, .localVar _⟩, h | ⟨_, .attribute _ _⟩, h => by
    obtain ⟨_, _, -, h⟩ := ok_of_bind h
    cases h
    rfl
  | ⟨_, .instanceVar _⟩, h | ⟨_, .classVar _⟩, h => by
    cases h
    rfl
  | ⟨_, .globalVar name⟩, h => by
    rw [Lower.assign, writeGlobal] at h
    split at h
    · obtain ⟨_, _, -, h⟩ := ok_of_bind h
      cases h
      rfl
    · cases h
      rfl
  | ⟨_, .index _ _⟩, h => by
    obtain ⟨_, _, -, h⟩ := ok_of_bind h
    obtain ⟨_, _, -, h⟩ := ok_of_bind h
    cases h
    rfl
  | ⟨_, .nested ⟨_, _, _⟩⟩, h => destructure_solid h

theorem assignEach_solid {c : Context} : ∀ {targets : List (Located Target)} {value : Nat → Code}
    {codes : List Code} {s s' : LoweringState},
    Lower.assignEach targets value c s = .ok codes s' →
      ∀ code ∈ codes, code.items.all Code.isSolid = true
  | [], _, _, _, _, h => by
    cases h
    exact forall_mem_nil _
  | _ :: _, _, _, _, _, h => by
    obtain ⟨_, _, hfirst, h⟩ := ok_of_bind h
    obtain ⟨_, _, hrest, h⟩ := ok_of_bind h
    cases h
    exact forall_mem_cons.mpr ⟨assign_solid hfirst, assignEach_solid hrest⟩

namespace Builds

variable {value : Code} {name : String} {params : Params}

variable {α : Type} {ρ : Policy} {N : Names} {c : Context} {E : List Supply}

/-- The answer is code, or a list of it. -/
abbrev one (code : Code) : List Supply := [.code code]

abbrev many (codes : List Code) : List Supply := codes.map .code

/-! ## The pieces that do not recurse -/

theorem supply (h : Supplies E G) (hm : Builds ρ N m c (G ++ E) pieces) : Builds ρ N m c E pieces :=
  fun s => (hm s).since prefix_rfl fun _ _ _ hm => .step (.supplied h) hm

theorem leaf (hc : (code.isNeutral && code.isFlat && code.isUnbound) = true)
    (h : code.children = []) : Builds ρ N (Pure.pure code : Lower Code) c E one :=
  .pure (.leaf hc h)

theorem whole (hc : (code.isNeutral && code.isFlat && code.isUnbound) = true)
    (h : ∀ part ∈ code.children, Supply.code part ∈ E) :
    Builds ρ N (Pure.pure code : Lower Code) c E one :=
  .pure (.node hc fun part hpart => .code_of_mem (h part hpart))

theorem cons (hfirst : Builds ρ N first c E one)
    (hrest : ∀ code, Builds ρ N rest c (.code code :: E) many) :
    Builds ρ N (do
      let first ← first
      let rest ← rest
      return first :: rest) c E many :=
  hfirst.bind fun _ => (hrest _).bind fun _ => .pure (.of_subset (by simp; grind))

theorem readLocal (hname : ρ.name name) (hread : N name) (span : Span) :
    Builds ρ N (Lower.readLocal name span) c E one := by
  refine (resolve? hname hread).bind fun found => ?_
  cases found with
  | some l => exact .pure (.read (by simp))
  | none =>
    show Builds ρ N (if c.options.strictLocals then _ else _) c _ _
    cases c.options.strictLocals with
    | true => exact .fail
    | false =>
      exact (resolveToRead hname hread).bind fun _ => .pure (.read (by simp))

theorem readGlobal (name : String) : Builds ρ N (Lower.readGlobal name) c E one := by
  unfold Lower.readGlobal
  split
  · exact (resolveFrameGlobal name).bind fun _ => .pure (.read (by simp))
  · exact .leaf (by simp [Code.isNeutral, Code.isFlat, Code.isUnbound, *]) rfl

theorem writeGlobal (name : String) (hvalue : .code value ∈ E) :
    Builds ρ N (Lower.writeGlobal name value) c E one := by
  unfold Lower.writeGlobal
  split
  · exact (resolveFrameGlobal name).bind fun _ =>
      .pure (.write (by simp) (.code_of_mem (by simp [hvalue])))
  · refine .pure (.node (by simp [Code.isNeutral, Code.isFlat, Code.isUnbound, *]) fun part hpart => ?_)
    rw [mem_singleton.mp hpart]
    exact .code_of_mem hvalue

theorem writeOwn (hname : .own name ∈ E) (hvalue : Supplies E [.code value]) :
    Builds ρ N (Lower.writeOwn name value) c E one :=
  (ownLocal hname).bind fun _ => .pure (.write (by simp) (hvalue.weaken (by simp +contextual)))

theorem writeEach {γ : Type} {name : γ → String} {value : γ → Code} (as : List γ)
    (hname : ∀ a ∈ as, .own (name a) ∈ E) (hvalue : ∀ a ∈ as, Supplies E [.code (value a)]) :
    Builds ρ N (as.mapM fun a => Lower.writeOwn (name a) (value a)) c E many :=
  mapM fun a ha _ hE => writeOwn (hE _ (hname a ha)) ((hvalue a ha).weaken hE)

theorem nilAsArray : Builds ρ N Lower.nilAsArray c E fun _ => [] := quiet fun _ => Or.inl ⟨_, rfl⟩

theorem requireMethod {f : Params → Lower α} {pieces : α → List Supply} {mistake : Mistake}
    {span : Span} (h : ∀ params, c.method = some params → Builds ρ N (f params) c E pieces) :
    Builds ρ N (Lower.requireMethod mistake span >>= f) c E pieces := by
  intro s
  rw [bind_run, requireMethod_run]
  cases hmethod : c.method with
  | none => exact prefix_rfl
  | some params => exact h params hmethod s

theorem requireClosureOrLoop (mistake : Mistake) (span : Span) :
    Builds ρ N (Lower.requireClosureOrLoop mistake span) c E fun _ => one .redo := by
  intro s
  show Built ρ N c E _ s ((if c.kind.isClosure || c.inLoop then Pure.pure () else
    Lower.fail mistake span : Lower Unit) c s)
  cases hinside : c.kind.isClosure || c.inLoop with
  | true =>
    exact ⟨prefix_rfl, fun _ => .admitted rfl (fun _ => hinside) (fun _ => rfl)
      (by simp [Code.children])⟩
  | false => exact prefix_rfl

theorem breakTarget (span : Span) :
    Builds ρ N (Lower.breakTarget span) c E fun id => one (.breakWith id .nil) := by
  intro s
  rw [breakTarget_run]
  cases hbreak : s.breakOf c.scope with
  | none => exact prefix_rfl
  | some id =>
    exact ⟨prefix_rfl, fun _ => .admitted rfl (fun _ => hbreak) (fun _ => rfl)
      fun part hpart => mem_singleton.mp hpart ▸ .leaf rfl rfl⟩

/-- A `return` carries what its site can be left by; in a loop of a class that is the loop. -/
theorem returnWith (span : Span) (hvalue : .code value ∈ E) :
    Builds ρ N (Lower.returnWith value span) c E one := by
  have hpart : ∀ part ∈ [value], Supplies E [.code part] :=
    fun part hpart => mem_singleton.mp hpart ▸ .code_of_mem hvalue
  intro s
  rw [returnWith_run]
  cases hreturn : s.returnOf c.scope with
  | some id =>
    exact ⟨prefix_rfl, fun _ => .admitted rfl (fun _ => hreturn) (fun _ => rfl) hpart⟩
  | none =>
    cases c.inLoop with
    | false => exact prefix_rfl
    | true =>
      cases hbreak : s.breakOf c.scope with
      | none => exact prefix_rfl
      | some id =>
        exact ⟨prefix_rfl, fun _ => .admitted rfl (fun _ => hbreak) (fun _ => rfl) hpart⟩

/-- Three parts one after the other. -/
def inTurn (first second third : Lower (List Code)) : Lower (List Code) := do
  return (← first) ++ (← second) ++ (← third)

theorem inTurn_builds (h₁ : ∀ E', (∀ x ∈ E, x ∈ E') → Builds ρ N first c E' many)
    (h₂ : ∀ E', (∀ x ∈ E, x ∈ E') → Builds ρ N second c E' many)
    (h₃ : ∀ E', (∀ x ∈ E, x ∈ E') → Builds ρ N third c E' many) :
    Builds ρ N (inTurn first second third) c E many := by
  refine (h₁ E fun _ hx => hx).bind fun a => ?_
  refine (h₂ _ fun _ => mem_append_right _).bind fun b => ?_
  refine (h₃ _ fun _ hx => mem_append_right _ (mem_append_right _ hx)).bind fun d => ?_
  exact .pure (.of_subset (by simp; grind))

/-- The array is made, the targets read it, and they do without it when there is none. -/
theorem spread {large small : Local → Lower (List Code)} {nothing : Lower (List Code)} (size : Nat)
    (hvalue : .code value ∈ E)
    (hlarge : ∀ array, Builds ρ N (large array) c (.items array :: E) many)
    (hsmall : ∀ array, Builds ρ N (small array) c (.items array :: E) many)
    (hnothing : Builds ρ N nothing c E many) :
    Builds ρ N (do
      let array ← Lower.addTemp "array"
      let onNil ← Lower.nilAsArray
      let large ← large array
      let small ← small array
      let nothing ← nothing
      return Code.spread array value onNil size nothing large small) c E one := by
  intro s
  refine (hlarge _ (s.addTemp c.scope "array")).andThen (t := s) prefix_rfl fun _ hmore₁ h₁ => ?_
  refine (hsmall _ _).andThen hmore₁ fun _ hmore₂ h₂ => ?_
  have hmore := hmore₁.trans hmore₂
  refine (hnothing _).andThen hmore fun _ hmore₃ h₃ => ⟨hmore.trans hmore₃, fun hclean => ?_⟩
  have hclean₂ := prefix_nil.mp (hclean ▸ hmore₃)
  exact .spread _ size hvalue (h₁ (prefix_nil.mp (hclean₂ ▸ hmore₂))) (h₂ hclean₂) (h₃ hclean)

/-- All values are at hand. -/
def Ready (E : List Supply) (value : Nat → Code) : Prop := ∀ i, Supplies E [.code (value i)]

theorem destructure {pre post : Nat} {assignPre assignPost : (Nat → Code) → Lower (List Code)}
    {assignRest : Code → Lower (List Code)} (hvalue : .code value ∈ E)
    (hpre : ∀ v E', Ready E' v → Builds ρ N (assignPre v) c E' many)
    (hrest : ∀ v E', Supplies E' [.code v] → Builds ρ N (assignRest v) c E' many)
    (hpost : ∀ v E', Ready E' v → Builds ρ N (assignPost v) c E' many) :
    Builds ρ N (Lower.destructure pre post assignPre assignRest assignPost value) c E one := by
  have hnil : ∀ {E : List Supply}, Supplies E [.code .nil] := .leaf rfl rfl
  have hnothing : ∀ {E : List Supply},
      Supplies E [.code (if pre == 0 && post == 0 then .array [] else .nil)] := by
    intro E
    split
    · exact .leaf rfl rfl
    · exact hnil
  have hindex : ∀ {E : List Supply} (array : Local) (position : Int), .items array ∈ E →
      Supplies E [.code (.index (.readLocal array) position)] :=
    fun array position h => .take h (.index position)
  have hslice : ∀ {E : List Supply} (array : Local), .items array ∈ E →
      Supplies E [.code (.slice (.readLocal array) pre post)] :=
    fun array h => .take h (.slice _ _)
  have hparts : Lower.destructure pre post assignPre assignRest assignPost value = (do
      let array ← Lower.addTemp "array"
      let onNil ← Lower.nilAsArray
      let large ← inTurn (assignPre fun i => .index (.readLocal array) i)
        (assignRest (.slice (.readLocal array) pre post))
        (assignPost fun k => .index (.readLocal array) (-((post - k : Nat) : Int)))
      let small ← inTurn (assignPre fun i => .index (.readLocal array) i)
        (assignRest (.slice (.readLocal array) pre post))
        (assignPost fun k => .index (.readLocal array) (pre + k : Nat))
      let nothing ← inTurn (assignPre fun _ => .nil) (assignPost fun _ => .nil)
        (assignRest (if pre == 0 && post == 0 then .array [] else .nil))
      return Code.spread array value onNil (pre + post) nothing large small) := by
    simp only [inTurn, bind_assoc, pure_bind]
    rfl
  rw [hparts]
  -- items are taken from the array only where it is at hand
  refine spread (pre + post) hvalue (fun array => ?_) (fun array => ?_) ?_
  · exact inTurn_builds (fun E' hE => hpre _ E' fun i => hindex _ _ (hE _ mem_cons_self))
      (fun E' hE => hrest _ E' (hslice _ (hE _ mem_cons_self)))
      (fun E' hE => hpost _ E' fun i => hindex _ _ (hE _ mem_cons_self))
  · exact inTurn_builds (fun E' hE => hpre _ E' fun i => hindex _ _ (hE _ mem_cons_self))
      (fun E' hE => hrest _ E' (hslice _ (hE _ mem_cons_self)))
      (fun E' hE => hpost _ E' fun i => hindex _ _ (hE _ mem_cons_self))
  · exact inTurn_builds (fun E' _ => hpre _ E' fun _ => hnil) (fun E' _ => hpost _ E' fun _ => hnil)
      (fun E' _ => hrest _ E' hnothing)

theorem keepingRight {assign : Code → Lower Code} {right : Code} (hright : .code right ∈ E)
    (h : ∀ v E', .code right ∈ E' → Supplies E' [.code v] → Builds ρ N (assign v) c E' one)
    (hsolid : ∀ {v s code s'}, assign v c s = .ok code s' → code.items.all Code.isSolid = true) :
    Builds ρ N (Lower.keepingRight right assign) c E one := by
  refine (addTemp (by simp [plainHints])).bind fun temp => ?_
  refine (h _ _ (by simp [hright]) (.read (by simp))).bindOf fun {_ assignment _} hrun => ?_
  have hflat : (Code.join [.writeLocal temp right, assignment]).items.all Code.isSolid = true :=
    Code.all_isSolid_join (forall_mem_cons.mpr ⟨rfl, forall_mem_singleton.mpr (hsolid hrun)⟩)
  refine .pure (.node (by simp [Code.isNeutral, Code.isFlat, Code.isUnbound, hflat])
    fun part hpart => ?_)
  simp only [Code.children, mem_cons, not_mem_nil, or_false] at hpart
  rcases hpart with rfl | rfl
  · refine .join fun code hcode => ?_
    simp only [mem_cons, not_mem_nil, or_false] at hcode
    rcases hcode with rfl | rfl
    · exact .write (by simp) (.code_of_mem (by simp [hright]))
    · exact .code_of_mem (by simp)
  · exact .read (by simp)

theorem assignItems {assign : (Nat → Code) → Lower (List Code)} {items : List (Local × Code)}
    (hitems : ∀ item ∈ items, (∀ x ∈ usable item.1, x ∈ E) ∧ .code item.2 ∈ E)
    (h : ∀ v, Ready E v → Builds ρ N (assign v) c E many)
    (hsolid : ∀ {v s codes s'}, assign v c s = .ok codes s' →
      ∀ code ∈ codes, code.items.all Code.isSolid = true) :
    Builds ρ N (Lower.assignItems items assign) c E one := by
  have hread : ∀ item ∈ items, Supplies E [.code (.readLocal item.1)] :=
    fun item hitem => .read ((hitems item hitem).1 _ (by simp))
  have hreads : Ready E fun i => (items.map fun item => Code.readLocal item.1).getD i .nil := by
    intro i
    simp only [getD_eq_getElem?_getD, List.getElem?_map]
    cases hi : items[i]? with
    | none => exact .leaf rfl rfl
    | some item => exact hread item (mem_of_getElem? hi)
  refine (h _ hreads).bindOf fun {_ assignments _} hrun => ?_
  refine .pure (.node ?_ fun part hpart => ?_)
  · simp only [Code.isNeutral, Code.isFlat, Code.isUnbound, Bool.true_and, Bool.and_true]
    refine Code.all_isSolid_join fun code hcode => ?_
    rcases mem_append.mp hcode with hcode | hcode
    · obtain ⟨_, _, rfl⟩ := mem_map.mp hcode
      rfl
    · exact hsolid hrun code hcode
  have hlater : ∀ {code : Code}, Supplies E [.code code] →
      Supplies (many assignments ++ E) [.code code] :=
    fun hcode => hcode.weaken fun _ => mem_append_right _
  simp only [Code.children, mem_cons, not_mem_nil, or_false] at hpart
  rcases hpart with rfl | rfl
  · refine .join fun code hcode => ?_
    rcases mem_append.mp hcode with hcode | hcode
    · obtain ⟨⟨temp, value⟩, hitem, rfl⟩ := mem_map.mp hcode
      have hitem := hitems _ hitem
      exact hlater (.write (hitem.1 _ (by simp)) (.code_of_mem hitem.2))
    · exact .code_of_mem (mem_append_left _ (mem_map.mpr ⟨code, hcode, rfl⟩))
  · refine .node rfl fun part hpart => ?_
    obtain ⟨item, hitem, rfl⟩ := mem_map.mp hpart
    exact hlater (hread item hitem)

theorem mem_readNames_of_isRead {e : Expr} (h : isRead name e = true) :
    name ∈ e.readNames method := by
  cases e <;> simp_all [isRead, Expr.readNames]

theorem defaultValue (pending : List String) (span : Span) (e : Located Expr)
    (hname : .own parameter ∈ E) (hread : ∀ name ∈ e.value.readNames c.method, N name)
    (h : Builds ρ N lowered c E one) :
    Builds ρ N (Lower.defaultValue parameter pending span e lowered) c E one := by
  unfold Lower.defaultValue
  split
  · rename_i hself
    refine (ownToRead hname (hread _ ?_)).bind fun _ => .pure (.read (by simp))
    exact mem_readNames_of_isRead hself
  · refine .read ?_
    cases c.options.rejectForwardReferences with
    | false => exact h
    | true =>
      cases forwardReference? pending e with
      | none => exact h
      | some name => exact fun _ => prefix_rfl

theorem bindOptional {source : ArgumentSource} :
    ∀ (position : Nat) (params : List (Located OptionalParam)) (defaults : List Code)
      {E : List Supply}, source.Sourced E → (∀ p ∈ params, .own p.value.name ∈ E) →
      (∀ code ∈ defaults, .code code ∈ E) →
      Builds ρ N (Lower.bindOptional source arity position params defaults) c E many
  | _, [], _, _, _, _, _ | _, _ :: _, [], _, _, _, _ => .pure (.of_subset (by simp))
  | position, p :: params, default :: defaults, E, hsource, hnames, hdefaults => by
    have hvalue := ArgumentSource.supplies_optional hsource arity position
      (hdefaults default mem_cons_self)
    refine cons (writeOwn (hnames p mem_cons_self) hvalue) fun write => ?_
    refine bindOptional (position + 1) params defaults
      (hsource.weaken fun _ => mem_cons_of_mem _) ?_ ?_
    · exact fun q hq => mem_cons_of_mem _ (hnames q (mem_cons_of_mem _ hq))
    · exact fun code hcode => mem_cons_of_mem _ (hdefaults code (mem_cons_of_mem _ hcode))

theorem bindKeywords : ∀ (params : List (Located KeywordParam))
    (defaults : List Code) {E : List Supply}, (∀ p ∈ params, .own p.value.name ∈ E) →
      (∀ code ∈ defaults, .code code ∈ E) →
      Builds ρ N (Lower.bindKeywords arity params defaults) c E many
  | [], _, _, _, _ | _ :: _, [], _, _, _ => .pure (.of_subset (by simp))
  | p :: params, default :: defaults, E, hnames, hdefaults => by
    have hvalue : Supplies E [.code (.keywordArgument p.value.name arity.required default)] := by
      refine .node rfl fun part hpart => ?_
      rw [mem_singleton.mp hpart]
      exact .code_of_mem (hdefaults default mem_cons_self)
    refine cons (writeOwn (hnames p mem_cons_self) hvalue) fun write => ?_
    refine bindKeywords params defaults ?_ ?_
    · exact fun q hq => mem_cons_of_mem _ (hnames q (mem_cons_of_mem _ hq))
    · exact fun code hcode => mem_cons_of_mem _ (hdefaults code (mem_cons_of_mem _ hcode))

/-- All default values. -/
def defaultCodes (defaults : Defaults) : List Code := defaults.optional ++ defaults.keywords

/-- The scope has declared all the parameters. -/
def Declared (E : List Supply) (params : Params) : Prop :=
  ∀ name ∈ params.declaredNames, .own name ∈ E

/-- Each group of parameters is bound with all that the groups before it have made. -/
theorem bindParameters {source : ArgumentSource} (hsource : source.Sourced E)
    (hnames : Declared E params) (hdefaults : ∀ code ∈ defaultCodes defaults, .code code ∈ E)
    (hpre : ∀ v E', (∀ x ∈ E, x ∈ E') → Ready E' v → Builds ρ N (bindPre v) c E' many)
    (hpost : ∀ v E', (∀ x ∈ E, x ∈ E') → Ready E' v → Builds ρ N (bindPost v) c E' many) :
    Builds ρ N (Lower.bindParameters params defaults source bindPre bindPost) c E many := by
  have hown : ∀ {name : String}, name ∈ params.declaredNames → .own name ∈ E := hnames _
  have hoptional : ∀ code ∈ defaults.optional, .code code ∈ E :=
    fun code hcode => hdefaults code (mem_append_left _ hcode)
  have hkeywords : ∀ code ∈ defaults.keywords, .code code ∈ E :=
    fun code hcode => hdefaults code (mem_append_right _ hcode)
  refine (hpre _ _ (fun _ hx => hx) fun i => ArgumentSource.supplies_atPosition hsource i).bind
    fun pre => ?_
  refine Builds.bind (bindOptional _ _ _ (hsource.weaken ?_) (fun p hp => ?_) fun code hcode => ?_)
    fun optional => ?_
  · exact fun _ => mem_append_right _
  · exact mem_append_right _ (hown (Params.mem_declaredNames_iff.mpr (by grind)))
  · exact mem_append_right _ (hoptional code hcode)
  refine Builds.bind (writeEach _ (fun r hr => ?_) fun r _ => ?_) fun rest => ?_
  · have hr := Option.mem_toList.mp hr
    simp only [mem_append]
    exact Or.inr (Or.inr (hown (Params.mem_declaredNames_iff.mpr (by grind))))
  · exact ArgumentSource.supplies_rest (hsource.weaken (by simp +contextual)) _
  refine (hpost _ _ (by simp +contextual) fun i =>
    ArgumentSource.supplies_post (hsource.weaken (by simp +contextual)) _ i).bind fun post => ?_
  refine Builds.bind (bindKeywords _ _ (fun p hp => ?_) fun code hcode => ?_) fun keywords => ?_
  · simp only [mem_append]
    exact Or.inr (Or.inr (Or.inr (Or.inr (hown (Params.mem_declaredNames_iff.mpr (by grind))))))
  · simp only [mem_append]
    exact Or.inr (Or.inr (Or.inr (Or.inr (hkeywords code hcode))))
  refine Builds.bind (writeEach _ (fun r hr => ?_) fun r _ => .leaf rfl rfl) fun keywordRest => ?_
  · have hr := Option.mem_toList.mp hr
    simp only [mem_append]
    have := hown (Params.mem_declaredNames_iff.mpr (by grind) : r.value.keywordSlotName ∈ _)
    simp [this]
  refine Builds.bind (writeEach _ (fun b hb => ?_) fun r _ => .leaf rfl rfl) fun block => ?_
  · have hb := Option.mem_toList.mp hb
    simp only [mem_append]
    have := hown (Params.mem_declaredNames_iff.mpr (by grind) : b.value ∈ _)
    simp [this]
  exact .pure (.of_subset (by simp; grind))

theorem eitherWay (fromItems : Local → Lower (List Code)) (positional : List Code)
    (hpositional : ∀ code ∈ positional, .code code ∈ E)
    (h : ∀ array, Builds ρ N (fromItems array) c (.items array :: E) many) :
    Builds ρ N (do
      let array ← Lower.addTemp "destructure"
      let fromItems ← fromItems array
      Pure.pure [Code.eitherWay array fromItems positional]) c E many :=
  fun s => (h _ (s.addTemp c.scope "destructure")).andThen (t := s) prefix_rfl fun _ hmore hputs =>
    ⟨hmore, fun hclean => .eitherWay hpositional (hputs hclean)⟩

theorem prelude (hnames : Declared E params)
    (hdefaults : Builds ρ N defaults c E fun defaults => many (defaultCodes defaults))
    (hpre : ∀ v E', (∀ x ∈ E, x ∈ E') → Ready E' v → Builds ρ N (bindPre v) c E' many)
    (hpost : ∀ v E', (∀ x ∈ E, x ∈ E') → Ready E' v → Builds ρ N (bindPost v) c E' many) :
    Builds ρ N (Lower.prelude params defaults bindPre bindPost) c E many := by
  have hend : ∀ {E' : List Supply} (binding : List Code), (∀ x ∈ E, x ∈ E') →
      Supplies E' (many binding) →
      Builds ρ N (do
        let locals ← params.blockLocals.mapM fun b => Lower.writeOwn b.value .nil
        return (if c.kind.isStrict then [Code.checkArity params.arity] else []) ++ binding ++
          locals) c E' many := by
    intro E' binding hE hbinding
    refine Builds.bind (writeEach _ (fun b hb => ?_) fun _ _ => .leaf rfl rfl) fun locals => ?_
    · exact hE _ (hnames _ (Params.mem_declaredNames_iff.mpr (by grind)))
    refine .pure (.each fun code hcode => ?_)
    simp only [mem_append] at hcode
    rcases hcode with (hcode | hcode) | hcode
    · split at hcode
      · rw [mem_singleton.mp hcode]
        exact .leaf rfl rfl
      · exact absurd hcode (by simp)
    · have hbound := hbinding.weaken fun _ hx => mem_append_right (many locals) hx
      refine hbound.trans (.code_of_mem (mem_append_left _ ?_))
      exact mem_map.mpr ⟨code, hcode, rfl⟩
    · exact .code_of_mem (mem_append_left _ (mem_map.mpr ⟨code, hcode, rfl⟩))
  refine .read (hdefaults.bind fun defaults => ?_)
  have hcodes : ∀ {code : Code}, code ∈ defaultCodes defaults →
      .code code ∈ many (defaultCodes defaults) :=
    fun hcode => mem_map.mpr ⟨_, hcode, rfl⟩
  refine Builds.bind (bindParameters (by simp [ArgumentSource.Sourced]) (fun name hname => ?_)
    (fun code hcode => ?_) (fun v E' hE hv => ?_) (fun v E' hE hv => ?_)) fun positional => ?_
  · exact mem_append_right _ (hnames name hname)
  · exact mem_append_left _ (hcodes hcode)
  · exact hpre v E' (fun x hx => hE x (mem_append_right _ hx)) hv
  · exact hpost v E' (fun x hx => hE x (mem_append_right _ hx)) hv
  cases c.kind == .block && !params.arity.keepsArray with
  | false =>
    rw [if_neg Bool.false_ne_true]
    exact hend _ (by simp +contextual) (.of_subset fun _ => mem_append_left _)
  | true =>
    -- a block binds a second time, from the items of an array
    rw [if_pos rfl]
    have hbinding := eitherWay (ρ := ρ) (N := N) (c := c)
      (E := many positional ++ (many (defaultCodes defaults) ++ E))
      (fun array => Lower.bindParameters params defaults (.items array) bindPre bindPost) positional
      (fun code hcode => ?_) fun array => bindParameters ?_ (fun name hname => ?_)
        (fun code hcode => ?_) (fun v E' hE hv => ?_) (fun v E' hE hv => ?_)
    · have hall := hbinding.bind fun binding => hend binding (by simp +contextual)
        (.of_subset fun _ => mem_append_left _)
      simpa only [bind_assoc, pure_bind, Code.eitherWay] using hall
    · exact mem_append_left _ (mem_map.mpr ⟨code, hcode, rfl⟩)
    · intro other hother
      cases hother
      exact mem_cons_self
    · simp [hnames name hname]
    · have := hcodes hcode
      simp_all
    · exact hpre v E' (fun x hx => hE x (by simp [hx])) hv
    · exact hpost v E' (fun x hx => hE x (by simp [hx])) hv

theorem callable {binding statements : Lower (List Code)}
    (hbinding : Builds ρ (fun _ => True) binding c (params.declaredNames.map .own) many)
    (hstatements : ∀ E, Builds ρ (fun _ => True) statements c E many) :
    After ρ params.declaredNames (Lower.callable params binding statements) c one := by
  have hrest : Builds ρ (fun _ => True) (do
      let binding ← Lower.recover [] binding
      let statements ← statements
      return Code.join (binding ++ [.join statements])) c (params.declaredNames.map .own) one := by
    refine hbinding.recover.bind fun binding => (hstatements _).bind fun statements => ?_
    refine .pure (.join fun code hcode => ?_)
    rcases mem_append.mp hcode with hcode | hcode
    · exact .code_of_mem (by simp [hcode])
    · rw [mem_singleton.mp hcode]
      exact .join fun code hcode => .code_of_mem (by simp [hcode])
  exact fun s => hrest (s.declareAll c.scope params.declaredNames)

theorem classBody {body : List (Located Expr)} {kind : BodyKind} {f : BodyId → Code}
    (hclosure : kind.isClosure = false)
    (hopen : ∀ (s : Scopes) (outer : ScopeId), s.openScope outer kind = s.addRoot kind)
    (hkind : kind ∈ [.topLevel, .classBody, .moduleBody]) (name : String) (span : Span)
    (h : ∀ scope, Builds ρ (fun _ => True) (Lower.statements body)
      (rootContext scope kind none name c) [] many)
    (hf : ∀ id b, Supplies (.code (kind.use name id b) :: E) (one (f id))) :
    Builds ρ N (do
      let id ← reserveBody
      let scope ← onScopes fun s => s.addRoot kind
      let _ ← Lower.addBody id name kind scope {} span (rootContext scope kind none name)
        (Code.join <$> Lower.statements body)
      return f id) c E one :=
  built [] (rootBody_eq hopen) (.root hclosure (by cases kind <;> simp_all)) (by simp)
    (fun _ => .plain hkind) (fun _ => Meets.assembled (Meets.joined (Meets.statements body _)))
    (fun scope => after ((h scope).map fun _ =>
      .join fun code hcode => .code_of_mem (by simp [hcode]))) hf

theorem replayRead (hname : ρ.name name) (hread : N name) (span : Span) :
    Builds ρ N (Lower.replayRead span name) c E one := by
  refine (resolve? hname hread).bind fun found => ?_
  cases found with
  | some l => exact .pure (.read (by simp))
  | none => exact .fail

theorem replay (hnames : ∀ name ∈ params.replayNames, ρ.name name)
    (hreads : ∀ name ∈ params.replayNames, N name) (span : Span) :
    Builds ρ N (Lower.replay params span) c E many := by
  unfold Lower.replay
  cases replayObstacle? params with
  | some what => exact fun _ => prefix_rfl
  | none =>
    refine Builds.bind (mapM fun name hname _ _ =>
      replayRead (hnames name ?_) (hreads name ?_) span) fun args => ?_
    · exact mem_append_left _ hname
    · exact mem_append_left _ hname
    refine Builds.bind (mapM fun r hr _ _ =>
      (replayRead (hnames _ ?_) (hreads _ ?_) span).map fun code => ?_) fun rest => ?_
    · exact mem_append_right _ (mem_map.mpr ⟨r, hr, rfl⟩)
    · exact mem_append_right _ (mem_map.mpr ⟨r, hr, rfl⟩)
    · exact .node rfl fun part hpart => .code_of_mem (by simp_all [Code.children])
    · exact .pure (.of_subset (by simp; grind))

/-! ## The recursion -/

attribute [local simp] Expr.scopeChildren Expr.variableNames Expr.callables Expr.parts Expr.readNames
  Expr.assignedNames Code.children Parts.here Parts.inside

theorem supplies_getD (value : Option Code) (h : ∀ code ∈ value, .code code ∈ E) :
    Supplies E [.code (value.getD .nil)] := by
  cases value with
  | none => exact .leaf rfl rfl
  | some code => exact .code_of_mem (h code rfl)

/-- The parts of an expression that are lowered in another way where it stands. -/
structure SpreadBuilds (ρ : Policy) (N : Names) (e : Located Expr) (c : Context) : Prop where
  splat : ∀ s inner, e = ⟨s, .splat inner⟩ → ∀ E, Builds ρ N (Lower.expr inner) c E one
  items : ∀ s items, e = ⟨s, .array items⟩ → ∀ E, Builds ρ N (Lower.args items) c E many
  temps : ∀ s items, e = ⟨s, .array items⟩ → ∀ E, Builds ρ N (Lower.itemTemps items) c E
    fun items => items.flatMap fun item => usable item.1 ++ [.code item.2]

theorem args_cons {e : Located Expr} (he : ∀ E, Builds ρ N (Lower.expr e) c E one)
    (hspread : SpreadBuilds ρ N e c) (hrest : ∀ E, Builds ρ N (Lower.args rest) c E many) :
    Builds ρ N (Lower.args (e :: rest)) c E many := by
  unfold Lower.args
  split
  · simp at *
  · rename_i s inner tail heq
    cases heq
    refine cons ((hspread.splat s inner rfl E).map fun code => ?_) fun _ => hrest _
    exact .node rfl fun part hpart => .code_of_mem (by simp_all)
  · rename_i e' tail _ heq
    cases heq
    exact cons (he E) fun _ => hrest _

theorem multiAssign {span : Span} {pre post : List (Located Target)} {rest : Option RestTarget}
    {value : Located Expr}
    (hpre : ∀ v E, Ready E v → Builds ρ N (Lower.assignEach pre v) c E many)
    (hrest : ∀ v E, Supplies E [.code v] → Builds ρ N (Lower.assignRest rest v) c E many)
    (hpost : ∀ v E, Ready E v → Builds ρ N (Lower.assignEach post v) c E many)
    (hnamed : ∀ target, rest = some (.named target) → ∀ v E, Supplies E [.code v] →
      Builds ρ N (Lower.assign target v) c E one)
    (hvalue : ∀ E, Builds ρ N (Lower.expr value) c E one) (hspread : SpreadBuilds ρ N value c) :
    Builds ρ N (Lower.expr ⟨span, .multiAssign ⟨pre, rest, post⟩ (some value)⟩) c E one := by
  have hitems : ∀ s items, value = ⟨s, .array items⟩ →
      Builds ρ N (Code.array <$> Lower.args items) c E one :=
    fun s items h => (hspread.items s items h E).map fun _ =>
      .node rfl fun part hpart => .code_of_mem (by simp_all)
  have hkept : ∀ {v : Code} {E : List Supply} {assign : Code → Lower Code},
      Supplies E [.code v] → (∀ E', .code v ∈ E' → Builds ρ N (assign v) c E' one) →
      Builds ρ N (assign v) c E one :=
    fun hv h => supply hv (h _ mem_cons_self)
  unfold Lower.expr
  -- only the five forms of a multiple assignment with a right side are left
  split <;> rename_i heq <;> cases heq
  · rename_i s items
    split
    · refine (hspread.temps s items rfl E).bind fun items => assignItems (fun item hitem => ?_)
        (fun v hv => hpre v _ hv) assignEach_solid
      simp only [mem_append, mem_flatMap]
      exact ⟨fun x hx => Or.inl ⟨item, hitem, Or.inl hx⟩, Or.inl ⟨item, hitem, by simp⟩⟩
    · refine (hitems s items rfl).bind fun right => keepingRight (by simp) (fun v E' _ hv => ?_)
        destructure_solid
      refine supply hv (destructure (by simp) hpre (fun _ _ _ => ?_) (fun _ _ _ => ?_))
      · exact .pure (.of_subset (by simp))
      · exact .pure (.of_subset (by simp))
  · rename_i target s items
    exact (hitems s items rfl).bind fun right =>
      hnamed target rfl right _ (.code_of_mem (by simp))
  · rename_i target _
    refine (hvalue E).bind fun right => nilAsArray.bind fun onNil => keepingRight (by simp)
      (fun v E' _ hv => hnamed target rfl _ E' (.node rfl fun part hpart => ?_)) assign_solid
    rw [mem_singleton.mp hpart]
    exact hv
  · exact hvalue E
  · refine (hvalue E).bind fun right => keepingRight (by simp) (fun v E' _ hv => ?_)
      destructure_solid
    exact supply hv (destructure (by simp) hpre hrest hpost)

mutual

theorem expr {N : Names} {c : Context} {E : List Supply} : ∀ e : Located Expr,
    c.Clear ρ N [] [e] → Builds ρ N (Lower.expr e) c E one
  | ⟨_, .nil⟩, _ | ⟨_, .bool _⟩, _ | ⟨_, .integer _⟩, _ | ⟨_, .float _⟩, _
  | ⟨_, .text _⟩, _ | ⟨_, .symbol _⟩, _ | ⟨_, .self⟩, _
  | ⟨_, .instanceVar _⟩, _ | ⟨_, .classVar _⟩, _ | ⟨_, .constant _⟩, _ =>
    .leaf rfl rfl
  | ⟨_, .array items⟩, h =>
    (args items (h.parts (by simp))).bind fun _ =>
      .whole rfl (by simp +contextual)
  | ⟨_, .hash entries⟩, h =>
    (pairs entries (h.parts (by simp))).bind fun _ =>
      .whole rfl (by simp +contextual)
  | ⟨_, .splat inner⟩, h | ⟨_, .not inner⟩, h =>
    (expr inner (h.parts (by simp))).bind fun _ =>
      .whole rfl (by simp +contextual)
  | ⟨span, .localVar name⟩, h =>
    readLocal (h.node.names name (by simp)) (h.read name (by simp)) span
  | ⟨_, .bareName name⟩, h => by
    refine (resolve? (h.node.names name (by simp)) (h.read name (by simp))).bind fun found => ?_
    cases found with
    | some l => exact .pure (.read (by simp))
    | none => exact .leaf rfl rfl
  | ⟨_, .globalVar name⟩, _ => readGlobal name
  | ⟨_, .assign target value⟩, h =>
    (expr value (h.parts (by simp))).bind fun _ =>
      assign target (h.node.mono (by simp) (by simp +contextual)) (.code_of_mem (by simp))
  | ⟨_, .multiAssign ⟨pre, rest, post⟩ none⟩, h => by
    have hnil : Supplies E [.code .nil] := .leaf rfl rfl
    have ht : ClearTargets ρ N c pre rest post := h.targets rfl
    exact supply hnil (destructure (by simp) (fun _ _ => assignEach pre ht.pre)
      (fun _ _ => assignRest rest ht.rest) fun _ _ => assignEach post ht.post)
  | ⟨_, .multiAssign ⟨pre, rest, post⟩ (some value)⟩, h => by
    have ht : ClearTargets ρ N c pre rest post := h.targets rfl
    have hvalue : c.Clear ρ N [] [value] := h.parts (by simp)
    exact multiAssign (fun _ _ => assignEach pre ht.pre) (fun _ _ => assignRest rest ht.rest)
      (fun _ _ => assignEach post ht.post) (fun _ heq _ _ => named rest heq ht.rest)
      (fun _ => expr value hvalue) (spreadParts value hvalue)
  | ⟨_, .call receiver method arguments block⟩, h => by
    have hblock := h.block block (by simp +contextual) (by simp) (by simp +contextual) (by simp)
    refine (optionalExpr receiver (h.parts ?_)).bind fun receiver =>
      (args arguments (h.parts ?_)).bind fun args => ?_
    · simp +contextual
    · simp +contextual
    · exact (blockOperand block hblock).bind fun op => .pure (op.supplies_call method
        (by simp +contextual) (by simp +contextual) (by simp +contextual))
  | ⟨span, .super arguments block⟩, h => by
    have hblock := h.block block (by simp +contextual) (by simp) (by simp +contextual) (by simp)
    refine requireMethod fun _ _ => (args arguments (h.parts ?_)).bind fun args => ?_
    · simp +contextual
    · exact (blockOperand block hblock).bind fun op => .pure
        (op.supplies_super (by simp +contextual) (by simp +contextual))
  | ⟨span, .bareSuper block⟩, h => by
    have hblock := h.block block (by simp) (by simp) (by simp) (by simp)
    refine requireMethod fun params hparams =>
      (replay (h.method params hparams) (fun name hname => h.read name ?_) span).bind fun args => ?_
    · simpa [hparams] using hname
    exact (blockOperand block hblock).bind fun op => .pure
      (op.supplies_super (by simp +contextual) (by simp +contextual))
  | ⟨span, .yield arguments⟩, h =>
    requireMethod fun _ _ =>
      (args arguments (h.parts (by simp))).bind fun _ =>
        .whole rfl (by simp +contextual)
  | ⟨span, .define ⟨_, name⟩ params body⟩, h => by
    have hk : ρ.callable ⟨.method, span, params, body⟩ := h.callable (by simp)
    have hc : c.Clear ρ (fun _ => True) params.declaredNames (params.exprs ++ body) :=
      h.inside.mono (by simp) (by simp [Parts.callable])
    refine built params.declaredNames (rootBody_eq fun _ _ => rfl)
      (.root rfl rfl) hc.names (fun {scope _ _ _} hrun => .callable ⟨.method, span, params, body⟩
        (rootContext scope .method (some params) name c) hk rfl hc.options rfl (fun _ => rfl) hrun)
      (fun _ => Meets.callable (Meets.binding span params _) (Meets.statements body _))
      (fun scope => ?_) fun id _ => .code_of_mem mem_cons_self
    have hin := hc.inMethod scope name
    refine callable (binding span params (hin.mono (fun _ hn => hn) ?_) ?_) fun E' =>
      statements body (hin.mono (by simp) ?_)
    · simp +contextual
    · exact fun n hn => mem_map.mpr ⟨n, hn, rfl⟩
    · simp +contextual
  | ⟨_, .lambda literal⟩, h =>
    have hc : ClearCallable ρ c (.closure .lambda literal) :=
      ⟨h.inside.mono (by simp [Callable.closure])
        (by simp [Parts.closure, Parts.callable, Callable.closure]),
        h.callable (by simp)⟩
    (closure literal true hc).bind fun _ => .pure (.of_subset (by simp))
  | ⟨span, .classDef name superclass body⟩, h => by
    have hbody : c.Clear ρ (fun _ => True) [] body :=
      h.inside.mono (by simp) (by simp +contextual)
    refine (optionalExpr superclass (h.parts ?_)).bind fun superclass => ?_
    · simp +contextual
    refine classBody rfl (fun _ _ => rfl) (by simp) name span
      (fun scope => statements body (hbody.inClass scope .classBody name)) fun id b => ?_
    refine .like _ mem_cons_self rfl (fun h => h) (fun _ => rfl) fun part hpart => ?_
    exact .code_of_mem (by simp_all)
  | ⟨span, .moduleDef name body⟩, h => by
    have hbody : c.Clear ρ (fun _ => True) [] body :=
      h.inside.mono (by simp) (by simp)
    exact classBody rfl (fun _ _ => rfl) (by simp) name span
      (fun scope => statements body (hbody.inClass scope .moduleBody name))
      fun _ _ => .code_of_mem mem_cons_self
  | ⟨_, .ifElse condition thenBranch elseBranch⟩, h => by
    refine (expr condition (h.parts ?_)).bind fun condition =>
      (statements thenBranch (h.parts ?_)).bind fun first =>
        (statements elseBranch (h.parts ?_)).bind fun second => ?_
    · simp
    · simp +contextual
    · simp +contextual
    refine .pure (.node rfl fun part hpart => ?_)
    simp only [Code.children, mem_cons, not_mem_nil, or_false] at hpart
    rcases hpart with rfl | rfl | rfl
    · exact .code_of_mem (by simp)
    · exact .join fun code hcode => .code_of_mem (by simp [hcode])
    · exact .join fun code hcode => .code_of_mem (by simp [hcode])
  | ⟨_, .loop condition body bodyFirst negated⟩, h => by
    have hc : { c with inLoop := true }.Clear ρ N [] (condition :: body) :=
      (h.parts (by simp)).inContext rfl rfl
    exact loop loop_eq (statements_total body) (expr condition hc.head) (statements body hc.tail)
  | ⟨span, .forEach target iterable body⟩, h => by
    have htarget : ∀ scope, (closureContext scope .block c).Clear ρ (fun _ => True)
        (Target.names target) target.value.scopeChildren := fun scope =>
      (h.inside.mono (by simp) (by simp +contextual)).inContext rfl rfl
    have hbody : ∀ scope, (closureContext scope .block c).Clear ρ (fun _ => True) [] body :=
      fun scope => (h.inside.mono (by simp) (by simp +contextual)).inContext rfl rfl
    refine (expr iterable (h.parts (by simp))).bind fun iterable => ?_
    refine built [] blockBody_eq (.closure rfl) (by simp)
      (fun {scope _ _ _} hrun => .loop span target _ body (closureContext scope .block c)
        h.self rfl hrun)
      (fun scope => Meets.forBody (Meets.assign target _) (Meets.statements body _))
      (fun scope => after ?_) fun id breakId => ?_
    · refine (addTemp (by simp [plainHints])).bind fun item => ?_
      have hitem : Supplies (usable item ++ []) [.code (.readLocal item)] := .read (by simp)
      refine (assign target (htarget scope) hitem).recover.bind fun write => ?_
      refine (statements body (hbody scope)).bind fun codes => .pure (.join ?_)
      intro code hcode
      simp only [mem_cons, not_mem_nil, or_false] at hcode
      rcases hcode with rfl | rfl | rfl
      · exact .write (by simp) (.leaf rfl rfl)
      · exact .code_of_mem (by simp)
      · exact .join fun code hcode => .code_of_mem (by simp [hcode])
    · exact BlockOperand.supplies_call (.literal (.closure id false) breakId) "each"
        (by simp [BlockOperand.supplies, BlockOperand.block?, Code.isBlock, BodyKind.use])
        (by simp) (by simp)
  | ⟨_, .and left right⟩, h | ⟨_, .or left right⟩, h => by
    have hparts : c.Clear ρ N [] [left, right] := h.parts (by simp)
    exact (expr left hparts.head).bind fun _ => (expr right hparts.tail).bind fun _ =>
      .whole rfl (by simp +contextual)
  | ⟨span, .breakWith value⟩, h => by
    refine (breakTarget span).bind fun id =>
      (optionalExpr value (h.parts (by simp))).bind fun value => ?_
    exact .pure (.like (.breakWith id .nil) (by simp) rfl (fun h => h) (fun _ => rfl)
      fun part hpart => mem_singleton.mp hpart ▸ supplies_getD _ (by simp +contextual))
  | ⟨span, .nextWith value⟩, h => by
    have hvalue : { c with inNext := true }.Clear ρ N [] value.toList :=
      (h.parts (by simp)).inContext rfl rfl
    refine (requireClosureOrLoop _ span).bind fun _ =>
      (inContext rfl rfl rfl rfl (optionalExpr value hvalue)).bind fun value => ?_
    exact .pure (.like .redo (by simp) rfl (fun h => h) (fun _ => rfl) fun part hpart =>
      mem_singleton.mp hpart ▸ supplies_getD _ (by simp +contextual))
  | ⟨span, .redo⟩, _ =>
    (requireClosureOrLoop _ span).bind fun _ => .pure (.code_of_mem mem_cons_self)
  | ⟨span, .retry⟩, _ => (requireClosureOrLoop _ span).bind fun _ =>
    .pure (.like .redo (by simp) rfl (fun h => h) (fun _ => rfl) (by simp))
  | ⟨span, .returnWith value⟩, h => by
    refine (optionalExpr value (h.parts (by simp))).bind fun value => ?_
    exact supply (supplies_getD value (by simp +contextual)) (returnWith span (by simp))
  | ⟨_, .sequence body⟩, h =>
    (statements body (h.parts (by simp))).bind fun _ =>
      .pure (.join fun code hcode => .code_of_mem (by simp [hcode]))

theorem optionalExpr {N : Names} {c : Context} {E : List Supply} : ∀ e : Option (Located Expr),
    c.Clear ρ N [] e.toList → Builds ρ N (Lower.optionalExpr e) c E fun code => code.toList.map .code
  | none, _ => .pure (.of_subset (by simp))
  | some e, h => (expr e h).bind fun _ => .pure (.of_subset (by simp))

theorem statements {N : Names} {c : Context} {E : List Supply} : ∀ body : List (Located Expr),
    c.Clear ρ N [] body → Builds ρ N (Lower.statements body) c E many
  | [], _ => .pure (.of_subset (by simp))
  | e :: rest, h => cons (expr e h.head).recover fun _ => statements rest h.tail

theorem spreadParts {N : Names} {c : Context} : ∀ e : Located Expr, c.Clear ρ N [] [e] →
    SpreadBuilds ρ N e c
  | ⟨_, e⟩, h => by
    cases e with
    | splat inner =>
      refine ⟨fun s inner' heq E => ?_, by simp, by simp⟩
      cases heq
      exact expr inner (h.parts (by simp))
    | array items =>
      have hitems : c.Clear ρ N [] items := h.parts (by simp)
      refine ⟨by simp, fun s items' heq E => ?_, fun s items' heq E => ?_⟩
      · cases heq
        exact args items hitems
      · cases heq
        exact itemTemps items hitems
    | _ => exact ⟨by simp, by simp, by simp⟩

theorem args {N : Names} {c : Context} {E : List Supply} : ∀ es : List (Located Expr),
    c.Clear ρ N [] es → Builds ρ N (Lower.args es) c E many
  | [], _ => .pure (.of_subset (by simp))
  | e :: rest, h =>
    args_cons (fun _ => expr e h.head) (spreadParts e h.head) fun _ => args rest h.tail

theorem pairs {N : Names} {c : Context} {E : List Supply} :
    ∀ es : List (Located Expr × Located Expr),
    c.Clear ρ N [] (es.flatMap fun (key, value) => [key, value]) →
    Builds ρ N (Lower.pairs es) c E fun pairs =>
      many (pairs.flatMap fun (key, value) => [key, value])
  | [], _ => .pure (.of_subset (by simp))
  | (key, value) :: rest, h =>
    (expr key h.head).bind fun _ => (expr value h.tail.head).bind fun _ =>
      (pairs rest h.tail.tail).bind fun _ => .pure (.of_subset (by simp; grind))

theorem itemTemps {N : Names} {c : Context} {E : List Supply} : ∀ es : List (Located Expr),
    c.Clear ρ N [] es → Builds ρ N (Lower.itemTemps es) c E
      fun items => items.flatMap fun item => usable item.1 ++ [.code item.2]
  | [], _ => .pure (.of_subset (by simp))
  | e :: rest, h =>
    (expr e h.head).bind fun _ => (addTemp (by simp [plainHints])).bind fun _ =>
      (itemTemps rest h.tail).bind fun _ => .pure (.of_subset (by simp; grind))

theorem assign {N : Names} {c : Context} {E : List Supply} {value : Code} :
    ∀ target : Located Target, c.Clear ρ N (Target.names target) target.value.scopeChildren →
      Supplies E [.code value] → Builds ρ N (Lower.assign target value) c E one
  | ⟨_, .localVar name⟩, h, hvalue =>
    (resolveForAssignment (h.names name (by simp [Target.names]))).bind fun _ =>
      .pure (.write (by simp) (hvalue.weaken (by simp +contextual)))
  | ⟨_, .instanceVar _⟩, _, hvalue | ⟨_, .classVar _⟩, _, hvalue =>
    .pure (.node rfl fun part hpart => mem_singleton.mp hpart ▸ hvalue)
  | ⟨_, .globalVar name⟩, _, hvalue => supply hvalue (writeGlobal name (by simp))
  | ⟨_, .index receiver indices⟩, h, hvalue => by
    have h : c.Clear ρ N _ (receiver :: indices) := h
    refine supply hvalue ((expr receiver h.head).bind fun _ =>
      (args indices (h.tail.mono (by simp) fun _ he => he)).bind fun _ => ?_)
    exact .whole rfl (by simp; grind)
  | ⟨_, .attribute receiver _⟩, h, hvalue => by
    have h : c.Clear ρ N _ [receiver] := h
    refine supply hvalue ((expr receiver h.head).bind fun _ => ?_)
    exact .whole rfl (by simp +contextual)
  | ⟨_, .nested ⟨pre, rest, post⟩⟩, h, hvalue => by
    have ht : ClearTargets ρ N c pre rest post := .of_clear h
    exact supply hvalue (destructure (by simp) (fun _ _ => assignEach pre ht.pre)
      (fun _ _ => assignRest rest ht.rest) fun _ _ => assignEach post ht.post)

theorem assignEach {N : Names} {c : Context} {E : List Supply} {value : Nat → Code} :
    ∀ targets : List (Located Target),
      c.Clear ρ N (Target.namesEach targets) (Target.scopeChildrenEach targets) →
      Ready E value → Builds ρ N (Lower.assignEach targets value) c E many
  | [], _, _ => .pure (.of_subset (by simp))
  | target :: rest, h, hvalue =>
    cons (assign target (h.mono (by simp +contextual [Target.namesEach])
      (by simp +contextual [Target.scopeChildrenEach])) (hvalue 0)) fun _ =>
        assignEach rest (h.mono (by simp +contextual [Target.namesEach])
          (by simp +contextual [Target.scopeChildrenEach])) fun i =>
            (hvalue (i + 1)).weaken fun _ => mem_cons_of_mem _

theorem assignRest {N : Names} {c : Context} {E : List Supply} {value : Code} :
    ∀ rest : Option RestTarget,
      c.Clear ρ N (RestTarget.names rest) (RestTarget.scopeChildren rest) →
      Supplies E [.code value] → Builds ρ N (Lower.assignRest rest value) c E many
  | none, _, _ | some .anonymous, _, _ => .pure (.of_subset (by simp))
  | some (.named target), h, hvalue =>
    (assign target h hvalue).bind fun _ => .pure (.of_subset (by simp))

theorem named {N : Names} {c : Context} {E : List Supply} {value : Code} :
    ∀ (rest : Option RestTarget) {target : Located Target}, rest = some (.named target) →
      c.Clear ρ N (RestTarget.names rest) (RestTarget.scopeChildren rest) →
      Supplies E [.code value] → Builds ρ N (Lower.assign target value) c E one
  | none, _, heq, _, _ | some .anonymous, _, heq, _, _ => nomatch heq
  | some (.named target), _, heq, h, hvalue => by
    cases heq
    exact assign target h hvalue

theorem blockOperand {N : Names} {c : Context} {E : List Supply} : ∀ block : Option BlockArg,
    ClearBlock ρ N c block → Builds ρ N (Lower.blockOperand block) c E BlockOperand.supplies
  | none, _ => .pure (.leaf rfl rfl)
  | some (.pass value), h =>
    (expr value h.passed).bind fun _ => .pure (BlockOperand.supplies_passed mem_cons_self)
  | some (.literal block), h =>
    (closure block false (h.literal _ mem_cons_self)).bind fun _ =>
      .pure (.of_subset fun _ => mem_append_left _)

theorem closure {N : Names} {c : Context} {E : List Supply} :
    ∀ (literal : Located BlockLiteral) (lambda : Bool),
      ClearCallable ρ c (.closure (bif lambda then .lambda else .block) literal) →
      Builds ρ N (Lower.closure literal lambda) c E fun made =>
        if lambda then one made.1 else (BlockOperand.literal made.1 made.2).supplies
  | ⟨span, ⟨params, body⟩⟩, lambda, h => by
    have hclear : c.Clear ρ (fun _ => True) params.declaredNames (params.exprs ++ body) := h.clear
    refine built params.declaredNames closure_eq (.closure (by cases lambda <;> rfl)) hclear.names
      (fun {scope _ _ _} hrun => .callable ⟨_, span, params, body⟩
        (closureContext scope _ c) h.callable rfl hclear.options rfl ?_ hrun)
      (fun _ => Meets.callable (Meets.binding span params _) (Meets.statements body _))
      (fun scope => ?_) fun _ _ => ?_
    · cases lambda <;> nofun
    · have hc : (closureContext scope (bif lambda then .lambda else .block) c).Clear ρ
        (fun _ => True) params.declaredNames (params.exprs ++ body) := hclear.inContext rfl rfl
      refine callable (binding span params (hc.mono (fun _ hn => hn) ?_) ?_) fun E' =>
        statements body (hc.mono (by simp) ?_)
      · simp +contextual
      · exact fun n hn => mem_map.mpr ⟨n, hn, rfl⟩
      · simp +contextual
    · cases lambda <;> exact .code_of_mem mem_cons_self

theorem binding {N : Names} {c : Context} {E : List Supply} (span : Span) : ∀ params : Params,
    c.Clear ρ N params.declaredNames params.exprs → Declared E params →
    Builds ρ N (Lower.binding span params) c E many
  | ⟨pre, optional, rest, post, keywords, keywordRest, block, blockLocals⟩, h, hnames => by
    have hdeclared : ∀ {patterns : List (Located Pattern)}, patterns = pre ∨ patterns = post →
        ∀ name ∈ Params.patternNames patterns, name ∈ Params.declaredNames
          ⟨pre, optional, rest, post, keywords, keywordRest, block, blockLocals⟩ := by
      rintro patterns (rfl | rfl) name hname
      · exact Params.mem_declaredNames_iff.mpr (Or.inl hname)
      · exact Params.mem_declaredNames_iff.mpr (Or.inr (Or.inr (Or.inr (Or.inl hname))))
    refine prelude hnames ?_ (fun _ _ hE => bindEach pre (h.mono ?_ ?_) ?_)
      fun _ _ hE => bindEach post (h.mono ?_ ?_) ?_
    · refine (optionalDefaults span optional (h.mono (by simp) ?_) fun p hp => ?_).bind
        fun _ => (keywordDefaults span keywords (h.mono (by simp) ?_) fun p hp => ?_).bind
          fun _ => .pure (.of_subset (by simp [defaultCodes]; grind))
      · simp +contextual [Params.exprs]
      · exact hnames _ (Params.mem_declaredNames_iff.mpr (by grind))
      · simp +contextual [Params.exprs]
      · exact mem_append_right _ (hnames _ (Params.mem_declaredNames_iff.mpr (by grind)))
    · exact hdeclared (Or.inl rfl)
    · simp +contextual [Params.exprs]
    · exact fun name hname => hE _ (hnames name (hdeclared (Or.inl rfl) name hname))
    · exact hdeclared (Or.inr rfl)
    · simp +contextual [Params.exprs]
    · exact fun name hname => hE _ (hnames name (hdeclared (Or.inr rfl) name hname))

theorem optionalDefaults {N : Names} {c : Context} {E : List Supply} (span : Span) :
    ∀ params : List (Located OptionalParam),
      c.Clear ρ N [] (params.map (·.value.default)) → (∀ p ∈ params, .own p.value.name ∈ E) →
      Builds ρ N (Lower.optionalDefaults span pending params) c E many
  | [], _, _ => .pure (.of_subset (by simp))
  | ⟨_, ⟨name, value⟩⟩ :: rest, h, hnames =>
    cons (defaultValue _ span value (hnames _ mem_cons_self) h.head.read (expr value h.head))
      fun _ => optionalDefaults span rest h.tail fun p hp =>
        mem_cons_of_mem _ (hnames p (mem_cons_of_mem _ hp))

theorem keywordDefaults {N : Names} {c : Context} {E : List Supply} (span : Span) :
    ∀ params : List (Located KeywordParam),
      c.Clear ρ N [] (params.flatMap (·.value.default.toList)) →
      (∀ p ∈ params, .own p.value.name ∈ E) →
      Builds ρ N (Lower.keywordDefaults span pending params) c E many
  | [], _, _ => .pure (.of_subset (by simp))
  | ⟨_, ⟨name, none⟩⟩ :: rest, h, hnames => by
    have hmissing : Supplies E [.code (.missingKeyword name)] := .leaf rfl rfl
    refine supply hmissing ((keywordDefaults span rest h fun p hp => ?_).bind fun _ => ?_)
    · exact mem_cons_of_mem _ (hnames p (mem_cons_of_mem _ hp))
    · exact .pure (.of_subset (by simp; grind))
  | ⟨_, ⟨name, some value⟩⟩ :: rest, h, hnames =>
    cons (defaultValue _ span value (hnames _ mem_cons_self) h.head.read (expr value h.head))
      fun _ => keywordDefaults span rest h.tail fun p hp =>
        mem_cons_of_mem _ (hnames p (mem_cons_of_mem _ hp))

theorem bindEach {N : Names} {c : Context} {E : List Supply} {value : Nat → Code} :
    ∀ patterns : List (Located Pattern),
      c.Clear ρ N (Params.patternNames patterns) (patterns.flatMap (·.value.exprs)) →
      (∀ name ∈ Params.patternNames patterns, .own name ∈ E) → Ready E value →
      Builds ρ N (Lower.bindEach patterns value) c E many
  | [], _, _, _ => .pure (.of_subset (by simp))
  | ⟨_, .required name⟩ :: rest, h, hnames, hvalue =>
    cons (writeOwn (hnames name (by simp [Params.patternNames, Pattern.names])) (hvalue 0)) fun _ =>
      bindEach rest (h.mono (by simp +contextual [Params.patternNames]) (by simp +contextual))
        (fun n hn => mem_cons_of_mem _ (hnames n (mem_append_right _ hn))) fun i =>
          (hvalue (i + 1)).weaken fun _ => mem_cons_of_mem _
  | ⟨_, .destructure ⟨pre, middle, post⟩⟩ :: rest, h, hnames, hvalue => by
    have ht : ClearTargets ρ N c pre middle post := .of_clear (h.mono
      (by simp +contextual [Params.patternNames, Pattern.names])
      (by simp +contextual [Pattern.exprs]))
    refine cons (supply (hvalue 0) (destructure (by simp) (fun _ _ => assignEach pre ht.pre)
      (fun _ _ => assignRest middle ht.rest) fun _ _ => assignEach post ht.post)) fun _ => ?_
    refine bindEach rest (h.mono (by simp +contextual [Params.patternNames])
      (by simp +contextual)) (fun n hn => ?_) fun i => ?_
    · exact mem_cons_of_mem _ (hnames n (mem_append_right _ hn))
    · exact (hvalue (i + 1)).weaken fun _ => mem_cons_of_mem _

end

end Builds

end Lower

/-! ## Programs -/

namespace Program

/-- The names and callables of a program. -/
def policy (p : Program) (options : LowerOptions) : Policy where
  options := options
  node x := ∃ around, p.Has around x

theorem Plain.policy {p : Program} (hp : p.Plain) :
    ∀ n, (p.policy options).name n → isHidden n = false := by
  rintro n ⟨x, ⟨around, hx⟩, hn⟩
  exact hp around x hx n hn

/-- **What the lowering of a program returns was put together**, if no mistake was made. -/
theorem puts (p : Program) (options : LowerOptions) (hclean : (p.lowering options).mistakes = []) :
    ∃ codes s, Puts (p.policy options) (fun _ => True) (context options) []
        (({} : LoweringState).enter 0 .topLevel) (codes.map .code) s ∧
      p.lowering options = s.finish (s.bodyOf 0 mainName .topLevel 0 {} p.span (.join codes)) := by
  obtain ⟨codes, s, hcodes, heq⟩ := p.lowering_eq options
  have hclear : (context options).Clear (p.policy options) (fun _ => True) [] p.body := by
    refine ⟨rfl, by simp [context], by simp, fun e he around x hx => ?_, by simp⟩
    exact ⟨_, e, he, around, hx, rfl⟩
  have hbuilt := Lower.Builds.statements (E := []) p.body hclear
    (({} : LoweringState).enter 0 .topLevel)
  rw [hcodes] at hbuilt
  rw [heq] at hclean
  exact ⟨codes, s, hbuilt.2 hclean, heq⟩

end Program

end BlockLang
