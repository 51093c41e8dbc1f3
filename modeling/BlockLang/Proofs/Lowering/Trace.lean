import BlockLang.Lowering.Program
import BlockLang.Proofs.Code.Mentions
import BlockLang.Proofs.Scopes.Access

/-!
# What lowering can do

Lowering is one recursion over the whole tree with some forty cases, and yet it does only a handful
of things: it asks the scopes for a reference, opens a scope and finishes a body, sets what a
`break` leaves while it is in a loop, gives up, and goes on after a mistake. `Lowers` is the list
of these things. Whatever holds along every `Lowers` holds of lowering, and a proof by induction
on it has nine short cases instead of forty long ones.

`Lower.Meets` ties the two together: a part of lowering meets a postcondition when all that it
does is a `Lowers`, and what it answers was made from what it obtained on the way. The rules of
`Lower.Meets` follow the `do` blocks, so that the proof about a part of lowering reads as the part.

**A mistake does not end the list.** A part that gives up leaves the state as far as it got
(`none`), and lowering goes on from there. So `Lowers` speaks about programs with mistakes as well;
it is only the mentions that a given-up part has none of.
-/

namespace BlockLang

open Lower

/-! ## Opening and finishing bodies -/

/-- The scope of a new body in the scope `outer`. -/
def Scopes.openScope (s : Scopes) (outer : ScopeId) : BodyKind → ScopeId × Scopes
  | .block => s.addBlock outer false
  | .lambda => s.addLambda outer
  | kind => s.addRoot kind

namespace LoweringState

/-- The state in which the inside of a new body is lowered. -/
def enter (s : LoweringState) (outer : ScopeId) (kind : BodyKind) : LoweringState :=
  { s with scopes := (s.scopes.openScope outer kind).2, nextBody := s.nextBody + 1 }

/-- The body that a scope and its code make. -/
def bodyOf (s : LoweringState) (id : BodyId) (name : String) (kind : BodyKind) (scope : ScopeId)
    (arity : Arity) (span : Span) (code : Code) : Body :=
  let own := (s.scopes.get? scope).getD default
  { id, name, kind, arity, slots := own.slots, captured := own.captured,
    returnId := own.returnId, breakId := own.breakId, code, span }

def finish (s : LoweringState) (body : Body) : LoweringState := { s with unit := s.unit.add body }

def setBreak (s : LoweringState) (scope : ScopeId) (id : Option BreakId) : LoweringState :=
  { s with scopes := s.scopes.modify scope fun own => { own with breakId := id } }

/-- The state in which the parts of a loop are lowered. -/
def enterLoop (s : LoweringState) (scope : ScopeId) : LoweringState :=
  { s with scopes := s.scopes.freshBreak.2 }.setBreak scope (some s.scopes.freshBreak.1)

/-- What a `break` leaves in a scope. -/
def breakOf (s : LoweringState) (scope : ScopeId) : Option BreakId :=
  ((s.scopes.get? scope).getD default).breakId

end LoweringState

/-- The code of a whole body. Arguments are read where the body binds its parameters; all else was
obtained inside the body. -/
structure Assembled (ms : List Mention) (code : Code) : Prop where
  guarded : code.Guarded
  made : ∃ vs, (∀ x ∈ vs, ∃ i, x = .argument i) ∧ Made vs ms [code]

/-- What two parts obtain, one after the other. -/
def joined (first second : Option (List Mention)) : Option (List Mention) :=
  first.bind fun ms => second.map (ms ++ ·)

theorem parts_of_joined (h : joined first second = some ms) :
    ∃ p q, first = some p ∧ second = some q ∧ ms = p ++ q := by
  cases first <;> cases second <;> simp_all [joined]

/-- **All that lowering does**, in a context, from one state to another, and what it obtains for
the code of the current body. -/
inductive Lowers : Context → LoweringState → Option (List Mention) → LoweringState → Prop
  | nothing {c : Context} {s : LoweringState} : Lowers c s (some []) s
  | mistake {c : Context} {s : LoweringState} : Lowers c s none s
  | append {c : Context} {s₁ s₂ s₃ : LoweringState} {first second : Option (List Mention)} :
      Lowers c s₁ first s₂ → Lowers c s₂ second s₃ → Lowers c s₁ (joined first second) s₃
  /-- A reference is asked for. -/
  | reference {c : Context} {s : LoweringState} (r : Request) :
      Lowers c s (some ((s.scopes.answer c.scope r).1.toList.map .variable))
        { s with scopes := (s.scopes.answer c.scope r).2 }
  | super {c : Context} {s : LoweringState} : c.method.isSome → Lowers c s (some [.super]) s
  /-- Loops and the value of `next` are lowered in a context of their own. -/
  | inside {c c' : Context} {s s' : LoweringState} {out : Option (List Mention)} :
      Lowers c' s out s' → c'.scope = c.scope → c'.method = c.method → Lowers c s out s'
  | loop {c : Context} {s s' : LoweringState} {out : Option (List Mention)} :
      Lowers c (s.enterLoop c.scope) out s' →
        Lowers c s out (s'.setBreak c.scope (s.breakOf c.scope))
  | body {c inner : Context} {s s' : LoweringState} {ms : List Mention} {kind : BodyKind}
      {code : Code} (name : String) (arity : Arity) (span : Span) :
      inner.scope = (s.scopes.openScope c.scope kind).1 →
      inner.method.isSome = (kind == .method || kind.isClosure && c.method.isSome) →
      Lowers inner (s.enter c.scope kind) (some ms) s' → Assembled ms code →
        Lowers c s (some [.body kind s.nextBody])
          (s'.finish (s'.bodyOf s.nextBody name kind inner.scope arity span code))
  /-- A body that is given up is never finished. -/
  | abandoned {c inner : Context} {s s' : LoweringState} {kind : BodyKind} :
      inner.scope = (s.scopes.openScope c.scope kind).1 →
      inner.method.isSome = (kind == .method || kind.isClosure && c.method.isSome) →
      Lowers inner (s.enter c.scope kind) none s' → Lowers c s none s'
  /-- A mistake is reported, and lowering goes on. -/
  | recovered {c : Context} {s s' : LoweringState} (d : Diagnostic) :
      Lowers c s none s' → Lowers c s (some []) { s' with mistakes := s'.mistakes ++ [d] }

namespace Lower

variable {span : Span}

variable {α β : Type} {c : Context} {s : LoweringState} {m : Lower α}

/-! ## Parts in a context -/

theorem eq_of_act {m' : Lower α} (h : m.act = m'.act) : m = m' := by
  cases m
  cases m'
  cases h
  rfl

instance : LawfulMonad Lower :=
  .mk' Lower (fun m => eq_of_act (bind_pure m.act)) (fun _ _ => rfl)
    fun m f g => eq_of_act (bind_assoc m.act (fun a => (f a).act) fun b => (g b).act)

/-- A part that only reads the context. -/
def reading (f : Context → LoweringState → EStateM.Result Diagnostic LoweringState α) : Lower α where
  act l :=
    match f l.context l.built with
    | .ok a s => .ok a { l with built := s }
    | .error d s => .error d { l with built := s }
  restores l := by split <;> rfl

theorem act_eq (m : Lower α) (l : Lowerer) : m.act l = (reading m).act l := by
  obtain ⟨c, s⟩ := l
  have hm := m.restores ⟨c, s⟩
  unfold reading run
  dsimp only
  cases hact : m.act ⟨c, s⟩ with
  | ok a l' | error d l' =>
    rw [hact] at hm
    cases hm
    rfl

/-- A part leaves the context as it was, so it is what it does to what has been built. -/
theorem ext {m' : Lower α} (h : ∀ c s, m c s = m' c s) : m = m' := by
  refine eq_of_act (funext fun l => ?_)
  rw [m.act_eq, m'.act_eq]
  unfold reading
  simp only [h]

theorem reading_run {f : Context → LoweringState → EStateM.Result Diagnostic LoweringState α} :
    reading f c s = f c s := by
  unfold run reading
  dsimp only
  cases f c s <;> rfl

theorem bind_run {f : α → Lower β} : (m >>= f) c s = match m c s with
      | .ok a s' => f a c s'
      | .error d s' => .error d s' := by
  have hact : (m >>= f).act ⟨c, s⟩ = EStateM.bind m.act (fun a => (f a).act) ⟨c, s⟩ := rfl
  unfold EStateM.bind at hact
  rw [m.act_eq] at hact
  unfold reading at hact
  rw [run, hact]
  dsimp only
  cases m c s <;> rfl

theorem run_bind {f : α → Lower β} (h : m c s = .ok a s') : (m >>= f) c s = f a c s' := by
  rw [bind_run, h]

theorem tryCatch_act {f : Diagnostic → Lower α} (l : Lowerer) :
    (tryCatch m f).act l = match m.act l with
      | .ok a l' => .ok a l'
      | .error d l' => (f d).act l' := rfl

theorem tryCatch_run {f : Diagnostic → Lower α} : tryCatch m f c s = match m c s with
      | .ok a s' => .ok a s'
      | .error d s' => f d c s' := by
  rw [run, tryCatch_act, m.act_eq]
  unfold reading
  dsimp only
  cases m c s <;> rfl

theorem recover_run : recover fallback m c s = match m c s with
      | .ok a s' => .ok a s'
      | .error d s' => .ok fallback { s' with mistakes := s'.mistakes ++ [d] } :=
  tryCatch_run

theorem attempt_run : attempt m c s = match m c s with
      | .ok a s' => .ok (.ok a) s'
      | .error d s' => .ok (.error d) s' := by
  refine tryCatch_run.trans ?_
  rw [map_eq_pure_bind, bind_run]
  cases m c s <;> rfl

theorem during_run {change : Change} : during change m c s = m (change.make c) s := by
  unfold during run
  dsimp only
  cases m.act ⟨change.make c, s⟩ <;> rfl

/-! ## Bodies and loops -/

/-- The body of a construct, lowered in the scope that is opened for it. -/
def inBody (kind : BodyKind) (arity : Arity) (span : Span) (name : Context → String)
    (inner : ScopeId → Context → Context) (f : BodyId → Option BreakId → α) (code : Lower Code) :
    Lower α := reading fun c s =>
  let scope := (s.scopes.openScope c.scope kind).1
  match code (inner scope c) (s.enter c.scope kind) with
  | .ok result s' =>
    .ok (f s.nextBody (s'.breakOf scope))
      (s'.finish (s'.bodyOf s.nextBody (name c) kind scope arity span result))
  | .error d s' => .error d s'

/-- The parts of a loop. Its statements are lowered even when its condition is given up on. -/
def inLoop (condition : Lower Code) (body : Lower (List Code))
    (f : BreakId → Code → List Code → α) : Lower α := reading fun c s =>
  let c' := { c with inLoop := true }
  match condition c' (s.enterLoop c.scope) with
  | .ok code s₁ =>
    match body c' s₁ with
    | .ok codes s₂ =>
      .ok (f s.scopes.freshBreak.1 code codes) (s₂.setBreak c.scope (s.breakOf c.scope))
    | .error d s₂ => .error d s₂
  | .error d s₁ =>
    match body c' s₁ with
    | .ok _ s₂ => .error d (s₂.setBreak c.scope (s.breakOf c.scope))
    | .error d s₂ => .error d s₂

/-- What is lowered in the new scopes of bodies of the kind, where the context is `c`. -/
structure Inner (kind : BodyKind) (inner : ScopeId → Context → Context) (c : Context) : Prop where
  scope : ∀ k, (inner k c).scope = k
  ofKind : ∀ k, (inner k c).kind = kind
  inLoop : ∀ k, (inner k c).inLoop = false
  options : ∀ k, (inner k c).options = c.options
  isMethod : ∀ k, (inner k c).method.isSome = (kind == .method || kind.isClosure && c.method.isSome)
  /-- A closure is of the method around it. -/
  method : kind.isClosure = true → ∀ k, (inner k c).method = c.method

variable {kind : BodyKind}

theorem Inner.root {method : Option Params} {name : String} (hclosure : kind.isClosure = false)
    (hmethod : method.isSome = (kind == .method)) :
    Inner kind (fun scope => rootContext scope kind method name) c :=
  ⟨fun _ => rfl, fun _ => rfl, fun _ => rfl, fun _ => rfl,
    fun _ => by simp [hclosure, rootContext, hmethod],
    fun h => absurd (h.symm.trans hclosure) Bool.true_eq_false.mp⟩

theorem Inner.closure (hclosure : kind.isClosure = true) :
    Inner kind (fun scope => closureContext scope kind) c := by
  refine ⟨fun _ => rfl, fun _ => rfl, fun _ => rfl, fun _ => rfl, fun _ => ?_, fun _ _ => rfl⟩
  cases kind <;> first | rfl | cases hclosure

theorem addBody_run (code : Lower Code) (arity : Arity) (span : Span) (name : Context → String)
    (inner : ScopeId → Context → Context) (f : BodyId → Option BreakId → α)
    (hopened : s.scopes.openScope c.scope kind = opened) :
    (f s.nextBody <$> addBody s.nextBody (name c) kind opened.1 arity span (inner opened.1)
      code) c { s with scopes := opened.2, nextBody := s.nextBody + 1 } =
        inBody kind arity span name inner f code c s := by
  subst hopened
  unfold inBody addBody LoweringState.enter
  rw [reading_run]
  refine bind_run.trans ?_
  simp only [bind_run, during_run, Change.replace]
  cases code (inner (s.scopes.openScope c.scope kind).1 c) _ <;> rfl

theorem rootBody_eq {code : Lower Code} {method : Option Params} {f : BodyId → α} {name : String}
    {arity : Arity}
    (hopen : ∀ (s : Scopes) (outer : ScopeId), s.openScope outer kind = s.addRoot kind) :
    (do
      let id ← reserveBody
      let scope ← onScopes fun s => s.addRoot kind
      let _ ← addBody id name kind scope arity span (rootContext scope kind method name)
        code
      return f id) = inBody kind arity span (fun _ => name)
        (fun scope => rootContext scope kind method name) (fun id _ => f id) code :=
  ext fun c s => addBody_run code arity span (fun _ => name)
    (fun scope => rootContext scope kind method name) (fun id _ => f id) (hopen s.scopes c.scope)

theorem closureBody_eq {code : Lower Code} {f : BodyId → Option BreakId → α} {arity : Arity}
    (opening : ScopeId → Scopes → ScopeId × Scopes) (name : Context → String)
    (hopen : ∀ (s : Scopes) (outer : ScopeId), s.openScope outer kind = opening outer s) :
    (do
      let outer ← read
      let scope ← onScopes (opening outer.scope)
      let id ← reserveBody
      let breakId ← addBody id (name outer) kind scope arity span (closureContext scope kind)
        code
      return f id breakId) =
        inBody kind arity span name (fun scope => closureContext scope kind) f code :=
  ext fun c s => addBody_run code arity span name
    (fun scope => closureContext scope kind) f (hopen s.scopes c.scope)

theorem blockBody_eq {code : Lower Code} {f : BodyId → Option BreakId → α} {arity : Arity} :
    (do
      let outer ← read
      let scope ← onScopes fun s => s.addBlock outer.scope false
      let id ← reserveBody
      let breakId ← addBody id s!"block in {outer.scopeName}" .block scope arity span
        (closureContext scope .block) code
      return f id breakId) =
        inBody .block arity span (fun outer => s!"block in {outer.scopeName}")
          (fun scope => closureContext scope .block) f code :=
  closureBody_eq (fun outer s => s.addBlock outer false) _ fun _ _ => rfl

theorem closure_eq :
    Lower.closure ⟨span, ⟨params, body⟩⟩ lambda =
      inBody (bif lambda then .lambda else .block) params.arity span
        (fun outer => bif lambda then "<lambda>" else s!"block in {outer.scopeName}")
        (fun scope => closureContext scope (bif lambda then .lambda else .block))
        (fun id breakId => (.closure id lambda, breakId))
        (callable params (binding span params) (statements body)) := by
  cases lambda with
  | false => exact blockBody_eq
  | true => exact closureBody_eq (fun outer s => s.addLambda outer) (fun _ => _) fun _ _ => rfl

theorem statements_total : ∀ (body : List (Located Expr)) (c : Context) (s : LoweringState),
    ∃ codes s', statements body c s = .ok codes s'
  | [], _, s => ⟨[], s, rfl⟩
  | e :: rest, c, s => by
    have hfirst : ∃ code s', recover .nil (expr e) c s = .ok code s' := by
      rw [recover_run]
      cases expr e c s with
      | ok code s' => exact ⟨code, s', rfl⟩
      | error d s' => exact ⟨.nil, _, rfl⟩
    obtain ⟨code, s', hcode⟩ := hfirst
    obtain ⟨codes, s'', hcodes⟩ := statements_total rest c s'
    refine ⟨code :: codes, s'', ?_⟩
    rw [statements]
    simp only [bind_run, hcode, hcodes]
    rfl

theorem withLoop_run {id : BreakId} : withLoop id m c s =
    match m { c with inLoop := true } (s.setBreak c.scope (some id)) with
      | .ok a s' => .ok a (s'.setBreak c.scope (s.breakOf c.scope))
      | .error d s' => .error d s' := by
  show (during .loop m >>= _) c (s.setBreak c.scope (some id)) = _
  simp only [bind_run, during_run, Change.loop]
  cases m { c with inLoop := true } (s.setBreak c.scope (some id)) <;> rfl

/-- A loop. A mistake in its condition is kept for after the statements. -/
theorem loop_eq :
    expr ⟨span, .loop condition body bodyFirst negated⟩ =
      inLoop (expr condition) (statements body) fun id condition body =>
        .loop (if negated then .not condition else condition) (.join body) bodyFirst id := by
  refine ext fun c s => ?_
  unfold inLoop
  rw [expr, reading_run]
  show (withLoop s.scopes.freshBreak.1 _ >>= _) c { s with scopes := s.scopes.freshBreak.2 } = _
  simp only [bind_run, withLoop_run, attempt_run]
  rw [← LoweringState.enterLoop]
  cases hs : expr condition { c with inLoop := true } (s.enterLoop c.scope) with
  | error d s₁ | ok code s₁ =>
    obtain ⟨codes, s₂, hs₂⟩ := statements_total body { c with inLoop := true } s₁
    simp only [hs₂]
    rfl

/-! ## What a part meets -/

/-- Whatever the part does in the context is a `Lowers`, and its answer satisfies `P` of what it
obtained. -/
def Meets (m : Lower α) (c : Context) (P : List Mention → α → Prop) : Prop :=
  ∀ s, match m c s with
    | .ok a s' => ∃ ms, Lowers c s (some ms) s' ∧ P ms a
    | .error _ s' => Lowers c s none s'

namespace Meets

/-! ## Rules for `do` blocks -/

variable {P : List Mention → α → Prop} {m : Lower α}

theorem pure (h : P [] a) : Meets (Pure.pure a : Lower α) c P :=
  fun _ => ⟨[], .nothing, h⟩

theorem bind {P : List Mention → β → Prop}
    (h : Meets m c fun p a => Meets (f a) c fun q b => P (p ++ q) b) : Meets (m >>= f) c P := by
  intro s
  have hm := h s
  simp only [bind_run]
  cases hs : m c s with
  | error d s' =>
    rw [hs] at hm
    exact hm
  | ok a s' =>
    rw [hs] at hm
    obtain ⟨p, hp, hf⟩ := hm
    have hf := hf s'
    simp only at hf ⊢
    cases hs' : f a c s' with
    | error d s'' =>
      rw [hs'] at hf
      exact .append hp hf
    | ok b s'' =>
      rw [hs'] at hf
      obtain ⟨q, hq, hP⟩ := hf
      exact ⟨p ++ q, .append hp hq, hP⟩

theorem mono (h : Meets m c P) (hPQ : ∀ ms a, P ms a → Q ms a) : Meets m c Q := by
  intro s
  have hm := h s
  cases hs : m c s with
  | error d s' =>
    rw [hs] at hm
    exact hm
  | ok a s' =>
    rw [hs] at hm
    obtain ⟨ms, hms, hP⟩ := hm
    exact ⟨ms, hms, hPQ ms a hP⟩

theorem step (hm : Meets m c P) (hf : ∀ p a, P p a → Meets (f a) c fun q b => Q (p ++ q) b) :
    Meets (m >>= f) c Q :=
  .bind (hm.mono hf)

theorem last {Q : List Mention → β → Prop} {f : α → β} (hm : Meets m c P)
    (h : ∀ p a, P p a → Q p (f a)) : Meets (do let a ← m; return f a) c Q :=
  hm.step fun p a ha => .pure (by rw [List.append_nil]; exact h p a ha)

theorem map {P : List Mention → β → Prop} {f : α → β} (h : Meets m c fun p a => P p (f a)) :
    Meets (f <$> m) c P :=
  h.last fun _ _ hP => hP

theorem read {P : List Mention → Context → Prop} (h : P [] c) :
    Meets (MonadReader.read : Lower Context) c P :=
  fun _ => ⟨[], .nothing, h⟩

theorem fail (mistake : Mistake) (span : Span) : Meets (fail mistake span : Lower α) c P :=
  fun _ => .mistake

theorem recover (hm : Meets m c P) (h : P [] fallback) : Meets (recover fallback m) c P := by
  intro s
  have hm := hm s
  rw [recover_run]
  cases hs : m c s with
  | error d s' =>
    rw [hs] at hm
    exact ⟨[], .recovered d hm, h⟩
  | ok a s' =>
    rw [hs] at hm
    exact hm

/-- A part that is lowered in a context which only differs inside the current body. -/
theorem inContext {change : Change} (hscope : (change.make c).scope = c.scope)
    (hmethod : (change.make c).method = c.method) (hm : Meets m (change.make c) P) :
    Meets (during change m) c P := by
  intro s
  have hm := hm s
  rw [during_run]
  cases hs : m (change.make c) s with
  | error d s' =>
    rw [hs] at hm
    exact .inside hm hscope hmethod
  | ok a s' =>
    rw [hs] at hm
    obtain ⟨ms, hms, hP⟩ := hm
    exact ⟨ms, .inside hms hscope hmethod, hP⟩

theorem currentScope {P : List Mention → Scope → Prop} (h : ∀ scope, P [] scope) :
    Meets currentScope c P :=
  fun _ => ⟨[], .nothing, h _⟩

/-! ## References -/

theorem resolve? (name : String) :
    Meets (resolve? name) c fun ms found => ms = found.toList.map .variable :=
  fun _ => ⟨_, .reference (.known name), rfl⟩

theorem resolveForAssignment (name : String) :
    Meets (resolveForAssignment name) c fun ms l => ms = [.variable l] :=
  fun _ => ⟨_, .reference (.assigned name), rfl⟩

theorem resolveFrameGlobal (name : String) :
    Meets (resolveFrameGlobal name) c fun ms l => ms = [.variable l] :=
  fun _ => ⟨_, .reference (.frameGlobal name), rfl⟩

theorem ownLocal (name : String) :
    Meets (ownLocal name) c fun ms l => ms = [.variable l] ∧ l.level = 0 :=
  fun _ => ⟨_, .reference (.own name), rfl, rfl⟩

theorem addTemp (hint : String) :
    Meets (addTemp hint) c fun ms l => ms = [.variable l] ∧ l.level = 0 :=
  fun _ => ⟨_, .reference (.temp hint), rfl, rfl⟩

theorem declareAll : ∀ names : List String,
    Meets (declareAll names) c fun ms _ => ∀ x ∈ ms, x.isKept = false
  | [] => fun _ => ⟨[], .nothing, by simp⟩
  | name :: rest => fun s => by
    obtain ⟨p, hp, rfl, _⟩ := ownLocal (c := c) name s
    obtain ⟨q, hq, hrest⟩ := declareAll rest { s with scopes := (s.scopes.declare c.scope name).2 }
    refine ⟨_, .append hp hq, fun x hx => ?_⟩
    rcases List.mem_append.mp hx with hx | hx
    · rw [List.mem_singleton.mp hx]
      simp [Mention.isKept]
    · exact hrest x hx

/-! ## Bodies and loops -/

theorem built {span : Span} {inner : ScopeId → Context → Context}
    (hm : m = inBody kind arity span name inner f code) (hinner : Inner kind inner c)
    (h : ∀ scope, Meets code (inner scope c) Assembled)
    (hP : ∀ id b, P [.body kind id] (f id b)) : Meets m c P := by
  subst hm
  intro s
  have hcode := h (s.scopes.openScope c.scope kind).1 (s.enter c.scope kind)
  unfold inBody
  rw [reading_run]
  dsimp only
  cases hs : code (inner (s.scopes.openScope c.scope kind).1 c) (s.enter c.scope kind) with
  | error d s' =>
    rw [hs] at hcode
    exact .abandoned (hinner.scope _) (hinner.isMethod _) hcode
  | ok a s' =>
    rw [hs] at hcode
    obtain ⟨ms, hms, hassembled⟩ := hcode
    have hbody :=
      Lowers.body (name c) arity span (hinner.scope _) (hinner.isMethod _) hms hassembled
    rw [hinner.scope] at hbody
    exact ⟨_, hbody, hP _ _⟩

theorem loop
    (hm : m = inLoop condition body f) (htotal : ∀ c s, ∃ codes s', body c s = .ok codes s')
    (hcondition : Meets condition { c with inLoop := true } Pc)
    (hbody : Meets body { c with inLoop := true } Pb)
    (hP : ∀ id p code q codes, Pc p code → Pb q codes → P (p ++ q) (f id code codes)) :
    Meets m c P := by
  subst hm
  intro s
  have hc := hcondition (s.enterLoop c.scope)
  unfold inLoop
  rw [reading_run]
  dsimp only
  cases hs : condition { c with inLoop := true } (s.enterLoop c.scope) with
  | error d s₂ =>
    obtain ⟨codes, s₃, hs₃⟩ := htotal { c with inLoop := true } s₂
    have hb := hbody s₂
    rw [hs] at hc
    rw [hs₃] at hb
    obtain ⟨q, hq, _⟩ := hb
    simp only [hs₃]
    exact .loop (.inside (.append hc hq) rfl rfl)
  | ok code s₂ =>
    obtain ⟨codes, s₃, hs₃⟩ := htotal { c with inLoop := true } s₂
    have hb := hbody s₂
    rw [hs] at hc
    rw [hs₃] at hb
    obtain ⟨p, hp, hPc⟩ := hc
    obtain ⟨q, hq, hPb⟩ := hb
    simp only [hs₃]
    exact ⟨p ++ q, .loop (.inside (.append hp hq) rfl rfl), hP _ p code q codes hPc hPb⟩

end Meets

end Lower

end BlockLang
