import BlockLang.Proofs.Lowering.Exact
import BlockLang.Proofs.Lowering.Following
import BlockLang.Proofs.Lowering.References

/-!
# Lowering accepts what is legally placed

The recursion on the tree. Every part of lowering follows what it is given and sees to the
expressions in it (`Lower.Minds`), so the rules of `Lower.Follows` and `Lower.Exact` are used
together. Read at a whole program this is **acceptance**: without the checks of variables and default
values, a program is lowered if and only if every node of its tree is legally placed
(`Program.lower_accepts_iff`). Whatever the checks, the unit of an accepted program has a body for
every method, lambda and block that is written in it (`Program.compiles_of_lower`).
-/

namespace BlockLang

open List Lower

namespace Lower

variable {α β : Type}

/-! ## Parts that ask for references at most -/

/-- A part that builds nothing, checks nothing and never gives up. -/
structure Quiet (m : Lower α) : Prop where
  tests : Tests m []
  exact : ∀ c around, Exact m c around .nothing

namespace Quiet

variable {m : Lower α} {f : α → Lower β}

theorem pure : Quiet (Pure.pure a : Lower α) := ⟨.pure, fun _ _ => .pure⟩

theorem bind (hm : Quiet m) (hf : ∀ a, Quiet (f a)) : Quiet (m >>= f) :=
  ⟨hm.tests.bind fun a => (hf a).tests, fun c around =>
    (hm.exact c around).after fun a => (hf a).exact c around⟩

theorem mapM (hf : ∀ a, Quiet (f a)) (as : List α) : Quiet (as.mapM f) :=
  ⟨.mapM (fun a => (hf a).tests) as, fun c around => .mapM fun a _ => (hf a).exact c around⟩

theorem reference (r : Request) (f : ScopeId → Scopes → α) (h : ∀ (c : Context) (s : LoweringState),
    m c s = .ok (f c.scope s.scopes) { s with scopes := (s.scopes.answer c.scope r).2 }) :
    Quiet m :=
  ⟨fun c s => Or.inl ⟨f c.scope s.scopes, (s.scopes.answer c.scope r).2, fun o _ =>
      h { c with options := o } s⟩,
    fun c _ => .quiet fun s => ⟨_, _, h c s, ⟨_, .reference r⟩, rfl⟩⟩

theorem resolve? (name : String) : Quiet (resolve? name) :=
  reference (.known name) (fun k s => (s.resolve k name).1) fun _ _ => rfl

theorem resolveForAssignment (name : String) : Quiet (resolveForAssignment name) :=
  reference (.assigned name) (fun k s => (s.resolveForAssignment k name).1) fun _ _ => rfl

theorem resolveFrameGlobal (name : String) : Quiet (resolveFrameGlobal name) :=
  reference (.frameGlobal name) (fun k s => (s.resolveFrameGlobal k name).1) fun _ _ => rfl

theorem ownLocal (name : String) : Quiet (ownLocal name) :=
  reference (.own name) (fun k s => { level := 0, slot := (s.declare k name).1, name }) fun _ _ => rfl

theorem addTemp (hint : String) : Quiet (addTemp hint) :=
  reference (.temp hint) (fun k s => (s.addTemp k hint).1) fun _ _ => rfl

theorem nilAsArray : Quiet nilAsArray := ⟨.nilAsArray, fun _ _ => .read .pure⟩

theorem writeOwn (name : String) (value : Code) : Quiet (writeOwn name value) :=
  (ownLocal name).bind fun _ => .pure

theorem readGlobal (name : String) : Quiet (Lower.readGlobal name) := by
  unfold Lower.readGlobal
  split
  · exact (resolveFrameGlobal name).bind fun _ => .pure
  · exact .pure

theorem writeGlobal (name : String) (value : Code) : Quiet (Lower.writeGlobal name value) := by
  unfold Lower.writeGlobal
  split
  · exact (resolveFrameGlobal name).bind fun _ => .pure
  · exact .pure

theorem bindOptional (source : ArgumentSource) (arity : Arity) :
    ∀ (position : Nat) (params : List (Located OptionalParam)) (defaults : List Code),
      Quiet (bindOptional source arity position params defaults)
  | position, _ :: params, _ :: defaults =>
    (writeOwn _ _).bind fun _ =>
      (bindOptional source arity (position + 1) params defaults).bind fun _ => .pure
  | _, [], _ | _, _ :: _, [] => .pure

theorem bindKeywords (arity : Arity) :
    ∀ (params : List (Located KeywordParam)) (defaults : List Code),
      Quiet (bindKeywords arity params defaults)
  | _ :: params, _ :: defaults =>
    (writeOwn _ _).bind fun _ => (bindKeywords arity params defaults).bind fun _ => .pure
  | [], _ | _ :: _, [] => .pure

end Quiet

/-! ## Replayed parameters -/

namespace Exact

variable {c : Context} {around : List Enclosure} {d : Duty} {params : Params} {span : Span}

/-- The parameters of the method are known wherever a bare `super` may stand. -/
theorem replayRead (span : Span) (hmethod : c.method = some params)
    (hname : name ∈ params.replayNames) : Exact (Lower.replayRead span name) c around .nothing := by
  intro s hc hr
  obtain ⟨r, hr'⟩ := Option.isSome_iff_exists.mp (hr params hmethod name hname)
  have hrun : Lower.resolve? name c s = .ok (some (s.scopes.refer c.scope name r).1)
      { s with scopes := (s.scopes.refer c.scope name r).2 } := by
    show EStateM.Result.ok (s.scopes.resolve c.scope name).1
      { s with scopes := (s.scopes.resolve c.scope name).2 } = _
    unfold Scopes.resolve
    rw [hr']
  have hout : Outcome c around .nothing s (Lower.resolve? name c s) := resolve? name s hc hr
  rw [hrun] at hout
  unfold Lower.replayRead
  rw [run_bind hrun]
  exact hout

theorem isNone_replayObstacle? (p : Params) : (replayObstacle? p).isNone = p.replayable := by
  have hpre : ∀ f : Located Pattern → Bool, (∀ q, f q = !q.value.isPlain) →
      p.pre.any f = !p.pre.all (·.value.isPlain) := by
    intro f hf
    rw [not_all_eq_any_not]
    exact congrArg p.pre.any (funext hf)
  unfold replayObstacle? Params.replayable
  dsimp only
  rw [hpre _ fun q => by cases q.value <;> rfl]
  cases p.post.isEmpty <;> cases p.keywords.isEmpty <;> cases p.keywordRest <;>
    cases p.pre.all (·.value.isPlain) <;> rfl

theorem replay (hmethod : c.method = some params) :
    Exact (Lower.replay params span) c around (.check (params.replayable = true)) := by
  have hnames : Exact (do
      let names := Params.patternNames params.pre ++ params.optional.map (·.value.name)
      let args ← names.mapM (Lower.replayRead span)
      let rest ← params.rest.toList.mapM
        fun r => Code.splat <$> Lower.replayRead span r.value.slotName
      return args ++ rest) c around .nothing := by
    refine (mapM fun name hname => replayRead span hmethod ?_).after fun _ => ?_
    · exact mem_append_left _ hname
    · refine (mapM fun r hr => (replayRead span hmethod ?_).map).after fun _ => .pure
      exact mem_append_right _ (mem_map_of_mem hr)
  unfold Lower.replay
  rw [← isNone_replayObstacle?]
  cases Lower.replayObstacle? params with
  | none => exact .holds rfl hnames
  | some what =>
    have hfail : Exact (Lower.fail (.unsupportedReplay what) span : Lower Unit) c around
        (.check ((some what).isNone = true)) := .fails (by simp)
    exact hfail.ending fun _ => hnames

theorem bareSuper {f : List Code → Lower α} (hf : ∀ args, Exact (f args) c around d) : Exact (do
      let params ← Lower.requireMethod .superOutsideMethod span
      let args ← Lower.replay params span
      f args) c around (.check ((Enclosure.method? around).any (·.replayable) = true) ++ d) := by
  refine .place fun s hc => ?_
  rw [← hc.method]
  have hmethod : Exact ((c.method.elim (Lower.fail .superOutsideMethod span) Pure.pure :
      Lower Params) >>= fun params => Lower.replay params span >>= f) c around
      (.check (c.method.any (·.replayable) = true) ++ d) := by
    cases hm : c.method with
    | none => exact fun s _ _ => ⟨.refl, fun _ hlegal => absurd hlegal.1.1 (by simp)⟩
    | some params => exact (replay hm).bind hf
  refine hmethod.ofRun fun s => ?_
  rw [bind_run, bind_run, Lower.requireMethod_run]

end Exact

/-! ## Parts -/

/-- The part comes by what is in the list, and sees to its duty wherever it stands. -/
structure Minds (m : Lower α) (vs : Visits) (d : Duty) : Prop where
  follows : Follows m vs
  exact : ∀ c around, Exact m c around d

namespace Minds

variable {kind : BodyKind}

variable {m : Lower α} {f : α → Lower β} {vs ws us : Visits} {d d' d'' : Duty} {span : Span}
  {e : Expr} {es es' : List (Located Expr)} {params : Params}

theorem quiet (h : Quiet m) : Minds m vs .nothing := ⟨.quiet h.tests, h.exact⟩

theorem pure : Minds (Pure.pure a : Lower α) vs .nothing := quiet .pure

theorem bind (hm : Minds m vs d) (hf : ∀ a, Minds (f a) ws d') :
    Minds (m >>= f) (vs ++ ws) (d ++ d') :=
  ⟨hm.follows.bind fun a => (hf a).follows, fun c around =>
    (hm.exact c around).bind fun a => (hf a).exact c around⟩

theorem first (hm : Quiet m) (hf : ∀ a, Minds (f a) vs d) : Minds (m >>= f) vs d :=
  ⟨.first hm.tests fun a => (hf a).follows, fun c around =>
    (hm.exact c around).after fun a => (hf a).exact c around⟩

theorem ending (hm : Minds m vs d) (hf : ∀ a, Quiet (f a)) : Minds (m >>= f) vs d :=
  ⟨hm.follows.ending fun a => (hf a).tests, fun c around =>
    (hm.exact c around).ending fun a => (hf a).exact c around⟩

theorem map {f : α → β} (hm : Minds m vs d) : Minds (f <$> m) vs d := by
  rw [map_eq_pure_bind]
  exact hm.ending fun _ => .pure

theorem recover (fallback : α) (hm : Minds m vs d) : Minds (recover fallback m) vs d :=
  ⟨hm.follows.recover fallback, fun c around => (hm.exact c around).recover⟩

theorem ask {f : Context → Lower α} (hf : ∀ c, Minds (f c) vs d)
    (hsame : ∀ (c : Context) (o : LowerOptions), f { c with options := o } = f c) :
    Minds (MonadReader.read >>= f) vs d :=
  ⟨.ask (fun c => (hf c).follows) hsame, fun c around => .read ((hf c).exact c around)⟩

theorem cover (hm : Minds m vs d) (h : ws.Covers vs) : Minds m ws d := ⟨hm.follows.cover h, hm.exact⟩

theorem sublist (hm : Minds m vs d) (h : vs.Sublist ws) : Minds m ws d := hm.cover (.of_sublist h)

theorem perm (hm : Minds m vs d) (h : vs.Perm ws) : Minds m ws d := hm.cover (.of_perm h)

theorem same (hm : Minds m vs d) (h : d'.Same d) : Minds m vs d' :=
  ⟨hm.follows, fun c around => (hm.exact c around).same h⟩

theorem twice (hm : Minds m (vs.repeated ++ vs.repeated) (d ++ d)) : Minds m vs.repeated d :=
  ⟨hm.follows.twice, fun c around => (hm.exact c around).twice⟩

theorem both (hm : Minds m vs (.exprs es)) (hf : ∀ a, Minds (f a) ws (.exprs es')) :
    Minds (m >>= f) (vs ++ ws) (.exprs (es ++ es')) :=
  (hm.bind hf).same (by simp [Duty.Same, Parts.here])

theorem noExprs (h : Minds m vs .nothing) : Minds m vs (.exprs []) := h

theorem node (h : Minds m vs d) (hsame : ∀ around, (Duty.node around ⟨span, e⟩).Same d) :
    Minds m (.expr span false :: vs) (.exprs [⟨span, e⟩]) :=
  ⟨h.follows.node, fun c around => (h.exact c around).node (hsame around)⟩

theorem plain (h : Minds m vs (.exprs es)) (hlegal : ∀ around, e.legalIn around = true)
    (hcallables : Expr.callables ⟨span, e⟩ = [])
    (hparts : ∀ part, part ∈ e.parts ↔ part ∈ Parts.here es) :
    Minds m (.expr span false :: vs) (.exprs [⟨span, e⟩]) :=
  h.node fun around => ⟨by simp [Duty.node, hlegal], hparts, by simp [Duty.node, hcallables]⟩

/-- A node that makes a check first. -/
theorem tested {p : List Enclosure → Prop} (ht : Tests m [span])
    (he : ∀ c around, Exact m c around (.check (p around))) (hf : ∀ a, Minds (f a) vs d)
    (hsame : ∀ around, (Duty.node around ⟨span, e⟩).Same (.check (p around) ++ d)) :
    Minds (m >>= f) (.expr span false :: vs) (.exprs [⟨span, e⟩]) :=
  ⟨.tested ht fun a => (hf a).follows, fun c around =>
    ((he c around).bind fun a => (hf a).exact c around).node (hsame around)⟩

/-- Bodies of the kind are lowered inside `k`, with the options of what is around them. -/
structure Encloses (k : Enclosure) (kind : BodyKind) (name : Context → String)
    (inner : ScopeId → Context → Context) : Prop where
  named : ∀ (c : Context) (o : LowerOptions), name { c with options := o } = name c
  options : ∀ (scope : ScopeId) (c : Context) (o : LowerOptions),
    inner scope { c with options := o } = { inner scope c with options := o }
  within : ∀ c, Inner kind inner c
  opens : k.Opens kind
  method : ∀ c around, c.method = Enclosure.method? around →
    ∀ scope, (inner scope c).method = Enclosure.method? (k :: around)

theorem built {code : Lower Code} {arity : Arity} {name : Context → String}
    {inner : ScopeId → Context → Context} {f : BodyId → Option BreakId → α} {k : Enclosure}
    (made : List Callable) (hm : m = inBody kind arity span name inner f code)
    (hk : Encloses k kind name inner)
    (hmeets : ∀ c, Meets code c Assembled) (hfollows : Follows code vs)
    (hout : ∀ c scope around s, (inner scope c).Stands (k :: around) s →
      (kind.isClosure = true → (inner scope c).Replays s) →
      Outcome (inner scope c) (k :: around) d s (code (inner scope c) s))
    (hmade : ∀ c scope, ∀ k ∈ made, Makes (inner scope c) code kind (name c) arity span k) :
    Minds m (.body kind arity span :: vs) (d.inside k ++ ⟨True, [], made⟩) :=
  ⟨hm ▸ .built kind arity span name inner f hk.named hk.options hfollows, fun c around =>
    .built made hm (hk.within c) hk.opens (hk.method c around) (fun _ => hmeets _)
      (fun scope => hout c scope around) (hmade c)⟩

/-! ### The pieces that do not recurse -/

/-- Every target is seen to three times, and that is as good as once. -/
theorem destructure {pre post : Nat} {assignPre assignPost : (Nat → Code) → Lower (List Code)}
    {assignRest : Code → Lower (List Code)} {value : Code}
    (hpre : ∀ v, Minds (assignPre v) vs d) (hrest : ∀ v, Minds (assignRest v) us d')
    (hpost : ∀ v, Minds (assignPost v) ws d'') :
    Minds (Lower.destructure pre post assignPre assignRest assignPost value)
      (vs ++ us ++ ws : Visits).repeated (d ++ d' ++ d'') := by
  have hall : Minds (Lower.destructure pre post assignPre assignRest assignPost value)
      (vs ++ (us ++ (ws ++ (vs ++ (us ++ (ws ++ (vs ++ (ws ++ us))))))))
      (d ++ (d' ++ (d'' ++ (d ++ (d' ++ (d'' ++ (d ++ (d'' ++ d')))))))) := by
    refine .first (.addTemp "array") fun array => .first .nilAsArray fun onNil => ?_
    refine (hpre _).bind fun _ => (hrest _).bind fun _ => (hpost _).bind fun _ => ?_
    refine (hpre _).bind fun _ => (hrest _).bind fun _ => (hpost _).bind fun _ => ?_
    exact (hpre _).bind fun _ => (hpost _).bind fun _ => (hrest _).ending fun _ => .pure
  refine (hall.cover (.of_repeated fun v hv => mem_map_of_mem ?_)).same ⟨?_, ?_, ?_⟩
  · simp only [mem_append] at hv ⊢
    grind
  · simp only [Duty.own_append]
    grind
  · intro part
    simp only [Duty.parts_append, mem_append]
    grind
  · intro k hk
    simp only [Duty.callables_append, mem_append] at hk ⊢
    grind

theorem targets
    (hpre : ∀ v, Minds (Lower.assignEach pre v) (Target.visitsEach pre)
      (.exprs (Target.scopeChildrenEach pre)))
    (hrest : ∀ v, Minds (Lower.assignRest rest v) (RestTarget.visits rest)
      (.exprs (RestTarget.scopeChildren rest)))
    (hpost : ∀ v, Minds (Lower.assignEach post v) (Target.visitsEach post)
      (.exprs (Target.scopeChildrenEach post))) :
    Minds (Lower.destructure n k (Lower.assignEach pre) (Lower.assignRest rest)
      (Lower.assignEach post) value) (Targets.visits ⟨pre, rest, post⟩).repeated
      (.exprs (Targets.scopeChildren ⟨pre, rest, post⟩)) :=
  (destructure hpre hrest hpost).same (by simp [Duty.Same, Parts.here, Targets.scopeChildren])

theorem keepingRight {assign : Code → Lower Code} {right : Code}
    (h : ∀ v, Minds (assign v) vs d) : Minds (keepingRight right assign) vs d :=
  .first (.addTemp "rhs") fun _ => (h _).ending fun _ => .pure

theorem assignItems {assign : (Nat → Code) → Lower (List Code)} {items : List (Local × Code)}
    (h : ∀ v, Minds (assign v) vs d) : Minds (assignItems items assign) vs d :=
  (h _).ending fun _ => .pure

theorem defaultValue (parameter : String) (pending : List String) (span : Span)
    (e : Located Expr) (h : Minds lowered (Expr.visits e) (.exprs [e])) :
    Minds (Lower.defaultValue parameter pending span e lowered)
      (Visit.strays span e ++ Expr.visits e) (.exprs [e]) := by
  have hlowered := h.sublist (sublist_append_right (Visit.strays span e) (Expr.visits e))
  unfold Lower.defaultValue
  cases hread : isRead parameter e.value with
  | true =>
    have hname : Minds (do return Code.readLocal (← Lower.ownLocal parameter)) [] (.exprs []) :=
      quiet ((Quiet.ownLocal parameter).bind fun _ => .pure)
    refine Minds.sublist ?_ (sublist_append_right (Visit.strays span e) (Expr.visits e))
    obtain ⟨s, value⟩ := e
    cases value with
    | localVar name | bareName name => exact hname.plain (fun _ => rfl) rfl fun _ => Iff.rfl
    | _ => simp [isRead] at hread
  | false =>
    rw [if_neg Bool.false_ne_true]
    cases forwardReference? pending e with
    | none =>
      refine ⟨hlowered.follows.ofRun fun c s => ?_, fun c around => .read ?_⟩
      · show (if c.options.rejectForwardReferences = true then lowered else lowered) c s = _
        rw [ite_self]
      · cases c.options.rejectForwardReferences <;> exact h.exact c around
    | some name =>
      refine ⟨.ofRun (.after (Follows.testsForward (.forwardReference parameter name) _)
        (Follows.places_default span e) fun _ => hlowered.follows) fun c s => ?_,
        fun c around => .read ?_⟩
      · show (if c.options.rejectForwardReferences = true then _ else _ : Lower Code) c s =
          ((if c.options.rejectForwardReferences = true then _ else _ : Lower Unit) >>=
            fun _ => lowered) c s
        by_cases hreject : c.options.rejectForwardReferences = true
        · rw [if_pos hreject, if_pos hreject]
        · rw [if_neg hreject, if_neg hreject]
          rfl
      · cases hreject : c.options.rejectForwardReferences with
        | false => exact h.exact c around
        | true =>
          have hfail : Exact (Lower.fail (.forwardReference parameter name)
              (if e.span = {} then span else e.span) : Lower Unit) c around (.exprs [e]) :=
            .fail (by simp [LowerOptions.isLenient, hreject])
          exact (hfail.bind fun _ => h.exact c around).congr (by rw [Duty.legal_append, and_self])
            fun u start hdone k hk => hdone k (by simpa [Duty.exprs] using hk)

theorem bindParameters (hpre : ∀ v, Minds (bindPre v) vs d)
    (hpost : ∀ v, Minds (bindPost v) ws d') :
    Minds (bindParameters params defaults source bindPre bindPost) (vs ++ ws) (d ++ d') := by
  refine (hpre _).bind fun _ => .first (.bindOptional _ _ _ _ _) fun _ => ?_
  refine .first (.mapM (fun _ => .writeOwn _ _) _) fun _ => (hpost _).ending fun _ => ?_
  refine (Quiet.bindKeywords _ _ _).bind fun _ => ?_
  refine (Quiet.mapM (fun _ => .writeOwn _ _) _).bind fun _ => ?_
  exact (Quiet.mapM (fun _ => .writeOwn _ _) _).bind fun _ => .pure

/-- Patterns are seen to once, or twice where there are two versions of the binding. -/
theorem prelude (params : Params) (hdefaults : Minds defaults us d'')
    (hpre : ∀ v, Minds (bindPre v) vs.repeated d)
    (hpost : ∀ v, Minds (bindPost v) ws.repeated d') :
    Minds (Lower.prelude params defaults bindPre bindPost) (us ++ (vs ++ ws : Visits).repeated)
      (d'' ++ (d ++ d')) := by
  have hend : ∀ check binding : List Code, Quiet (do
      let locals ← params.blockLocals.mapM fun b => Lower.writeOwn b.value .nil
      return check ++ binding ++ locals) :=
    fun _ _ => (Quiet.mapM (fun _ => .writeOwn _ _) _).bind fun _ => .pure
  have hbound : ∀ defaults source, Minds
      (Lower.bindParameters params defaults source bindPre bindPost)
      (vs ++ ws : Visits).repeated (d ++ d') := by
    intro defaults source
    rw [Visits.repeated_append]
    exact bindParameters hpre hpost
  refine .ask (fun c => hdefaults.bind fun defaults => ?_) fun _ _ => rfl
  cases c.kind == .block && !params.arity.keepsArray with
  | false =>
    refine (hbound _ _).ending fun positional => ?_
    rw [if_neg Bool.false_ne_true]
    exact .bind .pure fun _ => hend _ _
  | true =>
    refine .twice ((hbound _ _).bind fun positional => ?_)
    rw [if_pos rfl]
    refine .first (.addTemp "destructure") fun array => ?_
    exact (hbound _ _).ending fun _ => .bind .pure fun _ => hend _ _

/-- The body of a method, block or lambda. -/
theorem callable
    {inner : ScopeId → Context → Context} {f : BodyId → Option BreakId → α}
    (hm : m = inBody kind params.arity span name inner f
      (callable params (binding span params) (statements body)))
    (hk : Encloses k kind name inner)
    (hparams : kind.isClosure = false → ∀ c scope, (inner scope c).method = some params)
    (hbinding : Minds (binding span params) vs d)
    (hstatements : Minds (statements body) ws d') :
    Minds m (.body kind params.arity span :: (vs ++ ws))
      ((d ++ d').inside k ++ ⟨True, [], [⟨kind, span, params, body⟩]⟩) := by
  refine built _ hm hk
    (fun c => Meets.callable (Meets.binding span params c) (Meets.statements body c)) ?_
    (fun c scope around s hs hr => .callable (hbinding.exact _ _) (hstatements.exact _ _) hs ?_)
    fun c scope _ hmade => ?_
  · exact .first (.declareAll _) fun _ => (hbinding.follows.recover []).bind fun _ =>
      hstatements.follows.ending fun _ => .pure
  · cases hclosure : kind.isClosure with
    | true => exact Or.inr (hr hclosure)
    | false => exact Or.inl (hparams hclosure c scope)
  · rw [mem_singleton.mp hmade]
    exact .callable kind _ span params body ((hk.within c).ofKind scope) fun hkind =>
      hparams (by rw [hkind]; rfl) c scope

/-- The body of a class or module. -/
theorem classBody {f : BodyId → α} (hopens : Enclosure.classBody.Opens kind)
    (hclosure : kind.isClosure = false)
    (hopen : ∀ (s : Scopes) (outer : ScopeId), s.openScope outer kind = s.addRoot kind)
    (name : String) (h : Minds (statements body) vs d) :
    Minds (do
      let id ← reserveBody
      let scope ← onScopes fun s => s.addRoot kind
      let _ ← addBody id name kind scope {} span (rootContext scope kind none name)
        (Code.join <$> statements body)
      return f id) (.body kind {} span :: vs) (d.inside .classBody ++ ⟨True, [], []⟩) :=
  built [] (rootBody_eq hopen) ⟨fun _ _ => rfl, fun _ _ _ => rfl,
    fun _ => .root hclosure (by cases hopens <;> rfl), hopens, fun _ _ _ _ => rfl⟩
    (fun c => Meets.assembled (Meets.joined (Meets.statements body c))) h.map.follows
    (fun _ _ _ s hs _ => h.map.exact _ _ s hs fun _ hp => nomatch hp) (fun _ _ _ hk => nomatch hk)

/-! ### The recursion -/

attribute [local simp] Duty.Same Duty.node Duty.inside Expr.legalIn Expr.parts Expr.callables
  Parts.here Parts.inside Parts.callable Targets.scopeChildren RestTarget.scopeChildren
  Target.scopeChildrenEach

/-- The parts of an expression that are lowered in another way where it stands. -/
structure SpreadMinds (e : Located Expr) : Prop where
  splat : ∀ s inner, e = ⟨s, .splat inner⟩ →
    Minds (Lower.expr inner) (Expr.visits inner) (.exprs [inner])
  items : ∀ s items, e = ⟨s, .array items⟩ →
    Minds (Lower.args items) (Expr.visitsEach items) (.exprs items)
  temps : ∀ s items, e = ⟨s, .array items⟩ →
    Minds (Lower.itemTemps items) (Expr.visitsEach items) (.exprs items)

theorem args_cons {e : Located Expr} (he : Minds (expr e) (Expr.visits e) (.exprs [e]))
    (hspread : SpreadMinds e)
    (hrest : Minds (args rest) (Expr.visitsEach rest) (.exprs rest)) :
    Minds (args (e :: rest)) (Expr.visitsEach (e :: rest)) (.exprs (e :: rest)) := by
  have hcons : ∀ {m : Lower Code}, Minds m (Expr.visits e) (.exprs [e]) → Minds (do
      let first ← m
      let rest ← args rest
      return first :: rest) (Expr.visitsEach (e :: rest)) (.exprs (e :: rest)) :=
    fun hm => hm.both fun _ => hrest.ending fun _ => .pure
  unfold args
  split
  · simp at *
  · rename_i s inner tail heq
    cases heq
    exact hcons ((hspread.splat s inner rfl).map.plain (fun _ => rfl) rfl fun _ => Iff.rfl)
  · rename_i e' tail _ heq
    cases heq
    exact hcons he

/-- An array on the right side is seen to item by item. -/
theorem multiAssign {pre post : List (Located Target)} {rest : Option RestTarget}
    {value : Located Expr} (hpre : ∀ v, Minds (Lower.assignEach pre v) (Target.visitsEach pre)
      (.exprs (Target.scopeChildrenEach pre)))
    (hrest : ∀ v, Minds (Lower.assignRest rest v) (RestTarget.visits rest)
      (.exprs (RestTarget.scopeChildren rest)))
    (hpost : ∀ v, Minds (Lower.assignEach post v) (Target.visitsEach post)
      (.exprs (Target.scopeChildrenEach post)))
    (hnamed : ∀ target, rest = some (.named target) → ∀ v,
      Minds (Lower.assign target v) (Target.visits target) (.exprs target.value.scopeChildren))
    (hvalue : Minds (Lower.expr value) (Expr.visits value) (.exprs [value]))
    (hspread : SpreadMinds value) :
    Minds (Lower.expr ⟨span, .multiAssign ⟨pre, rest, post⟩ (some value)⟩)
      (Expr.visits ⟨span, .multiAssign ⟨pre, rest, post⟩ (some value)⟩)
      (.exprs [⟨span, .multiAssign ⟨pre, rest, post⟩ (some value)⟩]) := by
  -- the right side comes first, but the tree lists the targets before it
  have hform : ∀ {m : Lower Code} {es : List (Located Expr)} (again : Bool),
      Targets.spread ⟨pre, rest, post⟩ (some value) = again →
      Minds m (Expr.visits value ++ Visits.repeatedIf again (Targets.visits ⟨pre, rest, post⟩))
        (.exprs (value :: es)) →
      (∀ x, x ∈ es ↔ x ∈ Targets.scopeChildren ⟨pre, rest, post⟩) →
      Minds m (Expr.visits ⟨span, .multiAssign ⟨pre, rest, post⟩ (some value)⟩)
        (.exprs [⟨span, .multiAssign ⟨pre, rest, post⟩ (some value)⟩]) := by
    intro m es again hagain hm hes
    refine (hm.perm ?_).plain (fun _ => rfl) rfl fun part => ?_
    · rw [← hagain]
      exact perm_append_comm
    · simp [-Targets.scopeChildren, hes, or_comm]
  have hitems : ∀ {m : Lower Code} {s : Span} {items : List (Located Expr)},
      Minds m (Expr.visitsEach items) (.exprs items) →
        Minds m (Expr.visits ⟨s, .array items⟩) (.exprs [⟨s, .array items⟩]) :=
    fun hm => hm.plain (fun _ => rfl) rfl fun _ => Iff.rfl
  have hsingle : ∀ target, rest = some (.named target) → ∀ v, Minds (Lower.assign target v)
      (Targets.visits ⟨[], some (.named target), []⟩) (.exprs target.value.scopeChildren) := by
    intro target hrest v
    have hvisits : Targets.visits ⟨[], some (.named target), []⟩ = Target.visits target := by
      simp [Targets.visits, RestTarget.visits, Target.visitsEach]
    exact hvisits ▸ hnamed target hrest v
  unfold Lower.expr
  -- only the five forms of a multiple assignment with a right side are left
  split <;> rename_i heq <;> cases heq
  · rename_i s items
    split <;> rename_i hfixed
    · have htargets : Targets.visits ⟨pre, none, []⟩ = Target.visitsEach pre := by
        simp [Targets.visits, RestTarget.visits, Target.visitsEach]
      have htemps : Minds (Lower.itemTemps items) (Expr.visits ⟨s, .array items⟩)
          (.exprs [⟨s, .array items⟩]) :=
        (hspread.temps s items rfl).plain (fun _ => rfl) rfl fun _ => Iff.rfl
      refine hform false (by simp [Targets.spread, hfixed])
        (htemps.both fun _ => assignItems (htargets ▸ hpre)) fun x => ?_
      simp
    · have htargets : ∀ v, Minds (Lower.destructure pre.length 0 (Lower.assignEach pre)
          (fun _ => return []) (fun _ => return []) v) (Targets.visits ⟨pre, none, []⟩).repeated
          (.exprs (Target.scopeChildrenEach pre)) := fun v =>
        (destructure hpre (fun _ => .pure) (fun _ => .pure)).same (by simp)
      refine hform true (by simp [Targets.spread, hfixed])
        ((hitems (hspread.items s items rfl).map).both fun _ => keepingRight htargets) fun x => ?_
      simp
  · rename_i target s items
    refine hform false rfl
      ((hitems (hspread.items s items rfl).map).both fun _ => hsingle target rfl _) fun x => ?_
    obtain ⟨_, target⟩ := target
    simp
  · rename_i target _
    refine hform false rfl (hvalue.both fun _ => .first .nilAsArray fun _ => keepingRight fun v =>
      hsingle target rfl _) fun x => ?_
    obtain ⟨_, target⟩ := target
    simp
  · refine hform false rfl (hvalue.sublist (sublist_append_left _ _)) fun x => ?_
    simp
  · rename_i hnamed hanonymous harray _
    have hagain : Targets.spread ⟨pre, rest, post⟩ (some value) = true := by
      unfold Targets.spread
      split
      · rename_i heq heq'
        cases heq
        cases heq'
        exact absurd rfl (harray _ _ rfl rfl)
      · rename_i r _ heq _
        cases heq
        cases r with
        | named target => exact (hnamed target rfl rfl rfl).elim
        | anonymous => exact (hanonymous rfl rfl rfl).elim
      · rfl
    exact hform true hagain (hvalue.both fun _ => keepingRight fun _ => targets hpre hrest hpost)
      fun _ => Iff.rfl

mutual

theorem expr : ∀ e : Located Expr, Minds (Lower.expr e) (Expr.visits e) (.exprs [e])
  | ⟨_, .nil⟩ | ⟨_, .bool _⟩ | ⟨_, .integer _⟩ | ⟨_, .float _⟩ | ⟨_, .text _⟩ | ⟨_, .symbol _⟩
  | ⟨_, .self⟩ | ⟨_, .instanceVar _⟩ | ⟨_, .classVar _⟩ | ⟨_, .constant _⟩ =>
    (noExprs .pure).plain (fun _ => rfl) rfl fun _ => Iff.rfl
  | ⟨_, .array items⟩ =>
    ((args items).ending fun _ => .pure).plain (fun _ => rfl) rfl fun _ => Iff.rfl
  | ⟨_, .hash entries⟩ =>
    ((pairs entries).ending fun _ => .pure).plain (fun _ => rfl) rfl fun _ => Iff.rfl
  | ⟨_, .splat inner⟩ | ⟨_, .not inner⟩ =>
    ((expr inner).ending fun _ => .pure).plain (fun _ => rfl) rfl fun _ => Iff.rfl
  | ⟨span, .localVar name⟩ =>
    ⟨.leaf (.readLocal name (mem_singleton_self _)), fun c around =>
      (Exact.readLocal name span).node (by simp)⟩
  | ⟨_, .bareName name⟩ => by
    refine (noExprs (quiet ((Quiet.resolve? name).bind fun found => ?_))).plain (fun _ => rfl) rfl
      fun _ => Iff.rfl
    cases found with
    | some l | none => exact .pure
  | ⟨_, .globalVar name⟩ =>
    (noExprs (quiet (.readGlobal name))).plain (fun _ => rfl) rfl fun _ => Iff.rfl
  | ⟨_, .assign target value⟩ => by
    refine (((expr value).both fun v => assign target v).perm perm_append_comm).plain
      (fun _ => rfl) rfl fun part => ?_
    simp [or_comm]
  | ⟨_, .multiAssign ⟨pre, rest, post⟩ none⟩ => by
    refine ((targets (assignEach pre) (assignRest rest) (assignEach post)).sublist ?_).plain
      (fun _ => rfl) rfl fun part => ?_
    · rw [Expr.partVisits, Targets.spread_none]
      exact sublist_append_left _ _
    · simp
  | ⟨_, .multiAssign ⟨pre, rest, post⟩ (some value)⟩ =>
    multiAssign (assignEach pre) (assignRest rest) (assignEach post) (named rest) (expr value)
      (spread value)
  | ⟨_, .call receiver method arguments block⟩ => by
    have h := (optionalExpr receiver).bind fun receiver => (args arguments).bind fun arguments =>
      (blockOperand block).ending fun block =>
        (Quiet.pure : Quiet (Pure.pure (block.call receiver method arguments)))
    rw [← append_assoc] at h
    refine h.node ?_
    simp
  | ⟨span, .super arguments block⟩ =>
    tested (.requireMethod _ (mem_singleton_self _)) (fun _ _ => .requireMethod _ span)
      (fun _ => (args arguments).bind fun _ => (blockOperand block).ending fun _ => .pure) (by simp)
  | ⟨span, .bareSuper block⟩ => by
    have hargs : Tests (do
        let params ← Lower.requireMethod .superOutsideMethod span
        Lower.replay params span) [span] :=
      (Tests.requireMethod _ (mem_singleton_self _)).bind fun params =>
        .replay params (mem_singleton_self _)
    have hblock : ∀ arguments, Minds (do
        let block ← Lower.blockOperand block
        return block.super arguments) (BlockArg.visits block)
        ⟨True, Parts.blockArg block, BlockArg.callables block⟩ :=
      fun _ => (blockOperand block).ending fun _ => .pure
    have hfollows := Follows.tested hargs fun arguments => (hblock arguments).follows
    rw [bind_assoc] at hfollows
    exact ⟨hfollows, fun c around => (Exact.bareSuper fun arguments =>
      (hblock arguments).exact c around).node (by simp)⟩
  | ⟨span, .yield arguments⟩ =>
    tested (.requireMethod _ (mem_singleton_self _)) (fun _ _ => .requireMethod _ span)
      (fun _ => (args arguments).ending fun _ => .pure) (by simp)
  | ⟨span, .define ⟨_, name⟩ params body⟩ => by
    refine (callable (rootBody_eq fun _ _ => rfl) ⟨fun _ _ => rfl,
      fun _ _ _ => rfl, fun _ => .root rfl rfl, .method params, fun _ _ _ _ => rfl⟩
      (fun _ _ _ => rfl) (binding span params) (statements body)).node ?_
    simp
  | ⟨_, .lambda literal⟩ => by
    refine ((closure literal true).ending fun _ => .pure).node ?_
    simp
  | ⟨_, .classDef name superclass body⟩ => by
    refine ((optionalExpr superclass).bind fun _ =>
      classBody .classBody rfl (fun _ _ => rfl) name (statements body)).node ?_
    simp
  | ⟨_, .moduleDef name body⟩ => by
    refine (classBody .moduleBody rfl (fun _ _ => rfl) name (statements body)).node ?_
    simp
  | ⟨_, .ifElse condition thenBranch elseBranch⟩ => by
    have h := (expr condition).both fun condition => (statements thenBranch).both fun thenBranch =>
      (statements elseBranch).ending fun elseBranch => (Quiet.pure :
        Quiet (Pure.pure (Code.ifElse condition (.join thenBranch) (.join elseBranch))))
    rw [← append_assoc] at h
    refine h.plain (fun _ => rfl) rfl fun part => ?_
    simp
  | ⟨_, .loop condition body bodyFirst negated⟩ =>
    ⟨.node (loop_eq ▸ .loop (expr condition).follows (statements body).follows), fun c around =>
      (Exact.loop (loop_eq) (statements_total body)
        ((expr condition).exact _ _) ((statements body).exact _ _)).node (by simp)⟩
  | ⟨span, .forEach target iterable body⟩ => by
    have hbody : Minds (do
        let item ← Lower.addTemp "for"
        let assignment ← Lower.recover .nil (Lower.assign target (.readLocal item))
        let body ← Lower.statements body
        return Code.join [.writeLocal item (.argument 0 .isNil), assignment, .join body])
        (Target.visits target ++ Expr.visitsEach body)
        (.exprs target.value.scopeChildren ++ .exprs body) :=
      .first (.addTemp "for") fun _ => ((assign target _).recover Code.nil).bind fun _ =>
        (statements body).ending fun _ => .pure
    refine ((expr iterable).bind fun _ => built (k := .block) [] blockBody_eq
      ⟨fun _ _ => rfl, fun _ _ _ => rfl, fun _ => .closure rfl, .block, fun _ _ h _ => h⟩
      (fun c => Meets.forBody (Meets.assign target _) (Meets.statements body c)) hbody.follows
      (fun _ _ _ s hs hr => hbody.exact _ _ s hs (hr rfl)) (fun _ _ _ hk => nomatch hk)).node ?_
    simp
  | ⟨_, .and left right⟩ | ⟨_, .or left right⟩ =>
    ((expr left).both fun _ => (expr right).ending fun _ => .pure).plain (fun _ => rfl) rfl
      fun _ => Iff.rfl
  | ⟨span, .breakWith value⟩ =>
    tested (.breakTarget (mem_singleton_self _)) (fun _ _ => .breakTarget span)
      (fun _ => (optionalExpr value).ending fun _ => .pure) (by simp)
  | ⟨span, .nextWith value⟩ =>
    tested (.requireClosureOrLoop _ (mem_singleton_self _))
      (fun _ _ => .requireClosureOrLoop _ span)
      (fun _ => ending ⟨.inContext (fun _ _ => rfl) (optionalExpr value).follows, fun _ around =>
        .inContext rfl rfl rfl rfl rfl ((optionalExpr value).exact _ around)⟩ fun _ => .pure)
      (by simp)
  | ⟨span, .redo⟩ | ⟨span, .retry⟩ =>
    tested (.requireClosureOrLoop _ (mem_singleton_self _))
      (fun _ _ => .requireClosureOrLoop _ span) (fun _ => .pure) (by simp)
  | ⟨span, .returnWith value⟩ => by
    -- here the test comes last
    have hfollows := (optionalExpr value).follows.bind fun value =>
      Follows.leaf (Tests.returnWith (value.getD .nil) (mem_singleton_self span))
    exact ⟨hfollows.perm perm_append_comm, fun c around =>
      (((optionalExpr value).exact c around).bind fun _ => .returnWith _ span).node (by simp)⟩
  | ⟨_, .sequence body⟩ =>
    ((statements body).ending fun _ => .pure).plain (fun _ => rfl) rfl fun _ => Iff.rfl

theorem optionalExpr : ∀ e : Option (Located Expr),
    Minds (optionalExpr e) (Expr.visitsOption e) (.exprs e.toList)
  | none => noExprs .pure
  | some e => (expr e).ending fun _ => .pure

theorem statements : ∀ body : List (Located Expr),
    Minds (statements body) (Expr.visitsEach body) (.exprs body)
  | [] => noExprs .pure
  | e :: rest => ((expr e).recover Code.nil).both fun _ => (statements rest).ending fun _ => .pure

theorem spread : ∀ e : Located Expr, SpreadMinds e
  | ⟨_, e⟩ => by
    cases e with
    | splat inner =>
      refine ⟨fun s inner' h => ?_, by simp, by simp⟩
      cases h
      exact expr inner
    | array items =>
      refine ⟨by simp, fun s items' h => ?_, fun s items' h => ?_⟩
      · cases h
        exact args items
      · cases h
        exact itemTemps items
    | _ => exact ⟨by simp, by simp, by simp⟩

theorem args : ∀ es : List (Located Expr), Minds (args es) (Expr.visitsEach es) (.exprs es)
  | [] => noExprs .pure
  | e :: rest => args_cons (expr e) (spread e) (args rest)

theorem pairs : ∀ es : List (Located Expr × Located Expr),
    Minds (pairs es) (Expr.visitsPairs es)
      (.exprs (es.flatMap fun (key, value) => [key, value]))
  | [] => noExprs .pure
  | (key, value) :: rest => by
    have h := (expr key).both fun key => (expr value).both fun value =>
      (pairs rest).ending fun rest => (Quiet.pure : Quiet (Pure.pure ((key, value) :: rest)))
    rw [← append_assoc] at h
    exact h

theorem itemTemps : ∀ es : List (Located Expr),
    Minds (itemTemps es) (Expr.visitsEach es) (.exprs es)
  | [] => noExprs .pure
  | e :: rest => (expr e).both fun _ => .first (.addTemp "masgn") fun _ =>
      (itemTemps rest).ending fun _ => .pure

theorem assign : ∀ (target : Located Target) (value : Code),
    Minds (Lower.assign target value) (Target.visits target) (.exprs target.value.scopeChildren)
  | ⟨_, .localVar name⟩, _ =>
    noExprs (quiet ((Quiet.resolveForAssignment name).bind fun _ => .pure))
  | ⟨_, .instanceVar _⟩, _ | ⟨_, .classVar _⟩, _ => noExprs .pure
  | ⟨_, .globalVar name⟩, value => noExprs (quiet (.writeGlobal name value))
  | ⟨_, .index receiver indices⟩, _ =>
    (expr receiver).both fun _ => (args indices).ending fun _ => .pure
  | ⟨_, .attribute receiver _⟩, _ => (expr receiver).ending fun _ => .pure
  | ⟨_, .nested ⟨pre, rest, post⟩⟩, _ =>
    targets (assignEach pre) (assignRest rest) (assignEach post)

theorem assignEach : ∀ (targets : List (Located Target)) (value : Nat → Code),
    Minds (assignEach targets value) (Target.visitsEach targets)
      (.exprs (Target.scopeChildrenEach targets))
  | [], _ => noExprs .pure
  | target :: rest, _ => (assign target _).both fun _ => (assignEach rest _).ending fun _ => .pure

theorem assignRest : ∀ (rest : Option RestTarget) (value : Code),
    Minds (assignRest rest value) (RestTarget.visits rest)
      (.exprs (RestTarget.scopeChildren rest))
  | none, _ | some .anonymous, _ => noExprs .pure
  | some (.named target), value => (assign target value).ending fun _ => .pure

theorem named : ∀ (rest : Option RestTarget) (target : Located Target),
    rest = some (.named target) → ∀ value : Code,
      Minds (assign target value) (Target.visits target) (.exprs target.value.scopeChildren)
  | none, _, h, _ | some .anonymous, _, h, _ => nomatch h
  | some (.named target), _, h, value => by
    cases h
    exact assign target value

theorem blockOperand : ∀ block : Option BlockArg,
    Minds (blockOperand block) (BlockArg.visits block)
      ⟨True, Parts.blockArg block, BlockArg.callables block⟩
  | none => .pure
  | some (.pass value) => (expr value).ending fun _ => .pure
  | some (.literal block) => (closure block false).ending fun _ => .pure

theorem closure : ∀ (literal : Located BlockLiteral) (lambda : Bool),
    Minds (Lower.closure literal lambda)
      (BlockLiteral.visits (bif lambda then .lambda else .block) literal)
      ⟨True, Parts.closure (bif lambda then .lambda else .block) literal,
        [.closure (bif lambda then .lambda else .block) literal]⟩
  | ⟨span, ⟨params, body⟩⟩, lambda => by
    refine (callable (k := bif lambda then .lambda else .block) closure_eq
      ⟨fun _ _ => rfl, fun _ _ _ => rfl,
      fun _ => .closure ?_, ?_, fun _ _ h _ => h.trans ?_⟩ ?_ (binding span params)
      (statements body)).same ?_
    · cases lambda <;> rfl
    · cases lambda
      · exact .block
      · exact .lambda
    · cases lambda <;> rfl
    · cases lambda <;> simp [BodyKind.isClosure]
    · cases lambda <;> simp [Parts.closure, Callable.closure]

theorem binding (span : Span) : ∀ params : Params,
    Minds (binding span params) (params.visits span) (.exprs params.exprs)
  | ⟨pre, optional, rest, post, keywords, keywordRest, block, blockLocals⟩ => by
    refine (prelude ⟨pre, optional, rest, post, keywords, keywordRest, block,
      blockLocals⟩ ((optionalDefaults span _ optional).both fun _ =>
        (keywordDefaults span _ keywords).ending fun _ => .pure) (bindEach pre)
      (bindEach post)).same ⟨?_, ?_, ?_⟩
    · simp
    · intro part
      simp only [Duty.parts_append, Duty.parts_exprs, Params.exprs, Parts.here, map_append,
        mem_append]
      grind
    · simp

theorem optionalDefaults (span : Span) : ∀ (pending : List String)
    (params : List (Located OptionalParam)),
    Minds (optionalDefaults span pending params) (OptionalParam.visits span params)
      (.exprs (params.map (·.value.default)))
  | _, [] => noExprs .pure
  | _, ⟨_, ⟨name, value⟩⟩ :: rest =>
    (defaultValue name _ span value (expr value)).both fun _ =>
      (optionalDefaults span _ rest).ending fun _ => .pure

theorem keywordDefaults (span : Span) : ∀ (pending : List String)
    (params : List (Located KeywordParam)),
    Minds (keywordDefaults span pending params) (KeywordParam.visits span params)
      (.exprs (params.flatMap (·.value.default.toList)))
  | _, [] => noExprs .pure
  | _, ⟨_, ⟨_, none⟩⟩ :: rest => (keywordDefaults span _ rest).ending fun _ => .pure
  | _, ⟨_, ⟨name, some value⟩⟩ :: rest =>
    (defaultValue name _ span value (expr value)).both fun _ =>
      (keywordDefaults span _ rest).ending fun _ => .pure

theorem bindEach : ∀ (patterns : List (Located Pattern)) (value : Nat → Code),
    Minds (Lower.bindEach patterns value) (Pattern.visits patterns).repeated
      (.exprs (patterns.flatMap (·.value.exprs)))
  | [], _ => noExprs .pure
  | ⟨_, .required name⟩ :: rest, _ =>
    .first (.writeOwn name _) fun _ => (bindEach rest _).ending fun _ => .pure
  | ⟨_, .destructure ⟨pre, middle, post⟩⟩ :: rest, _ => by
    rw [Pattern.visits, Visits.repeated_append]
    exact (targets (assignEach pre) (assignRest middle) (assignEach post)).both fun _ =>
      (bindEach rest _).ending fun _ => .pure

end

end Minds

end Lower

/-! ## Programs -/

namespace Program

variable {p : Program} {options : LowerOptions} {u : CodeUnit}

theorem lower_ok_iff : p.lower options = .ok u ↔
    (p.lowering options).mistakes = [] ∧ u = (p.lowering options).unit := by
  unfold lower
  dsimp only
  by_cases hclean : (p.lowering options).mistakes = []
  · rw [if_pos (by rw [hclean]; rfl), Except.ok.injEq]
    exact ⟨fun h => ⟨hclean, h.symm⟩, fun h => h.2.symm⟩
  · rw [if_neg (by rwa [List.isEmpty_iff])]
    exact ⟨(fun h => nomatch h), fun h => absurd h.1 hclean⟩

theorem stands (options : LowerOptions) :
    (context options).Stands [.program] (({} : LoweringState).enter 0 .topLevel) :=
  .enter (c := context options) LoweringState.sound_empty (fun h => nomatch h) .program rfl rfl rfl
    rfl

theorem outcome (p : Program) (options : LowerOptions) : (options.isLenient = true →
      ((p.lowering options).mistakes = [] ↔ (Duty.exprs p.body).Legal [.program])) ∧
    ((p.lowering options).mistakes = [] → (Duty.exprs p.body).Done (p.lowering options).unit 1) := by
  obtain ⟨codes, s, hcodes, heq⟩ := p.lowering_eq options
  have hout := (Minds.statements p.body).exact (context options) [.program] _
    (stands options) fun _ hp => nomatch hp
  rw [hcodes] at hout
  rw [heq]
  refine ⟨hout.2.1, fun hclean k hk => ?_⟩
  obtain ⟨id, body, c, t, t', hid, hbody, hcompiled⟩ := hout.2.2 hclean k hk
  refine ⟨id, body, c, t, t', hid, ?_, hcompiled⟩
  have hne : id ≠ 0 := Nat.ne_of_gt hid
  rcases s.unit.body?_add_ne (b := s.bodyOf 0 mainName .topLevel 0 {} p.span (.join codes)) hne
    with hsame | ⟨hnone, _⟩
  · exact hsame.trans hbody
  · rw [hbody] at hnone
    exact absurd hnone (by simp)

/-- **The callables of an accepted program are compiled.** -/
theorem compiles_of_lower (h : p.lower options = .ok u) (hk : p.HasCallable k) : u.Compiles 1 k :=
    by
  obtain ⟨hclean, rfl⟩ := lower_ok_iff.mp h
  obtain ⟨around, x, ⟨e, he, q, hx, rfl⟩, hk⟩ := hk
  refine (p.outcome options).2 hclean k (Or.inr ⟨([], e), ?_, q, x, hx, hk⟩)
  exact mem_map.mpr ⟨e, he, rfl⟩

/-- **Lowering accepts exactly the programs in which control flow is legally placed**, when neither
variables nor default values are checked. -/
theorem lower_accepts_iff (hlocals : options.strictLocals = false)
    (hforward : options.rejectForwardReferences = false) :
    (∃ u, p.lower options = .ok u) ↔
      ∀ around x, p.Has around x → x.value.legalIn around = true := by
  have hlenient : options.isLenient = true := by simp [LowerOptions.isLenient, hlocals, hforward]
  have haccepted : (∃ u, p.lower options = .ok u) ↔ (p.lowering options).mistakes = [] := by
    simp [lower_ok_iff]
  rw [haccepted, (p.outcome options).1 hlenient]
  constructor
  · rintro ⟨_, hlegal⟩ around x ⟨e, he, q, hx, rfl⟩
    exact hlegal [] e (mem_map.mpr ⟨e, he, rfl⟩) q x hx
  · intro hlegal
    refine ⟨trivial, fun k e he q x hx => ?_⟩
    obtain ⟨e', he', heq⟩ := mem_map.mp he
    cases heq
    exact hlegal _ x ⟨e, he', q, hx, rfl⟩

/-- A class with nothing in its body but the expression. -/
def classOf (e : Located Expr) : Program where
  body := [Build.classDef "C" none [e]]

/-- `return` may stand in a loop of a class, and nowhere else in it: `class C; while nil; return; end;
end` is lowered, and so every node of it is legally placed; `class C; return; end` is not, for its
`return` stands in a class alone. -/
theorem classOf_accepts :
    let options : LowerOptions := { rejectForwardReferences := false, strictLocals := false }
    let leave : Located Expr := .bare (.returnWith none)
    let loop : Located Expr := .bare (.loop Build.nil [leave] false false)
    (∀ around x, (classOf loop).Has around x → x.value.legalIn around = true) ∧
      ¬∃ u, (classOf leave).lower options = .ok u := by
  intro options leave loop
  constructor
  · have haccepted : ∃ u, (classOf loop).lower options = .ok u :=
      ⟨_, lower_of_isEmpty (by decide +kernel)⟩
    exact (lower_accepts_iff rfl rfl).mp haccepted
  · intro haccepted
    have hlegal := (lower_accepts_iff rfl rfl).mp haccepted
    have hwithin : Expr.Within (Build.classDef "C" none [leave]) ([] ++ [.classBody]) leave :=
      .part (mem_singleton_self _) (.self leave)
    have hleave := hlegal _ leave ⟨_, mem_singleton_self _, _, hwithin, rfl⟩
    exact absurd hleave (by decide)

end Program

end BlockLang
