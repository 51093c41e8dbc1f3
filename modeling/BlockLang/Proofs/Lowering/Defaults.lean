import BlockLang.Proofs.Lowering.Layout
import BlockLang.Proofs.Lowering.Binding

/-!
# What default values read

A default value may not read a parameter that is bound after its own. What is checked is the source
of the default value (`Lower.forwardReference?`), and of these parameters its code reads none
(`Lower.keywordDefaults_reads`), unless there is a bare `super` in it: this reads the parameters of
the method without naming them.
-/

namespace BlockLang

open List Lower

/-! ## Any context -/

/-- The policy that excludes nothing. -/
def Context.anything (c : Context) : Policy := ⟨c.options, fun _ => True⟩

variable {c : Context}

theorem Context.clear_anything
    (hreads : ∀ e ∈ es, ∀ x ∈ Expr.inScope e, ∀ name ∈ x.value.readNames c.method, N name) :
    c.Clear c.anything N names es := by
  have hname : ∀ name, c.anything.name name := fun name =>
    ⟨⟨{}, .localVar name⟩, trivial, mem_singleton_self name⟩
  exact ⟨rfl, fun _ _ name _ => hname name, fun name _ => hname name,
    fun _ _ _ _ _ => trivial, hreads⟩

theorem Lower.Builds.of_clean {s s' : LoweringState} (h : Builds ρ N m c E pieces)
    (hrun : m c s = .ok a s') (hclean : s'.mistakes = []) :
    s.mistakes = [] ∧ Emits ρ N c.scope E s (pieces a) s' := by
  have hbuilt := h s
  rw [hrun] at hbuilt
  exact ⟨prefix_nil.mp (hclean ▸ hbuilt.1), (hbuilt.2 hclean).emits⟩

/-! ## One default value -/

/-- A bare `super` in the scope of the expression reads the name. -/
def Expr.Replays (method : Option Params) (e : Located Expr) (name : String) : Prop :=
  ∃ span block params, ⟨span, .bareSuper block⟩ ∈ Expr.inScope e ∧ method = some params ∧
    name ∈ params.replayNames

namespace Lower

variable {c : Context} {s s' : LoweringState} {e : Located Expr} {code : Code} {span : Span}

variable {parameter : String} {pending : List String}

theorem defaultValue_readNames (hreject : c.options.rejectForwardReferences = true)
    (hrun : defaultValue parameter pending span e lowered c s = .ok code s') :
    ∀ x ∈ Expr.inScope e, ∀ name ∈ x.value.readNames c.method,
      name = parameter ∨ name ∉ pending ∨ Expr.Replays c.method e name := by
  cases hself : isRead parameter e.value with
  | true =>
    obtain ⟨span, value⟩ := e
    cases value <;> simp_all [isRead, Expr.inScope, Expr.readNames]
  | false =>
    have hnone : forwardReference? pending e = none := by
      unfold defaultValue at hrun
      rw [hself] at hrun
      obtain ⟨_, _, hcontext, hrun⟩ := ok_of_bind hrun
      cases hcontext
      rw [hreject] at hrun
      cases hforward : forwardReference? pending e with
      | none => rfl
      | some name =>
        rw [hforward] at hrun
        obtain ⟨_, _, hfail, _⟩ := ok_of_bind hrun
        cases hfail
    intro x hx name hname
    have hx' := List.findSome?_eq_none_iff.mp hnone x hx
    obtain ⟨span, value⟩ := x
    cases value with
    | localVar n | bareName n =>
      obtain rfl := mem_singleton.mp hname
      exact Or.inr (Or.inl (by simpa using hx'))
    | bareSuper block =>
      cases hmethod : c.method with
      | none => simp [Expr.readNames, hmethod] at hname
      | some params =>
        rw [hmethod] at hname
        exact Or.inr (Or.inr ⟨span, block, params, hx, rfl, hname⟩)
    | _ => simp [Expr.readNames] at hname

/-- **The code of a default value reads no pending parameter**, a bare `super` in it apart. -/
theorem defaultValue_reads (hreject : c.options.rejectForwardReferences = true)
    (hrun : defaultValue parameter pending span e (expr e) c s = .ok code s')
    (hclean : s'.mistakes = []) :
    s.mistakes = [] ∧ ∀ l, .readLocal l ∈ code.preorder →
      MayRead (fun name => name = parameter ∨ name ∉ pending ∨ Expr.Replays c.method e name) l.name := by
  have hnames := defaultValue_readNames hreject hrun
  have hclear : c.Clear c.anything
      (fun name => name = parameter ∨ name ∉ pending ∨ Expr.Replays c.method e name) [] [e] :=
    Context.clear_anything (by simpa using hnames)
  have hbuilds := Builds.defaultValue pending span e (mem_singleton_self (Supply.own parameter))
    (hnames e (by rw [Expr.inScope_eq]; exact mem_cons_self)) (Builds.expr e hclear)
  obtain ⟨hbefore, hemits⟩ := hbuilds.of_clean hrun hclean
  have hanswers : ∀ l, Answered c.anything c.scope [parameter] s s' l → True := fun _ _ => trivial
  exact ⟨hbefore, fun l hl => hemits.uses (fun _ _ => id) (by simp) hanswers (by simp [Supply.Uses])
    (.code code) mem_cons_self _ hl⟩

/-! ## The default values of a list of parameters -/

theorem optionalDefaults_eq (span : Span) : ∀ (params : List (Located OptionalParam))
    (pending : List String), optionalDefaults span pending params =
      keywordDefaults span pending
        (params.map fun p => ⟨p.span, ⟨p.value.name, some p.value.default⟩⟩)
  | [], _ => rfl
  | ⟨_, ⟨name, value⟩⟩ :: rest, pending => by
    rw [optionalDefaults, optionalDefaults_eq span rest]
    rfl

theorem mem_pendingAfter (h : name ∈ pending) (hne : name ≠ parameter) :
    name ∈ pendingAfter pending [parameter] := by
  simp [pendingAfter, h, hne]

/-- **Of the pending parameters, default values read only their own and the ones before it.** -/
theorem keywordDefaults_reads (hreject : c.options.rejectForwardReferences = true) :
    ∀ {params : List (Located KeywordParam)} {pending : List String} {codes : List Code}
      {s s' : LoweringState}, keywordDefaults span pending params c s = .ok codes s' →
      s'.mistakes = [] → s.mistakes = [] ∧
      ∀ i q code l, params[i]? = some q → codes[i]? = some code → .readLocal l ∈ code.preorder →
        l.name ∈ pending → MayRead (fun name => name ∈ (params.map (·.value.name)).take (i + 1) ∨
          ∃ e ∈ q.value.default, Expr.Replays c.method e name) l.name
  | [], _, _, _, _, hrun, hclean => by
    cases hrun
    exact ⟨hclean, by simp⟩
  | ⟨_, ⟨name, none⟩⟩ :: rest, pending, codes, s, s', hrun, hclean => by
    obtain ⟨more, t, hmore, hrun⟩ := ok_of_bind hrun
    cases hrun
    obtain ⟨hbefore, hreads⟩ := keywordDefaults_reads hreject hmore hclean
    refine ⟨hbefore, fun i q code l hq hcode hl hpending => ?_⟩
    cases i with
    | zero =>
      cases hcode
      exact nomatch mem_singleton.mp hl
    | succ i =>
      by_cases hname : l.name = name
      · exact Or.inr (Or.inr (Or.inl (by simp [hname])))
      · exact (hreads i q code l hq hcode hl (mem_pendingAfter hpending hname)).imp id
          (.imp id (.imp (mem_cons_of_mem _) id))
  | ⟨_, ⟨name, some value⟩⟩ :: rest, pending, codes, s, s', hrun, hclean => by
    obtain ⟨first, t, hfirst, hrun⟩ := ok_of_bind hrun
    obtain ⟨more, t', hmore, hrun⟩ := ok_of_bind hrun
    cases hrun
    obtain ⟨hbetween, hreads⟩ := keywordDefaults_reads hreject hmore hclean
    obtain ⟨hbefore, hfirst⟩ := defaultValue_reads hreject hfirst hbetween
    refine ⟨hbefore, fun i q code l hq hcode hl hpending => ?_⟩
    by_cases hname : l.name = name
    · exact Or.inr (Or.inr (Or.inl (by simp [hname])))
    have hpending := mem_pendingAfter hpending hname
    cases i with
    | zero =>
      cases hq
      cases hcode
      rcases hfirst l hl with h | h | h | h | h
      · exact Or.inl h
      · exact Or.inr (Or.inl h)
      · exact absurd h hname
      · exact absurd hpending h
      · exact Or.inr (Or.inr (Or.inr ⟨value, rfl, h⟩))
    | succ i =>
      exact (hreads i q code l hq hcode hl hpending).imp id (.imp id (.imp (mem_cons_of_mem _) id))

/-! ## Whole callables -/

theorem clean_of_prelude
    (hrun : prelude params (pure defaults) (bindEach params.pre)
      (bindEach params.post) c s = .ok codes s')
    (hclean : s'.mistakes = []) : s.mistakes = [] := by
  have hbind : ∀ (patterns : List (Located Pattern)) (E : List Supply),
      (∀ name ∈ Params.patternNames patterns, .own name ∈ E) → ∀ v E', (∀ x ∈ E, x ∈ E') →
      Builds.Ready E' v →
      Builds c.anything (fun _ => True) (bindEach patterns v) c E' Builds.many :=
    fun patterns E hnames v E' hE => Builds.bindEach patterns
      (Context.clear_anything fun _ _ _ _ _ _ => trivial) fun name hname => hE _ (hnames name hname)
  have hbuilds : Builds c.anything (fun _ => True) (prelude params (pure defaults)
      (bindEach params.pre) (bindEach params.post)) c
      (Builds.many (Builds.defaultCodes defaults) ++ params.declaredNames.map .own) Builds.many := by
    refine Builds.prelude (fun name hname => ?_) (.pure (.of_subset fun x hx => ?_))
      (hbind _ _ fun name hname => ?_) (hbind _ _ fun name hname => ?_)
    · simp [hname]
    · exact mem_append_left _ hx
    · simp [Params.mem_declaredNames_iff, hname]
    · simp [Params.mem_declaredNames_iff, hname]
  exact (hbuilds.of_clean hrun hclean).1

theorem binding_defaults (hrun : binding span params c s = .ok codes s')
    (hclean : s'.mistakes = []) :
    ∃ optional keywords t t',
      optionalDefaults span params.pendingOptional params.optional c s = .ok optional t ∧
      keywordDefaults span params.pendingKeywords params.keywords c t = .ok keywords t' ∧
      t'.mistakes = [] := by
  obtain ⟨pre, opt, rest, post, kws, keywordRest, block, blockLocals⟩ := params
  unfold binding prelude at hrun
  obtain ⟨_, _, hread, hrun⟩ := ok_of_bind hrun
  cases hread
  obtain ⟨defaults, _, hdefaults, hrun⟩ := ok_of_bind hrun
  obtain ⟨optional, t, hoptional, hdefaults⟩ := ok_of_bind hdefaults
  obtain ⟨keywords, t', hkeywords, hdefaults⟩ := ok_of_bind hdefaults
  cases hdefaults
  refine ⟨optional, keywords, t, t', hoptional, hkeywords, ?_⟩
  -- what comes after the default values is a prelude with default values that are there already
  have hrest : prelude ⟨pre, opt, rest, post, kws, keywordRest, block, blockLocals⟩
      (pure { optional, keywords }) (bindEach pre) (bindEach post) c t' = .ok codes s' :=
    hrun
  exact clean_of_prelude hrest hclean

end Lower

/-- The codes that the default values of a callable got when its body was made: of the optional
parameters and of the keywords. -/
def Callable.HasDefaults (k : Callable) (c : Context) (body : Body) (optional keywords : List Code) :
    Prop :=
  ∃ s s' s₁ t t', k.Compilation c s s' body ∧
    Lower.declareAll k.params.declaredNames c s = .ok () s₁ ∧
    Lower.optionalDefaults k.span k.params.pendingOptional k.params.optional c s₁ = .ok optional t ∧
    Lower.keywordDefaults k.span k.params.pendingKeywords k.params.keywords c t = .ok keywords t' ∧
    t'.mistakes = []

theorem Callable.Compilation.hasDefaults {k : Callable} {s s' : LoweringState} {body : Body}
    (h : k.Compilation c s s' body) (hclean : s'.mistakes = []) :
    ∃ optional keywords, k.HasDefaults c body optional keywords := by
  obtain ⟨s₁, s₂, binding, _, hdeclare, hbinding, _, _, _, _, _, hsame⟩ := h.parts
  obtain ⟨optional, keywords, t, t', hdefaults⟩ :=
    binding_defaults hbinding (hsame.symm.trans hclean)
  exact ⟨optional, keywords, s, s', s₁, t, t', h, hdeclare, hdefaults⟩

namespace Params

/-- The names that are bound up to an optional parameter, with its own. -/
def boundToOptional (p : Params) (i : Nat) : List String :=
  patternNames p.pre ++ (p.optional.map (·.value.name)).take (i + 1)

/-- The names that are bound up to a keyword, with its own. -/
def boundToKeyword (p : Params) (i : Nat) : List String :=
  patternNames p.pre ++ (p.optional.map (·.value.name) ++ p.rest.toList.map (·.value.slotName) ++
    patternNames p.post) ++ (p.keywords.map (·.value.name)).take (i + 1)

theorem mem_pendingOptional {p : Params} (h : name ∈ p.boundNames)
    (hpre : name ∉ patternNames p.pre) : name ∈ p.pendingOptional := by
  simp [pendingOptional, pendingAfter, h, hpre]

end Params

namespace Callable.HasDefaults

variable {k : Callable} {c : Context} {body : Body} {optional keywords : List Code}

theorem length_eq (h : k.HasDefaults c body optional keywords) :
    optional.length = k.params.optional.length ∧ keywords.length = k.params.keywords.length := by
  obtain ⟨_, _, _, _, _, _, _, hoptional, hkeywords, _⟩ := h
  obtain ⟨_, hlength, _⟩ := (Meets.optionalDefaults k.span _ k.params.optional c).holds hoptional
  obtain ⟨_, hlength', _⟩ := (Meets.keywordDefaults k.span _ k.params.keywords c).holds hkeywords
  exact ⟨hlength.symm, hlength'.symm⟩

variable {i : Nat} {code : Code} {l : Local} (h : k.HasDefaults c body optional keywords)
  (hreject : c.options.rejectForwardReferences = true)

include h hreject

theorem keyword_reads (hq : k.params.keywords[i]? = some q) (hcode : keywords[i]? = some code)
    (hl : .readLocal l ∈ code.preorder) (hbound : l.name ∈ k.params.boundNames) :
    MayRead (fun name => name ∈ k.params.boundToKeyword i ∨
      ∃ e ∈ q.value.default, Expr.Replays c.method e name) l.name := by
  obtain ⟨_, _, _, _, _, _, _, _, hkeywords, hclean⟩ := h
  have hreads := (keywordDefaults_reads hreject hkeywords hclean).2 i q code l hq hcode hl
  by_cases hbefore : l.name ∈ Params.patternNames k.params.pre ++
      (k.params.optional.map (·.value.name) ++ k.params.rest.toList.map (·.value.slotName) ++
        Params.patternNames k.params.post)
  · exact Or.inr (Or.inr (Or.inl (mem_append_left _ hbefore)))
  · rw [mem_append, not_or] at hbefore
    have hpending : l.name ∈ k.params.pendingKeywords :=
      mem_filter.mpr ⟨Params.mem_pendingOptional hbound hbefore.1, by simpa using hbefore.2⟩
    exact (hreads hpending).imp id (.imp id (.imp (mem_append_right _) id))

theorem optional_reads (hq : k.params.optional[i]? = some q) (hcode : optional[i]? = some code)
    (hl : .readLocal l ∈ code.preorder) (hbound : l.name ∈ k.params.boundNames) :
    MayRead (fun name => name ∈ k.params.boundToOptional i ∨
      Expr.Replays c.method q.value.default name) l.name := by
  obtain ⟨_, _, _, _, _, _, _, hoptional, hkeywords, hclean⟩ := h
  have hclean := (keywordDefaults_reads hreject hkeywords hclean).1
  rw [optionalDefaults_eq] at hoptional
  have hreads := (keywordDefaults_reads hreject hoptional hclean).2 i _ code l
    (by rw [List.getElem?_map, hq]; rfl) hcode hl
  by_cases hbefore : l.name ∈ Params.patternNames k.params.pre
  · exact Or.inr (Or.inr (Or.inl (mem_append_left _ hbefore)))
  · refine (hreads (Params.mem_pendingOptional hbound hbefore)).imp id (.imp id ?_)
    rintro (hname | ⟨e, he, hreplays⟩)
    · rw [map_map] at hname
      exact Or.inl (mem_append_right _ hname)
    · cases he
      exact Or.inr hreplays

end Callable.HasDefaults

namespace Program

/-- **Default values read no parameter that is bound later**, if forward references are rejected:
every body of a callable has the codes of its default values, and of the parameters each of them
reads only its own and those that are bound before it. A bare `super` in the default value reads
whatever the method passes on. -/
theorem lower_defaultReads {p : Program} {options : LowerOptions} {u : CodeUnit}
    (h : p.lower options = .ok u) (hreject : options.rejectForwardReferences = true) {b : BodyId}
    {body : Body} (hb : u.body? b = some body) :
    ((∃ k c optional keywords, p.HasCallable k ∧ c.options = options ∧
        k.HasDefaults c body optional keywords) ∨
      body.StemsFrom p [] ∧ body.kind.isStrict = false) ∧
    ∀ (k : Callable) (c : Context) (optional keywords : List Code), c.options = options →
      k.HasDefaults c body optional keywords →
      (optional.length = k.params.optional.length ∧ keywords.length = k.params.keywords.length) ∧
      (∀ (i : Nat) q code l, k.params.optional[i]? = some q → optional[i]? = some code →
        .readLocal l ∈ code.preorder → l.name ∈ k.params.boundNames →
        MayRead (fun name => name ∈ k.params.boundToOptional i ∨
          Expr.Replays c.method q.value.default name) l.name) ∧
      ∀ (i : Nat) q code l, k.params.keywords[i]? = some q → keywords[i]? = some code →
        .readLocal l ∈ code.preorder → l.name ∈ k.params.boundNames →
        MayRead (fun name => name ∈ k.params.boundToKeyword i ∨
          ∃ e ∈ q.value.default, Expr.Replays c.method e name) l.name := by
  refine ⟨?_, fun k c optional keywords hoptions hdefaults => ?_⟩
  · obtain ⟨outer, t, t', names, horigin⟩ := made_of_lower h hb
    have hstems := horigin.stemsFrom
    rcases horigin.source with ⟨k, c, ⟨x, ⟨around, hx⟩, hk⟩, hoptions, hcompiled, _⟩ |
      ⟨_, _, _, _, hkind, rfl⟩ | ⟨hkind, rfl⟩
    · obtain ⟨optional, keywords, hdefaults⟩ := hcompiled.hasDefaults horigin.clean
      exact Or.inl ⟨k, c, optional, keywords, ⟨around, x, hx, hk⟩, hoptions, hdefaults⟩
    · exact Or.inr ⟨hstems, by rw [hkind]; rfl⟩
    · refine Or.inr ⟨hstems, ?_⟩
      simp only [mem_cons, not_mem_nil, or_false] at hkind
      rcases hkind with hkind | hkind | hkind <;> rw [hkind] <;> rfl
  · have hreject : c.options.rejectForwardReferences = true := hoptions ▸ hreject
    exact ⟨hdefaults.length_eq, fun i q code l => hdefaults.optional_reads hreject,
      fun i q code l => hdefaults.keyword_reads hreject⟩

/-- `def m(a, b = a, c: b) c end`. -/
def readsEarlier : Program where
  body := [Build.define "m" (((Params.empty.require "a").withOptional "b" (Build.localVar "a")).withKeyword
    "c" (some (Build.localVar "b"))) [Build.localVar "c"]]

/-- The default values of `readsEarlier` are accepted, and what they read is bound before. -/
theorem readsEarlier_defaultReads :
    ∃ u body k c optional keywords, readsEarlier.lower {} = .ok u ∧ u.body? 1 = some body ∧
      readsEarlier.HasCallable k ∧ k.HasDefaults c body optional keywords ∧
      optional.length = k.params.optional.length ∧
      ∀ (i : Nat) q code l, k.params.optional[i]? = some q → optional[i]? = some code →
        .readLocal l ∈ code.preorder → l.name ∈ k.params.boundNames →
        MayRead (fun name => name ∈ k.params.boundToOptional i ∨
          Expr.Replays c.method q.value.default name) l.name := by
  obtain ⟨hlower, body, hb, hstrict⟩ := readsEarlier.lower_body 1 (·.kind.isStrict)
    (by decide +kernel)
  obtain ⟨⟨k, c, optional, keywords, hk, hoptions, hdefaults⟩ | ⟨_, hlax⟩, hreads⟩ :=
    lower_defaultReads hlower rfl hb
  · obtain ⟨⟨hlength, _⟩, hoptional, _⟩ := hreads k c optional keywords hoptions hdefaults
    exact ⟨_, body, k, c, optional, keywords, hlower, hb, hk, hdefaults, hlength, hoptional⟩
  · rw [hstrict] at hlax
    exact nomatch hlax

/-- `def m(a = super, b = 2) a end`. -/
def superInDefault : Program where
  body := [Build.define "m" ((Params.empty.withOptional "a" Build.bareSuper).withOptional "b"
    (Build.integer 2)) [Build.localVar "a"]]

/-- **A bare `super` is no forward reference**: the default value of `a` reads `b`, which is bound
after it. -/
theorem superInDefault_readsLater :
    ∃ u body minimum takesKeywords required default, superInDefault.lower {} = .ok u ∧
      u.body? 1 = some body ∧ body.slots = ["a", "b"] ∧
      .optionalArgument 0 minimum takesKeywords required default ∈ body.code.preorder ∧
      .readLocal { level := 0, slot := 1, name := "b" } ∈ default.preorder := by
  obtain ⟨hlower, body, hb, hfound⟩ := superInDefault.lower_body 1 (fun body =>
    body.slots == ["a", "b"] && body.code.preorder.any fun
      | .optionalArgument 0 _ _ _ default =>
        default.accesses false { level := 0, slot := 1, name := "b" }
      | _ => false) (by decide +kernel)
  obtain ⟨hslots, hparts⟩ := Bool.and_eq_true_iff.mp hfound
  obtain ⟨part, hpart, hreads⟩ := any_eq_true.mp hparts
  split at hreads
  · exact ⟨_, body, _, _, _, _, hlower, hb, eq_of_beq hslots, hpart, Code.reads_of_accesses hreads⟩
  · exact nomatch hreads

end Program

end BlockLang
