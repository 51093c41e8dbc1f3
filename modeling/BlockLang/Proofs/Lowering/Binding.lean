import BlockLang.Proofs.Lowering.Exact

/-!
# The binding code of plain parameters

A parameter that is just a name is bound by one write of its variable. The writes are listed here as
pairs of a name and the code of its value (`Params.positional`, `Params.named`), in the order of
binding and without a word about lowering; the theorem is that **the code of a method or lambda
begins with the check of the arguments and these writes** (`Callable.Compilation.items_eq`), and the
code of a block with the writes alone, after a look at what could be taken apart
(`Callable.Compilation.items_block`).

Binding asks for variables that were declared before, so it changes nothing in the scopes
(`Lower.ownLocal_eq`): what a part of it answers can be written down. Only the default values are
lowered on the way, and they are the parameters of the list.
-/

namespace BlockLang

variable {body : Body} {c : Context} {k : Callable} {s s' : LoweringState}

open List Code Lower Params

/-- The variable of a name among the slots of a body. -/
def Local.ofSlots (slots : List String) (name : String) : Local :=
  { level := 0, slot := slots.idxOf name, name }

/-- Writes of names, each with the code of its value. -/
def Code.writes (slots : List String) (bindings : List (String × Code)) : List Code :=
  bindings.map fun b => .writeLocal (.ofSlots slots b.1) b.2

namespace Params

variable (p : Params)

/-- No parameter takes its argument apart. -/
def isPlain : Bool := p.pre.all (·.value.isPlain) && p.post.all (·.value.isPlain)

/-- The parameters that take positional arguments. -/
def positionalNames : List String :=
  patternNames p.pre ++ p.optional.map (·.value.name) ++ p.rest.toList.map (·.value.slotName) ++
    patternNames p.post

/-- The parameters that do not. -/
def otherNames : List String :=
  p.keywords.map (·.value.name) ++ p.keywordRest.toList.map (·.value.keywordSlotName) ++
    p.block.toList.map (·.value) ++ p.blockLocals.map (·.value)

def names : List String := p.positionalNames ++ p.otherNames

/-- The positional parameters and where each gets its value. -/
def positional (source : ArgumentSource) (defaults : List Code) : List (String × Code) :=
  (patternNames p.pre).mapIdx (fun i name => (name, source.atPosition i)) ++
    (p.optional.zip defaults).mapIdx (fun i (o, default) =>
      (o.value.name, source.optional p.arity (p.arity.pre + i) default)) ++
    p.rest.toList.map (fun r => (r.value.slotName, source.rest p.arity)) ++
    (patternNames p.post).mapIdx (fun k name => (name, source.post p.arity k))

/-- The other parameters and where each gets its value. -/
def named (defaults : List Code) : List (String × Code) :=
  (p.keywords.zip defaults).map (fun (k, default) =>
      (k.value.name, .keywordArgument k.value.name p.arity.required default)) ++
    p.keywordRest.toList.map (fun r =>
      (r.value.keywordSlotName, .keywordRestArgument p.arity.required p.arity.keywords)) ++
    p.block.toList.map (fun b => (b.value, .blockArgument))

def locals : List (String × Code) := p.blockLocals.map fun b => (b.value, .nil)

/-- What is bound after the first of the optional parameters. -/
def pendingOptional : List String := Lower.pendingAfter p.boundNames (patternNames p.pre)

/-- What is bound after the first of the keywords. -/
def pendingKeywords : List String :=
  Lower.pendingAfter p.pendingOptional
    (p.optional.map (·.value.name) ++ p.rest.toList.map (·.value.slotName) ++ patternNames p.post)

theorem mem_declaredNames {p : Params} (h : name ∈ p.names) : name ∈ p.declaredNames := by
  have hoptional : ∀ o ∈ p.optional, o.value.name ∈ p.optional.flatMap
      fun o => o.value.name :: Expr.declaredNames o.value.default :=
    fun o ho => mem_flatMap.mpr ⟨o, ho, mem_cons_self⟩
  have hkeywords : ∀ k ∈ p.keywords, k.value.name ∈ p.keywords.flatMap
      fun k => k.value.name :: k.value.default.toList.flatMap Expr.declaredNames :=
    fun k hk => mem_flatMap.mpr ⟨k, hk, mem_cons_self⟩
  unfold names positionalNames otherNames at h
  unfold declaredNames
  rw [mem_addNames]
  simp only [mem_append, mem_map] at h ⊢
  rcases h with (((h | ⟨o, ho, rfl⟩) | h) | h) | (((⟨k, hk, rfl⟩ | h) | h) | h)
  · simp only [h, true_or, or_true]
  · simp only [hoptional o ho, true_or, or_true]
  · simp only [h, true_or, or_true]
  · simp only [h, true_or, or_true]
  · simp only [hkeywords k hk, true_or, or_true]
  · simp only [h, true_or, or_true]
  · simp only [h, true_or, or_true]
  · simp only [h, or_true]

theorem map_fst_mapIdx {α : Type} (as : List α) (name : α → String) (value : Nat → α → Code) :
    (as.mapIdx fun i a => (name a, value i a)).map Prod.fst = as.map name := by
  refine ext_getElem? fun i => ?_
  simp only [List.getElem?_map, List.getElem?_mapIdx, Option.map_map]
  rfl

theorem map_zip_fst {α β : Type} (name : α → String) {as : List α} {bs : List β}
    (h : as.length = bs.length) : (as.zip bs).map (fun x => name x.1) = as.map name := by
  have hfst := map_fst_zip (Nat.le_of_eq h)
  calc (as.zip bs).map (fun x => name x.1) = ((as.zip bs).map Prod.fst).map name := map_map.symm
    _ = as.map name := by rw [hfst]

theorem map_fst_positional {p : Params} (source : ArgumentSource) {defaults : List Code}
    (h : p.optional.length = defaults.length) :
    (p.positional source defaults).map Prod.fst = p.positionalNames := by
  have hpatterns : ∀ (names : List String) (value : Nat → Code),
      (names.mapIdx fun i name => (name, value i)).map Prod.fst = names := fun names value =>
    (map_fst_mapIdx names id fun i _ => value i).trans (map_id names)
  have hoptional : ((p.optional.zip defaults).mapIdx fun i x =>
      (x.1.value.name, source.optional p.arity (p.arity.pre + i) x.2)).map Prod.fst =
        p.optional.map (·.value.name) :=
    (map_fst_mapIdx _ (fun x : Located OptionalParam × Code => x.1.value.name) _).trans
      (map_zip_fst (fun o => o.value.name) h)
  unfold positional positionalNames
  simp only [map_append, hpatterns, hoptional, map_map]
  rfl

theorem map_fst_bindings {p : Params} {source : ArgumentSource} {optional keywords : List Code}
    (h : p.optional.length = optional.length) (h' : p.keywords.length = keywords.length) :
    (p.positional source optional ++ p.named keywords ++ p.locals).map Prod.fst = p.names := by
  have hkeywords := map_zip_fst (fun k : Located KeywordParam => k.value.name) h'
  unfold named locals names otherNames
  simp only [map_append, map_fst_positional source h, map_map, append_assoc, ← hkeywords]
  rfl

end Params

/-! ## Sequences that begin with writes -/

namespace Code

/-- What is solid stays at the front when more is joined to it. -/
theorem items_join (first : List Code) (last : Code) (h : ∀ x ∈ first, x.Solid) :
    ∃ rest, (join (first ++ [last])).items = first ++ rest := by
  cases first with
  | nil => exact ⟨_, rfl⟩
  | cons c first =>
    refine ⟨elideResults last.items, ?_⟩
    unfold join
    rw [flatMap_append, flatMap_items h, elideResults_append _ h, flatMap_singleton]
    cases hrest : first ++ elideResults last.items with
    | nil =>
      rw [cons_append, hrest]
      exact (h c mem_cons_self).1
    | cons next rest =>
      rw [cons_append, hrest]
      rfl

theorem writes_append (slots : List String) (first rest : List (String × Code)) :
    writes slots (first ++ rest) = writes slots first ++ writes slots rest := map_append

theorem length_writes (slots : List String) (bindings : List (String × Code)) :
    (writes slots bindings).length = (bindings.map Prod.fst).length := by
  rw [writes, length_map, length_map]

theorem solid_writes : ∀ c ∈ writes slots bindings, c.Solid := by
  intro c hc
  obtain ⟨b, _, rfl⟩ := mem_map.mp hc
  exact ⟨rfl, rfl⟩

end Code

/-! ## Binding in a scope that has the names -/

/-- The slots of the context's scope. -/
def Context.slots (c : Context) (s : LoweringState) : List String :=
  ((s.scopes.get? c.scope).getD default).slots

/-- The names are declared in the context's scope. -/
def Context.Declares (c : Context) (s : LoweringState) (names : List String) : Prop :=
  (s.scopes.get? c.scope).isSome = true ∧ ∀ name ∈ names, name ∈ c.slots s

namespace LoweringState.Advances

variable {live : List ScopeId} {c : Context} {s s' : LoweringState}

theorem slots (h : s.Advances live s') (hs : s.Sound) (hk : c.scope < s.nextBody) :
    c.slots s <+: c.slots s' := by
  obtain ⟨own, hget⟩ := Scopes.exists_get? (hs.size ▸ hk)
  obtain ⟨own', hget', hextends, _⟩ := h.grows _ _ hget
  unfold Context.slots
  rw [hget, hget']
  exact hextends.slots

theorem declares {names : List String} (h : s.Advances live s') (hs : s.Sound)
    (hk : c.scope < s.nextBody) (hd : c.Declares s names) : c.Declares s' names := by
  obtain ⟨own, hget⟩ := Scopes.exists_get? (hs.size ▸ hk)
  obtain ⟨own', hget', _⟩ := h.grows _ _ hget
  refine ⟨?_, fun name hname => (h.slots hs hk).subset (hd.2 name hname)⟩
  rw [hget']
  rfl

end LoweringState.Advances

theorem Local.ofSlots_of_prefix {name : String} (h : slots <+: slots') (hname : name ∈ slots) :
    Local.ofSlots slots name = .ofSlots slots' name := by
  obtain ⟨more, rfl⟩ := h
  rw [Local.ofSlots, Local.ofSlots, idxOf_append, if_pos hname]

theorem Code.writes_of_prefix (h : slots <+: slots') (hnames : ∀ b ∈ bindings, b.1 ∈ slots) :
    writes slots bindings = writes slots' bindings :=
  map_congr_left fun b hb => by rw [Local.ofSlots_of_prefix h (hnames b hb)]

theorem Context.Declares.slot? {names : List String} (h : c.Declares s names)
    (hname : name ∈ names) :
    ∃ own, s.scopes.get? c.scope = some own ∧ c.slots s = own.slots ∧
      own.slot? name = some (own.slots.idxOf name) := by
  obtain ⟨own, hget⟩ := Option.isSome_iff_exists.mp h.1
  have hslots : c.slots s = own.slots := by
    rw [Context.slots, hget]
    rfl
  have hmem : name ∈ own.slots := hslots ▸ h.2 name hname
  exact ⟨own, hget, hslots,
    List.findIdx?_eq_some_iff_findIdx_eq.mpr ⟨idxOf_lt_length_iff.mpr hmem, rfl⟩⟩

namespace Lower

variable {α : Type} {m : Lower α} {s' : LoweringState} {P : List Mention → α → Prop}

variable {c : Context} {s : LoweringState} {names : List String}

theorem mapM_eq {α β : Type} {m : α → Lower β} {result : α → β} : ∀ {as : List α},
    (∀ a ∈ as, m a c s = .ok (result a) s) → as.mapM m c s = .ok (as.map result) s
  | [], _ => by
    rw [mapM_nil]
    rfl
  | a :: as, h => by
    have ih := mapM_eq fun b hb => h b (mem_cons_of_mem _ hb)
    rw [mapM_cons, run_bind (h a mem_cons_self), run_bind ih]
    rfl

section

variable (h : c.Declares s names)
include h

theorem ownLocal_eq (hname : name ∈ names) :
    ownLocal name c s = .ok (.ofSlots (c.slots s) name) s := by
  obtain ⟨own, hget, hslots, hslot⟩ := h.slot? hname
  have hdeclare : s.scopes.declare c.scope name = (own.slots.idxOf name, s.scopes) := by
    unfold Scopes.declare
    simp only [hget, hslot]
  show EStateM.Result.ok ({ level := 0, slot := (s.scopes.declare c.scope name).1, name } : Local)
    { s with scopes := (s.scopes.declare c.scope name).2 } = _
  rw [hdeclare, Local.ofSlots, hslots]

theorem writeOwn_eq (hname : name ∈ names) :
    writeOwn name value c s = .ok (.writeLocal (.ofSlots (c.slots s) name) value) s :=
  run_bind (ownLocal_eq h hname)

theorem mapM_writeOwn_eq (name : α → String) (value : α → Code)
    {as : List α} (hnames : ∀ a ∈ as, name a ∈ names) :
    (as.mapM fun a => writeOwn (name a) (value a)) c s =
      .ok (writes (c.slots s) (as.map fun a => (name a, value a))) s := by
  rw [mapM_eq fun a ha => writeOwn_eq h (hnames a ha), writes, map_map]
  rfl

theorem bindEach_eq : ∀ (patterns : List (Located Pattern))
    (value : Nat → Code), patterns.all (·.value.isPlain) = true →
    (∀ name ∈ patternNames patterns, name ∈ names) →
    bindEach patterns value c s = .ok (writes (c.slots s)
      ((patternNames patterns).mapIdx fun i name => (name, value i))) s
  | [], _, _, _ => rfl
  | ⟨_, .destructure _⟩ :: _, _, hplain, _ => by simp [Pattern.isPlain] at hplain
  | ⟨_, .required name⟩ :: rest, value, hplain, hnames => by
    obtain ⟨_, hplain⟩ := Bool.and_eq_true_iff.mp hplain
    have ih := bindEach_eq rest (fun i => value (i + 1)) hplain
      fun other hother => hnames other (mem_cons_of_mem _ hother)
    rw [bindEach]
    rw [run_bind (writeOwn_eq h (hnames name mem_cons_self)), run_bind ih]
    show _ = EStateM.Result.ok (writes (c.slots s)
      ((name :: patternNames rest).mapIdx fun i name => (name, value i))) s
    rw [mapIdx_cons]
    rfl

theorem bindOptional_eq (source : ArgumentSource) (arity : Arity) :
    ∀ (params : List (Located OptionalParam)) (defaults : List Code) (position : Nat),
    (∀ o ∈ params, o.value.name ∈ names) →
    bindOptional source arity position params defaults c s = .ok (writes (c.slots s)
      ((params.zip defaults).mapIdx fun i (o, default) =>
        (o.value.name, source.optional arity (position + i) default))) s
  | [], _, _, _ => rfl
  | _ :: _, [], _, _ => rfl
  | o :: params, default :: defaults, position, hnames => by
    have ih := bindOptional_eq source arity params defaults (position + 1)
      fun other hother => hnames other (mem_cons_of_mem _ hother)
    unfold bindOptional
    rw [run_bind (writeOwn_eq h (hnames o mem_cons_self)), run_bind ih, zip_cons_cons, mapIdx_cons]
    simp only [Nat.add_assoc, Nat.add_comm 1]
    rfl

theorem bindKeywords_eq (arity : Arity) :
    ∀ (params : List (Located KeywordParam)) (defaults : List Code),
    (∀ k ∈ params, k.value.name ∈ names) →
    bindKeywords arity params defaults c s = .ok (writes (c.slots s)
      ((params.zip defaults).map fun (k, default) =>
        (k.value.name, .keywordArgument k.value.name arity.required default))) s
  | [], _, _ => rfl
  | _ :: _, [], _ => rfl
  | k :: params, default :: defaults, hnames => by
    have ih := bindKeywords_eq arity params defaults
      fun other hother => hnames other (mem_cons_of_mem _ hother)
    unfold bindKeywords
    rw [run_bind (writeOwn_eq h (hnames k mem_cons_self)), run_bind ih]
    rfl

end

theorem bindParameters_eq {params : Params} (h : c.Declares s params.names)
    (hplain : params.isPlain = true) (defaults : Defaults) (source : ArgumentSource) :
    bindParameters params defaults source (bindEach params.pre)
        (bindEach params.post) c s =
      .ok (writes (c.slots s) (params.positional source defaults.optional ++
        params.named defaults.keywords)) s := by
  obtain ⟨hpre, hpost⟩ := Bool.and_eq_true_iff.mp hplain
  have hpositional : ∀ {name}, name ∈ params.positionalNames → name ∈ params.names :=
    mem_append_left _
  have hothers : ∀ {name}, name ∈ params.otherNames → name ∈ params.names :=
    mem_append_right _
  have hoptional : ∀ o ∈ params.optional, o.value.name ∈ params.names := fun o ho =>
    hpositional (by simp [positionalNames, mem_map_of_mem ho])
  have hkeywords : ∀ k ∈ params.keywords, k.value.name ∈ params.names := fun k hk =>
    hothers (by simp [otherNames, mem_map_of_mem hk])
  have hpreNames : ∀ name ∈ patternNames params.pre, name ∈ params.names := fun name hn =>
    hpositional (by simp [positionalNames, hn])
  have hpostNames : ∀ name ∈ patternNames params.post, name ∈ params.names := fun name hn =>
    hpositional (by simp [positionalNames, hn])
  have hrest : ∀ r ∈ params.rest.toList, r.value.slotName ∈ params.names := fun r hr =>
    hpositional (by simp [positionalNames, mem_map_of_mem hr])
  have hkeywordRest : ∀ r ∈ params.keywordRest.toList, r.value.keywordSlotName ∈ params.names :=
    fun r hr => hothers (by simp [otherNames, mem_map_of_mem hr])
  have hblock : ∀ b ∈ params.block.toList, b.value ∈ params.names := fun b hb =>
    hothers (by simp [otherNames, mem_map_of_mem hb])
  unfold bindParameters
  rw [run_bind (bindEach_eq h _ _ hpre hpreNames),
    run_bind (bindOptional_eq h source _ _ _ _ hoptional),
    run_bind (mapM_writeOwn_eq h _ _ hrest), run_bind (bindEach_eq h _ _ hpost hpostNames),
    run_bind (bindKeywords_eq h _ _ _ hkeywords), run_bind (mapM_writeOwn_eq h _ _ hkeywordRest),
    run_bind (mapM_writeOwn_eq h _ _ hblock)]
  simp only [positional, named, writes, map_append, append_assoc]
  rfl

theorem Meets.reaches (h : Meets m c P) (hrun : m c s = .ok a s') : Lowers.Reaches c s s' := by
  have h := h s
  rw [hrun] at h
  obtain ⟨_, hlowers, _⟩ := h
  exact ⟨_, hlowers⟩

theorem Meets.holds (h : Meets m c P) (hrun : m c s = .ok a s') : ∃ ms, P ms a := by
  have h := h s
  rw [hrun] at h
  obtain ⟨ms, _, ha⟩ := h
  exact ⟨ms, ha⟩

/-- The binding code, and the default values in it: a check where arguments have to fit, the writes
of the parameters, and those of the block's own variables. A block that takes an array apart asks
first. -/
theorem binding_ok {span : Span} {params : Params} {codes : List Code} (hs : s.Sound)
    (hk : c.scope < s.nextBody) (hplain : params.isPlain = true) (hd : c.Declares s params.names)
    (h : binding span params c s = .ok codes s') :
    ∃ optional keywords t t' slots binding,
      optionalDefaults span params.pendingOptional params.optional c s = .ok optional t ∧
      keywordDefaults span params.pendingKeywords params.keywords c t = .ok keywords t' ∧
      slots <+: c.slots s' ∧ (∀ name ∈ params.names, name ∈ slots) ∧
      codes = (if c.kind.isStrict then [.checkArity params.arity] else []) ++ binding ++
        writes (c.slots s') params.locals ∧
      let writes := writes slots (params.positional
        (.arguments (if c.kind.isStrict then .isError else .isNil)) optional ++
          params.named keywords)
      if c.kind == .block && !params.arity.keepsArray then
        ∃ unpacked, binding = [.ifElse .shouldDestructure unpacked (.join writes)]
      else binding = writes := by
  obtain ⟨pre, opt, rest, post, kws, keywordRest, block, blockLocals⟩ := params
  unfold binding prelude at h
  obtain ⟨_, _, hread, h⟩ := ok_of_bind h
  cases hread
  obtain ⟨defaults, _, hdefaults, h⟩ := ok_of_bind h
  obtain ⟨optional, t, hoptional, hdefaults⟩ := ok_of_bind hdefaults
  obtain ⟨keywords, s₁, hkeywords, hdefaults⟩ := ok_of_bind hdefaults
  cases hdefaults
  have hreach : Lowers.Reaches c s s₁ :=
    ((Meets.optionalDefaults span _ opt c).reaches hoptional).trans
      ((Meets.keywordDefaults span _ kws c).reaches hkeywords)
  have ha := hreach.advances hs hk
  have hd := ha.declares hs hk hd
  have hk₁ := ha.lt hs hk
  obtain ⟨writes, s₂, hwrites, h⟩ := ok_of_bind h
  rw [bindParameters_eq hd hplain] at hwrites
  cases hwrites
  have hlocals : ∀ b ∈ blockLocals, b.value ∈ names
      ⟨pre, opt, rest, post, kws, keywordRest, block, blockLocals⟩ := by
    intro b hb
    simp only [names, otherNames, mem_append, mem_map]
    exact Or.inr (Or.inr ⟨b, hb, rfl⟩)
  by_cases hguard : (c.kind == .block && !Arity.keepsArray (arity
      ⟨pre, opt, rest, post, kws, keywordRest, block, blockLocals⟩)) = true
  · simp only [hguard, if_true] at h ⊢
    obtain ⟨array, s₂, htemp, h⟩ := ok_of_bind h
    have ha₂ := ((Meets.addTemp "destructure").reaches htemp).advances ha.sound hk₁
    have hd₂ := ha₂.declares ha.sound hk₁ hd
    obtain ⟨fromItems, s₃, hitems, h⟩ := ok_of_bind h
    rw [bindParameters_eq hd₂ hplain] at hitems
    cases hitems
    obtain ⟨binding, s₄, hbinding, h⟩ := ok_of_bind h
    cases hbinding
    obtain ⟨locals, s₅, hlocals', h⟩ := ok_of_bind h
    rw [mapM_writeOwn_eq hd₂ _ _ hlocals] at hlocals'
    cases hlocals'
    cases h
    exact ⟨optional, keywords, t, s₁, c.slots s₁, _, hoptional, hkeywords,
      ha₂.slots ha.sound hk₁, hd.2, rfl, _, rfl⟩
  · simp only [hguard] at h ⊢
    obtain ⟨binding, s₂, hbinding, h⟩ := ok_of_bind h
    cases hbinding
    obtain ⟨locals, s₃, hlocals', h⟩ := ok_of_bind h
    rw [mapM_writeOwn_eq hd _ _ hlocals] at hlocals'
    cases hlocals'
    cases h
    exact ⟨optional, keywords, t, _, _, _, hoptional, hkeywords, prefix_rfl, hd.2, rfl, rfl⟩

/-! ## Default values -/

theorem defaultValue_ok {parameter : String} {pending : List String} {span : Span}
    {e : Located Expr} {lowered : Lower Code} {code : Code}
    (hread : isRead parameter e.value = false)
    (h : defaultValue parameter pending span e lowered c s = .ok code s') :
    lowered c s = .ok code s' := by
  unfold defaultValue at h
  rw [hread] at h
  obtain ⟨_, _, hcontext, h⟩ := ok_of_bind h
  cases hcontext
  cases hreject : c.options.rejectForwardReferences with
  | false =>
    rw [hreject] at h
    exact h
  | true =>
    rw [hreject] at h
    cases hforward : forwardReference? pending e with
    | none =>
      rw [hforward] at h
      exact h
    | some name =>
      rw [hforward] at h
      obtain ⟨_, _, hfail, _⟩ := ok_of_bind h
      cases hfail

theorem optionalDefaults_ok {span : Span} : ∀ {params : List (Located OptionalParam)}
    {pending : List String} {codes : List Code} {s s' : LoweringState},
    optionalDefaults span pending params c s = .ok codes s' →
    ∀ x ∈ params.zip codes, isRead x.1.value.name x.1.value.default.value = false →
      ∃ t t', expr x.1.value.default c t = .ok x.2 t'
  | [], _, _, _, _, _, _, hx, _ => by simp at hx
  | ⟨_, ⟨name, value⟩⟩ :: rest, pending, codes, s, s', h, x, hx, hread => by
    obtain ⟨code, t, hcode, h⟩ := ok_of_bind h
    obtain ⟨more, t', hmore, h⟩ := ok_of_bind h
    cases h
    rcases mem_cons.mp hx with rfl | hx
    · exact ⟨s, t, defaultValue_ok hread hcode⟩
    · exact optionalDefaults_ok hmore x hx hread

/-- What lowering made of the default value of a keyword: one that fails if there is none. -/
def KeywordDefault (c : Context) (x : Located KeywordParam × Code) : Prop :=
  match x.1.value.default with
  | none => x.2 = .missingKeyword x.1.value.name
  | some e => Lower.isRead x.1.value.name e.value = false → ∃ t t', Lower.expr e c t = .ok x.2 t'

theorem keywordDefaults_ok {span : Span} : ∀ {params : List (Located KeywordParam)}
    {pending : List String} {codes : List Code} {s s' : LoweringState},
    keywordDefaults span pending params c s = .ok codes s' →
    ∀ x ∈ params.zip codes, KeywordDefault c x
  | [], _, _, _, _, _, _, hx => by simp at hx
  | ⟨_, ⟨name, none⟩⟩ :: rest, pending, codes, s, s', h, x, hx => by
    obtain ⟨more, t', hmore, h⟩ := ok_of_bind h
    cases h
    rcases mem_cons.mp hx with rfl | hx
    · rfl
    · exact keywordDefaults_ok hmore x hx
  | ⟨_, ⟨name, some value⟩⟩ :: rest, pending, codes, s, s', h, x, hx => by
    obtain ⟨code, t, hcode, h⟩ := ok_of_bind h
    obtain ⟨more, t', hmore, h⟩ := ok_of_bind h
    cases h
    rcases mem_cons.mp hx with rfl | hx
    · exact fun hread => ⟨s, t, defaultValue_ok hread hcode⟩
    · exact keywordDefaults_ok hmore x hx

/-! ## Whole callables -/

theorem ok_of_recover (hm : Meets m c P) (hs : s.Sound) (hk : c.scope < s.nextBody)
    (h : recover fallback m c s = .ok a s') (hclean : s'.mistakes = s.mistakes) :
    m c s = .ok a s' := by
  have hm := hm s
  rw [recover_run] at h
  cases hrun : m c s with
  | ok b t =>
    rw [hrun] at h
    exact h
  | error d t =>
    rw [hrun] at h hm
    cases h
    -- the mistake that was reported makes the list longer than it was
    have hle := (hm.advances hs hk).mistakes.length_le
    have hlen : (t.mistakes ++ [d]).length = s.mistakes.length := congrArg List.length hclean
    rw [length_append, length_singleton] at hlen
    omega

end Lower

theorem Callable.Compilation.declares (h : k.Compilation c s s' body)
    (hdeclare : declareAll k.params.declaredNames c s = .ok () s₁) :
    c.Declares s₁ k.params.names := by
  obtain ⟨own, hget, _⟩ := h.fresh
  obtain ⟨own', hget', _, hnames⟩ := Scopes.mem_slots_declareAll k.params.declaredNames hget
  cases hdeclare
  refine ⟨by rw [hget']; rfl, fun name hname => ?_⟩
  rw [Context.slots, hget']
  exact hnames name (mem_declaredNames hname)

/-- A body that was made without a mistake is the code of the parameters and of the statements, one
after the other. -/
theorem Callable.Compilation.parts (h : k.Compilation c s s' body) : ∃ s₁ s₂ binding statements,
      Lower.declareAll k.params.declaredNames c s = .ok () s₁ ∧
      Lower.binding k.span k.params c s₁ = .ok binding s₂ ∧
      Lower.statements k.body c s₂ = .ok statements s' ∧
      body.code = .join (binding ++ [.join statements]) ∧
      s₁.Sound ∧ c.scope < s₁.nextBody ∧ Lowers.Reaches c s₁ s₂ ∧ s'.mistakes = s₂.mistakes := by
  have hk : c.scope < s.nextBody := by
    rw [← h.newest]
    exact Nat.lt_succ_self _
  obtain ⟨_, s₁, hdeclare, hrun⟩ := ok_of_bind h.run
  obtain ⟨binding, s₂, hbinding, hrun⟩ := ok_of_bind hrun
  obtain ⟨statements, s₃, hstatements, hrun⟩ := ok_of_bind hrun
  obtain ⟨hcode, rfl⟩ := EStateM.Result.ok.inj hrun
  have hreach₁ := (Lower.Meets.declareAll k.params.declaredNames).reaches hdeclare
  have ha₁ := hreach₁.advances h.sound hk
  have hk₁ := ha₁.lt h.sound hk
  have hmeets := Lower.Meets.binding k.span k.params c
  have hreach₂ : Lowers.Reaches c s₁ s₂ :=
    ((Lower.Meets.mono (Q := fun _ _ => True) hmeets fun _ _ _ => trivial).recover trivial).reaches
      hbinding
  have hreach₃ := (Lower.Meets.statements k.body c).reaches hstatements
  obtain ⟨hclean, hclean₃⟩ :=
    (mistakes_trans h.sound hk (hreach₁.trans hreach₂) hreach₃).mp h.clean
  have hclean₂ := ((mistakes_trans h.sound hk hreach₁ hreach₂).mp hclean).2
  exact ⟨s₁, s₂, binding, statements, hdeclare,
    ok_of_recover hmeets ha₁.sound hk₁ hbinding hclean₂, hstatements, hcode.symm, ha₁.sound,
    hk₁, hreach₂, hclean₃⟩

/-- The code that the defaults of the parameters are lowered to, one after the other. -/
def Callable.DefaultsTo (k : Callable) (c : Context) (optional keywords : List Code) : Prop :=
  ∃ t t' t'', Lower.optionalDefaults k.span k.params.pendingOptional k.params.optional c t =
      .ok optional t' ∧
    Lower.keywordDefaults k.span k.params.pendingKeywords k.params.keywords c t' =
      .ok keywords t'' ∧
    k.params.optional.length = optional.length ∧ k.params.keywords.length = keywords.length

theorem Callable.Compilation.binding {k : Callable} {c : Context} {s s' : LoweringState}
    {body : Body} (h : k.Compilation c s s' body) (hplain : k.params.isPlain = true) :
    (∀ name ∈ k.params.names, name ∈ body.slots) ∧
    ∃ optional keywords statements binding, k.DefaultsTo c optional keywords ∧
      body.code = .join ((if k.kind.isStrict then [.checkArity k.params.arity] else []) ++
        binding ++ writes body.slots k.params.locals ++ [statements]) ∧
      let writes := writes body.slots (k.params.positional
        (.arguments (if k.kind.isStrict then .isError else .isNil)) optional ++
          k.params.named keywords)
      if k.kind == .block && !k.params.arity.keepsArray then
        ∃ unpacked, binding = [.ifElse .shouldDestructure unpacked (.join writes)]
      else binding = writes := by
  have hslots : body.slots = c.slots s' := by
    rw [h.body]
    rfl
  obtain ⟨s₁, s₂, codes, statements, hdeclare, hbinding, hstatements, hcode, hsound, hk₁, hreach₂,
    _⟩ := h.parts
  have ha₂ := hreach₂.advances hsound hk₁
  have hk₂ := ha₂.lt hsound hk₁
  have hreach₃ := (Lower.Meets.statements k.body c).reaches hstatements
  have hbegins : c.slots s₂ <+: body.slots := hslots ▸
    (hreach₃.advances ha₂.sound hk₂).slots ha₂.sound hk₂
  obtain ⟨optional, keywords, t, t', slots, binding, hoptional, hkeywords, hgrown, hnames, rfl,
    hform⟩ := binding_ok hsound hk₁ hplain (h.declares hdeclare) hbinding
  obtain ⟨_, hlength, _⟩ :=
    (Lower.Meets.optionalDefaults k.span _ k.params.optional c).holds hoptional
  obtain ⟨_, hlength', _⟩ :=
    (Lower.Meets.keywordDefaults k.span _ k.params.keywords c).holds hkeywords
  have hbound : ∀ source, ∀ b ∈ k.params.positional source optional ++ k.params.named keywords ++
      k.params.locals, b.1 ∈ slots := by
    intro source b hb
    refine hnames _ ?_
    rw [← map_fst_bindings hlength hlength']
    exact mem_map_of_mem hb
  refine ⟨fun name hname => (hgrown.trans hbegins).subset (hnames name hname), optional, keywords,
    .join statements, binding, ⟨_, _, _, hoptional, hkeywords, hlength, hlength'⟩, ?_, ?_⟩
  · rw [hcode, h.kind, writes_of_prefix hbegins fun b hb => hgrown.subset
      (hbound (.arguments .isNil) b (mem_append_right _ hb))]
  · rw [← h.kind, ← writes_of_prefix (hgrown.trans hbegins) fun b hb =>
      hbound _ b (mem_append_left _ hb)]
    exact hform

/-- **The code of a method or lambda begins with the check of the arguments and the writes of its
parameters.** -/
theorem Callable.Compilation.items_eq (h : k.Compilation c s s' body)
    (hstrict : k.kind.isStrict = true) (hplain : k.params.isPlain = true) :
    (∀ name ∈ k.params.names, name ∈ body.slots) ∧
    ∃ optional keywords rest, k.DefaultsTo c optional keywords ∧
      body.code.items = .checkArity k.params.arity :: writes body.slots
        (k.params.positional (.arguments .isError) optional ++ k.params.named keywords ++
          k.params.locals) ++ rest := by
  obtain ⟨hnames, optional, keywords, statements, binding, hdefaults, hcode, hbinding⟩ :=
    h.binding hplain
  have hblock : (k.kind == .block) = false := by
    cases hkind : k.kind <;> simp [hkind, BodyKind.isStrict] at hstrict ⊢
  simp only [hstrict, if_true, hblock, Bool.false_and, Bool.false_eq_true,
    if_false] at hcode hbinding
  rw [hbinding, append_assoc, append_assoc, ← append_assoc (writes _ _),
    ← writes_append] at hcode
  obtain ⟨rest, hrest⟩ := items_join (.checkArity k.params.arity ::
    writes body.slots _) statements (forall_mem_cons.mpr ⟨⟨rfl, rfl⟩, solid_writes⟩)
  exact ⟨hnames, optional, keywords, rest, hdefaults, hcode ▸ hrest⟩

/-- **The code of a block begins with the writes of its parameters.** Where the block takes an array
apart, it looks first whether it should. -/
theorem Callable.Compilation.items_block (h : k.Compilation c s s' body) (hblock : k.kind = .block)
    (hplain : k.params.isPlain = true) :
    (∀ name ∈ k.params.names, name ∈ body.slots) ∧
    ∃ optional keywords rest, k.DefaultsTo c optional keywords ∧
      let writes := Code.writes body.slots
        (k.params.positional (.arguments .isNil) optional ++ k.params.named keywords)
      let locals := Code.writes body.slots k.params.locals
      if k.params.arity.keepsArray then body.code.items = writes ++ locals ++ rest
      else ∃ unpacked, body.code.items =
        .ifElse .shouldDestructure unpacked (.join writes) :: locals ++ rest := by
  obtain ⟨hnames, optional, keywords, statements, binding, hdefaults, hcode, hbinding⟩ :=
    h.binding hplain
  have hstrict : BodyKind.isStrict .block = false := rfl
  simp only [hblock, hstrict, Bool.false_eq_true, if_false, nil_append, beq_self_eq_true,
    Bool.true_and] at hcode hbinding
  cases hkeeps : k.params.arity.keepsArray with
  | true =>
    simp only [hkeeps, Bool.not_true, Bool.false_eq_true, if_false] at hbinding
    obtain ⟨rest, hrest⟩ := items_join (binding ++ Code.writes body.slots _) statements
      (forall_mem_append.mpr ⟨hbinding ▸ solid_writes, solid_writes⟩)
    refine ⟨hnames, optional, keywords, rest, hdefaults, ?_⟩
    rw [if_pos rfl, hcode, hrest, hbinding]
  | false =>
    simp only [hkeeps, Bool.not_false, if_true] at hbinding
    obtain ⟨unpacked, hbinding⟩ := hbinding
    obtain ⟨rest, hrest⟩ := items_join (binding ++ Code.writes body.slots _) statements
      (forall_mem_append.mpr
        ⟨hbinding ▸ forall_mem_singleton.mpr ⟨rfl, rfl⟩, solid_writes⟩)
    refine ⟨hnames, optional, keywords, rest, hdefaults, ?_⟩
    rw [if_neg Bool.false_ne_true, hcode, hrest, hbinding]
    exact ⟨unpacked, rfl⟩

end BlockLang
