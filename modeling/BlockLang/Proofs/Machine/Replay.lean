import Mathlib
import BlockLang.Proofs.Lowering.Forwarding
import BlockLang.Proofs.Machine.Binding
import BlockLang.Proofs.Machine.Moves

/-!
# Parameters that are passed on

A bare `super` calls the method further up with what the parameters hold by now. Lowering makes a
list of arguments of the parameters, one read for each and a splat for the rest, and binding makes
parameters of the arguments again. Here the two meet, for methods that have as many parameters of
each kind: **what the one method's parameters hold goes to the other's, each at its place**
(`Program.lower_replays`), whatever the values of optional parameters would be without an argument.
-/

namespace BlockLang

open List Params Setting Lower

/-! ## Parameters that can be passed on -/

namespace Params

/-- As many parameters of each kind. -/
def SameShape (p q : Params) : Prop :=
  p.pre.length = q.pre.length ∧ p.optional.length = q.optional.length ∧
    p.rest.isSome = q.rest.isSome

/-- The parameters that hold one argument each. -/
def frontNames (p : Params) : List String := patternNames p.pre ++ p.optional.map (·.value.name)

/-- What the parameters hold in a frame of the body: the values, in order, and an array of the
items. -/
structure Holds (p : Params) (body : Body) (s : Store) (f : FrameId) (values items : List Value) :
    Prop where
  front : p.frontNames.map (fun name => s.slot f (body.slots.idxOf name)) = values
  rest : ∀ r ∈ p.rest, ∃ id, s.slot f (body.slots.idxOf r.value.slotName) = .array id ∧
    s.array id = items.toArray
  noRest : p.rest = none → items = []

variable {p : Params} {values items : List Value}

theorem replayable_iff : p.replayable = true ↔
    p.isPlain = true ∧ p.post = [] ∧ p.keywords = [] ∧ p.keywordRest = none := by
  simp only [replayable, isPlain, Bool.and_eq_true, List.isEmpty_iff, Option.isNone_iff_eq_none]
  constructor
  · rintro ⟨⟨⟨hpost, hkeywords⟩, hrest⟩, hpre⟩
    exact ⟨⟨hpre, by simp [hpost]⟩, hpost, hkeywords, hrest⟩
  · rintro ⟨⟨hpre, _⟩, hpost, hkeywords, hrest⟩
    exact ⟨⟨⟨hpost, hkeywords⟩, hrest⟩, hpre⟩

theorem mem_names_of_frontNames {name : String} (h : name ∈ p.frontNames) : name ∈ p.names := by
  simp only [names, positionalNames, append_assoc, mem_append]
  rcases mem_append.mp h with h | h
  · exact Or.inl h
  · exact Or.inr (Or.inl h)

theorem mem_names_of_rest (h : r ∈ p.rest.toList) : r.value.slotName ∈ p.names := by
  simp [names, positionalNames, mem_map_of_mem h]

theorem length_frontNames (h : p.replayable = true) :
    p.frontNames.length = p.pre.length + p.optional.length := by
  obtain ⟨hplain, _⟩ := replayable_iff.mp h
  rw [frontNames, length_append, length_patternNames (Bool.and_eq_true_iff.mp hplain).1, length_map]

theorem given_of_replayable (h : p.replayable = true) (args : List Value) :
    p.given args = args.length := by
  obtain ⟨_, _, hkeywords, hrest⟩ := replayable_iff.mp h
  simp [given, takesKeywords, hasKeywords, hkeywords, hrest]

theorem fits_of_replayable (h : p.replayable = true)
    (hvalues : values.length = p.pre.length + p.optional.length)
    (hitems : p.rest = none → items = []) :
    p.Fits (p.given (values ++ items)) ∧
      p.supplied (p.given (values ++ items)) = p.optional.length := by
  have hpost : p.post.length = 0 := by rw [(replayable_iff.mp h).2.1, length_nil]
  rw [given_of_replayable h, length_append, hvalues]
  unfold Fits supplied
  rw [hpost]
  refine ⟨⟨by omega, fun hrest => Nat.le_of_eq ?_⟩, by omega⟩
  rw [hitems hrest, length_nil]

theorem Bound.holds (h : p.replayable = true) {body : Body} {f : FrameId} {s : Store}
    (hvalues : values.length = p.pre.length + p.optional.length)
    (hitems : p.rest = none → items = []) (hbound : p.Bound body f (values ++ items) s) :
    p.Holds body s f values items := by
  have hpost : patternNames p.post = [] := by
    rw [(replayable_iff.mp h).2.1]
    rfl
  obtain ⟨_, ⟨items', harguments, hrest, _⟩, _⟩ := hbound
  rw [(fits_of_replayable h hvalues hitems).2, take_length, given_of_replayable h,
    take_length, hpost, map_nil, append_nil] at harguments
  obtain ⟨hfront, rfl⟩ := append_inj harguments (by
    rw [length_map, hvalues]
    exact length_frontNames h)
  refine ⟨hfront, fun r hr => ?_, hitems⟩
  obtain ⟨id, hid, harray⟩ := hrest r hr
  exact ⟨id, hid, Store.array_of_arrays harray⟩

end Params

/-! ## The code of a bare `super` -/

/-- A read of a name of the scope itself. -/
def Local.found (slots : List String) (name : String) : Local :=
  { level := 0, slot := slots.idxOf name, name,
    kind := if name.startsWith "$" then .frameGlobal else .variable }

/-- The arguments that are made of the parameters. -/
def Params.replayCodes (p : Params) (slots : List String) : List Code :=
  p.frontNames.map (fun name => .readLocal (.found slots name)) ++
    p.rest.toList.map fun r => .splat (.readLocal (.found slots r.value.slotName))

/-- The code is what lowering made of the expression, which stands in the callable itself and in
no closure, method or class inside it. -/
def Callable.HasCode (k : Callable) (body : Body) (e : Located Expr) (code : Code) : Prop :=
  ∃ c s s' s₁ own t t' live live', k.Compilation c s s' body ∧
    Lower.declareAll k.params.declaredNames c s = .ok () s₁ ∧ s₁.Advances live t ∧
    own.scope = c.scope ∧ own.method = some k.params ∧ Lower.expr e own t = .ok code t' ∧
    t'.Advances live' s'

namespace Lower

variable {c : Context} {s s' : LoweringState} {names : List String} {p : Params}

/-- Each statement was lowered somewhere on the way. -/
theorem expr_of_mem_statements {e : Located Expr} : ∀ {body : List (Located Expr)}
    {codes : List Code} {s : LoweringState}, s.Sound → c.scope < s.nextBody →
    statements body c s = .ok codes s' → s'.mistakes = s.mistakes → e ∈ body →
    ∃ code t t', Lowers.Reaches c s t ∧ expr e c t = .ok code t' ∧ Lowers.Reaches c t' s'
  | [], _, _, _, _, _, _, he => absurd he not_mem_nil
  | first :: rest, codes, s, hs, hk, hcodes, hclean, he => by
    rw [statements] at hcodes
    obtain ⟨code, s₁, hfirst, hcodes⟩ := ok_of_bind hcodes
    obtain ⟨more, s₂, hrest, hcodes⟩ := ok_of_bind hcodes
    obtain ⟨rfl, hs₂⟩ : code :: more = codes ∧ s₂ = s' := EStateM.Result.ok.inj hcodes
    subst s₂
    have hreach : Lowers.Reaches c s s₁ := ((Meets.mono (Q := fun _ _ => True)
      (Meets.expr first c) fun _ _ _ => trivial).recover trivial).reaches hfirst
    have hreach' := (Meets.statements rest c).reaches hrest
    have ha := hreach.advances hs hk
    obtain ⟨hclean₁, hclean₂⟩ := (mistakes_trans hs hk hreach hreach').mp hclean
    rcases mem_cons.mp he with rfl | he
    · exact ⟨code, s, s₁, .refl, ok_of_recover (Meets.expr e c) hs hk hfirst hclean₁, hreach'⟩
    · obtain ⟨code, t, t', hbefore, hcode, hafter⟩ := expr_of_mem_statements ha.sound
        (ha.lt hs hk) hrest hclean₂ he
      exact ⟨code, t, t', hreach.trans hbefore, hcode, hafter⟩

variable {span : Span}

theorem resolve_eq {name : String} (h : c.Declares s names) (hname : name ∈ names) :
    (s.scopes.resolve c.scope name).1 = some (.found (c.slots s) name) := by
  obtain ⟨own, hget, hslots, hslot⟩ := h.slot? hname
  unfold Scopes.resolve Scopes.lookup Scopes.ancestry Scopes.outward
  simp only [hget, Scopes.lookupIn, Option.bind_some, hslot, Scopes.refer, hslots, Local.found]

/-- The parameters are found in the method's own scope, so that the look-ups end there. -/
theorem eq_replayCodes (hw : s.scopes.WellFormed) (h : c.Declares s p.names)
    (hargs : replay p span c s = .ok codes s') : codes = p.replayCodes (c.slots s) := by
  obtain ⟨front, rest, rfl, hlength, hreads⟩ := replay_reads hw hargs
  have hfound : ∀ name ∈ p.replayNames,
      (s.scopes.resolve c.scope name).1 = some (.found (c.slots s) name) := by
    intro name hname
    refine resolve_eq h ((mem_append.mp hname).elim mem_names_of_frontNames fun hname => ?_)
    obtain ⟨r, hr, rfl⟩ := mem_map.mp hname
    exact mem_names_of_rest hr
  have hlocals : front ++ rest = p.replayNames.map (.found (c.slots s)) := by
    refine map_injective_iff.mpr (Option.some_injective _) (hreads.trans ?_)
    rw [map_congr_left hfound, map_map]
    rfl
  rw [replayNames, map_append] at hlocals
  obtain ⟨rfl, rfl⟩ := append_inj' hlocals (by simpa using hlength)
  rw [map_map, map_map, map_map]
  rfl

end Lower

theorem Params.replayCodes_of_prefix {p : Params} (h : slots <+: slots')
    (hnames : ∀ name ∈ p.names, name ∈ slots) : p.replayCodes slots = p.replayCodes slots' := by
  obtain ⟨more, rfl⟩ := h
  have hfound : ∀ {name}, name ∈ p.names →
      Local.found slots name = .found (slots ++ more) name := by
    intro name hname
    rw [Local.found, Local.found, idxOf_append, if_pos (hnames name hname)]
  unfold replayCodes
  congr 1
  · refine map_congr_left fun name hname => ?_
    rw [hfound (mem_names_of_frontNames hname)]
  · refine map_congr_left fun r hr => ?_
    rw [hfound (mem_names_of_rest hr)]

variable {k : Callable} {body : Body} {σ : Setting} {id : BodyId} {m : Machine} {stack : List Cont}
  {owner : ClassId} {name : String} {block : Option ClosureId} {s : Store} {f : FrameId}

theorem Callable.CompiledTo.hasCode (h : k.CompiledTo body) (hmethod : k.kind = .method)
    (he : e ∈ k.body) : ∃ code, k.HasCode body e code := by
  obtain ⟨c, s, s', hk⟩ := h
  obtain ⟨s₁, s₂, binding, statements, hdeclare, _, hstatements, _, hsound, hlt₁, hreach₂, hclean⟩ :=
    hk.parts
  have ha₂ := hreach₂.advances hsound hlt₁
  have hlt₂ := ha₂.lt hsound hlt₁
  obtain ⟨code, t, t', hbefore, hcode, hafter⟩ :=
    expr_of_mem_statements ha₂.sound hlt₂ hstatements hclean he
  have hat := hbefore.advances ha₂.sound hlt₂
  have hltt := hat.lt ha₂.sound hlt₂
  have hat' := ((Meets.expr e c).reaches hcode).advances hat.sound hltt
  exact ⟨code, c, s, _, s₁, c, t, t', _, _, hk, hdeclare,
    (hreach₂.trans hbefore).advances hsound hlt₁, rfl, hk.method hmethod, hcode,
    hafter.advances hat'.sound (hat'.lt hat.sound hltt)⟩

theorem Callable.HasCode.bareSuper {span : Span}
    (h : k.HasCode body ⟨span, .bareSuper explicit⟩ code) :
    ∃ operand : BlockOperand, code = operand.super (k.params.replayCodes body.slots) ∧
      (explicit = none ↔ operand = .absent) := by
  obtain ⟨c, s, s', s₁, own, t, t', _, _, hk, hdeclare, hbefore, hscope, hmethod, hcode, hafter⟩ :=
    h
  have hlt : c.scope < s.nextBody := by
    rw [← hk.newest]
    exact Nat.lt_succ_self _
  have hreach := (Meets.declareAll k.params.declaredNames).reaches hdeclare
  have ha₁ := hreach.advances hk.sound hlt
  have hlt₁ := ha₁.lt hk.sound hlt
  have hltt := hbefore.lt ha₁.sound hlt₁
  have hdeclares := hbefore.declares ha₁.sound hlt₁ (hk.declares hdeclare)
  -- the slots that are there only get more
  have hown : own.Declares t k.params.names := by
    rwa [Context.Declares, Context.slots, hscope]
  have ha := ((Meets.expr ⟨span, .bareSuper explicit⟩ own).reaches hcode).advances
    hbefore.sound (hscope ▸ hltt)
  have hslots : own.slots t <+: body.slots := by
    have hlt' := ha.lt hbefore.sound hltt
    have hbody : body.slots = c.slots s' := by
      rw [hk.body]
      rfl
    have hbegins := (ha.slots (c := c) hbefore.sound hltt).trans (hafter.slots ha.sound hlt')
    rwa [← hbody, Context.slots, ← hscope] at hbegins
  rw [expr, run_bind (requireMethod_eq hmethod)] at hcode
  obtain ⟨_, _, hargs, hcode⟩ := ok_of_bind hcode
  obtain ⟨operand, _, hoperand, hcode⟩ := ok_of_bind hcode
  cases hcode
  obtain rfl := eq_replayCodes hbefore.sound.wellFormed hown hargs
  refine ⟨operand, ?_, ?_⟩
  · rw [ replayCodes_of_prefix hslots hown.2]
  · cases explicit with
    | none =>
      cases hoperand
      simp
    | some explicit =>
      cases explicit with
      | pass value | literal block =>
        obtain ⟨_, _, _, hoperand⟩ := ok_of_bind hoperand
        cases hoperand
        simp

/-! ## Calling the method further up -/

namespace Setting

variable {σ : Setting} {s : Store} {depth : Nat} {stack : List Cont} {f : FrameId}
  {purpose : Purpose}

theorem operands_reads (slots : List String) (rest : List Code) : ∀ (names : List String)
    (done : List Value),
    σ.Reaches (σ.operands s depth stack f purpose done
        (names.map (fun name => .readLocal (.found slots name)) ++ rest))
      (σ.operands s depth stack f purpose
        (done ++ names.map fun name => s.slot f (slots.idxOf name)) rest)
  | [], done => by
    rw [map_nil, map_nil, append_nil]
    exact .refl
  | name :: names, done => by
    have ih := operands_reads slots rest names (done ++ [s.slot f (slots.idxOf name)])
    rw [append_assoc] at ih
    exact .head rfl (.head rfl ih)

theorem operands_replay {p : Params} {values items : List Value}
    (h : p.Holds body s f values items) :
    σ.Reaches (σ.operands s depth stack f purpose [] (p.replayCodes body.slots))
      (σ.operands s depth stack f purpose (values ++ items) []) := by
  refine (operands_reads body.slots _ p.frontNames []).trans ?_
  rw [h.front, nil_append]
  cases hrest : p.rest with
  | none =>
    rw [h.noRest hrest, append_nil]
    exact .refl
  | some r =>
    obtain ⟨id, hslot, hitems⟩ := h.rest r hrest
    have hspread : s.spread (s.slot f (body.slots.idxOf r.value.slotName)) = (items, s) := by
      rw [hslot, Store.spread, hitems]
    refine .head rfl (.single (congrArg Step.next ?_))
    show σ.resume s depth stack (s.slot f (body.slots.idxOf r.value.slotName))
      (.operand f purpose values true []) = _
    simp only [resume, hspread]

theorem super_replay {p : Params} {values items : List Value} (h : p.Holds body s f values items)
    {operand : BlockOperand} (hoperand : operand ≠ .absent) :
    ∃ block stack', σ.Reaches
      (evaluating s depth stack f (operand.super (p.replayCodes body.slots)))
      (evaluating s depth (.superBlock f (values ++ items) false :: stack') f block) := by
  cases operand with
  | absent => exact absurd rfl hoperand
  | passed block => exact ⟨block, stack, .head rfl (operands_replay h)⟩
  | literal block breakId =>
    cases breakId with
    | none => exact ⟨block, stack, .head rfl (operands_replay h)⟩
    | some id => exact ⟨block, .catchBreak id :: stack, .head rfl (.head rfl (operands_replay h))⟩

/-- From the machine on, the method is called in a new frame with the block, and its parameters
come to hold the values and items. Nothing else happens than that arrays and frames are added. -/
def Enters (σ : Setting) (m : Machine) (stack : List Cont) (k : Callable) (body : Body)
    (values items : List Value) (block : Option ClosureId) : Prop :=
  ∃ store v, σ.Reaches m (giving store (m.depth + 1) (following m.store.frames.size
      (body.code.items.drop (k.params.names.length + 1)) (.method body :: stack)) v) ∧
    (store.frame m.store.frames.size).block = block ∧
    k.params.Holds body store m.store.frames.size values items ∧
    store = { m.store with arrays := store.arrays, hashes := store.hashes, frames := store.frames }

end Setting

theorem Callable.CompiledTo.enters {values items : List Value} (h : k.CompiledTo body)
    (hbody : σ.unit.body? id = some body) (hmethod : k.kind = .method)
    (hp : k.params.replayable = true) (hnames : k.params.names.Nodup)
    (hvalues : values.length = k.params.pre.length + k.params.optional.length)
    (hitems : k.params.rest = none → items = []) (hdepth : m.depth < σ.maxDepth)
    (hm : σ.Reaches m
      (σ.invokeMethod m.store m.depth stack receiver owner id name (values ++ items) block)) :
    σ.Enters m stack k body values items block := by
  obtain ⟨hplain, _, hkeywords, _⟩ := replayable_iff.mp hp
  obtain ⟨hfits, hsupplied⟩ := fits_of_replayable hp hvalues hitems
  let new : Frame := {
    body := id, self := receiver, arguments := values ++ items, block,
    invocation := some { name, owner, block }, definee := owner,
    slots := Store.blankSlots body.slots.length }
  let f := m.store.frames.size
  have hframe : (m.store.newFrame new).2.HasFrame f body (values ++ items) :=
    m.store.hasFrame_newFrame rfl
  have hinvoke :
      σ.invokeMethod m.store m.depth stack receiver owner id name (values ++ items) block =
        evaluating (m.store.newFrame new).2 (m.depth + 1) (.method body :: stack) f
          body.code := by
    simp only [invokeMethod, hbody, Nat.not_le.mpr hdepth, if_false]
    rfl
  have hcheck : (m.store.newFrame new).2.arityFault? k.params.arity (values ++ items) = none := by
    refine Store.arityFault?_of_fits hfits fun h => ?_
    simp [Params.hasKeywords, hkeywords] at h
  have hdefaults : ∀ o ∈ k.params.optional.drop (k.params.supplied (k.params.given
      (values ++ items))), o.value.default.value.isLiteral = true := by
    rw [hsupplied, drop_length]
    simp
  have hstrict : k.kind.isStrict = true := by rw [hmethod]; rfl
  obtain ⟨c, keywords, rest, hlength, hcodes, _, hruns⟩ :=
    h.runs hstrict hplain hnames hframe hfits hdefaults hcheck
  have hsupplies : (m.store.newFrame new).2.SuppliesKeywords k.params (values ++ items) := by
    intro q hq
    simp [hkeywords] at hq
  obtain ⟨store, ⟨v, hpasses⟩, hkeeps, hbound, _⟩ := hruns σ (k.params.otherPromises keywords)
    (k.params.binding_otherPromises keywords ▸ prefix_rfl) lasts_others
    (settled_others hframe.arguments hsupplies hcodes)
  rw [← length_map (f := Promise.name), name_otherPromises hlength, ← length_append] at hpasses
  refine ⟨store, v, (hinvoke ▸ hm).trans (hpasses _ _), ?_, hbound.holds hp hvalues hitems, ?_⟩
  · rw [hkeeps.frame]
    show ((m.store.newFrame new).2.frame m.store.frames.size).block = block
    rw [Store.frame_newFrame_self]
  · exact hkeeps.rest

/-! ## The frame of the method -/

/-- Frames stay through a run. -/
theorem Setting.Reaches.grows (hu : σ.unit.WellScoped) (hsound : Sound σ.unit m)
    (h : σ.Reaches m m') : m.store.Grows m'.store := by
  obtain ⟨n, hn⟩ := h
  exact keeps_after (P := fun reached => m.store.Grows reached.store) hu
    (fun _ _ h hstep => h.trans hstep.grows) (.refl m.store) hsound hn

theorem Setting.invocation_of_reaches (hu : σ.unit.WellScoped) {depth : Nat} {receiver : Value}
    {args : List Value} {n : Machine} (hbody : σ.unit.body? id = some body)
    (hdepth : depth < σ.maxDepth)
    (hsound : Sound σ.unit (σ.invokeMethod s depth stack receiver owner id name args block))
    (h : σ.Reaches (σ.invokeMethod s depth stack receiver owner id name args block) n) :
    (n.store.frame s.frames.size).invocation = some ⟨name, owner, block⟩ := by
  have hgrows := h.grows hu hsound
  simp only [invokeMethod, hbody, Nat.not_le.mpr hdepth, if_false] at hgrows
  have hlt : s.frames.size < (s.newFrame {
      body := id, self := receiver, arguments := args, block,
      invocation := some { name, owner, block }, definee := owner,
      slots := Store.blankSlots body.slots.length }).2.frames.size := by
    rw [Store.size_newFrame]
    exact Nat.lt_succ_self _
  refine (hgrows.invocation _ hlt).trans ?_
  exact congrArg Frame.invocation (Store.frame_newFrame_self _)

/-- The method further up is found from what the frame remembers. -/
theorem Setting.callSuper_eq {depth : Nat} {args : List Value} {own : Option ClosureId}
    {owner' : ClassId} (hframe : (s.frame f).invocation = some ⟨name, owner, own⟩)
    (habove : s.findAbove? owner name = some (owner', id)) :
    σ.callSuper s depth stack f args block =
      σ.invokeMethod s depth stack (s.frame f).self owner' id name args block := by
  simp only [callSuper, hframe, habove]

theorem Sound.reached {σ : Setting} (hu : σ.unit.WellScoped)
    (hplay : σ.unit.play σ.capture {} turns = some (events, session))
    (hm : σ.Reaches (σ.start session) m) : Sound σ.unit m := by
  obtain ⟨steps, hsteps⟩ := hm
  exact Sound.after hu (Sound.start hu (hu.play (Store.lexical_initial hu) hplay)) hsteps

/-- **A bare `super` passes the parameters on.** In any run of a method call, when a bare `super` in
the method itself is evaluated, and the method further up has as many parameters of each kind, its
parameters are bound to what the parameters of the method hold by then, each at its place, and none
of its default values is evaluated. Without a block of its own the `super` passes the block on that
the method was called with; a block of its own is evaluated in between. -/
theorem Program.lower_replays {p : Program} {options : LowerOptions} {σ : Setting}
    (h : p.lower options = .ok σ.unit) {turns : List Turn} {events : List Event}
    {session : Session} (hplay : σ.unit.play σ.capture {} turns = some (events, session))
    {k k' : Callable} {id id' : BodyId} {body body' : Body} {span : Span}
    {explicit : Option BlockArg} {code : Code} (hbody : σ.unit.body? id = some body)
    (hcode : k.HasCode body ⟨span, .bareSuper explicit⟩ code) (hp : k.params.replayable = true)
    (hbody' : σ.unit.body? id' = some body') (hk' : k'.CompiledTo body')
    (hmethod : k'.kind = .method) (hp' : k'.params.replayable = true)
    (hnames : k'.params.names.Nodup) (hshape : k.params.SameShape k'.params)
    {s : Store} {depth : Nat} {stack : List Cont} {receiver : Value} {owner : ClassId}
    {name : String} {args : List Value} {block : Option ClosureId}
    (hcall : σ.Reaches (σ.start session)
      (σ.invokeMethod s depth stack receiver owner id name args block))
    (hdepth : depth < σ.maxDepth) {n : Machine}
    (hn : σ.Reaches (σ.invokeMethod s depth stack receiver owner id name args block) n)
    (hcontrol : n.control = .eval s.frames.size code) {values items : List Value}
    (hholds : k.params.Holds body n.store s.frames.size values items)
    (hlimit : n.depth < σ.maxDepth) :
    (explicit = none → ∀ owner', n.store.findAbove? owner name = some (owner', id') →
      σ.Enters n n.stack k' body' values items block) ∧
    (explicit ≠ none → ∃ operand stack',
      σ.Reaches n (Setting.evaluating n.store n.depth
        (.superBlock s.frames.size (values ++ items) false :: stack') s.frames.size operand) ∧
      ∀ t v given owner', v.asBlock? = some given → t.findAbove? owner name = some (owner', id') →
        σ.Reaches n
          ⟨t, n.depth, .superBlock s.frames.size (values ++ items) false :: stack', .give v⟩ →
        σ.Enters ⟨t, n.depth, .superBlock s.frames.size (values ++ items) false :: stack', .give v⟩
          stack' k' body' values items given) := by
  have hu := lower_wellScoped h
  have hsound := Sound.reached hu hplay hcall
  have hvalues : values.length = k'.params.pre.length + k'.params.optional.length := by
    rw [← hholds.front, length_map, length_frontNames hp, hshape.1, hshape.2.1]
  have hitems : k'.params.rest = none → items = [] := by
    intro hrest
    refine hholds.noRest (Option.not_isSome_iff_eq_none.mp ?_)
    rw [hshape.2.2, hrest]
    exact Bool.false_ne_true
  obtain ⟨operand, rfl, hexplicit⟩ := hcode.bareSuper
  have hinvocation : ∀ {m}, σ.Reaches n m →
      (m.store.frame s.frames.size).invocation = some ⟨name, owner, block⟩ := fun hm =>
    invocation_of_reaches hu hbody hdepth hsound (hn.trans hm)
  obtain ⟨store, depth', stack', control⟩ := n
  cases hcontrol
  refine ⟨fun hnone owner' habove => ?_, fun hsome => ?_⟩
  · cases hexplicit.mp hnone
    have hframe := hinvocation .refl
    have hown : ownBlock store s.frames.size = block := by
      rw [ownBlock, hframe]
      rfl
    have hreach : σ.Reaches
        (evaluating store depth' stack' s.frames.size
          (.super (k.params.replayCodes body.slots) none true))
        (σ.callSuper store depth' stack' s.frames.size (values ++ items)
          (ownBlock store s.frames.size)) := .head rfl (operands_replay hholds)
    rw [hown, callSuper_eq hframe habove] at hreach
    exact hk'.enters hbody' hmethod hp' hnames hvalues hitems hlimit hreach
  · obtain ⟨code, stack₁, hreach⟩ := super_replay (σ := σ) hholds fun habsent =>
      hsome (hexplicit.mpr habsent)
    refine ⟨code, stack₁, hreach, fun t v given owner' hv habove hm => ?_⟩
    have hcalls : σ.resume t depth' stack₁ v (.superBlock s.frames.size (values ++ items) false) =
        σ.invokeMethod t depth' stack₁ (t.frame s.frames.size).self owner' id' name
          (values ++ items) given := by
      simp only [resume, hv, Bool.and_false, Bool.false_eq_true, if_false]
      exact callSuper_eq (hinvocation hm) habove
    exact hk'.enters hbody' hmethod hp' hnames hvalues hitems hlimit
      (.single (congrArg Step.next hcalls))

/-! ## A method that changes its parameter -/

/-- `first, second = 0, *rest`. -/
def Params.onward (first second rest : String) : Params :=
  ((Params.empty.require first).withOptional second (Build.integer 0)).withRest (some rest)

/-- `class A; def m(x, y = 0, *z) end end; class B < A; def m(a, b = 0, *c); a = 4; super end end`
and `B.new.m(1, 2, 3)`. -/
def Program.passesOn : Program where
  body := [
    Build.classDef "A" none [Build.define "m" (.onward "x" "y" "z") []],
    Build.classDef "B" (some (Build.constant "A")) [
      Build.define "m" (.onward "a" "b" "c") [Build.assign "a" (Build.integer 4), Build.bareSuper]],
    Build.call (Build.call (Build.constant "B") "new" []) "m"
      [Build.integer 1, Build.integer 2, Build.integer 3]]

def Setting.passesOn : Setting := .of Program.passesOn

theorem Setting.step_call {args : List Value} (owner : ClassId) (id : BodyId)
    (h : s.findMethod? (s.classOf receiver) name = some (owner, id)) :
    σ.step ⟨s, depth, stack, .call f receiver name args block⟩ =
      .next (σ.invokeMethod s depth stack receiver owner id name args block) := by
  simp only [step, call, h]

theorem CodeUnit.eq_of_mem_slots {u : CodeUnit} {place : BodyId} (h : ∀ i < u.bodies.size,
      (u.body? i).all (fun b => name ∈ b.slots → i = place) = true)
    (hbody : u.body? id = some body) (hname : name ∈ body.slots) : id = place := by
  have hother := h id (Array.getElem?_eq_some_iff.mp hbody).1
  rw [hbody, Option.all_some, decide_eq_true_iff] at hother
  exact hother hname

/-- The method of `A` is entered with `4, 2` and `[3]`. -/
theorem Setting.passesOn_replays : Program.passesOn.lower {} = .ok passesOn.unit ∧
    ∃ n k body, passesOn.Reaches (passesOn.start {}) n ∧ k.params = .onward "x" "y" "z" ∧
      k.CompiledTo body ∧
      ∃ block, passesOn.Enters n n.stack k body [.int 4, .int 2] [.int 3] block := by
  have hlower : Program.passesOn.lower {} = .ok passesOn.unit :=
    Program.lower_of_setting rfl (by decide +kernel)
  refine ⟨hlower, ?_⟩
  have hup : Program.passesOn.HasCallable ⟨.method, {}, .onward "x" "y" "z", []⟩ :=
    ⟨_, _, ⟨_, .head _, _, .part (mem_singleton_self _) (.self _), rfl⟩,
      mem_singleton_self _⟩
  have hlow : Program.passesOn.HasCallable ⟨.method, {}, .onward "a" "b" "c",
      [Build.assign "a" (Build.integer 4), Build.bareSuper]⟩ :=
    ⟨_, _, ⟨_, .tail _ (.head _), _, .part (.tail _ (.head _)) (.self _), rfl⟩,
      mem_singleton_self _⟩
  obtain ⟨id', body', c', t', u', _, hbody', hk'⟩ := Program.compiles_of_lower hlower hup
  obtain ⟨id, body, c, t, u, _, hbody, hk⟩ := Program.compiles_of_lower hlower hlow
  obtain rfl : id' = 2 := CodeUnit.eq_of_mem_slots (by decide +kernel) hbody'
    ((hk'.items_eq rfl rfl).1 "x" (by decide))
  obtain rfl : id = 4 := CodeUnit.eq_of_mem_slots (by decide +kernel) hbody
    ((hk.items_eq rfl rfl).1 "a" (by decide))
  obtain ⟨code, hcode⟩ := Callable.CompiledTo.hasCode ⟨c, t, u, hk⟩ rfl
    (.tail _ (mem_singleton_self _))
  obtain ⟨operand, rfl, hoperand⟩ := hcode.bareSuper
  cases hoperand.mp rfl
  have hσ := Eq.refl passesOn
  conv at hσ => rhs; cbv
  have hlast := hbody
  conv at hlast => lhs; rw [hσ]; cbv
  cases hlast
  have hm := Eq.refl (passesOn.after 21 (passesOn.start {}))
  conv at hm => rhs; rw [hσ]; cbv
  have hcall : passesOn.Reaches (passesOn.start {}) _ :=
    .trans ⟨21, hm⟩ (.single (step_call 2 4 (by cbv)))
  have hn := (fun m (_ : passesOn.Reaches _ m) => Eq.refl (passesOn.after 19 m)) _ hcall
  conv at hn => rhs; rw [hσ]; cbv
  refine ⟨_, _, body', hcall.trans ⟨19, hn⟩, rfl, ⟨c', t', u', hk'⟩, none, ?_⟩
  exact (Program.lower_replays hlower CodeUnit.play_nil hbody hcode rfl hbody' ⟨c', t', u', hk'⟩
    rfl rfl (by decide) ⟨rfl, rfl, rfl⟩ hcall (by decide) ⟨19, hn⟩ (by cbv)
    ⟨rfl, fun r hr => ⟨0, by cases hr; exact ⟨rfl, rfl⟩⟩, fun h => by cases h⟩ (by decide)).1 rfl 1 (by cbv)

end BlockLang
