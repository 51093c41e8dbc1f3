import BlockLang.Proofs.Lowering.Trace

/-!
# The pieces of lowering that do not recurse

Destructuring, binding parameters and passing them on are written over the lowering of their parts:
they get it as an argument. So do the theorems of this file: given what the parts meet, each says
what the piece meets. The recursion on the tree (`Proofs/Lowering/Expr.lean`) then only has to put
them together.

Two things are worth following through. A value that is spread over targets is read from a hidden
variable, so what the targets are handed (`vs` of `Made`) is that variable and nothing else. And
the only code that reads an argument which has to be there is the binding of the required
parameters in front, of a method or lambda, whose first code is the check of the arguments:
`Lower.Meets.callable` concludes `Code.Guarded` from it.
-/

namespace BlockLang

open List

namespace Code

theorem join_checkArity (arity : Arity) (pieces : List Code) :
    join (.checkArity arity :: pieces) = .checkArity arity ∨
      ∃ rest, join (.checkArity arity :: pieces) = .sequence (.checkArity arity :: rest) := by
  have hitems : (Code.checkArity arity :: pieces).flatMap items =
      .checkArity arity :: pieces.flatMap items := rfl
  rw [join, hitems]
  cases pieces.flatMap items with
  | nil => exact Or.inl rfl
  | cons d rest =>
    rw [elideResults_cons]
    cases elideResults (d :: rest) with
    | nil => exact Or.inl rfl
    | cons e more => exact Or.inr ⟨_, rfl⟩

@[simp] theorem mentions_nil : Code.nil.mentions = [] := rfl

@[simp] theorem mentions_readLocal (l : Local) : (Code.readLocal l).mentions = [.variable l] := rfl

@[simp] theorem mentions_index (source : Code) (i : Int) :
    (Code.index source i).mentions = source.mentions := by
  rw [mentions_eq]
  simp [ownMentions, children]

@[simp] theorem mentions_slice (source : Code) (start endOffset : Nat) :
    (Code.slice source start endOffset).mentions = source.mentions := by
  rw [mentions_eq]
  simp [ownMentions, children]

@[simp] theorem mentions_atLeast (source : Code) (count : Nat) :
    (Code.atLeast source count).mentions = source.mentions := by
  rw [mentions_eq]
  simp [ownMentions, children]

@[simp] theorem mentions_ifElse (condition yes no : Code) :
    (Code.ifElse condition yes no).mentions = condition.mentions ++ yes.mentions ++ no.mentions := by
  rw [mentions_eq]
  simp [ownMentions, children]

@[simp] theorem mentions_array (items : List Code) :
    (Code.array items).mentions = items.flatMap mentions := by
  rw [mentions_eq]
  rfl

end Code

namespace Made

variable {vs ms : List Mention} {codes : List Code}

theorem lend (h : Made [] ms codes) : Made vs ms codes :=
  h.congr (by simp) (fun _ => id) (fun _ hx _ => hx)

variable {ns : List Mention}

/-- What is not kept may be obtained without being mentioned. -/
theorem own (h : Made vs ms codes) (hn : ∀ x ∈ ns, x.isKept = false) :
    Made vs (ns ++ ms) codes := by
  refine h.congr (fun _ => Or.inl) (fun _ => mem_append_right _) ?_
  intro x hx hk
  rcases mem_append.mp hx with hx | hx
  · simp [hn x hx] at hk
  · exact hx

theorem itself {code : Code} (h : ∀ x ∈ code.mentions, x ∈ vs) : Made vs code.lasting [code] := by
  constructor
  · intro c hc x hx
    exact Or.inl (h x (mem_singleton.mp hc ▸ hx))
  · intro x hx _
    exact ⟨code, mem_singleton_self code, hx⟩

theorem cons_interleaved {code : Code} (hm : Made vs (ms ++ ms') [code])
    (hn : Made vs (ns ++ ns') codes) : Made vs ((ms ++ ns) ++ (ms' ++ ns')) (code :: codes) := by
  refine (hm.cons hn).congr (fun _ => Or.inl) ?_ ?_
  · intro x hx
    simp only [mem_append] at hx ⊢
    grind
  · intro x hx _
    simp only [mem_append] at hx ⊢
    grind

theorem absorb {owned : List Mention} (hg : Made [] owned given)
    (h : Made (vs ++ owned) (ms ++ given.flatMap Code.lasting) codes) :
    Made vs (owned ++ ms) codes := by
  refine h.congr ?_ ?_ ?_
  · intro x hx
    exact (mem_append.mp hx).imp id (mem_append_left _)
  · intro x hx
    rcases mem_append.mp hx with hx | hx
    · exact mem_append_right _ hx
    · obtain ⟨d, hd, hx⟩ := mem_flatMap.mp hx
      have howned := hg.sound d hd x (Code.mem_mentions_of_mem_lasting hx)
      exact mem_append_left _ (by simpa using howned)
  · intro x hx hk
    rcases mem_append.mp hx with hx | hx
    · obtain ⟨d, hd, hl⟩ := hg.complete x hx hk
      exact mem_append_right _ (mem_flatMap.mpr ⟨d, hd, hl⟩)
    · exact mem_append_left _ hx

theorem swap (h : Made vs (ms ++ ns) codes) : Made vs (ns ++ ms) codes :=
  h.congr (fun _ => Or.inl) (fun _ hx => by simpa [or_comm] using hx)
    (fun _ hx _ => by simpa [or_comm] using hx)

theorem getD {code : Option Code} (h : Made vs ms code.toList) : Made vs ms [code.getD .nil] := by
  cases code with
  | some code => exact h
  | none => exact plain rfl rfl h

theorem more (h : Made vs ms codes) (hv : ∀ x ∈ vs, x ∈ vs') : Made vs' ms codes :=
  h.congr (fun x hx => Or.inl (hv x hx)) (fun _ => id) (fun _ hx _ => hx)

end Made

/-- The codes of the block of a call. -/
def BlockOperand.codes : BlockOperand → List Code
  | absent => []
  | passed block | literal block _ => [block]

namespace Made

variable {vs ms ns ks : List Mention}

theorem catchBreak {id : Option BreakId} (h : Made vs ms [call]) :
    Made vs ms [Lower.catchBreak id call] := by
  cases id with
  | none => exact h
  | some id => exact plain rfl rfl h

theorem call {block : BlockOperand} (hr : Made vs ms receiver.toList) (ha : Made vs ns args)
    (hb : Made vs ks block.codes) : Made vs ((ms ++ ns) ++ ks) [block.call receiver method args] := by
  have hparts := (hr.append ha).append hb
  cases block with
  | absent | passed block => exact plain rfl rfl hparts
  | literal block breakId => exact catchBreak (plain rfl rfl hparts)

theorem super {block : BlockOperand} (ha : Made vs ns args) (hb : Made vs ks block.codes) :
    Made vs (.super :: (ns ++ ks)) [block.super args] := by
  have hparts := ha.append hb
  cases block with
  | absent =>
    have hn : Made vs _ [Code.super args none true] := node rfl hparts
    exact hn
  | passed block =>
    have hn : Made vs _ [Code.super args (some block) false] := node rfl hparts
    exact hn
  | literal block breakId =>
    have hn : Made vs _ [Code.super args (some block) false] := node rfl hparts
    exact catchBreak hn

theorem readLocal : Made vs [.variable l] [Code.readLocal l] := by
  have hn : Made vs _ [Code.readLocal l] := node rfl nil
  exact hn

theorem writeLocal {value : Code} (h : Made vs ms [value]) :
    Made vs (.variable l :: ms) [Code.writeLocal l value] := by
  have hn : Made vs _ [Code.writeLocal l value] := node rfl h
  exact hn

end Made

/-- Lowering obtains references, bodies and the method further up, but no arguments. -/
theorem Lowers.argument_notMem {c : Context} (h : Lowers c s out s') :
    ∀ ms, out = some ms → ∀ i, .argument i ∉ ms := by
  induction h with
  | append _ _ ihfirst ihsecond =>
    intro ms hms i hi
    obtain ⟨p, q, rfl, rfl, rfl⟩ := parts_of_joined hms
    exact (mem_append.mp hi).elim (ihfirst p rfl i) (ihsecond q rfl i)
  | reference r =>
    rintro ms ⟨rfl⟩ i hi
    simp at hi
  | inside _ _ _ ih | loop _ ih => exact ih
  | _ => simp_all

theorem Lower.Meets.noArguments {c : Context} (h : Lower.Meets m c P) :
    Lower.Meets m c fun ms a => P ms a ∧ ∀ i, .argument i ∉ ms := by
  intro s
  have hm := h s
  cases hs : m c s with
  | error d s' =>
    rw [hs] at hm
    exact hm
  | ok a s' =>
    rw [hs] at hm
    obtain ⟨ms, hms, hP⟩ := hm
    exact ⟨ms, hms, hP, hms.argument_notMem ms rfl⟩

namespace Assembled

variable {ms : List Mention} {code : Code}

theorem unguarded (h : Made [] ms [code]) (hms : ∀ i, .argument i ∉ ms) : Assembled ms code := by
  refine ⟨Or.inl fun i hi => ?_, [], by simp, h⟩
  exact hms i (by simpa using h.sound code (mem_singleton_self code) _ hi)

theorem checked {arity : Arity} (h : Made ((List.range arity.pre).map .argument) ms pieces)
    (hms : ∀ i, .argument i ∉ ms) : Assembled ms (.join (.checkArity arity :: pieces)) := by
  have hcheck : Made ((List.range arity.pre).map .argument) [] [Code.checkArity arity] :=
    .plain rfl rfl .nil
  have hmade := (hcheck.cons h).join
  refine ⟨?_, _, ?_, hmade⟩
  · rcases Code.join_checkArity arity pieces with hjoin | ⟨rest, hjoin⟩
    · refine Or.inl fun i hi => ?_
      rw [hjoin, Code.mentions_eq] at hi
      simp [Code.ownMentions, Code.children] at hi
    · refine Or.inr ⟨arity, rest, hjoin, fun i hi => ?_⟩
      rcases hmade.sound _ (mem_singleton_self _) _ hi with hi | hi
      · obtain ⟨j, hj, heq⟩ := mem_map.mp hi
        cases heq
        exact mem_range.mp hj
      · exact absurd hi (hms i)
  · intro x hx
    obtain ⟨i, _, rfl⟩ := mem_map.mp hx
    exact ⟨i, rfl⟩

end Assembled

namespace Lower

namespace Meets

variable {c : Context}

/-! ## Variables and placement -/

theorem readLocal (name : String) (span : Span) :
    Meets (Lower.readLocal name span) c fun ms code => Made [] ms [code] := by
  refine (resolve? name).step fun p found hp => ?_
  subst hp
  cases found with
  | some l => exact .pure (by simpa using Made.readLocal)
  | none =>
    refine .bind (.read ?_)
    cases c.options.strictLocals with
    | true => exact .fail _ span
    | false =>
      refine (resolveForAssignment name).step fun p l hp => ?_
      subst hp
      exact .pure (by simpa using Made.readLocal)

theorem readGlobal (name : String) :
    Meets (Lower.readGlobal name) c fun ms code => Made [] ms [code] := by
  unfold Lower.readGlobal
  cases isFrameGlobal name with
  | true =>
    refine (resolveFrameGlobal name).step fun p l hp => ?_
    subst hp
    exact .pure (by simpa using Made.readLocal)
  | false => exact .pure (Made.plain rfl rfl Made.nil)

variable {vs owned : List Mention} {value : Code}

theorem writeGlobal (name : String) (hvalue : Made vs owned [value]) :
    Meets (Lower.writeGlobal name value) c fun ms code => Made vs (ms ++ owned) [code] := by
  unfold Lower.writeGlobal
  cases isFrameGlobal name with
  | true =>
    refine (resolveFrameGlobal name).step fun p l hp => ?_
    subst hp
    exact .pure (by simpa using hvalue.writeLocal)
  | false => exact .pure (Made.plain rfl rfl hvalue)

theorem writeOwn (name : String) (hvalue : Made vs owned [value]) :
    Meets (Lower.writeOwn name value) c fun ms code => Made vs (ms ++ owned) [code] := by
  refine (ownLocal name).step fun p l hp => ?_
  obtain ⟨rfl, _⟩ := hp
  exact .pure (by simpa using hvalue.writeLocal)

theorem bareName (name : String) : Meets (do
      match ← Lower.resolve? name with
      | some found => return Code.readLocal found
      | none => return Code.call none name [] none) c fun ms code => Made [] ms [code] := by
  refine (resolve? name).step fun p found hp => ?_
  subst hp
  cases found with
  | some l => exact .pure (by simpa using Made.readLocal)
  | none => exact .pure (Made.plain rfl rfl Made.nil)

theorem requireMethod (mistake : Mistake) (span : Span) :
    Meets (Lower.requireMethod mistake span) c fun ms _ => ms = [.super] := by
  unfold Lower.requireMethod
  refine .bind (.read ?_)
  cases hm : c.method with
  | none => exact .fail mistake span
  | some params => exact fun s => ⟨[.super], .super (by simp [hm]), rfl⟩

theorem requireClosureOrLoop (mistake : Mistake) (span : Span) :
    Meets (Lower.requireClosureOrLoop mistake span) c fun ms _ => ms = [] := by
  unfold Lower.requireClosureOrLoop
  refine .bind (.read ?_)
  cases c.kind.isClosure || c.inLoop with
  | true => exact .pure rfl
  | false => exact .fail mistake span

theorem breakTarget (span : Span) : Meets (Lower.breakTarget span) c fun ms _ => ms = [] := by
  unfold Lower.breakTarget
  refine .bind (.currentScope fun scope => ?_)
  cases scope.breakId with
  | none => exact .fail _ span
  | some id => exact .pure rfl

theorem returnWith (span : Span) (hvalue : Made [] owned [value]) :
    Meets (Lower.returnWith value span) c fun ms code => Made [] (owned ++ ms) [code] := by
  unfold Lower.returnWith
  refine .bind (.currentScope fun scope => .bind (.read ?_))
  have hplain : ∀ {code : Code}, Made [] owned [code] → Made [] (owned ++ ([] ++ ([] ++ []))) [code] :=
    fun h => by simpa using h
  cases scope.returnId with
  | some id => exact .pure (hplain (Made.plain rfl rfl hvalue))
  | none =>
    cases c.inLoop with
    | false => exact .fail _ span
    | true =>
      cases scope.breakId with
      | none => exact .fail _ span
      | some id => exact .pure (hplain (Made.plain rfl rfl hvalue))

theorem mapM {α : Type} {f : α → Lower Code} :
    ∀ {as : List α}, (∀ a ∈ as, Meets (f a) c fun ms code => Made vs ms [code]) →
      Meets (as.mapM f) c fun ms codes => Made vs ms codes
  | [], _ => by
    rw [mapM_nil]
    exact .pure Made.nil
  | a :: rest, h => by
    rw [mapM_cons]
    refine (h a mem_cons_self).step fun p code hcode => ?_
    refine (mapM fun b hb => h b (mem_cons_of_mem _ hb)).step fun q codes hcodes => ?_
    exact .pure (by simpa using hcode.cons hcodes)

theorem writeEach {α : Type} (vs : List Mention) {as : List α} {name : α → String}
    {value : α → Code} (h : ∀ a ∈ as, Made vs [] [value a]) :
    Meets (as.mapM fun a => Lower.writeOwn (name a) (value a)) c fun ms codes => Made vs ms codes :=
  mapM fun a ha => (writeOwn (name a) (h a ha)).mono fun ms code hcode => by
    rwa [append_nil] at hcode

/-! ## Spreading a value -/

theorem nilAsArray : Meets Lower.nilAsArray c fun ms _ => ms = [] :=
  .bind (.read (.pure rfl))

/-- What assigning to some targets meets, whatever it is that they are handed by number. -/
def EachMeets (count : Nat) (assign : (Nat → Code) → Lower (List Code)) (c : Context) : Prop :=
  ∀ (vs : List Mention) (value : Nat → Code), (∀ i < count, ∀ x ∈ (value i).mentions, x ∈ vs) →
    Meets (assign value) c fun ms codes => Made vs ms codes

/-- What assigning the rest meets. -/
def RestMeets (assign : Code → Lower (List Code)) (c : Context) : Prop :=
  ∀ (vs : List Mention) (value : Code), (∀ x ∈ value.mentions, x ∈ vs) →
    Meets (assign value) c fun ms codes => Made vs ms codes

/-- Spreading a value: the targets read the hidden variable, whichever of the three ways is taken,
and the value itself is read once. -/
theorem destructure {pre post : Nat} {assignPre assignPost : (Nat → Code) → Lower (List Code)}
    {assignRest : Code → Lower (List Code)} (hpre : EachMeets pre assignPre c)
    (hrest : RestMeets assignRest c) (hpost : EachMeets post assignPost c)
    (hvalue : Made vs owned [value]) :
    Meets (Lower.destructure pre post assignPre assignRest assignPost value) c
      fun ms code => Made vs (ms ++ owned) [code] := by
  refine (addTemp "array").step fun p array hp => ?_
  obtain ⟨rfl, hlevel⟩ := hp
  refine nilAsArray.step fun p onNil hp => ?_
  subst hp
  refine (hpre [.variable array] _ (by simp)).step fun p₁ _ h₁ => ?_
  refine (hrest [.variable array] _ (by simp)).step fun p₂ _ h₂ => ?_
  refine (hpost [.variable array] _ (by simp)).step fun p₃ _ h₃ => ?_
  refine (hpre [.variable array] _ (by simp)).step fun p₄ _ h₄ => ?_
  refine (hrest [.variable array] _ (by simp)).step fun p₅ _ h₅ => ?_
  refine (hpost [.variable array] _ (by simp)).step fun p₆ _ h₆ => ?_
  refine (hpre [.variable array] _ (by simp)).step fun p₇ _ h₇ => ?_
  refine (hpost [.variable array] _ (by simp)).step fun p₈ _ h₈ => ?_
  refine (hrest [.variable array] _ ?_).step fun p₉ _ h₉ => .pure ?_
  · split <;> simp
  have hlarge := ((h₁.append h₂).append h₃).join
  have hsmall := ((h₄.append h₅).append h₆).join
  have hnothing := ((h₇.append h₈).append h₉).join
  have hitems : Made [.variable array] [] [Code.readLocal array] := .borrowed (by simp)
  have hwrite : Made vs _ [Code.writeLocal array (.splatCast value onNil)] :=
    (Made.plain rfl rfl hvalue).writeLocal
  have hsized : Made [.variable array] _ [Code.ifElse (.atLeast (.readLocal array) (pre + post)) _ _] :=
    .plain rfl rfl (.cons (.plain rfl rfl hitems) (.cons hlarge hsmall))
  have hchoice : Made [.variable array] _ [Code.ifElse (.isNil (.readLocal array)) _ _] :=
    .plain rfl rfl (.cons (.plain rfl rfl hitems) (.cons hnothing hsized))
  have hall := ((hwrite.more fun x hx => mem_append_right [.variable array] hx).append
    (hchoice.more fun x hx => mem_append_left vs hx)).join
  refine hall.congr ?_ ?_ ?_
  · intro x hx
    simp only [mem_append] at hx ⊢
    exact hx.symm.imp id fun h => Or.inl (Or.inl h)
  · intro x hx
    simp only [mem_append, mem_cons, not_mem_nil, false_or, or_false] at hx ⊢
    grind
  · intro x hx hk
    simp only [mem_append, mem_cons, not_mem_nil, false_or, or_false] at hx ⊢
    grind

/-- The right side is kept in a hidden variable, so the result that can be left out mentions that
variable only. -/
theorem keepingRight {assign : Code → Lower Code} {right : Code} (hright : Made [] owned [right])
    (hassign : ∀ temp : Local, Meets (assign (.readLocal temp)) c
      fun ms code => Made [.variable temp] ms [code]) :
    Meets (Lower.keepingRight right assign) c fun ms code => Made [] (ms ++ owned) [code] := by
  refine (addTemp "rhs").step fun p temp hp => ?_
  obtain ⟨rfl, hlevel⟩ := hp
  refine (hassign temp).step fun q assignment hq => .pure ?_
  have hboth := (hright.writeLocal (l := temp)).lend.append hq
  have hresult : Made _ _ [Code.elidable _ (.readLocal temp)] := hboth.join.elidable (by simp)
  refine hresult.congr ?_ ?_ ?_
  · simp
  · intro x hx
    simp only [mem_append, mem_cons, not_mem_nil, or_false] at hx ⊢
    grind
  · intro x hx hk
    simp only [mem_append, mem_cons, not_mem_nil, or_false] at hx ⊢
    grind

theorem assignItems {assign : (Nat → Code) → Lower (List Code)} {items : List (Local × Code)}
    {count : Nat} (hassign : EachMeets count assign c)
    (hwrites : Made [] owned (items.map fun item => .writeLocal item.1 item.2)) :
    Meets (Lower.assignItems items assign) c fun ms code => Made [] (owned ++ ms) [code] := by
  have htemps : ∀ item ∈ items, .variable item.1 ∈ owned := by
    intro item hitem
    have hx := hwrites.sound (.writeLocal item.1 item.2) (mem_map.mpr ⟨item, hitem, rfl⟩)
      (.variable item.1) (by rw [Code.mentions_eq]; simp [Code.ownMentions])
    simpa using hx
  refine (hassign owned _ ?_).step fun p assignments hp => .pure ?_
  · intro i _ x hx
    rw [getD_eq_getElem?_getD, List.getElem?_map] at hx
    cases hi : items[i]? with
    | none => simp [hi] at hx
    | some item =>
      simp only [hi, Option.map_some, Option.getD_some, Code.mentions_readLocal,
        mem_singleton] at hx
      exact hx ▸ htemps item (mem_of_getElem? hi)
  · have hparts : Made owned _ [Code.join _] := (hwrites.lend.append hp).join
    refine (hparts.elidable ?_).congr (fun x hx => Or.inr (mem_append_left _ hx)) ?_ ?_
    · intro x hx
      simp only [Code.mentions_array, mem_flatMap, mem_map] at hx
      obtain ⟨_, ⟨item, hitem, rfl⟩, hx⟩ := hx
      exact Or.inl (mem_singleton.mp hx ▸ htemps item hitem)
    · simp
    · intro x hx _
      simpa using hx

/-! ## Default values -/

theorem defaultValue (parameter : String) (pending : List String) (span : Span)
    (e : Located Expr) (h : Meets lowered c fun ms code => Made [] ms [code]) :
    Meets (Lower.defaultValue parameter pending span e lowered) c
      fun ms code => Made [] ms [code] := by
  unfold Lower.defaultValue
  cases isRead parameter e.value with
  | true =>
    refine (ownLocal parameter).step fun p l hp => ?_
    obtain ⟨rfl, _⟩ := hp
    exact .pure (by simpa using Made.readLocal)
  | false =>
    refine .bind (.read ?_)
    cases c.options.rejectForwardReferences with
    | false => exact h
    | true =>
      cases forwardReference? pending e with
      | none => exact h
      | some name => exact .bind (.fail _ _)

/-! ## Parameters -/

/-- What the code of a callable may read of a source of arguments, with `pre` required parameters
in front. -/
def lends (pre : Nat) : ArgumentSource → List Mention
  | .arguments .isError => (List.range pre).map .argument
  | .arguments .isNil => []
  | .items array => [.variable array]

section Parameters

variable {vs : List Mention} {source : ArgumentSource} (arity : Arity)

theorem mentions_atPosition (hi : i < pre) :
    ∀ x ∈ (source.atPosition i).mentions, x ∈ lends pre source := by
  intro x hx
  match source with
  | .arguments .isError =>
    rw [mem_singleton.mp hx]
    exact mem_map.mpr ⟨i, mem_range.mpr hi, rfl⟩
  | .arguments .isNil => exact hx
  | .items array => simpa [ArgumentSource.atPosition, lends] using hx

theorem made_optional {ms : List Mention} {default : Code}
    (hvs : ∀ x ∈ lends arity.pre source, x ∈ vs) (h : Made vs ms [default]) :
    Made vs ms [source.optional arity position default] := by
  match source with
  | .arguments _ => exact .plain rfl rfl h
  | .items array =>
    have hitems : Made vs [] [Code.readLocal array] := .borrowed (by simpa [lends] using hvs)
    have hsized : Made vs [] [Code.atLeast (.readLocal array) (position + 1 + arity.post)] :=
      .plain rfl rfl hitems
    have hitem : Made vs [] [Code.index (.readLocal array) position] := .plain rfl rfl hitems
    have hparts := hsized.cons (hitem.cons h)
    exact .plain rfl rfl hparts

theorem made_rest (hvs : ∀ x ∈ lends arity.pre source, x ∈ vs) :
    Made vs [] [source.rest arity] := by
  match source with
  | .arguments _ => exact .plain rfl rfl .nil
  | .items array =>
    have hitems : Made vs [] [Code.readLocal array] := .borrowed (by simpa [lends] using hvs)
    exact .plain rfl rfl hitems

theorem mentions_post (k : Nat) :
    ∀ x ∈ (source.post arity k).mentions, x ∈ lends arity.pre source := by
  intro x hx
  match source with
  | .arguments _ =>
    rw [ArgumentSource.post, Code.mentions_eq] at hx
    simp [Code.ownMentions, Code.children] at hx
  | .items array => simpa [ArgumentSource.post, lends] using hx

theorem bindOptional (hsource : ∀ x ∈ lends arity.pre source, x ∈ vs) :
    ∀ (position : Nat) (params : List (Located OptionalParam)) (defaults : List Code),
      params.length = defaults.length → (∀ d ∈ defaults, ∀ x ∈ d.mentions, x ∈ vs) →
      Meets (Lower.bindOptional source arity position params defaults) c
        fun ms codes => Made vs (ms ++ defaults.flatMap Code.lasting) codes
  | _, [], [], _, _ => .pure .nil
  | position, p :: params, d :: defaults, hlength, hdefaults => by
    have hd : Made vs d.lasting [d] := .itself (hdefaults d mem_cons_self)
    refine (writeOwn p.value.name (made_optional arity hsource hd)).step fun ms write hwrite => ?_
    refine (bindOptional hsource (position + 1) params defaults (by simpa using hlength)
      fun d hd => hdefaults d (mem_cons_of_mem _ hd)).last fun ns writes hwrites => ?_
    rw [flatMap_cons]
    exact hwrite.cons_interleaved hwrites

theorem bindKeywords :
    ∀ (params : List (Located KeywordParam)) (defaults : List Code),
      params.length = defaults.length → (∀ d ∈ defaults, ∀ x ∈ d.mentions, x ∈ vs) →
      Meets (Lower.bindKeywords arity params defaults) c
        fun ms codes => Made vs (ms ++ defaults.flatMap Code.lasting) codes
  | [], [], _, _ => .pure .nil
  | p :: params, d :: defaults, hlength, hdefaults => by
    have hd : Made vs d.lasting [d] := .itself (hdefaults d mem_cons_self)
    have hvalue : Made vs d.lasting [.keywordArgument p.value.name arity.required d] :=
      .plain rfl rfl hd
    refine (writeOwn p.value.name hvalue).step fun ms write hwrite => ?_
    refine (bindKeywords params defaults (by simpa using hlength)
      fun d hd => hdefaults d (mem_cons_of_mem _ hd)).last fun ns writes hwrites => ?_
    rw [flatMap_cons]
    exact hwrite.cons_interleaved hwrites

/-- The lowered default values of some parameters, one for each that can have one. -/
structure DefaultsOf (params : Params) (owned : List Mention) (defaults : Defaults) : Prop where
  optional : params.optional.length = defaults.optional.length
  keywords : params.keywords.length = defaults.keywords.length
  made : Made [] owned (defaults.optional ++ defaults.keywords)

theorem bindParameters {params : Params} {defaults : Defaults}
    {bindPre bindPost : (Nat → Code) → Lower (List Code)}
    (hdefaults : DefaultsOf params owned defaults) (hpre : EachMeets params.pre.length bindPre c)
    (hpost : EachMeets params.post.length bindPost c) :
    Meets (Lower.bindParameters params defaults source bindPre bindPost) c
      fun ms codes => Made (lends params.pre.length source) (owned ++ ms) codes := by
  -- the two kinds of default values are bound apart, so all that they mention is lent to both
  have hlent : ∀ {d : Code}, d ∈ defaults.optional ++ defaults.keywords →
      ∀ x ∈ d.mentions, x ∈ lends params.pre.length source ++ owned := by
    intro d hd x hx
    have howned := hdefaults.made.sound d hd x hx
    exact mem_append_right _ (by simpa using howned)
  have hsource : ∀ x ∈ lends params.pre.length source, x ∈ lends params.pre.length source ++ owned :=
    fun _ => mem_append_left _
  refine (hpre _ _ fun i hi x hx => hsource x (mentions_atPosition hi x hx)).step fun p₁ pre h₁ => ?_
  refine (bindOptional params.arity hsource _ _ _ hdefaults.optional
    fun d hd => hlent (mem_append_left _ hd)).step fun p₂ optional h₂ => ?_
  refine (writeEach _ fun _ _ => made_rest params.arity hsource).step fun p₃ rest h₃ => ?_
  refine (hpost _ _ fun i _ x hx =>
    hsource x (mentions_post params.arity i x hx)).step fun p₄ post h₄ => ?_
  refine (bindKeywords params.arity _ _ hdefaults.keywords
    fun d hd => hlent (mem_append_right _ hd)).step fun p₅ keywords h₅ => ?_
  refine (writeEach [] fun _ _ => .plain rfl rfl .nil).step fun p₆ keywordRest h₆ => ?_
  refine (writeEach [] fun _ _ => .plain rfl rfl .nil).step fun p₇ block h₇ => .pure ?_
  have hall := (((((h₁.append h₂).append h₃).append h₄).append h₅).append h₆.lend).append h₇.lend
  refine hdefaults.made.absorb (hall.congr (fun _ => Or.inl) ?_ ?_)
  · intro x hx
    simp only [mem_append, flatMap_append, not_mem_nil, or_false] at hx ⊢
    grind
  · intro x hx _
    simp only [mem_append, flatMap_append, not_mem_nil, or_false] at hx ⊢
    grind

end Parameters

/-! ## The code of a callable -/

/-- What the code of a callable reads of its arguments: where they have to fit, the required
parameters in front. -/
def lentBy (kind : BodyKind) (params : Params) : List Mention :=
  if kind.isStrict then (List.range params.pre.length).map .argument else []

/-- The check of the arguments, where they have to fit. -/
def checks (kind : BodyKind) (params : Params) : List Code :=
  if kind.isStrict then [.checkArity params.arity] else []

theorem twoVersions {ms ns : List Mention} (hpositional : Made vs (owned ++ ms) positional)
    (hitems : Made [.variable array] (owned ++ ns) fromItems) :
    Made vs (owned ++ ms ++ [.variable array] ++ ns) [Code.ifElse .shouldDestructure
      (.join (.writeLocal array (.splatCast (.argument 0 .isNil) .arrayWithNil) :: fromItems))
      (.join positional)] := by
  have hargument : Made [.variable array] [] [Code.argument 0 .isNil] := .plain rfl rfl .nil
  have hcoerce : Made [.variable array] _
      [Code.writeLocal array (.splatCast (.argument 0 .isNil) .arrayWithNil)] :=
    (Made.plain rfl rfl hargument).writeLocal
  have hread := (hcoerce.cons hitems).join.more fun x => mem_append_left vs
  have htest : Made ([.variable array] ++ vs) [] [Code.shouldDestructure] := .plain rfl rfl .nil
  have hparts := htest.cons (hread.cons
    (hpositional.join.more fun x => mem_append_right [Mention.variable array]))
  refine (Made.plain rfl rfl hparts).congr ?_ ?_ ?_
  · intro x hx
    simp only [mem_append] at hx ⊢
    exact hx.symm.imp id fun h => Or.inl (Or.inr h)
  · intro x hx
    simp only [mem_append, mem_cons, not_mem_nil, false_or, or_false] at hx ⊢
    grind
  · intro x hx _
    simp only [mem_append, mem_cons, not_mem_nil, false_or, or_false] at hx ⊢
    grind

theorem prelude (params : Params) {defaults : Lower Defaults}
    {bindPre bindPost : (Nat → Code) → Lower (List Code)}
    (hdefaults : Meets defaults c (DefaultsOf params))
    (hpre : EachMeets params.pre.length bindPre c) (hpost : EachMeets params.post.length bindPost c) :
    Meets (Lower.prelude params defaults bindPre bindPost) c fun ms codes =>
      ∃ writes, codes = checks c.kind params ++ writes ∧ Made (lentBy c.kind params) ms writes := by
  refine .bind (.read ?_)
  refine hdefaults.step fun owned defaults hdefaults => ?_
  refine (bindParameters hdefaults hpre hpost).step fun p positional hpositional => ?_
  have hlends : lends params.pre.length (.arguments (if c.kind.isStrict then .isError else .isNil)) =
      lentBy c.kind params := by
    unfold lentBy
    cases c.kind.isStrict <;> rfl
  rw [hlends] at hpositional
  -- the last lines are the same whether or not the binding comes in two versions
  have hlast : ∀ {q : List Mention} {binding : List Code}, Made (lentBy c.kind params) q binding →
      Meets (do
        let locals ← params.blockLocals.mapM fun b => Lower.writeOwn b.value .nil
        return checks c.kind params ++ binding ++ locals) c fun r codes => ∃ writes,
          codes = checks c.kind params ++ writes ∧ Made (lentBy c.kind params) (q ++ r) writes := by
    intro q binding hbinding
    refine (writeEach [] fun _ _ => .plain rfl rfl .nil).step fun r locals hlocals => .pure ?_
    refine ⟨binding ++ locals, by simp, ?_⟩
    rw [append_nil]
    exact hbinding.append hlocals.lend
  cases hblock : c.kind == .block && !params.arity.keepsArray with
  | false =>
    rw [if_neg (by simp)]
    exact .bind (.pure ((hlast hpositional).mono fun r codes h => by simpa using h))
  | true =>
    rw [if_pos rfl]
    refine (addTemp "destructure").step fun q array hq => ?_
    obtain ⟨rfl, hlevel⟩ := hq
    refine (bindParameters hdefaults hpre hpost).step fun q fromItems hitems => .bind (.pure ?_)
    exact (hlast (twoVersions hpositional hitems)).mono fun r codes h => by simpa using h

/-- The code of a callable: its arguments are checked before the first of them is read. -/
theorem callable {params : Params} {binding statements : Lower (List Code)}
    (hbinding : Meets binding c fun ms codes => ∃ writes,
      codes = checks c.kind params ++ writes ∧ Made (lentBy c.kind params) ms writes)
    (hstatements : Meets statements c fun ms codes => Made [] ms codes) :
    Meets (Lower.callable params binding statements) c Assembled := by
  have hrecovered : Meets (Lower.recover [] binding) c fun ms codes =>
      (∃ writes, codes = checks c.kind params ++ writes ∧ Made (lentBy c.kind params) ms writes) ∨
        ms = [] ∧ codes = [] :=
    (hbinding.mono fun ms codes => Or.inl).recover (Or.inr ⟨rfl, rfl⟩)
  refine (declareAll params.declaredNames).noArguments.step fun p _ hp => ?_
  refine hrecovered.noArguments.step fun q binding hq => ?_
  refine hstatements.noArguments.step fun r statements hr => .pure ?_
  obtain ⟨hdeclared, hp⟩ := hp
  obtain ⟨hbinding, hq⟩ := hq
  obtain ⟨hstatements, hr⟩ := hr
  have hnone : ∀ i, .argument i ∉ p ++ (q ++ (r ++ [])) := by
    intro i hi
    simp only [mem_append, not_mem_nil, or_false] at hi
    exact hi.elim (hp i) fun hi => hi.elim (hq i) (hr i)
  rcases hbinding with ⟨writes, rfl, hwrites⟩ | ⟨rfl, rfl⟩
  · have hpieces := (hwrites.append (hstatements.join.lend)).own hdeclared
    rw [append_nil] at hnone ⊢
    unfold checks lentBy at *
    cases hstrict : c.kind.isStrict with
    | false =>
      simp only [hstrict, Bool.false_eq_true, if_false, nil_append] at hpieces ⊢
      exact .unguarded hpieces.join hnone
    | true =>
      simp only [hstrict, if_true] at hpieces ⊢
      exact .checked hpieces hnone
  · rw [append_nil] at hnone ⊢
    exact .unguarded (hstatements.join.join.own hdeclared) hnone

/-! ## Passing parameters on -/

theorem replayRead (span : Span) (name : String) :
    Meets (Lower.replayRead span name) c fun ms code => Made [] ms [code] := by
  refine (resolve? name).step fun p found hp => ?_
  subst hp
  cases found with
  | some l => exact .pure (by simpa using Made.readLocal)
  | none => exact .fail _ span

theorem replay (params : Params) (span : Span) :
    Meets (Lower.replay params span) c fun ms codes => Made [] ms codes := by
  have hlast : Meets (do
      let args ← (Params.patternNames params.pre ++ params.optional.map (·.value.name)).mapM
        (Lower.replayRead span)
      let rest ← params.rest.toList.mapM fun r =>
        Code.splat <$> Lower.replayRead span r.value.slotName
      return args ++ rest) c fun ms codes => Made [] ms codes := by
    refine (mapM fun name _ => replayRead span name).step fun p args hargs => ?_
    have hsplat : ∀ r ∈ params.rest.toList,
        Meets (Code.splat <$> Lower.replayRead span r.value.slotName) c
          fun ms code => Made [] ms [code] := fun r _ =>
      .map ((replayRead span r.value.slotName).mono fun ms code h => .plain rfl rfl h)
    refine (mapM hsplat).last fun q rest hrest => ?_
    exact hargs.append hrest
  unfold Lower.replay
  cases replayObstacle? params with
  | none => exact hlast
  | some what => exact .bind (.fail _ span)

end Meets

end Lower

end BlockLang
