import BlockLang.Proofs.Machine.Binding

/-!
# Keywords

Keywords come in a hash at the end of the arguments. The check of the arguments looks through its
keys, every keyword looks for its own, and the rest of the keywords collects the others: three
passes over one hash, each with a look of its own for where it is. What they come to is said of the
table of keywords that are passed (`Store.PassesTable`) and of nothing else: which of them is
unknown, which parameter goes without, and what the parameters hold (`Params.KeywordsBound`).

**A keyword that is passed is refused or goes to just one parameter**
(`Program.lower_bindsKeywords`).
-/

namespace BlockLang

open List Params Store Setting

/-! ## The keywords of a call -/

/-- The keywords that are passed: what is in the hash at the end of the arguments, as long as it is
not one of the required arguments, and nothing without such a hash. -/
def Store.PassesTable (s : Store) (args : List Value) (required : Nat) (table : Table Key Value) :
    Prop :=
  (∃ id, args.getLast? = some (.hash id) ∧ required < args.length ∧ s.hashes[id]? = some table) ∨
    (table = {} ∧ ¬(required < args.length ∧ endsInHash args = true))

namespace Params

variable (p : Params) (table : Table Key Value)

/-- Whether a parameter takes the keyword. -/
def isKeyword (key : Key) : Bool := p.keywords.any fun k => key == .symbol k.value.name

/-- The first of the passed keywords that no parameter takes. -/
def unknownKeyword? : Option Key :=
  if p.keywordRest.isSome then none else table.keys.find? fun key => !p.isKeyword key

/-- A required keyword that is not passed. -/
def lacks (k : Located KeywordParam) : Bool :=
  k.value.default.isNone && !table.contains (.symbol k.value.name)

/-- The first of the required keywords that is not passed. -/
def missingKeyword? : Option (Located KeywordParam) := p.keywords.find? (lacks table)

/-- Every keyword parameter holds what is passed for it, or else its default, and the rest of the
keywords is a new hash of what is passed for no parameter. -/
structure KeywordsBound (body : Body) (f : FrameId) (before s : Store) : Prop where
  declared : ∀ name ∈ p.names, name ∈ body.slots
  passed : ∀ k ∈ p.keywords, ∀ v, table.get? (.symbol k.value.name) = some v →
    s.slot f (body.slots.idxOf k.value.name) = v
  defaults : ∀ k ∈ p.keywords, table.get? (.symbol k.value.name) = none →
    ∃ e ∈ k.value.default, s.Shows e.value (s.slot f (body.slots.idxOf k.value.name))
  rest : ∀ r ∈ p.keywordRest, ∃ id, s.slot f (body.slots.idxOf r.value.keywordSlotName) = .hash id ∧
    before.hashes.size ≤ id ∧
    s.hashes[id]? = some ⟨table.entries.filter fun entry => !p.isKeyword entry.1⟩

theorem isNamed_arity (key : Key) : isNamed p.arity.keywords key = p.isKeyword key := by
  rw [Bool.eq_iff_iff, isKeyword, any_eq_true]
  cases key with
  | symbol name =>
    have hname : ∀ other : String, (Key.symbol name == .symbol other) = true ↔ other = name := by
      intro other
      rw [beq_iff_eq, Key.symbol.injEq, eq_comm]
    rw [isNamed, contains_iff_mem, Params.arity, mem_addNames]
    simp [hname]
  | nil | bool | int | text => simp [isNamed]

end Params

/-! ## Looking for the hash -/

theorem Store.Retains.hashes_size {s t : Store} (h : s.Retains t) :
    s.hashes.size ≤ t.hashes.size := by
  refine Nat.le_of_not_lt fun hlt => ?_
  have hlast := h.hashes (Array.getElem?_eq_getElem hlt)
  rw [Array.getElem?_eq_none (Nat.le_refl _)] at hlast
  cases hlast

namespace Store.PassesTable

variable {s t : Store} {args : List Value} {required : Nat} {table : Table Key Value}

theorem carrier? (h : s.PassesTable args required table) (hretains : s.Retains t) :
    t.carrier? args required = some table ∨ table = {} ∧ t.carrier? args required = none := by
  rcases h with ⟨id, hlast, hlt, hid⟩ | ⟨rfl, hnone⟩
  · refine Or.inl ((t.carrier?_eq_some args).mpr ⟨id, hlast, hlt, ?_⟩)
    rw [hash, Array.getD_eq_getD_getElem?, hretains.hashes hid]
    rfl
  · refine Or.inr ⟨rfl, ?_⟩
    rw [← Option.not_isSome_iff_eq_none, t.carrier?_isSome]
    simpa using hnone

theorem keywordArgument? (h : s.PassesTable args required table) (hretains : s.Retains t)
    (name : String) : t.keywordArgument? args name required = table.get? (.symbol name) := by
  unfold Store.keywordArgument?
  rcases h.carrier? hretains with hsome | ⟨rfl, hnone⟩
  · rw [hsome]
    rfl
  · rw [hnone]
    rfl

theorem keywordRest (h : s.PassesTable args required table) (hretains : s.Retains t) (p : Params) :
    t.keywordRest args required p.arity.keywords =
      ⟨table.entries.filter fun entry => !p.isKeyword entry.1⟩ := by
  unfold Store.keywordRest
  simp only [p.isNamed_arity]
  rcases h.carrier? hretains with hsome | ⟨rfl, hnone⟩
  · rw [hsome]
    rfl
  · rw [hnone]
    rfl

theorem arityFault?_eq {p : Params} (h : s.PassesTable args p.arity.required table)
    (htakes : p.takesKeywords = true) (hfits : p.Fits (p.given args)) :
    s.arityFault? p.arity args = (p.unknownKeyword? table).map (.unknownKeyword ·.inspect) := by
  have hrest : p.arity.hasKeywordRest = p.keywordRest.isSome := rfl
  simp only [arityFault?, positionalCount_eq, (p.accepts_iff _).mpr hfits]
  rw [p.arity_takesKeywords, htakes, hrest, Params.unknownKeyword?]
  simp only [p.isNamed_arity]
  cases p.keywordRest.isSome with
  | true => rfl
  | false =>
    rcases h.carrier? .refl with hsome | ⟨rfl, hnone⟩
    · rw [hsome]
      simp only [Option.bind_eq_bind, Option.bind_some]
      cases table.keys.find? fun key => !p.isKeyword key <;> rfl
    · rw [hnone]
      rfl

end Store.PassesTable

/-! ## What the parameters are promised -/

namespace Params

variable {p : Params} {args : List Value} {σ : Setting} {f : FrameId} {s : Store}
  {table : Table Key Value}

/-- A keyword is promised what is passed for it, or else its default. -/
def keywordPromise (p : Params) (table : Table Key Value) (x : Located KeywordParam × Code) :
    Promise where
  name := x.1.value.name
  code := .keywordArgument x.1.value.name p.arity.required x.2
  holds s v := table.get? (.symbol x.1.value.name) = some v ∨
    table.get? (.symbol x.1.value.name) = none ∧ ∃ e ∈ x.1.value.default, s.Shows e.value v

/-- One promise for every parameter that takes no positional argument. -/
def keywordPromises (p : Params) (table : Table Key Value) (before : Store) (keywords : List Code) :
    List Promise :=
  (p.keywords.zip keywords).map (p.keywordPromise table) ++
    p.keywordRest.toList.map (fun r =>
      ⟨r.value.keywordSlotName, .keywordRestArgument p.arity.required p.arity.keywords,
        fun s v => ∃ id, v = .hash id ∧ before.hashes.size ≤ id ∧
          s.hashes[id]? = some ⟨table.entries.filter fun entry => !p.isKeyword entry.1⟩⟩) ++
    (p.block.toList.map (fun b => ⟨b.value, .blockArgument, fun _ _ => True⟩) ++
      p.blockLocals.map (fun b => ⟨b.value, .nil, fun _ _ => True⟩))

theorem binding_keywordPromises (before : Store) (keywords : List Code) :
    (p.keywordPromises table before keywords).map (·.binding) = p.named keywords ++ p.locals := by
  unfold keywordPromises named locals
  simp only [map_append, map_map, append_assoc]
  rfl

theorem lasts_keywordPromise (x : Located KeywordParam × Code) :
    (p.keywordPromise table x).Lasts := by
  rintro s t v hretains (hpassed | ⟨hnone, e, he, hshows⟩)
  · exact Or.inl hpassed
  · exact Or.inr ⟨hnone, e, he, hshows.mono hretains⟩

variable {keywords : List Code} {c : Context}

theorem lasts_keywordPromises : ∀ q ∈ p.keywordPromises table before keywords, q.Lasts := by
  intro q hq
  simp only [keywordPromises, mem_append, mem_map] at hq
  rcases hq with (⟨x, _, rfl⟩ | ⟨r, _, rfl⟩) | ⟨b, _, rfl⟩ | ⟨b, _, rfl⟩
  · exact lasts_keywordPromise x
  · rintro s t v hretains ⟨id, hv, hsize, hid⟩
    exact ⟨id, hv, hsize, hretains.hashes hid⟩
  · exact fun _ _ => trivial
  · exact fun _ _ => trivial

theorem settled_keywordPromise (hargs : (s.frame f).arguments = args)
    (hpassed : s.PassesTable args p.arity.required table) (hdefault : Lower.KeywordDefault c x)
    (hliteral : ∀ e ∈ x.1.value.default, e.value.isLiteral = true)
    (hlacks : lacks table x.1 = false) : (p.keywordPromise table x).Settled σ f s := by
  intro store hkeeps
  refine gives_keyword (hkeeps.arguments.trans hargs)
    (hpassed.keywordArgument? hkeeps.toRetains _) hdefault fun hnone => ?_
  cases he : x.1.value.default with
  | none => simp [lacks, he, Table.contains, hnone] at hlacks
  | some e => exact ⟨e, rfl, hliteral e he⟩

theorem settled_keywordPromises (hargs : (s.frame f).arguments = args)
    (hpassed : s.PassesTable args p.arity.required table)
    (hdefaults : ∀ x ∈ p.keywords.zip keywords, Lower.KeywordDefault c x)
    (hliteral : ∀ k ∈ p.keywords, ∀ e ∈ k.value.default, e.value.isLiteral = true)
    (hmissing : p.missingKeyword? table = none) :
    ∀ q ∈ p.keywordPromises table s keywords, q.Settled σ f s := by
  intro q hq
  simp only [keywordPromises, mem_append, mem_map] at hq
  rcases hq with (⟨x, hx, rfl⟩ | ⟨r, _, rfl⟩) | ⟨b, _, rfl⟩ | ⟨b, _, rfl⟩
  · have hk := (of_mem_zip hx).1
    have hlacks := List.find?_eq_none.mp hmissing x.1 hk
    exact settled_keywordPromise hargs hpassed (hdefaults x hx) (hliteral x.1 hk)
      (Bool.not_eq_true _ ▸ hlacks)
  · intro store hkeeps
    refine ⟨_, _, .now fun _ _ => rfl, adds_newHash _, _, rfl, hkeeps.hashes_size, ?_⟩
    rw [hkeeps.arguments.trans hargs, hpassed.keywordRest hkeeps.toRetains]
    exact hashes_newHash _
  · exact fun store _ => ⟨store, _, .now fun _ _ => rfl, .refl, trivial⟩
  · exact fun store _ => ⟨store, _, .now fun _ _ => rfl, .refl, trivial⟩

theorem get?_of_missing (h : p.missingKeyword? table = some missing) :
    table.get? (.symbol missing.value.name) = none := by
  have hlacks := List.find?_some h
  simpa [Table.contains] using (Bool.and_eq_true_iff.mp hlacks).2

theorem named_of_missing (hlength : p.keywords.length = keywords.length)
    (hcodes : ∀ x ∈ p.keywords.zip keywords, Lower.KeywordDefault c x)
    (h : p.missingKeyword? table = some missing) :
    ∃ before : List (Located KeywordParam × Code),
      (before.map (p.keywordPromise table)).map (·.binding) ++ [(missing.value.name,
        .keywordArgument missing.value.name p.arity.required
          (.missingKeyword missing.value.name))] <+: p.named keywords ++ p.locals ∧
      ∀ x ∈ before, x ∈ p.keywords.zip keywords ∧ lacks table x.1 = false := by
  obtain ⟨hlacks, before, after, hsplit, hbefore⟩ := List.find?_eq_some_iff_append.mp h
  have hlt : before.length < keywords.length := by
    rw [← hlength, hsplit, length_append, length_cons]
    omega
  have hzip : p.keywords.zip keywords = before.zip (keywords.take before.length) ++
      (missing, keywords[before.length]) :: after.zip (keywords.drop (before.length + 1)) := by
    rw [hsplit, ← zip_cons_cons, ← drop_eq_getElem_cons hlt,
      ← zip_append (by rw [length_take, Nat.min_eq_left (Nat.le_of_lt hlt)]),
      take_append_drop]
  have hcode : keywords[before.length] = .missingKeyword missing.value.name := by
    have hmade := hcodes (missing, keywords[before.length]) (by rw [hzip]; simp)
    have hrequired := Option.isNone_iff_eq_none.mp (Bool.and_eq_true_iff.mp hlacks).1
    unfold Lower.KeywordDefault at hmade
    rwa [hrequired] at hmade
  refine ⟨before.zip (keywords.take before.length), ?_, fun x hx => ⟨?_, ?_⟩⟩
  · unfold named
    rw [hzip, hcode, map_append, map_cons, map_map]
    simp only [append_assoc]
    exact (prefix_append_right_inj _).mpr (prefix_append [_] _)
  · exact hzip ▸ mem_append_left _ hx
  · simpa using hbefore x.1 (of_mem_zip hx).1

theorem keywordsBound_of_promises {body : Body}
    (hdeclared : ∀ name ∈ p.names, name ∈ body.slots)
    (hlength : p.keywords.length = keywords.length)
    (h : ∀ q ∈ p.keywordPromises table before keywords,
      q.holds s (s.slot f (body.slots.idxOf q.name))) :
    p.KeywordsBound table body f before s := by
  simp only [keywordPromises, mem_append, or_imp, forall_and, mem_map] at h
  obtain ⟨⟨hkeywords, hrest⟩, _⟩ := h
  have hheld : ∀ k ∈ p.keywords, ∃ code,
      (p.keywordPromise table (k, code)).holds s (s.slot f (body.slots.idxOf k.value.name)) := by
    intro k hk
    rw [← map_fst_zip (Nat.le_of_eq hlength)] at hk
    obtain ⟨x, hx, rfl⟩ := mem_map.mp hk
    exact ⟨x.2, hkeywords _ ⟨x, hx, rfl⟩⟩
  refine ⟨hdeclared, ?_, ?_, ?_⟩
  · intro k hk v hv
    obtain ⟨_, hpassed | ⟨hnone, _⟩⟩ := hheld k hk
    · exact Option.some.inj (hpassed.symm.trans hv)
    · cases hnone.symm.trans hv
  · intro k hk hnone
    obtain ⟨_, hpassed | ⟨_, hdefault⟩⟩ := hheld k hk
    · cases hpassed.symm.trans hnone
    · exact hdefault
  · intro r hr
    exact hrest _ ⟨r, Option.mem_toList.mpr hr, rfl⟩

end Params

namespace Callable.CompiledTo

variable {k : Callable} {body : Body} {σ : Setting} {store : Store} {f : FrameId}
  {args : List Value} {table : Table Key Value}

/-- Keywords that are passed for no parameter, or that are missing, are refused, and otherwise the
keywords are bound. -/
theorem bindsKeywords (h : k.CompiledTo body) (hstrict : k.kind.isStrict = true)
    (hplain : k.params.isPlain = true) (hnames : k.params.names.Nodup)
    (hliteral : ∀ q ∈ k.params.keywords, ∀ e ∈ q.value.default, e.value.isLiteral = true)
    (hframe : store.HasFrame f body args) (hfits : k.params.Fits (k.params.given args))
    (hdefaults : ∀ o ∈ k.params.optional.drop (k.params.supplied (k.params.given args)),
      o.value.default.value.isLiteral = true)
    (hpassed : store.PassesTable args k.params.arity.required table)
    (hcheck : store.arityFault? k.params.arity args = none) :
    (∀ missing, k.params.missingKeyword? table = some missing → ∃ store', ∀ depth stack,
      σ.Reaches (evaluating store depth stack f body.code)
        (raising store' depth stack (.missingKeyword missing.value.name))) ∧
    (k.params.missingKeyword? table = none →
      ∃ store', σ.Passes f body.code (k.params.names.length + 1) store store' ∧
        k.params.Bound body f args store' ∧ k.params.KeywordsBound table body f store store') := by
  obtain ⟨c, keywords, rest, hlength, hcodes, hitems, hruns⟩ :=
    h.runs hstrict hplain hnames hframe hfits hdefaults hcheck
  constructor
  · intro missing hmissing
    obtain ⟨before, ⟨more, hnamed⟩, hbefore⟩ := named_of_missing hlength hcodes hmissing
    obtain ⟨store', hpasses, hkeeps, _⟩ := hruns σ (before.map (k.params.keywordPromise table))
      ⟨_ :: more, by rw [← hnamed, append_assoc]; rfl⟩
      (forall_mem_map.mpr fun x _ => lasts_keywordPromise x)
      (forall_mem_map.mpr fun x hx => settled_keywordPromise hframe.arguments hpassed
        (hcodes x (hbefore x hx).1) (hliteral x.1 (of_mem_zip (hbefore x hx).1).1)
        (hbefore x hx).2)
    have hdrop : body.code.items.drop (k.params.positionalNames.length +
        (before.map (k.params.keywordPromise table)).length + 1) =
          .writeLocal (.ofSlots body.slots missing.value.name) (.keywordArgument missing.value.name
            k.params.arity.required (.missingKeyword missing.value.name)) ::
          (Code.writes body.slots more ++ rest) := by
      rw [Nat.add_right_comm, ← drop_drop, hitems, ← hnamed, append_assoc,
        Code.writes_append, append_assoc]
      exact drop_left' (by rw [Code.writes, length_map, length_map])
    refine ⟨store', hpasses.raises hdrop fun depth stack => ?_⟩
    -- the keyword is not found, and in place of a default there is the fault
    have hlook := hpassed.keywordArgument? hkeeps.toRetains missing.value.name
    rw [Params.get?_of_missing hmissing] at hlook
    have hfind : ∀ stack, σ.eval store' depth stack f (.keywordArgument missing.value.name
        k.params.arity.required (.missingKeyword missing.value.name)) =
          evaluating store' depth stack f (.missingKeyword missing.value.name) := by
      intro stack
      simp only [eval, hkeeps.arguments.trans hframe.arguments, hlook]
    exact .head rfl (.head (congrArg Step.next (hfind _)) (.head rfl (.single rfl)))
  · intro hmissing
    obtain ⟨store', hpasses, _, hbound, hholds⟩ := hruns σ
      (k.params.keywordPromises table store keywords)
      (binding_keywordPromises store keywords ▸ prefix_rfl)
      lasts_keywordPromises
      (settled_keywordPromises hframe.arguments hpassed hcodes hliteral hmissing)
    refine ⟨store', ?_, hbound, keywordsBound_of_promises hbound.declared hlength hholds⟩
    have hcount : (k.params.keywordPromises table store keywords).length =
        k.params.otherNames.length := by
      rw [← name_otherPromises hlength, length_map, Params.otherPromises,
        length_map, ← binding_keywordPromises store, length_map]
    rwa [hcount, ← length_append] at hpasses

end Callable.CompiledTo

/-- **Keyword binding shares out the keywords that are passed.** A method or lambda with keywords
refuses the first keyword that none of its parameters takes before it has written anything. If there
is none it misses the first required keyword that was not passed, and otherwise every keyword ends
up in its parameter or in the rest of the keywords. -/
theorem Program.lower_bindsKeywords {p : Program} {options : LowerOptions} {u : CodeUnit}
    {k : Callable} (h : p.lower options = .ok u) (hk : p.HasCallable k)
    (hstrict : k.kind.isStrict = true) (hplain : k.params.isPlain = true)
    (hnames : k.params.names.Nodup) (htakes : k.params.takesKeywords = true)
    (hliteral : ∀ q ∈ k.params.keywords, ∀ e ∈ q.value.default, e.value.isLiteral = true) :
    ∃ id body, u.body? id = some body ∧ k.CompiledTo body ∧
      ∀ (σ : Setting) (store : Store) (f : FrameId) (args : List Value) (table : Table Key Value),
        store.HasFrame f body args → k.params.Fits (k.params.given args) →
        store.PassesTable args (k.params.pre.length + k.params.post.length) table →
        (∀ key, k.params.unknownKeyword? table = some key → ∀ depth stack,
          σ.Reaches (Setting.evaluating store depth stack f body.code)
            (Setting.raising store depth stack (.unknownKeyword key.inspect))) ∧
        (k.params.unknownKeyword? table = none →
          (∀ o ∈ k.params.optional.drop (k.params.supplied (k.params.given args)),
            o.value.default.value.isLiteral = true) →
          (∀ missing, k.params.missingKeyword? table = some missing → ∃ store', ∀ depth stack,
            σ.Reaches (Setting.evaluating store depth stack f body.code)
              (Setting.raising store' depth stack (.missingKeyword missing.value.name))) ∧
          (k.params.missingKeyword? table = none →
            ∃ store', σ.Passes f body.code (k.params.names.length + 1) store store' ∧
              k.params.Bound body f args store' ∧
              k.params.KeywordsBound table body f store store')) := by
  obtain ⟨id, body, c, s, s', _, hbody, hcompilation⟩ := p.compiles_of_lower h hk
  have hcompiled : k.CompiledTo body := ⟨c, s, s', hcompilation⟩
  refine ⟨id, body, hbody, hcompiled, fun σ store f args table hframe hfits hpassed => ?_⟩
  have hcheck := PassesTable.arityFault?_eq hpassed htakes hfits
  refine ⟨fun key hkey => hcompiled.raises hstrict hplain hframe ?_, fun hknown hdefaults => ?_⟩
  · rw [hcheck, hkey]
    rfl
  · rw [hknown] at hcheck
    exact hcompiled.bindsKeywords hstrict hplain hnames hliteral hframe hfits hdefaults hpassed
      hcheck

/-- `a, k:, j: 7`. -/
def Params.keyed : Params :=
  ((Params.empty.require "a").withKeyword "k" none).withKeyword "j" (some (Build.integer 7))

def Program.keyedMethod : Program where
  body := [.bare (.define (.bare "m") .keyed [])]

/-- `m` with `a, k:, j: 7` takes `1, k: 2`, misses `k` in `1, j: 3`, and has no use for the text
`"k"` in `1, k: 2, "k" => 0`. -/
theorem Program.keyedMethod_bindsKeywords :
    ∃ u id body, Program.keyedMethod.lower {} = .ok u ∧ u.body? id = some body ∧
      ∀ σ : Setting,
        let called (entries : List (Key × Value)) : Store :=
          (({ hashes := #[⟨entries⟩] } : Store).newFrame {
            body := id, self := .nil, arguments := [.int 1, .hash 0], definee := Store.objectClass,
            slots := Store.blankSlots body.slots.length }).2
        let run (entries : List (Key × Value)) : Machine :=
          Setting.evaluating (called entries) 0 [] 0 body.code
        let unknown : List (Key × Value) := [(.symbol "k", .int 2), (.text "k", .int 0)]
        σ.Reaches (run unknown)
            (Setting.raising (called unknown) 0 [] (.unknownKeyword (Key.text "k").inspect)) ∧
          (∃ store', σ.Reaches (run [(.symbol "j", .int 3)])
            (Setting.raising store' 0 [] (.missingKeyword "k"))) ∧
          ∃ store', σ.Passes 0 body.code 4 (called [(.symbol "k", .int 2)]) store' ∧
            Params.keyed.KeywordsBound ⟨[(.symbol "k", .int 2)]⟩ body 0
              (called [(.symbol "k", .int 2)]) store' := by
  have hlower : Program.keyedMethod.lower {} = .ok (Program.keyedMethod.lowering {}).unit :=
    Program.lower_of_isEmpty (by decide +kernel)
  have hcallable : Program.keyedMethod.HasCallable ⟨.method, {}, .keyed, []⟩ :=
    ⟨_, _, ⟨_, mem_singleton_self _, _, .self _, rfl⟩, mem_singleton_self _⟩
  obtain ⟨id, body, hbody, _, hbinds⟩ := Program.lower_bindsKeywords hlower hcallable rfl rfl
    (by decide) rfl (by decide)
  refine ⟨_, id, body, hlower, hbody, fun σ => ?_⟩
  intro called run unknown
  have hfits : Params.keyed.Fits (Params.keyed.given [.int 1, .hash 0]) :=
    (accepts_iff _ _).mp rfl
  have hbinds := fun entries => hbinds σ (called entries) 0 [.int 1, .hash 0] ⟨entries⟩
    (hasFrame_newFrame _ rfl) hfits (Or.inl ⟨0, rfl, by decide, rfl⟩)
  refine ⟨(hbinds unknown).1 (.text "k") (by decide) 0 [], ?_, ?_⟩
  · obtain ⟨store', hraises⟩ := ((hbinds [(.symbol "j", .int 3)]).2 (by decide) (by decide)).1 _ rfl
    exact ⟨store', hraises 0 []⟩
  · obtain ⟨store', hpasses, _, hbound⟩ :=
      ((hbinds [(.symbol "k", .int 2)]).2 (by decide) (by decide)).2 rfl
    exact ⟨store', hpasses, hbound⟩

end BlockLang
