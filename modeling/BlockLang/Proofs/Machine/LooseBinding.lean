import BlockLang.Proofs.Machine.Destructuring

/-!
# Arguments of blocks

A block takes any number of arguments. What its parameters hold is said of the argument list alone
(`Params.Takes`): with too few arguments for the required parameters nil stands for those that are
not there, and with enough of them they are counted from both ends.

A block of some shapes looks first whether its only argument can be taken apart, and may ask an
object for that. `Setting.TakesWhole` says that nothing is taken apart: the block does not look, or
it has looked and found nothing. **Then the parameters are bound and nothing is raised**
(`Program.lower_bindsLoosely`), whatever the object did that was asked.
-/

namespace BlockLang

open List Setting Code

/-! ## What the parameters are to hold -/

namespace Params

/-- The parameters hold the arguments as far as these go. -/
structure Takes (p : Params) (body : Body) (f : FrameId) (args : List Value) (s : Store) :
    Prop where
  declared : ∀ name ∈ p.names, name ∈ body.slots
  few : args.length < p.pre.length + p.post.length →
    (patternNames p.pre ++ patternNames p.post).map (fun name => s.slot f (body.slots.idxOf name)) =
        args ++ List.replicate (p.pre.length + p.post.length - args.length) .nil ∧
      (∀ o ∈ p.optional,
        s.Shows o.value.default.value (s.slot f (body.slots.idxOf o.value.name))) ∧
      ∀ r ∈ p.rest, ∃ id, s.slot f (body.slots.idxOf r.value.slotName) = .array id ∧
        s.arrays[id]? = some #[]
  enough : p.pre.length + p.post.length ≤ args.length →
    let k := min p.optional.length (args.length - p.pre.length - p.post.length)
    (patternNames p.pre).map (fun name => s.slot f (body.slots.idxOf name)) =
        args.take p.pre.length ∧
      (p.optional.take k).map (fun o => s.slot f (body.slots.idxOf o.value.name)) =
        (args.drop p.pre.length).take k ∧
      (∀ o ∈ p.optional.drop k,
        s.Shows o.value.default.value (s.slot f (body.slots.idxOf o.value.name))) ∧
      (patternNames p.post).map (fun name => s.slot f (body.slots.idxOf name)) =
        args.drop (args.length - p.post.length) ∧
      ∀ r ∈ p.rest, ∃ id, s.slot f (body.slots.idxOf r.value.slotName) = .array id ∧
        s.arrays[id]? = some ((args.take (args.length - p.post.length)).drop
          (p.pre.length + p.optional.length)).toArray

variable {p : Params} {args : List Value} {f : FrameId} {s : Store}

theorem given_of_not_takesKeywords (h : p.takesKeywords = false) : p.given args = args.length := by
  rw [given, h]
  rfl

theorem map_eq_padded {α : Type} {read : α → Value} {as : List α}
    (h : ∀ i a, as[i]? = some a → read a = args.getD i .nil) (hlength : args.length ≤ as.length) :
    as.map read = args ++ List.replicate (as.length - args.length) .nil := by
  refine ext_getElem (by simp [hlength]) fun i hi _ => ?_
  rw [length_map] at hi
  rw [getElem_map, h i _ (List.getElem?_eq_getElem hi), getD_eq_getElem?_getD, getElem_append]
  split
  · rw [List.getElem?_eq_getElem ‹_›]
    rfl
  · rw [List.getElem?_eq_none (Nat.le_of_not_lt ‹_›), getElem_replicate]
    rfl

theorem takes_of_promises {body : Body} {defaults : List Code}
    (hdeclared : ∀ name ∈ p.names, name ∈ body.slots) (hplain : p.isPlain = true)
    (hkeywords : p.takesKeywords = false) (hlength : p.optional.length = defaults.length)
    (h : ∀ q ∈ p.promises source args defaults, q.holds s (s.slot f (body.slots.idxOf q.name))) :
    p.Takes body f args s := by
  have hpreLength := length_patternNames (Bool.and_eq_true_iff.mp hplain).1
  have hpostLength := length_patternNames (Bool.and_eq_true_iff.mp hplain).2
  obtain ⟨hpre, hoptional, hrest, hpost⟩ := kept_of_promises
    (fun name => s.slot f (body.slots.idxOf name)) hlength h
  have hgiven : p.given args = args.length := given_of_not_takesKeywords hkeywords
  simp only [postIndex, restItems, hgiven] at hoptional hrest hpost
  refine ⟨hdeclared, fun hfew => ⟨?_, ?_, ?_⟩, fun henough => ?_⟩
  · rw [← hpreLength, ← hpostLength, ← length_append]
    refine map_eq_padded (fun i name hi => ?_) (by rw [length_append]; omega)
    rw [List.getElem?_append] at hi
    split at hi
    · exact hpre i name hi
    · have hvalue := hpost _ name hi
      have hindex : p.pre.length + (i - (patternNames p.pre).length) = i := by omega
      rwa [if_pos hfew, hindex] at hvalue
  · intro o ho
    obtain ⟨i, hi⟩ := List.getElem?_of_mem ho
    have hvalue := hoptional i o hi
    rwa [if_neg (by unfold supplied; omega)] at hvalue
  · intro r hr
    obtain ⟨id, hid, hitems⟩ := hrest r hr
    refine ⟨id, hid, hitems.trans ?_⟩
    rw [drop_eq_nil_of_le (by rw [length_take]; omega)]
  · obtain ⟨hpre, hoptional, hdefaults, hpost⟩ := stretches_of_promises
      (fun name => s.slot f (body.slots.idxOf name)) hplain hlength (hgiven ▸ henough) h
    rw [hgiven] at hoptional hdefaults hpost
    refine ⟨hpre, hoptional, hdefaults, hpost.trans (take_of_length_le ?_), hrest⟩
    rw [length_drop]
    omega

end Params

/-! ## The code of a block -/

/-- How many items of its code bind the parameters of a block. -/
def Params.bindingItems (p : Params) : Nat :=
  if p.arity.keepsArray then p.names.length else p.blockLocals.length + 1

namespace Setting

variable {σ : Setting} {f : FrameId} {codes rest : List Code} {s s' t : Store} {depth : Nat}
  {stack : List Cont}

/-- The items are next: they are started, or wait for the value of what comes before. -/
inductive AtItems (f : FrameId) (items : List Code) (s : Store) (depth : Nat) (stack : List Cont) :
    Machine → Prop
  | first : AtItems f items s depth stack (Setting.items s depth stack f items)
  | next (v : Value) :
      AtItems f items s depth stack (giving s depth (following f items stack) v)

/-- The block whose code is about to be run takes its arguments as they are: it does not look
whether they can be taken apart, or it has looked and found that they cannot. -/
inductive TakesWhole (σ : Setting) (arity : Arity) (f : FrameId) (code : Code) (m : Machine) :
    Store → Nat → Prop
  | keeping : arity.keepsArray = true → TakesWhole σ arity f code m m.store m.depth
  | asked {unpacked whole : Code} {rest : List Code} {waiting : List Cont} {s : Store}
      {depth : Nat} :
      arity.keepsArray = false → code.items = .ifElse .shouldDestructure unpacked whole :: rest →
      waiting = .branch f unpacked whole :: following f rest m.stack →
      σ.Inside waiting (evaluating m.store m.depth waiting f .shouldDestructure)
        (giving s depth waiting (.bool false)) →
      TakesWhole σ arity f code m s depth

theorem shouldDestructure_eq {args : List Value} (hargs : (s.frame f).arguments = args)
    (h : ∀ v, args = [v] → ¬v.IsArray ∧ s.hasToAry v = false) :
    shouldDestructure s depth stack f = giving s depth stack (.bool false) := by
  unfold shouldDestructure
  rw [hargs]
  split
  · exact absurd ⟨_, rfl⟩ (h _ rfl).1
  · rw [if_neg (by simp [(h _ rfl).2])]
  · rfl

theorem reaches_asked (hcode : code.items = .ifElse .shouldDestructure unpacked whole :: rest)
    (h : σ.Inside (.branch f unpacked whole :: following f rest stack)
      (evaluating s depth (.branch f unpacked whole :: following f rest stack) f
        .shouldDestructure) n) :
    σ.Reaches (evaluating s depth stack f code) n := by
  refine (reaches_items code depth stack).trans ?_
  rw [hcode, items_cons]
  exact .head rfl h.reaches

theorem Runs.of_append : ∀ {codes : List Code} {s : Store},
    σ.Runs f (codes ++ more) s s' → ∃ t, σ.Runs f codes s t ∧ σ.Runs f more t s'
  | [], s, h => ⟨s, .nil s, h⟩
  | _ :: _, _, .cons first h => by
    obtain ⟨t, hcodes, hmore⟩ := Runs.of_append h
    exact ⟨t, .cons first hcodes, hmore⟩

theorem Runs.atItems (h : σ.Runs f codes s t) (depth : Nat) (stack : List Cont) :
    ∃ n, σ.Reaches (Setting.items s depth stack f (codes ++ rest)) n ∧
      AtItems f rest t depth stack n := by
  cases h with
  | nil => exact ⟨_, .refl, .first⟩
  | cons first more =>
    obtain ⟨v, hv⟩ := (Runs.cons first more).items rest
    exact ⟨_, hv depth stack, .next v⟩

theorem Runs.atItems_following (h : σ.Runs f codes s t) (v : Value) (depth : Nat)
    (stack : List Cont) :
    ∃ n, σ.Reaches (giving s depth (Setting.following f (codes ++ rest) stack) v) n ∧
      AtItems f rest t depth stack n := by
  cases h with
  | nil => exact ⟨_, .refl, .next v⟩
  | cons first more =>
    obtain ⟨n, hn, hat⟩ := (Runs.cons first more).atItems depth stack
    exact ⟨n, .head rfl hn, hat⟩

end Setting

variable {σ : Setting} {body : Body} {m : Machine}

theorem Store.HasFrame.reached (hu : σ.unit.WellScoped) {f : FrameId} {args : List Value}
    (h : m.store.HasFrame f body args) (hsound : Sound σ.unit m)
    (hbody : σ.unit.body? (m.store.frame f).body = some body) (hn : σ.Reaches m n) :
    n.store.HasFrame f body args := by
  have hgrows := hn.grows hu hsound
  obtain ⟨steps, hsteps⟩ := hn
  have hpresent := Nat.lt_of_lt_of_le h.present hgrows.size
  refine ⟨hpresent, (hgrows.arguments f h.present).trans h.arguments, ?_⟩
  refine (Sound.after hu hsound hsteps).lexical.slots f hpresent ?_
  rw [hgrows.body f h.present]
  exact hbody

theorem Params.drop_bindingItems {p : Params} {codes after : List Code}
    (hkeeps : p.arity.keepsArray = false)
    (hitems : codes = first :: writes slots p.locals ++ after) :
    codes.drop p.bindingItems = after := by
  have hlength : (writes slots p.locals).length = p.blockLocals.length := by
    rw [writes, Params.locals, length_map, length_map]
  rw [hitems, bindingItems, hkeeps, if_neg Bool.false_ne_true, ← hlength]
  exact drop_left

theorem Callable.CompiledTo.takes {k : Callable} {f : FrameId} {args : List Value}
    (h : k.CompiledTo body) (hblock : k.kind = .block) (hplain : k.params.isPlain = true)
    (hnames : k.params.names.Nodup) (hkeywords : k.params.takesKeywords = false)
    (hdefaults : ∀ o ∈ k.params.optional.drop (k.params.supplied args.length),
      o.value.default.value.isLiteral = true)
    (hcontrol : m.control = .eval f body.code) (hframe : s₁.HasFrame f body args)
    (hwhole : σ.TakesWhole k.params.arity f body.code m s₁ depth₁) :
    ∃ n s, σ.Reaches m n ∧
      AtItems f (body.code.items.drop k.params.bindingItems) s depth₁ m.stack n ∧
      k.params.Takes body f args s := by
  obtain ⟨c, l, l', h⟩ := h
  obtain ⟨hdeclared, optional, keywords, rest, ⟨_, _, _, hoptional, hdefault, hlength, hlength'⟩,
    hitems⟩ := h.items_block hblock hplain
  rw [← Params.given_of_not_takesKeywords hkeywords] at hdefaults
  have hsettled : ∀ q ∈ k.params.promises (.arguments .isNil) args optional, q.Settled σ f s₁ :=
    Params.settled_promises hframe.arguments nofun hplain
      (Params.literal_of_drop hoptional hdefaults)
  have hnone : k.params.keywords = [] := by
    simpa [Params.hasKeywords] using (Bool.or_eq_false_iff.mp hkeywords).1
  have hsupplies : s₁.SuppliesKeywords k.params args := by
    intro x hx
    rw [hnone] at hx
    cases hx
  obtain ⟨s, hruns, -, hpromises, -⟩ := runs_bindings hframe hnames hdeclared hlength hlength'
    hsettled (k.params.binding_otherPromises keywords ▸ prefix_rfl) Params.lasts_others
    (Params.settled_others hframe.arguments hsupplies (Lower.keywordDefaults_ok hdefault))
  have htakes := Params.takes_of_promises hdeclared hplain hkeywords hlength hpromises
  rw [Params.binding_otherPromises, ← append_assoc, writes_append] at hruns
  obtain ⟨s₂, hwrites, hlocals⟩ := hruns.of_append
  obtain ⟨store, depth, stack, control⟩ := m
  cases hcontrol
  cases hwhole with
  | keeping hkeeps =>
    rw [if_pos hkeeps] at hitems
    have hdrop : body.code.items.drop k.params.bindingItems = rest := by
      rw [hitems, Params.bindingItems, if_pos hkeeps, ← writes_append,
        ← Params.map_fst_bindings hlength hlength', ← length_writes body.slots]
      exact drop_left
    obtain ⟨n, hn, hat⟩ := (hwrites.append hlocals).atItems depth stack
    refine ⟨n, s, (reaches_items body.code depth stack).trans ?_, hdrop ▸ hat, htakes⟩
    rw [hitems]
    exact hn
  | asked hkeeps hcode hwaiting hinside =>
    rw [hkeeps, if_neg Bool.false_ne_true] at hitems
    obtain ⟨_, hitems⟩ := hitems
    cases hcode.symm.trans hitems
    cases hwaiting
    rw [← flatMap_items solid_writes] at hwrites
    obtain ⟨v, hv⟩ := hwrites.join fun code hcode => (solid_writes code hcode).isFirm
    obtain ⟨n, hn, hat⟩ := hlocals.atItems_following v depth₁ stack
    exact ⟨n, s, (reaches_asked hitems hinside).trans (.head rfl ((hv depth₁ _).trans hn)),
      Params.drop_bindingItems hkeeps hitems ▸ hat, htakes⟩

theorem Callable.CompiledTo.takesWhole {k : Callable} {f : FrameId} {args : List Value}
    (h : k.CompiledTo body) (hblock : k.kind = .block) (hplain : k.params.isPlain = true)
    (hframe : m.store.HasFrame f body args)
    (hwhole : ∀ v, args = [v] → ¬v.IsArray ∧ m.store.hasToAry v = false) :
    σ.TakesWhole k.params.arity f body.code m m.store m.depth := by
  cases hkeeps : k.params.arity.keepsArray with
  | true => exact .keeping hkeeps
  | false =>
    obtain ⟨_, _, _, h⟩ := h
    obtain ⟨_, _, _, _, _, hitems⟩ := h.items_block hblock hplain
    rw [hkeeps, if_neg Bool.false_ne_true] at hitems
    obtain ⟨_, hitems⟩ := hitems
    refine .asked hkeeps hitems rfl (.eval ?_)
    show σ.Inside _ (shouldDestructure _ _ _ f) _
    rw [shouldDestructure_eq hframe.arguments hwhole]
    exact .start

/-- **Permissive binding.** A block with plain parameters, all different, and no keywords binds any
number of arguments that it does not take apart, and raises nothing: its parameters hold what
`Params.Takes` says when the rest of its code is next. An argument that is no array and cannot be
asked for one is not taken apart. -/
theorem Program.lower_bindsLoosely {p : Program} {options : LowerOptions} {σ : Setting}
    {k : Callable} (h : p.lower options = .ok σ.unit) (hk : p.HasCallable k)
    (hblock : k.kind = .block) (hplain : k.params.isPlain = true) (hnames : k.params.names.Nodup)
    (hkeywords : k.params.takesKeywords = false)
    (hdefaults : ∀ o ∈ k.params.optional, o.value.default.value.isLiteral = true) :
    ∃ id body, σ.unit.body? id = some body ∧ k.CompiledTo body ∧
      ∀ {turns : List Turn} {events : List Event} {session : Session} {m : Machine} {f : FrameId}
        {args : List Value}, σ.unit.play σ.capture {} turns = some (events, session) →
        σ.Reaches (σ.start session) m → m.control = .eval f body.code →
        (m.store.frame f).body = id → m.store.HasFrame f body args →
        ((∀ v, args = [v] → ¬v.IsArray ∧ m.store.hasToAry v = false) →
          σ.TakesWhole k.params.arity f body.code m m.store m.depth) ∧
        ∀ s₁ depth₁, σ.TakesWhole k.params.arity f body.code m s₁ depth₁ → ∃ n s, σ.Reaches m n ∧
          Setting.AtItems f (body.code.items.drop k.params.bindingItems) s depth₁ m.stack n ∧
          k.params.Takes body f args s := by
  have hu := lower_wellScoped h
  obtain ⟨id, body, c, l, l', _, hbody, hcompilation⟩ := p.compiles_of_lower h hk
  have hcompiled : k.CompiledTo body := ⟨c, l, l', hcompilation⟩
  refine ⟨id, body, hbody, hcompiled, ?_⟩
  intro turns events session m f args hplay hm hcontrol hid hframe
  refine ⟨hcompiled.takesWhole hblock hplain hframe, ?_⟩
  intro s₁ depth₁ hwhole
  have hsound := Sound.reached hu hplay hm
  have hframe₁ : s₁.HasFrame f body args := by
    cases hwhole with
    | keeping => exact hframe
    | asked _ hcode hwaiting hinside =>
      obtain ⟨store, depth, stack, control⟩ := m
      cases hcontrol
      cases hwaiting
      exact hframe.reached hu hsound (hid ▸ hbody) (reaches_asked hcode hinside)
  exact hcompiled.takes hblock hplain hnames hkeywords
    (fun o ho => hdefaults o (mem_of_mem_drop ho)) hcontrol hframe₁ hwhole

/-- `a, b = 7, *c, d`. -/
def Params.roomy : Params :=
  (((Params.empty.require "a").withOptional "b" (Build.integer 7)).withRest (some "c")).requireAfter
    "d"

/-- `def m() yield 5 end`, and `m` with a block of these parameters. -/
def Program.yieldsFive : Program where
  body := [Build.define "m" Params.empty [Build.yield [Build.integer 5]],
    Build.callWithBlock none "m" [] (Build.block .roomy [])]

def Setting.yieldsFive : Setting := .of Program.yieldsFive

/-- `a` is 5, `b` is 7, `c` is empty and `d` is nil when the block begins. -/
theorem Setting.yieldsFive_binds : Program.yieldsFive.lower {} = .ok yieldsFive.unit ∧
    ∃ (body : Body) (f : FrameId) (n : Machine) (s : Store) (depth : Nat) (stack : List Cont),
      yieldsFive.Reaches (yieldsFive.start {}) n ∧
      AtItems f (body.code.items.drop 1) s depth stack n ∧
      ["a", "d"].map (fun name => s.slot f (body.slots.idxOf name)) = [.int 5, .nil] ∧
      s.slot f (body.slots.idxOf "b") = .int 7 := by
  have hlower : Program.yieldsFive.lower {} = .ok yieldsFive.unit :=
    Program.lower_of_setting rfl (by decide +kernel)
  have hcallable : Program.yieldsFive.HasCallable ⟨.block, {}, .roomy, []⟩ :=
    ⟨_, _, ⟨_, .tail _ (.head _), _, .self _, rfl⟩, mem_singleton_self _⟩
  obtain ⟨id, body, hbody, ⟨_, _, _, hcompilation⟩, hbinds⟩ := Program.lower_bindsLoosely hlower
    hcallable rfl rfl (by decide) rfl (by decide)
  obtain rfl : id = 2 := CodeUnit.eq_of_mem_slots (by decide +kernel) hbody
    ((hcompilation.items_block rfl rfl).1 "a" (by decide))
  have hσ := Eq.refl yieldsFive
  conv at hσ => rhs; cbv
  have hlast := hbody
  conv at hlast => lhs; rw [hσ]; cbv
  cases hlast
  have hm := Eq.refl (yieldsFive.after 14 (yieldsFive.start {}))
  conv at hm => rhs; rw [hσ]; cbv
  have hreaches : yieldsFive.Reaches (yieldsFive.start {}) _ := ⟨14, hm⟩
  obtain ⟨hwhole, htakes⟩ := hbinds CodeUnit.play_nil hreaches rfl rfl
    ⟨by decide, rfl, rfl⟩
  obtain ⟨n, s, hn, hat, htakes⟩ := htakes _ _ (hwhole fun v hv => by
    cases hv
    exact ⟨by rintro ⟨_, ⟨⟩⟩, rfl⟩)
  obtain ⟨hrequired, hdefaults, _⟩ := htakes.few (by decide)
  exact ⟨hlower, _, _, n, s, _, _, hreaches.trans hn, hat, hrequired,
    hdefaults _ (mem_singleton_self _)⟩

end BlockLang
