import BlockLang.Proofs.Lowering.Surroundings
import BlockLang.Proofs.Syntax.Placement

/-!
# What a part of lowering has to see to

Every part of lowering looks after some expressions: it lowers each of them, it makes a check or
two of its own, and it compiles the callables that are written out there (`Duty`). `Lower.Exact`
says that a part does so exactly: **it goes through without a mistake if and only if its checks hold
and all its expressions are legally placed**, and after that every callable in them is compiled.

The rules of `Lower.Exact` follow the `do` blocks, and duties only add up, so the order in which a
form lowers its parts, and how often, never shows: a target that is lowered three times is on the
list three times, and a list is read for what is on it.

What lowering knows of the place is in two parts, the context that is handed down and the scope it
is in. `Context.Stands` says that both fit the enclosures of the tree. A program with mistakes is
lowered to the end, so this has to hold after a mistake as well; it does, because lowering leaves
its surroundings as they were (`Proofs/Lowering/Surroundings.lean`).
-/

namespace BlockLang

open List LoweringState Lower

/-! ## Compiled callables -/

/-- The names whose variables a bare `super` reads. -/
def Params.replayNames (p : Params) : List String :=
  Params.patternNames p.pre ++ p.optional.map (·.value.name) ++
    p.rest.toList.map (·.value.slotName)

/-- How the body of a callable was made: in a new scope, without a mistake. -/
structure Callable.Compilation (k : Callable) (c : Context) (s s' : LoweringState)
    (body : Body) : Prop where
  sound : s.Sound
  newest : c.scope + 1 = s.nextBody
  fresh : ∃ own, s.scopes.get? c.scope = some own ∧ own.slots = []
  kind : c.kind = k.kind
  method : k.kind = .method → c.method = some k.params
  run : Lower.callable k.params (Lower.binding k.span k.params) (Lower.statements k.body) c s =
    .ok body.code s'
  clean : s'.mistakes = s.mistakes
  body : body =
    s'.bodyOf c.scope body.name k.kind c.scope k.params.arity k.span body.code

/-- The body was made of the callable. -/
def Callable.CompiledTo (k : Callable) (body : Body) : Prop := ∃ c s s', k.Compilation c s s' body

/-- The unit has the body of the callable, at the place `start` or a later one. -/
def CodeUnit.Compiles (u : CodeUnit) (start : BodyId) (k : Callable) : Prop :=
  ∃ id body c s s', start ≤ id ∧ u.body? id = some body ∧ k.Compilation c s s' body

theorem CodeUnit.Compiles.earlier {u : CodeUnit} {start : BodyId} {k : Callable}
    (h : u.Compiles start k) (hle : start' ≤ start) : u.Compiles start' k := by
  obtain ⟨id, body, c, s, s', hid, hbody, hk⟩ := h
  exact ⟨id, body, c, s, s', Nat.le_trans hle hid, hbody, hk⟩

/-- A callable that is written out somewhere in the expression. -/
def Expr.Writes (e : Located Expr) (k : Callable) : Prop :=
  ∃ around x, Expr.Within e around x ∧ k ∈ Expr.callables x

theorem Expr.writes_iff {k : Callable} : Expr.Writes e k ↔
      k ∈ Expr.callables e ∨ ∃ q part, (q, part) ∈ e.value.parts ∧ Expr.Writes part k := by
  constructor
  · rintro ⟨around, x, hx, hk⟩
    cases hx with
    | self => exact Or.inl hk
    | part hpart hx => exact Or.inr ⟨_, _, hpart, _, x, hx, hk⟩
  · rintro (hk | ⟨q, part, hpart, around, x, hx, hk⟩)
    · exact ⟨[], e, .self e, hk⟩
    · exact ⟨around ++ q, x, .part hpart hx, hk⟩

/-! ## Duties -/

/-- What a part of lowering looks after. -/
structure Duty where
  /-- The checks that it makes itself. -/
  own : Prop
  /-- The expressions that it lowers. -/
  parts : Parts
  /-- The callables that it compiles. -/
  callables : List Callable

namespace Duty

def nothing : Duty := ⟨True, [], []⟩

def check (p : Prop) : Duty := ⟨p, [], []⟩

def exprs (es : List (Located Expr)) : Duty := ⟨True, Parts.here es, []⟩

/-- All that a node consists of. -/
def node (around : List Enclosure) (e : Located Expr) : Duty :=
  ⟨e.value.legalIn around = true, e.value.parts, Expr.callables e⟩

instance : Append Duty :=
  ⟨fun d d' => ⟨d.own ∧ d'.own, d.parts ++ d'.parts, d.callables ++ d'.callables⟩⟩

/-- The duty as it looks from outside of the body or loop that it is done in. -/
def inside (k : Enclosure) (d : Duty) : Duty :=
  ⟨d.own, d.parts.map fun part => (part.1 ++ [k], part.2), d.callables⟩

@[simp] theorem own_append (d d' : Duty) : (d ++ d').own = (d.own ∧ d'.own) := rfl

@[simp] theorem parts_append (d d' : Duty) : (d ++ d').parts = d.parts ++ d'.parts := rfl

@[simp] theorem callables_append (d d' : Duty) :
    (d ++ d').callables = d.callables ++ d'.callables := rfl

@[simp] theorem own_exprs (es : List (Located Expr)) : (exprs es).own = True := rfl

@[simp] theorem parts_exprs (es : List (Located Expr)) : (exprs es).parts = Parts.here es := rfl

@[simp] theorem callables_exprs (es : List (Located Expr)) : (exprs es).callables = [] := rfl

@[simp] theorem own_check (p : Prop) : (check p).own = p := rfl

@[simp] theorem parts_check (p : Prop) : (check p).parts = [] := rfl

@[simp] theorem callables_check (p : Prop) : (check p).callables = [] := rfl

@[simp] theorem own_nothing : nothing.own = True := rfl

@[simp] theorem parts_nothing : nothing.parts = [] := rfl

@[simp] theorem callables_nothing : nothing.callables = [] := rfl

/-- The checks hold and the expressions are legally placed. -/
def Legal (around : List Enclosure) (d : Duty) : Prop := d.own ∧ Expr.LegalParts around d.parts

/-- Every callable is compiled, at the place `start` or a later one. -/
def Done (u : CodeUnit) (start : BodyId) (d : Duty) : Prop :=
  ∀ k, (k ∈ d.callables ∨ ∃ part ∈ d.parts, Expr.Writes part.2 k) → u.Compiles start k

/-- Duties with the same on their lists. -/
def Same (d' d : Duty) : Prop :=
  (d'.own ↔ d.own) ∧ (∀ part, part ∈ d'.parts ↔ part ∈ d.parts) ∧
    ∀ k ∈ d'.callables, k ∈ d.callables

variable {around : List Enclosure} {d : Duty} {u : CodeUnit} {start : BodyId}

theorem legal_append {d' : Duty} : (d ++ d').Legal around ↔ d.Legal around ∧ d'.Legal around := by
  constructor
  · rintro ⟨⟨hown, hown'⟩, hparts⟩
    exact ⟨⟨hown, fun k e he => hparts k e (mem_append_left _ he)⟩,
      ⟨hown', fun k e he => hparts k e (mem_append_right _ he)⟩⟩
  · rintro ⟨⟨hown, hparts⟩, ⟨hown', hparts'⟩⟩
    exact ⟨⟨hown, hown'⟩, fun k e he => (mem_append.mp he).elim (hparts k e) (hparts' k e)⟩

theorem done_append {d' : Duty} (h : d.Done u start) (h' : d'.Done u start) :
    (d ++ d').Done u start := by
  rintro k (hk | ⟨part, hpart, hk⟩)
  · rcases mem_append.mp hk with hk | hk
    · exact h k (Or.inl hk)
    · exact h' k (Or.inl hk)
  · rcases mem_append.mp hpart with hpart | hpart
    · exact h k (Or.inr ⟨part, hpart, hk⟩)
    · exact h' k (Or.inr ⟨part, hpart, hk⟩)

theorem legal_inside {k : Enclosure} : (d.inside k).Legal around ↔ d.Legal (k :: around) := by
  unfold Legal inside Expr.LegalParts
  refine and_congr_right fun _ => ?_
  constructor
  · intro h q e he
    have hq := h (q ++ [k]) e (mem_map.mpr ⟨(q, e), he, rfl⟩)
    rwa [append_assoc] at hq
  · intro h q e he
    obtain ⟨part, hpart, heq⟩ := mem_map.mp he
    cases heq
    rw [append_assoc]
    exact h part.1 part.2 hpart

theorem done_inside {k : Enclosure} (h : d.Done u start) : (d.inside k).Done u start := by
  rintro f (hf | ⟨part, hpart, hf⟩)
  · exact h f (Or.inl hf)
  · obtain ⟨inner, hinner, rfl⟩ := mem_map.mp hpart
    exact h f (Or.inr ⟨inner, hinner, hf⟩)

theorem legal_node : (exprs [e]).Legal around ↔ (node around e).Legal around := by
  have hexpr : (exprs [e]).Legal around ↔ Expr.Legal around e := by
    simp [Legal, exprs, Expr.LegalParts, Parts.here]
  rw [hexpr, Expr.legal_iff]
  rfl

theorem done_node (h : (node around e).Done u start) : (exprs [e]).Done u start := by
  rintro k (hk | ⟨part, hpart, hk⟩)
  · exact absurd hk (by simp [exprs])
  · have hpart : part = ([], e) := by simpa [exprs, Parts.here] using hpart
    subst hpart
    rcases Expr.writes_iff.mp hk with hk | ⟨q, part, hpart, hk⟩
    · exact h k (Or.inl hk)
    · exact h k (Or.inr ⟨(q, part), hpart, hk⟩)

end Duty

/-! ## The place of a part -/

/-- Neither variables nor default values are checked. -/
def LowerOptions.isLenient (o : LowerOptions) : Bool :=
  !o.rejectForwardReferences && !o.strictLocals

/-- The context and its scope fit what stands around them in the tree. -/
structure Context.Stands (c : Context) (around : List Enclosure) (s : LoweringState) : Prop where
  sound : s.Sound
  scope : c.scope < s.nextBody
  kind : c.kind.isClosure = Enclosure.inClosure around
  inLoop : c.inLoop = Enclosure.inLoop around
  method : c.method = Enclosure.method? around
  returns : (s.returnOf c.scope).isSome = Enclosure.canReturn around
  breaks : (s.breakOf c.scope).isSome = (Enclosure.inClosure around || Enclosure.inLoop around)

/-- The variables that a bare `super` reads are known. -/
def Context.Replays (c : Context) (s : LoweringState) : Prop :=
  ∀ params, c.method = some params →
    ∀ name ∈ params.replayNames, (s.scopes.lookup c.scope name).isSome

/-- The enclosure is that of a body of the kind. -/
inductive Enclosure.Opens : Enclosure → BodyKind → Prop
  | program : Opens .program .topLevel
  | method (params : Params) : Opens (.method params) .method
  | classBody : Opens .classBody .classBody
  | moduleBody : Opens .classBody .moduleBody
  | block : Opens .block .block
  | lambda : Opens .lambda .lambda

namespace Context.Stands

variable {c inner : Context} {around : List Enclosure} {s : LoweringState} {kind : BodyKind}
  {k : Enclosure}

theorem enter (hs : s.Sound) (hclosure : kind.isClosure = true → c.Stands around s)
    (hopens : k.Opens kind) (hscope : inner.scope = (s.scopes.openScope c.scope kind).1)
    (hkind : inner.kind = kind) (hloop : inner.inLoop = false)
    (hmethod : inner.method = Enclosure.method? (k :: around)) :
    inner.Stands (k :: around) (s.enter c.scope kind) := by
  have hnew : inner.scope = s.nextBody := hscope.trans (openScope_fst hs)
  have hreturns := returnOf_enter hs c.scope kind
  have hbreaks := breakOf_enter hs c.scope kind
  refine ⟨sound_enter hs fun h => (hclosure h).scope, ?_, ?_, ?_, hmethod, ?_, ?_⟩
  · rw [hnew]
    exact Nat.lt_succ_self _
  · rw [hkind]
    cases hopens <;> rfl
  · rw [hloop]
    cases hopens <;> rfl
  · rw [hnew, hreturns]
    cases hopens with
    | block => exact (hclosure rfl).returns
    | _ => rfl
  · rw [hnew, hbreaks]
    cases hopens <;> rfl

theorem enterLoop (hc : c.Stands around s) :
    { c with inLoop := true }.Stands (.loop :: around) (s.enterLoop c.scope) := by
  have hmem := hc.sound.mem_ancestry hc.scope
  have ha := advances_enterLoop hc.sound hmem
  refine ⟨ha.sound, hc.scope, hc.kind, rfl, hc.method, ?_, ?_⟩
  · rw [ha.returnOf hc.sound hc.scope]
    exact hc.returns
  · rw [breakOf_enterLoop hc.sound hc.scope]
    simp [Enclosure.inLoop, Enclosure.isLoop]

end Context.Stands

namespace Context.Replays

variable {c inner : Context} {s : LoweringState}

theorem enterLoop (hs : s.Sound) (hk : c.scope < s.nextBody) (hr : c.Replays s) :
    { c with inLoop := true }.Replays (s.enterLoop c.scope) := by
  have hmem := hs.mem_ancestry hk
  have ha := advances_enterLoop hs hmem
  intro params hp name hname
  exact ha.grows.lookup_isSome hs.wellFormed ha.sound.wellFormed (hs.size ▸ hk)
    (hr params hp name hname)

theorem enter {kind : BodyKind} (hs : s.Sound) (hk : c.scope < s.nextBody)
    (hkind : kind.isClosure = true) (hr : c.Replays s)
    (hscope : inner.scope = (s.scopes.openScope c.scope kind).1)
    (hmethod : inner.method = c.method) : inner.Replays (s.enter c.scope kind) := by
  intro params hp name hname
  rw [hscope, openScope_fst hs]
  exact lookup_enter hs hk hkind (hr params (hmethod ▸ hp) name hname)

end Context.Replays

/-- Something that lowering does, whatever it obtains. -/
def Lowers.Reaches (c : Context) (s s' : LoweringState) : Prop := ∃ out, Lowers c s out s'

namespace Lowers.Reaches

variable {c : Context} {s s₁ s₂ : LoweringState}

theorem refl : Reaches c s s := ⟨_, .nothing⟩

theorem trans (h₁ : Reaches c s s₁) (h₂ : Reaches c s₁ s₂) : Reaches c s s₂ :=
  let ⟨_, h₁⟩ := h₁
  let ⟨_, h₂⟩ := h₂
  ⟨_, .append h₁ h₂⟩

theorem advances (h : Reaches c s s₁) (hs : s.Sound) (hk : c.scope < s.nextBody) :
    s.Advances (s.scopes.ancestry c.scope) s₁ :=
  let ⟨_, h⟩ := h
  h.advances hs hk

theorem compiles (h : Reaches c s s₁) (hs : s.Sound) (hk : c.scope < s.nextBody)
    {start : BodyId} {k : Callable} (hc : s.unit.Compiles start k) :
    s₁.unit.Compiles start k := by
  obtain ⟨id, body, c', t, t', hid, hbody, hk'⟩ := hc
  exact ⟨id, body, c', t, t', hid, (h.advances hs hk).body? hs hbody, hk'⟩

theorem stands {around : List Enclosure} (h : Reaches c s s₁) (hc : c.Stands around s) :
    c.Stands around s₁ := by
  have ha := h.advances hc.sound hc.scope
  obtain ⟨_, hl⟩ := h
  refine ⟨ha.sound, ha.lt hc.sound hc.scope, hc.kind, hc.inLoop,
    hc.method, ?_, ?_⟩
  · rw [ha.returnOf hc.sound hc.scope]
    exact hc.returns
  · rw [hl.breakOf hc.sound hc.scope]
    exact hc.breaks

theorem replays (h : Reaches c s s₁) (hs : s.Sound) (hk : c.scope < s.nextBody)
    (hr : c.Replays s) : c.Replays s₁ := by
  have ha := h.advances hs hk
  intro params hp name hname
  exact ha.grows.lookup_isSome hs.wellFormed ha.sound.wellFormed (hs.size ▸ hk)
    (hr params hp name hname)

end Lowers.Reaches

namespace Lower

open Lowers (Reaches)

variable {α β : Type} {c : Context} {around : List Enclosure} {d d' : Duty}

/-- The outcome of a part that saw to its duty. -/
def Outcome (c : Context) (around : List Enclosure) (d : Duty) (s : LoweringState) :
    EStateM.Result Diagnostic LoweringState α → Prop
  | .ok _ s' => Reaches c s s' ∧
      (c.options.isLenient = true → (s'.mistakes = s.mistakes ↔ d.Legal around)) ∧
      (s'.mistakes = s.mistakes → d.Done s'.unit s.nextBody)
  | .error _ s' => Reaches c s s' ∧ (c.options.isLenient = true → ¬d.Legal around)

/-- The part sees to its duty, wherever it stands. -/
def Exact (m : Lower α) (c : Context) (around : List Enclosure) (d : Duty) : Prop :=
  ∀ s, c.Stands around s → c.Replays s → Outcome c around d s (m c s)

variable {s s₁ : LoweringState}

/-- Mistakes are only added, so a run without one had none on the way. -/
theorem mistakes_trans {s₂ : LoweringState} (hs : s.Sound) (hk : c.scope < s.nextBody)
    (h₁ : Reaches c s s₁) (h₂ : Reaches c s₁ s₂) :
    s₂.mistakes = s.mistakes ↔ s₁.mistakes = s.mistakes ∧ s₂.mistakes = s₁.mistakes := by
  have ha₁ := h₁.advances hs hk
  have ha₂ := h₂.advances ha₁.sound (ha₁.lt hs hk)
  constructor
  · intro h
    have hle := ha₂.mistakes
    rw [h] at hle
    have h₁ := List.IsPrefix.eq_of_length_le hle ha₁.mistakes.length_le
    exact ⟨h₁, h.trans h₁.symm⟩
  · rintro ⟨h₁, h₂⟩
    exact h₂.trans h₁

theorem ok_of_bind {m : Lower α} {f : α → Lower β} {s₂ : LoweringState}
    (h : (m >>= f) c s = .ok b s₂) : ∃ a s₁, m c s = .ok a s₁ ∧ f a c s₁ = .ok b s₂ := by
  cases hm : m c s with
  | ok a s₁ => exact ⟨a, s₁, rfl, (run_bind hm).symm.trans h⟩
  | error e s₁ => simp [bind_run, hm] at h

/-- What comes before a part may go to its account if it found no mistake and made no body. -/
theorem Outcome.from (h : Outcome c around d s₁ r) (hreach : Reaches c s s₁)
    (hmistakes : s₁.mistakes = s.mistakes) (hnext : s₁.nextBody = s.nextBody) :
    Outcome c around d s r := by
  cases r with
  | error e s' => exact ⟨hreach.trans h.1, h.2⟩
  | ok a s' =>
    refine ⟨hreach.trans h.1, ?_, ?_⟩
    · rw [← hmistakes]
      exact h.2.1
    · rw [← hmistakes, ← hnext]
      exact h.2.2

namespace Exact

/-! ## Rules for `do` blocks -/

variable {m : Lower α} {f : α → Lower β}

theorem quiet (h : ∀ s, ∃ a s', m c s = .ok a s' ∧ Reaches c s s' ∧
    s'.mistakes = s.mistakes) : Exact m c around .nothing := by
  intro s _ _
  obtain ⟨a, s', hrun, hreach, hm⟩ := h s
  rw [hrun]
  refine ⟨hreach, fun _ => ?_, fun _ k hk => ?_⟩
  · simp [hm, Duty.Legal, Duty.nothing, Expr.LegalParts]
  · simp [Duty.nothing] at hk

theorem pure : Exact (Pure.pure a : Lower α) c around .nothing :=
  quiet fun s => ⟨a, s, rfl, .refl, rfl⟩

theorem bind (hm : Exact m c around d) (hf : ∀ a, Exact (f a) c around d') :
    Exact (m >>= f) c around (d ++ d') := by
  intro s hc hr
  have hm := hm s hc hr
  rw [bind_run]
  cases hs : m c s with
  | error e s₁ =>
    rw [hs] at hm
    exact ⟨hm.1, fun hl h => hm.2 hl (Duty.legal_append.mp h).1⟩
  | ok a s₁ =>
    rw [hs] at hm
    obtain ⟨hreach, hlegal, hdone⟩ := hm
    have hc₁ := hreach.stands hc
    have hf := hf a s₁ hc₁ (hreach.replays hc.sound hc.scope hr)
    simp only
    cases hs₁ : f a c s₁ with
    | error e s₂ =>
      rw [hs₁] at hf
      exact ⟨hreach.trans hf.1, fun hl h => hf.2 hl (Duty.legal_append.mp h).2⟩
    | ok b s₂ =>
      rw [hs₁] at hf
      obtain ⟨hreach', hlegal', hdone'⟩ := hf
      have hclean := mistakes_trans hc.sound hc.scope hreach hreach'
      refine ⟨hreach.trans hreach', fun hl => ?_, fun h => ?_⟩
      · rw [hclean, Duty.legal_append, hlegal hl, hlegal' hl]
      · obtain ⟨h₁, h₂⟩ := hclean.mp h
        have hle := (hreach.advances hc.sound hc.scope).nextBody_le hc.sound
        refine Duty.done_append (fun k hk => ?_) (fun k hk => (hdone' h₂ k hk).earlier hle)
        exact hreach'.compiles hc₁.sound hc₁.scope (hdone h₁ k hk)

theorem congr (h : Exact m c around d) (hlegal : d'.Legal around ↔ d.Legal around)
    (hdone : ∀ u start, d.Done u start → d'.Done u start) : Exact m c around d' := by
  intro s hc hr
  have hm := h s hc hr
  cases hs : m c s with
  | error e s₁ =>
    rw [hs] at hm
    exact ⟨hm.1, fun hl h => hm.2 hl (hlegal.mp h)⟩
  | ok a s₁ =>
    rw [hs] at hm
    exact ⟨hm.1, fun hl => (hm.2.1 hl).trans hlegal.symm, fun h => hdone _ _ (hm.2.2 h)⟩

theorem same (h : Exact m c around d) (hsame : d'.Same d) : Exact m c around d' := by
  obtain ⟨hown, hparts, hcallables⟩ := hsame
  refine h.congr ?_ fun u start hdone k hk => ?_
  · unfold Duty.Legal Expr.LegalParts
    simp only [hown, hparts]
  · rcases hk with hk | ⟨part, hpart, hk⟩
    · exact hdone k (Or.inl (hcallables k hk))
    · exact hdone k (Or.inr ⟨part, (hparts part).mp hpart, hk⟩)

theorem node (h : Exact m c around d) (hsame : (Duty.node around e).Same d) :
    Exact m c around (.exprs [e]) :=
  (h.same hsame).congr Duty.legal_node fun _ _ => Duty.done_node

theorem after (hm : Exact m c around .nothing) (hf : ∀ a, Exact (f a) c around d) :
    Exact (m >>= f) c around d :=
  (hm.bind hf).same (by simp [Duty.Same])

theorem ending (hm : Exact m c around d) (hf : ∀ a, Exact (f a) c around .nothing) :
    Exact (m >>= f) c around d :=
  (hm.bind hf).same (by simp [Duty.Same])

/-- Seeing to something twice is as good as once. -/
theorem twice (h : Exact m c around (d ++ d)) : Exact m c around d :=
  h.same (by simp [Duty.Same])

theorem map {f : α → β} (h : Exact m c around d) : Exact (f <$> m) c around d := by
  rw [map_eq_pure_bind]
  exact h.ending fun _ => .pure

theorem fail {mistake : Mistake} {span : Span} (h : c.options.isLenient = true → ¬d.Legal around) :
    Exact (fail mistake span : Lower α) c around d :=
  fun _ _ _ => ⟨.refl, h⟩

theorem recover (hm : Exact m c around d) : Exact (recover fallback m) c around d := by
  intro s hc hr
  have hm := hm s hc hr
  rw [recover_run]
  cases hs : m c s with
  | ok a s' =>
    rw [hs] at hm
    exact hm
  | error e s' =>
    rw [hs] at hm
    obtain ⟨hreach, hnot⟩ := hm
    -- the mistake that is reported makes the list longer than it was
    have hmore : s'.mistakes ++ [e] ≠ s.mistakes := by
      intro heq
      have hle := (hreach.advances hc.sound hc.scope).mistakes.length_le
      have hlen := congrArg List.length heq
      simp only [length_append, length_singleton] at hlen
      omega
    refine ⟨hreach.trans ⟨_, .recovered e .mistake⟩, fun hl => ?_, fun h => ?_⟩
    · exact ⟨fun h => absurd h hmore, fun h => absurd h (hnot hl)⟩
    · exact absurd h hmore

theorem inContext {change : Change} (hscope : (change.make c).scope = c.scope)
    (hkind : (change.make c).kind = c.kind) (hloop : (change.make c).inLoop = c.inLoop)
    (hmethod : (change.make c).method = c.method)
    (hoptions : (change.make c).options = c.options) (hm : Exact m (change.make c) around d) :
    Exact (during change m) c around d := by
  intro s hc hr
  have hstands : (change.make c).Stands around s :=
    ⟨hc.sound, hscope ▸ hc.scope, hkind ▸ hc.kind, hloop ▸ hc.inLoop, hmethod ▸ hc.method,
      hscope ▸ hc.returns, hscope ▸ hc.breaks⟩
  have hreplays : (change.make c).Replays s := by
    intro params hp
    rw [hscope]
    exact hr params (hmethod ▸ hp)
  have hreach : ∀ {s'}, Reaches (change.make c) s s' → Reaches c s s' :=
    fun ⟨_, h⟩ => ⟨_, .inside h hscope hmethod⟩
  have hm := hm s hstands hreplays
  rw [during_run]
  cases hs : m (change.make c) s with
  | error e s' | ok a s' =>
    rw [hs] at hm
    exact ⟨hreach hm.1, hoptions ▸ hm.2⟩

/-! ## Variables -/

theorem resolve? (name : String) : Exact (resolve? name) c around .nothing :=
  quiet fun _ => ⟨_, _, rfl, ⟨_, .reference (.known name)⟩, rfl⟩

theorem resolveForAssignment (name : String) :
    Exact (resolveForAssignment name) c around .nothing :=
  quiet fun _ => ⟨_, _, rfl, ⟨_, .reference (.assigned name)⟩, rfl⟩

theorem readLocal (name : String) (span : Span) :
    Exact (readLocal name span) c around .nothing := by
  refine (resolve? name).after fun found => ?_
  cases found with
  | some l => exact .pure
  | none =>
    show Exact (if c.options.strictLocals then _ else _) c around .nothing
    cases hstrict : c.options.strictLocals with
    | true => exact .fail fun hl => by simp [LowerOptions.isLenient, hstrict] at hl
    | false => exact (resolveForAssignment name).after fun _ => .pure

theorem mapM : ∀ {as : List α}, (∀ a ∈ as, Exact (f a) c around .nothing) →
    Exact (as.mapM f) c around .nothing
  | [], _ => by
    rw [mapM_nil]
    exact .pure
  | a :: rest, h => by
    rw [mapM_cons]
    refine (h a mem_cons_self).after fun _ => ?_
    exact (mapM fun b hb => h b (mem_cons_of_mem _ hb)).after fun _ => .pure

/-! ## The checks of placement -/

theorem place (h : ∀ s, c.Stands around s → Exact m c around d) : Exact m c around d :=
  fun s hc hr => h s hc s hc hr

theorem ofRun (h : Exact m' c around d) (hrun : ∀ s, m c s = m' c s) : Exact m c around d :=
  fun s hc hr => hrun s ▸ h s hc hr

theorem read {f : Context → Lower α} (h : Exact (f c) c around d) :
    Exact (MonadReader.read >>= f) c around d :=
  h

theorem holds (hp : p) (h : Exact m c around .nothing) : Exact m c around (.check p) :=
  h.same (by simp [Duty.Same, Duty.check, Duty.nothing, hp])

theorem fails {mistake : Mistake} {span : Span} {p : Prop} (hp : ¬p) :
    Exact (Lower.fail mistake span : Lower α) c around (.check p) :=
  .fail fun _ hlegal => hp hlegal.1

theorem requireMethod (mistake : Mistake) (span : Span) :
    Exact (Lower.requireMethod mistake span) c around
      (.check ((Enclosure.method? around).isSome = true)) := by
  refine .place fun s hc => .read ?_
  rw [← hc.method]
  cases c.method with
  | none => exact .fails (by simp)
  | some params => exact .holds rfl .pure

theorem requireClosureOrLoop (mistake : Mistake) (span : Span) :
    Exact (Lower.requireClosureOrLoop mistake span) c around
      (.check ((Enclosure.inClosure around || Enclosure.inLoop around) = true)) := by
  refine .place fun s hc => .read ?_
  rw [← hc.kind, ← hc.inLoop]
  cases c.kind.isClosure || c.inLoop with
  | false => exact .fails (by simp)
  | true => exact .holds rfl .pure

theorem breakTarget (span : Span) : Exact (Lower.breakTarget span) c around
      (.check ((Enclosure.inClosure around || Enclosure.inLoop around) = true)) := by
  intro s hc hr
  rw [← hc.breaks]
  rw [Lower.breakTarget_run]
  cases s.breakOf c.scope with
  | none => exact fails (by simp) s hc hr
  | some id => exact holds rfl .pure s hc hr

theorem returnWith (value : Code) (span : Span) : Exact (Lower.returnWith value span) c around
      (.check ((Enclosure.canReturn around || Enclosure.inLoop around) = true)) := by
  intro s hc hr
  have hbreaks := hc.breaks
  rw [← hc.returns, ← hc.inLoop]
  rw [Lower.returnWith_run]
  cases s.returnOf c.scope with
  | some id => exact holds rfl .pure s hc hr
  | none =>
    cases hloop : c.inLoop with
    | false => exact fails (by simp) s hc hr
    | true =>
      -- a loop always has something to leave
      rw [← hc.inLoop, hloop, Bool.or_true] at hbreaks
      obtain ⟨id, hid⟩ := Option.isSome_iff_exists.mp hbreaks
      rw [hid]
      exact holds rfl .pure s hc hr

end Exact

/-! ## Callables -/

/-- A bare `super` reads parameters, and those are declared before anything else. -/
theorem mem_declaredNames_of_replayNames {params : Params} (h : name ∈ params.replayNames) :
    name ∈ params.declaredNames := by
  unfold Params.replayNames at h
  unfold Params.declaredNames
  have hoptional : ∀ o ∈ params.optional, o.value.name ∈ params.optional.flatMap
      fun o => o.value.name :: Expr.declaredNames o.value.default :=
    fun o ho => mem_flatMap.mpr ⟨o, ho, mem_cons_self⟩
  rw [mem_addNames]
  simp only [mem_append, mem_map] at h ⊢
  rcases h with (h | ⟨o, ho, rfl⟩) | h
  · simp only [h, true_or, or_true]
  · simp only [hoptional o ho, true_or, or_true]
  · simp only [h, true_or, or_true]

theorem Outcome.callable {params : Params} {binding statements : Lower (List Code)}
    (hbinding : Exact binding c around d) (hstatements : Exact statements c around d')
    (hc : c.Stands around s) (hr : c.method = some params ∨ c.Replays s) :
    Outcome c around (d ++ d') s (Lower.callable params binding statements c s) := by
  obtain ⟨ms, hlowers, _⟩ := Meets.declareAll (c := c) params.declaredNames s
  have hreach : Reaches c s { s with scopes := s.scopes.declareAll c.scope params.declaredNames } :=
    ⟨_, hlowers⟩
  have hc₁ := hreach.stands hc
  have hr₁ : c.Replays { s with scopes := s.scopes.declareAll c.scope params.declaredNames } := by
    rcases hr with hmethod | hr
    · intro p hp name hname
      rw [hmethod, Option.some.injEq] at hp
      subst hp
      obtain ⟨scope, hget⟩ := Scopes.exists_get? (hc.sound.size ▸ hc.scope)
      obtain ⟨scope', hget', _, hnames⟩ := Scopes.mem_slots_declareAll params.declaredNames hget
      obtain ⟨slot, hslot⟩ : ∃ slot, scope'.slot? name = some slot :=
        Option.isSome_iff_exists.mp (isSome_idxOf?.mpr
          (hnames name (mem_declaredNames_of_replayNames hname)))
      exact Scopes.lookupIn_isSome (hc₁.sound.mem_ancestry hc₁.scope) hget' hslot 0
    · exact hreach.replays hc.sound hc.scope hr
  have hrest : Exact (do
      let binding ← Lower.recover [] binding
      let statements ← statements
      return Code.join (binding ++ [.join statements])) c around (d ++ d') :=
    hbinding.recover.bind fun _ => hstatements.ending fun _ => .pure
  have hdeclare : Lower.declareAll params.declaredNames c s =
      .ok () { s with scopes := s.scopes.declareAll c.scope params.declaredNames } := rfl
  unfold Lower.callable
  rw [run_bind hdeclare]
  exact (hrest _ hc₁ hr₁).from hreach rfl rfl

/-- How a body is made in the new scope of a context. -/
def Makes (inner : Context) (code : Lower Code) (kind : BodyKind) (name : String) (arity : Arity)
    (span : Span) (k : Callable) : Prop :=
  ∀ (s s' : LoweringState) (result : Code), s.Sound → inner.scope + 1 = s.nextBody →
    (∃ own, s.scopes.get? inner.scope = some own ∧ own.slots = []) → code inner s = .ok result s' →
    s'.mistakes = s.mistakes → k.Compilation inner s s'
      (s'.bodyOf inner.scope name kind inner.scope arity span result)

theorem Makes.callable {inner : Context} (kind : BodyKind) (name : String) (span : Span)
    (params : Params) (body : List (Located Expr)) (hkind : inner.kind = kind)
    (hmethod : kind = .method → inner.method = some params) :
    Makes inner (callable params (binding span params) (statements body)) kind
      name params.arity span ⟨kind, span, params, body⟩ :=
  fun _ _ _ hs hscope hfresh hrun hclean => ⟨hs, hscope, hfresh, hkind, hmethod, hrun, hclean, rfl⟩

/-! ## Bodies and loops -/

namespace Exact

theorem built {m : Lower α} {code : Lower Code} {kind : BodyKind} {arity : Arity} {span : Span}
    {name : Context → String} {inner : ScopeId → Context → Context}
    {f : BodyId → Option BreakId → α} {k : Enclosure} (made : List Callable)
    (hm : m = inBody kind arity span name inner f code) (hinner : Inner kind inner c)
    (hopens : k.Opens kind) (hmethod : c.method = Enclosure.method? around →
      ∀ scope, (inner scope c).method = Enclosure.method? (k :: around))
    (hmeets : ∀ scope, Meets code (inner scope c) Assembled)
    (h : ∀ scope s, (inner scope c).Stands (k :: around) s →
      (kind.isClosure = true → (inner scope c).Replays s) →
      Outcome (inner scope c) (k :: around) d s (code (inner scope c) s))
    (hmade : ∀ scope, ∀ k ∈ made, Makes (inner scope c) code kind (name c) arity span k) :
    Exact m c around (d.inside k ++ ⟨True, [], made⟩) := by
  intro s hc hr
  have hlowers := Meets.built (P := fun _ _ => True) hm hinner hmeets (fun _ _ => trivial) s
  subst hm
  have hscope := hinner.scope s.nextBody
  have hnew : (s.scopes.openScope c.scope kind).1 = s.nextBody :=
    openScope_fst hc.sound
  have hstands : (inner s.nextBody c).Stands (k :: around) (s.enter c.scope kind) :=
    .enter hc.sound (fun _ => hc) hopens (hscope.trans hnew.symm) (hinner.ofKind _)
      (hinner.inLoop _) (hmethod hc.method _)
  have hcode := h _ _ hstands fun hclosure => hr.enter hc.sound hc.scope hclosure
    (hscope.trans hnew.symm) (hinner.method hclosure _)
  have hlegal : ∀ {p : Prop}, (p ↔ d.Legal (k :: around)) →
      (p ↔ (d.inside k ++ ⟨True, [], made⟩).Legal around) := by
    intro p hp
    rw [hp, Duty.legal_append, Duty.legal_inside]
    simp [Duty.Legal, Expr.LegalParts]
  unfold inBody at hlowers ⊢
  simp only [reading_run, hnew] at hlowers ⊢
  cases hs : code (inner s.nextBody c) (s.enter c.scope kind) with
  | error e s' =>
    rw [hs] at hcode hlowers
    refine ⟨⟨_, hlowers⟩, fun hl hnot => hcode.2 (hinner.options _ ▸ hl) ?_⟩
    exact (hlegal Iff.rfl).mpr hnot
  | ok result s' =>
    rw [hs] at hcode hlowers
    obtain ⟨ms, hlowers, _⟩ := hlowers
    refine ⟨⟨_, hlowers⟩, fun hl => hlegal (hcode.2.1 (hinner.options _ ▸ hl)), fun hclean => ?_⟩
    refine Duty.done_append (Duty.done_inside fun f hf => ?_) fun f hf => ?_
    · -- what was compiled inside has later places than the body itself
      obtain ⟨id, body, c', t, t', hid, hbody, hcompiled⟩ := hcode.2.2 hclean f hf
      refine ⟨id, body, c', t, t', Nat.le_of_succ_le hid, ?_, hcompiled⟩
      have hne : id ≠ s.nextBody := fun heq => absurd hid (by simp [heq, LoweringState.enter])
      rcases s'.unit.body?_add_ne
        (b := s'.bodyOf s.nextBody (name c) kind s.nextBody arity span result) hne
        with heq | ⟨hnone, _⟩
      · exact heq.trans hbody
      · rw [hbody] at hnone
        exact absurd hnone (by simp)
    · have hf : f ∈ made := by simpa using hf
      have hfresh : ∃ own, (s.enter c.scope kind).scopes.get? (inner s.nextBody c).scope =
          some own ∧ own.slots = [] := by
        obtain ⟨own, _, hpush, _, _, hslots, _⟩ := s.scopes.openScope_spec c.scope kind
        refine ⟨own, ?_, hslots⟩
        rw [hscope]
        unfold LoweringState.enter Scopes.get?
        simp only [hpush, ← hc.sound.size, Scopes.size, Array.getElem?_push_size]
      have hmade := hmade s.nextBody f hf _ s' result hstands.sound (by rw [hscope]; rfl) hfresh hs
        hclean
      rw [hscope] at hmade
      exact ⟨s.nextBody, _, _, _, s', Nat.le_refl _, CodeUnit.body?_add_self _ _, hmade⟩

/-- The condition and the statements of a loop. A mistake in the condition is kept for after the
statements. -/
theorem loop {m : Lower α}
    {f : BreakId → Code → List Code → α} (hm : m = inLoop condition body f)
    (htotal : ∀ c s, ∃ codes s', body c s = .ok codes s')
    (hcondition : Exact condition { c with inLoop := true } (.loop :: around) d)
    (hbody : Exact body { c with inLoop := true } (.loop :: around) d') :
    Exact m c around ((d ++ d').inside .loop) := by
  intro s hc hr
  subst hm
  have hc₁ := hc.enterLoop
  have hr₁ := hr.enterLoop hc.sound hc.scope
  have houter : ∀ {s'}, Reaches { c with inLoop := true } (s.enterLoop c.scope) s' →
      Reaches c s (s'.setBreak c.scope (s.breakOf c.scope)) :=
    fun ⟨_, h⟩ => ⟨_, .loop (.inside h rfl rfl)⟩
  have hfirst := hcondition _ hc₁ hr₁
  unfold inLoop
  rw [reading_run]
  dsimp only
  cases hs : condition { c with inLoop := true } (s.enterLoop c.scope) with
  | error e s₂ =>
    rw [hs] at hfirst
    obtain ⟨codes, s₃, hs₃⟩ := htotal { c with inLoop := true } s₂
    have hrest := hbody s₂ (hfirst.1.stands hc₁) (hfirst.1.replays hc₁.sound hc₁.scope hr₁)
    rw [hs₃] at hrest
    simp only [hs₃]
    refine ⟨houter (hfirst.1.trans hrest.1), fun hl hlegal => hfirst.2 hl ?_⟩
    exact (Duty.legal_append.mp (Duty.legal_inside.mp hlegal)).1
  | ok code s₂ =>
    rw [hs] at hfirst
    obtain ⟨codes, s₃, hs₃⟩ := htotal { c with inLoop := true } s₂
    have hc₂ := hfirst.1.stands hc₁
    have hrest := hbody s₂ hc₂ (hfirst.1.replays hc₁.sound hc₁.scope hr₁)
    rw [hs₃] at hrest
    simp only [hs₃]
    have hclean := mistakes_trans hc₁.sound hc₁.scope hfirst.1 hrest.1
    refine ⟨houter (hfirst.1.trans hrest.1), fun hl => ?_, fun h => ?_⟩
    · rw [Duty.legal_inside, Duty.legal_append, ← hfirst.2.1 hl, ← hrest.2.1 hl]
      exact hclean
    · obtain ⟨h₂, h₃⟩ := hclean.mp h
      have hle := (hfirst.1.advances hc₁.sound hc₁.scope).nextBody_le hc₁.sound
      refine Duty.done_inside (Duty.done_append (fun k hk => ?_) fun k hk => ?_)
      · exact hrest.1.compiles hc₂.sound hc₂.scope (hfirst.2.2 h₂ k hk)
      · exact (hrest.2.2 h₃ k hk).earlier hle

end Exact

end Lower

end BlockLang
