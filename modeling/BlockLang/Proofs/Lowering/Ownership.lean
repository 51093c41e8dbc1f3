import BlockLang.Proofs.Lowering.Exits

/-!
# Every body has its place and its owner

A body gets its number when lowering comes to it and its place when lowering is done with it, after
all the bodies inside of it. In between there are gaps, which placeholders fill. In the end none is
left over: `CodeUnit.Tabulates` says of a unit that each of its places holds what was made of one
construct of the program, and that each body but the program itself is named by exactly one other
body.

Three arguments meet here.

* **Who names whom** is an induction on what lowering does (`Lowers.newBodies`). Numbers only grow,
  so the new bodies of two parts do not overlap, and no body names an older one. A new body is named
  by the code that is being put together or by another new body, and never by both.
* **What a body was made of** is an induction on how lowering is put together
  (`Lower.Follows.adds`).
* That the bodies are of the right kinds, and no placeholders, is what their being well placed says
  (`CodeUnit.ExitsPlaced`).
-/

namespace BlockLang

open List LoweringState

namespace CodeUnit

/-- The code of the one body mentions the other. -/
def Names (u : CodeUnit) (p b : BodyId) : Prop :=
  ∃ outer kind, u.body? p = some outer ∧ .body kind b ∈ outer.code.mentions

variable {u : CodeUnit} {p b : BodyId}

theorem names_congr {u' : CodeUnit} (h : u'.body? p = u.body? p ∨
    u.body? p = none ∧ u'.body? p = some (placeholder p)) : u'.Names p b ↔ u.Names p b := by
  unfold Names
  rcases h with hsame | ⟨hnone, hplaced⟩
  · rw [hsame]
  · -- neither nothing nor a placeholder names anything
    rw [hnone, hplaced]
    constructor
    · rintro ⟨_, kind, ⟨rfl⟩, hm⟩
      exact nomatch hm
    · rintro ⟨_, _, hbody, _⟩
      exact nomatch hbody

theorem names_add_ne (h : p ≠ body.id) : (u.add body).Names p b ↔ u.Names p b :=
  names_congr (u.body?_add_ne h)

theorem names_add_self :
    (u.add body).Names body.id b ↔ ∃ kind, .body kind b ∈ body.code.mentions := by
  unfold Names
  rw [body?_add_self]
  constructor
  · rintro ⟨_, kind, ⟨rfl⟩, hm⟩
    exact ⟨kind, hm⟩
  · rintro ⟨kind, hm⟩
    exact ⟨body, kind, rfl, hm⟩

end CodeUnit

/-- The code of a body mentions the bodies that were obtained for it. -/
theorem Assembled.body_mem_iff {ms : List Mention} (h : Assembled ms code) {b : BodyId} :
    .body kind b ∈ code.mentions ↔ .body kind b ∈ ms := by
  obtain ⟨_, vs, hvs, hmade⟩ := h
  constructor
  · intro hm
    rcases hmade.sound code (mem_singleton_self _) _ hm with hv | hms
    · obtain ⟨i, hi⟩ := hvs _ hv
      exact nomatch hi
    · exact hms
  · intro hm
    obtain ⟨c, hc, hlasts⟩ := hmade.complete _ hm rfl
    rw [mem_singleton.mp hc] at hlasts
    exact Code.mem_mentions_of_mem_lasting hlasts

/-! ## Owners -/

/-- What a body may be named by: what has been obtained so far, or a body from `first` on. -/
def LoweringState.Holds (s : LoweringState) (first : Nat) (ms : List Mention) :
    Option BodyId → BodyId → Prop
  | none, b => ∃ kind, .body kind b ∈ ms
  | some p, b => first ≤ p ∧ s.unit.Names p b

/-- The bodies that are new in `s'`, if `ms` was obtained on the way there. -/
structure NewBodies (s : LoweringState) (ms : List Mention) (s' : LoweringState) : Prop where
  obtained : ∀ {kind : BodyKind} {b : Nat}, .body kind b ∈ ms → s.nextBody ≤ b ∧ b < s'.nextBody
  inward : ∀ {p b : Nat}, s.nextBody ≤ p → s'.unit.Names p b → p < b ∧ b < s'.nextBody
  one : ∀ {b : Nat}, s.nextBody ≤ b → b < s'.nextBody →
    ∃ holder, ∀ h, s'.Holds s.nextBody ms h b ↔ h = holder

namespace NewBodies

variable {s s₁ s₂ : LoweringState} {ms ns : List Mention}

theorem quiet (hs : s₁.Sound) (hnext : s₁.nextBody = s.nextBody)
    (hms : ∀ kind b, .body kind b ∉ ms) : NewBodies s ms s₁ := by
  refine ⟨fun hm => absurd hm (hms _ _), fun {p b} hp hnames => ?_, fun hb hlt => ?_⟩
  · obtain ⟨outer, _, houter, _⟩ := hnames
    obtain ⟨hlt, _⟩ := Array.getElem?_eq_some_iff.mp houter
    exact absurd (Nat.lt_of_lt_of_le hlt (hnext ▸ hs.places)) (Nat.not_lt_of_le hp)
  · exact absurd (hnext ▸ hlt) (Nat.not_lt_of_le hb)

theorem append (hs : s.Sound) (ha₁ : s.Advances live s₁) (ha₂ : s₁.Advances live' s₂)
    (h₁ : NewBodies s ms s₁) (h₂ : NewBodies s₁ ns s₂) : NewBodies s (ms ++ ns) s₂ := by
  have hle₁ := ha₁.nextBody_le hs
  have hle₂ := ha₂.nextBody_le ha₁.sound
  have hkept : ∀ {p b : Nat}, p < s₁.nextBody → (s₂.unit.Names p b ↔ s₁.unit.Names p b) :=
    fun hp => CodeUnit.names_congr (ha₂.kept _ hp)
  refine ⟨fun hm => ?_, fun {p b} hp hnames => ?_, fun {b} hb hlt => ?_⟩
  · rcases mem_append.mp hm with hm | hm
    · exact (h₁.obtained hm).imp_right (Nat.lt_of_lt_of_le · hle₂)
    · exact (h₂.obtained hm).imp_left (Nat.le_trans hle₁)
  · rcases Nat.lt_or_ge p s₁.nextBody with hold | hnew
    · exact (h₁.inward hp ((hkept hold).mp hnames)).imp_right (Nat.lt_of_lt_of_le · hle₂)
    · exact h₂.inward hnew hnames
  · rcases Nat.lt_or_ge b s₁.nextBody with hold | hnew
    · obtain ⟨holder, hholder⟩ := h₁.one hb hold
      refine ⟨holder, fun h => Iff.trans ?_ (hholder h)⟩
      cases h with
      | none =>
        constructor
        · rintro ⟨kind, hm⟩
          rcases mem_append.mp hm with hm | hm
          · exact ⟨kind, hm⟩
          · exact absurd (h₂.obtained hm).1 (Nat.not_le_of_lt hold)
        · rintro ⟨kind, hm⟩
          exact ⟨kind, mem_append_left _ hm⟩
      | some p =>
        refine and_congr_right fun hp => ?_
        rcases Nat.lt_or_ge p s₁.nextBody with hold' | hnew'
        · exact hkept hold'
        · constructor
          · intro hnames
            have hinward := h₂.inward hnew' hnames
            omega
          · intro hnames
            have hinward := h₁.inward hp hnames
            omega
    · obtain ⟨holder, hholder⟩ := h₂.one hnew hlt
      refine ⟨holder, fun h => Iff.trans ?_ (hholder h)⟩
      cases h with
      | none =>
        constructor
        · rintro ⟨kind, hm⟩
          rcases mem_append.mp hm with hm | hm
          · have hold := h₁.obtained hm
            omega
          · exact ⟨kind, hm⟩
        · rintro ⟨kind, hm⟩
          exact ⟨kind, mem_append_right _ hm⟩
      | some p =>
        constructor
        · rintro ⟨hp, hnames⟩
          refine ⟨Nat.le_of_not_lt fun hold => ?_, hnames⟩
          have hinward := h₁.inward hp ((hkept hold).mp hnames)
          omega
        · rintro ⟨hp, hnames⟩
          exact ⟨Nat.le_trans hle₁ hp, hnames⟩

theorem body {outer : ScopeId} {kind : BodyKind} {body : Body} (hid : body.id = s.nextBody)
    (hlt : s.nextBody < s₁.nextBody) (h : NewBodies (s.enter outer kind) ms s₁)
    (hcode : Assembled ms body.code) : NewBodies s [.body kind s.nextBody] (s₁.finish body) := by
  have hself : ∀ {b : Nat},
      (s₁.finish body).unit.Names s.nextBody b ↔ ∃ kind, .body kind b ∈ ms := by
    intro b
    rw [← hid]
    exact CodeUnit.names_add_self.trans (exists_congr fun _ => hcode.body_mem_iff)
  have hother : ∀ {p b : Nat}, p ≠ s.nextBody →
      ((s₁.finish body).unit.Names p b ↔ s₁.unit.Names p b) :=
    fun hp => CodeUnit.names_add_ne (hid ▸ hp)
  have hinward : ∀ {p b : Nat}, s.nextBody ≤ p → (s₁.finish body).unit.Names p b →
      p < b ∧ b < s₁.nextBody := by
    intro p b hp hnames
    rcases Nat.eq_or_lt_of_le hp with rfl | hp
    · obtain ⟨kind, hm⟩ := hself.mp hnames
      exact h.obtained hm
    · exact h.inward hp ((hother (Nat.ne_of_gt hp)).mp hnames)
  refine ⟨fun hm => ?_, hinward, fun {b} hb hlt' => ?_⟩
  · obtain ⟨_, rfl⟩ := Mention.body.inj (mem_singleton.mp hm)
    exact ⟨Nat.le_refl _, hlt⟩
  · rcases Nat.eq_or_lt_of_le hb with rfl | hb
    · -- the body itself is what has been obtained, and no body inside of it names it
      refine ⟨none, fun holder => ?_⟩
      cases holder with
      | none => exact iff_of_true ⟨kind, mem_singleton_self _⟩ rfl
      | some p =>
        refine iff_of_false ?_ nofun
        rintro ⟨hp, hnames⟩
        have hless := (hinward hp hnames).1
        omega
    · obtain ⟨holder, hholder⟩ := h.one hb hlt'
      refine ⟨some (holder.getD s.nextBody), fun holder' => ?_⟩
      cases holder' with
      | none =>
        refine iff_of_false ?_ nofun
        rintro ⟨_, hm⟩
        obtain ⟨_, rfl⟩ := Mention.body.inj (mem_singleton.mp hm)
        omega
      | some p =>
        -- what was obtained is named by the new body now
        have hnew : (s₁.finish body).Holds s.nextBody [.body kind s.nextBody] (some s.nextBody) b ↔
            none = holder :=
          ((and_iff_right (Nat.le_refl _)).trans hself).trans (hholder none)
        have hinner : ∀ {q : Nat}, s.nextBody < q →
            ((s₁.finish body).Holds s.nextBody [.body kind s.nextBody] (some q) b ↔
              some q = holder) := by
          intro q hq
          refine Iff.trans ?_ (hholder (some q))
          exact and_congr (iff_of_true (Nat.le_of_lt hq) hq) (hother (Nat.ne_of_gt hq))
        cases holder with
        | none =>
          rw [Option.getD_none, Option.some.injEq]
          constructor
          · intro hholds
            rcases Nat.eq_or_lt_of_le hholds.1 with heq | hlt
            · exact heq.symm
            · exact nomatch (hinner hlt).mp hholds
          · rintro rfl
            exact hnew.mpr rfl
        | some q =>
          rw [Option.getD_some]
          have hq : s.nextBody < q := ((hholder (some q)).mpr rfl).1
          constructor
          · intro hholds
            rcases Nat.eq_or_lt_of_le hholds.1 with rfl | hlt
            · exact nomatch hnew.mp hholds
            · exact (hinner hlt).mp hholds
          · rintro ⟨rfl⟩
            exact (hinner hq).mpr rfl

end NewBodies

/-- **New bodies are named once.** -/
theorem Lowers.newBodies {s : LoweringState} (h : Lowers c s out s') :
    s.Sound → c.scope < s.nextBody → s'.mistakes = [] →
      ∀ ms, out = some ms → NewBodies s ms s' := by
  induction h with
  | nothing | super _ =>
    rintro hs _ _ ms ⟨rfl⟩
    exact .quiet hs rfl (by simp)
  | mistake | abandoned _ _ _ _ =>
    intro _ _ _ ms hms
    exact nomatch hms
  | append first second ih₁ ih₂ =>
    rename_i c s₁ s₂ s₃ _ _
    intro hs hk hmistakes ms hms
    obtain ⟨p, q, rfl, rfl, rfl⟩ := parts_of_joined hms
    have ha₁ := first.advances hs hk
    have hk₂ := ha₁.lt hs hk
    have ha₂ := second.advances ha₁.sound hk₂
    have hmistakes₂ : s₂.mistakes = [] := prefix_nil.mp (hmistakes ▸ ha₂.mistakes)
    exact .append hs ha₁ ha₂ (ih₁ hs hk hmistakes₂ p rfl) (ih₂ ha₁.sound hk₂ hmistakes q rfl)
  | reference r =>
    rintro hs hk _ ms ⟨rfl⟩
    exact .quiet (advances_reference hs hk r).sound rfl (by simp)
  | inside _ hscope _ ih =>
    rw [hscope] at ih
    exact ih
  | loop _ ih =>
    rename_i c s s₁ out _
    intro hs hk hmistakes ms hms
    have hmem := hs.mem_ancestry hk
    have hin := advances_enterLoop hs hmem
    -- what a loop sets is about its scope, and no body is looked at for that
    obtain ⟨hobtained, hinward, hone⟩ := ih hin.sound hk hmistakes ms hms
    exact ⟨hobtained, hinward, hone⟩
  | body name arity span hscope _ hinner hassembled ih =>
    rename_i c inner s s₁ ms kind code _
    rintro hs hk hmistakes _ ⟨rfl⟩
    have hin : (s.enter c.scope kind).Sound := sound_enter hs fun _ => hk
    have hnew : inner.scope = s.nextBody := hscope.trans (openScope_fst hs)
    have hlt : inner.scope < (s.enter c.scope kind).nextBody := hnew ▸ Nat.lt_succ_self _
    have hle := (hinner.advances hin hlt).nextBody_le hin
    exact .body rfl hle (ih hin hlt hmistakes ms rfl) hassembled
  | recovered d _ _ =>
    intro _ _ hmistakes
    simp at hmistakes

/-! ## Origins -/

/-- Every body of `s'` was there before, or has no place yet, or was made of a construct in the
list. -/
def LoweringState.Adds (s : LoweringState) (vs : Visits) (s' : LoweringState) : Prop :=
  ∀ b body, s'.unit.body? b = some body → s.unit.body? b = some body ∨
    body = CodeUnit.placeholder b ∨ .body body.kind body.arity body.span ∈ vs

namespace LoweringState.Adds

variable {s s₁ s₂ : LoweringState} {vs ws : Visits}

theorem same (h : s₁.unit = s.unit) : s.Adds vs s₁ :=
  fun _ _ hb => Or.inl (h ▸ hb)

theorem mono (h : s.Adds vs s₁) (hsub : ∀ {kind arity span}, .body kind arity span ∈ vs →
    .body kind arity span ∈ ws) : s.Adds ws s₁ :=
  fun b body hb => (h b body hb).imp_right fun hnew => hnew.imp_right hsub

theorem trans (h₁ : s.Adds vs s₁) (h₂ : s₁.Adds ws s₂) : s.Adds (vs ++ ws) s₂ := by
  intro b body hb
  rcases h₂ b body hb with hb | hplaced | hmem
  · exact h₁.mono (mem_append_left _) b body hb
  · exact Or.inr (Or.inl hplaced)
  · exact Or.inr (Or.inr (mem_append_right _ hmem))

theorem finish (h : s.Adds vs s₁) :
    s.Adds (.body body.kind body.arity body.span :: vs) (s₁.finish body) := by
  intro b other hb
  by_cases hid : b = body.id
  · rw [hid] at hb
    have hsame : body = other := Option.some.inj ((s₁.unit.body?_add_self body).symm.trans hb)
    rw [← hsame]
    exact Or.inr (Or.inr mem_cons_self)
  · rcases s₁.unit.body?_add_ne hid with hsame | ⟨_, hplaced⟩
    · exact h.mono (mem_cons_of_mem _) b other (hsame.symm.trans hb)
    · exact Or.inr (Or.inl (Option.some.inj (hb.symm.trans hplaced)))

end LoweringState.Adds

namespace Lower

variable {α : Type}

/-- The state that an outcome leaves. -/
def left : EStateM.Result Diagnostic LoweringState α → LoweringState
  | .ok _ s | .error _ s => s

theorem Tests.left_unit (h : Tests m spans) (c : Context) (s : LoweringState) :
    (left (m c s)).unit = s.unit := by
  rcases h c s with ⟨a, scopes, hok⟩ | ⟨mistake, span, _, scopes, herror⟩
  · have hrun : m c s = _ := hok c.options (.refl _)
    rw [hrun]
    rfl
  · rw [herror]
    rfl

/-- **All bodies are made of constructs of the tree.** -/
theorem Follows.adds {vs : Visits} (h : Follows m vs) :
    ∀ (c : Context) (s : LoweringState), s.Adds vs (left (m c s)) := by
  induction h with
  | test hm _ => exact fun c s => .same (hm.left_unit c s)
  | after hm _ _ ih =>
    rename_i m f spans vs _ _
    intro c s
    have hfirst : s.Adds [] (left (m c s)) := .same (hm.left_unit c s)
    rw [bind_run]
    cases hs : m c s with
    | error d s₁ =>
      rw [hs] at hfirst
      exact hfirst.mono nofun
    | ok a s₁ =>
      rw [hs] at hfirst
      exact hfirst.trans (ih a c s₁)
  | bind _ _ ihm ihf =>
    rename_i m f vs ws _ _
    intro c s
    have hfirst := ihm c s
    rw [bind_run]
    cases hs : m c s with
    | error d s₁ =>
      rw [hs] at hfirst
      exact hfirst.mono (mem_append_left _)
    | ok a s₁ =>
      rw [hs] at hfirst
      exact hfirst.trans (ihf a c s₁)
  | recover fallback _ ih =>
    rename_i m vs _
    intro c s
    have hm := ih c s
    rw [recover_run]
    cases hs : m c s with
    | _ =>
      rw [hs] at hm
      exact hm
  | ask _ _ ih => exact fun c s => ih c c s
  | inContext _ _ ih => exact fun c s => during_run ▸ ih _ s
  | loop _ _ ihc ihb =>
    rename_i condition body f vs ws _ _
    intro c s
    have hcondition := ihc { c with inLoop := true } (s.enterLoop c.scope)
    unfold inLoop
    rw [reading_run]
    dsimp only
    cases hs : condition { c with inLoop := true } (s.enterLoop c.scope) with
    | _ =>
      rename_i s₁
      rw [hs] at hcondition
      have hboth := hcondition.trans (ihb { c with inLoop := true } s₁)
      dsimp only
      cases hs' : body { c with inLoop := true } s₁ with
      | _ =>
        rw [hs'] at hboth
        exact hboth
  | built kind arity span name inner f _ _ _ ih =>
    rename_i code vs _ _ _
    intro c s
    have hcode := ih (inner (s.scopes.openScope c.scope kind).1 c) (s.enter c.scope kind)
    unfold inBody
    rw [reading_run]
    dsimp only
    cases hs : code (inner (s.scopes.openScope c.scope kind).1 c) (s.enter c.scope kind) with
    | error d s₁ =>
      rw [hs] at hcode
      exact hcode.mono (mem_cons_of_mem _)
    | ok result s₁ =>
      rw [hs] at hcode
      exact hcode.finish
  | cover _ hcovers ih =>
    exact fun c s => (ih c s).mono fun hmem => (hcovers.mem hmem).elim id id

end Lower

/-! ## Programs -/

/-- The unit is a complete table of the bodies of the program. -/
structure CodeUnit.Tabulates (u : CodeUnit) (p : Program) : Prop where
  main : u.main = 0 ∧ ∃ body, u.body? 0 = some body ∧ body.kind = .topLevel
  id : ∀ {b body}, u.body? b = some body → body.id = b
  /-- No place was left open. -/
  filled : ∀ b, u.body? b ≠ some (placeholder b)
  /-- A body is the program, or it was made of a construct of the program. -/
  origin : ∀ {b body}, u.body? b = some body →
    b = u.main ∧ body.span = p.span ∨ .body body.kind body.arity body.span ∈ p.visits
  closure : ∀ {b body id lambda}, u.body? b = some body →
    .closure id lambda ∈ body.code.preorder →
      ∃ inner, u.body? id = some inner ∧ inner.kind = if lambda then .lambda else .block
  define : ∀ {b body name id}, u.body? b = some body → .define name id ∈ body.code.preorder →
    ∃ inner, u.body? id = some inner ∧ inner.kind = .method ∧ inner.name = name
  openClass : ∀ {b body name superclass isModule id}, u.body? b = some body →
    .openClass name superclass isModule id ∈ body.code.preorder →
      ∃ inner, u.body? id = some inner ∧
        inner.kind = if isModule then .moduleBody else .classBody
  /-- Every body but the program is named by exactly one other body. -/
  owner : ∀ {b body}, u.body? b = some body → b ≠ u.main →
    ∃ outer, outer ≠ b ∧ ∀ q, u.Names q b ↔ q = outer

/-- No code names a program. -/
theorem Code.ne_topLevel_of_mem_mentions {c : Code} {b : BodyId} (h : .body kind b ∈ c.mentions) :
    kind ≠ .topLevel := by
  obtain ⟨part, _, hown⟩ := mem_mentions.mp h
  cases part with
  | closure id lambda =>
    obtain ⟨rfl, _⟩ := Mention.body.inj (mem_singleton.mp hown)
    cases lambda <;> decide
  | define name id =>
    obtain ⟨rfl, _⟩ := Mention.body.inj (mem_singleton.mp hown)
    decide
  | openClass name superclass isModule id =>
    obtain ⟨rfl, _⟩ := Mention.body.inj (mem_singleton.mp hown)
    cases isModule <;> decide
  | argument index onMissing => cases onMissing <;> simp [ownMentions] at hown
  | _ => simp [ownMentions] at hown

/-- A body that code names is no placeholder: the kind of a placeholder is that of a block, and a
block can be left. -/
theorem CodeUnit.ExitsPlaced.ne_placeholder {u : CodeUnit} (hx : u.ExitsPlaced) {p b : BodyId}
    (h : u.Names p b) : u.body? b ≠ some (placeholder b) := by
  obtain ⟨outer, kind, houter, hm⟩ := h
  obtain ⟨part, hpart, hown⟩ := Code.mem_mentions.mp hm
  obtain ⟨site, _, hplaced⟩ := (hx.placed houter).mem_preorder hpart
  have hadmits := hplaced.admits
  intro hplaceholder
  have hhas : ∀ {body}, u.register.Has b body → body = placeholder b := fun hbody =>
    Option.some.inj (hbody.symm.trans hplaceholder)
  cases part with
  | closure id lambda =>
    obtain ⟨_, rfl⟩ := Mention.body.inj (mem_singleton.mp hown)
    cases lambda with
    | true =>
      obtain ⟨body, hbody, hkind⟩ := hadmits
      rw [hhas hbody] at hkind
      exact nomatch hkind
    | false =>
      obtain ⟨body, hbody, _, _, hcaught, hbreak⟩ := hadmits
      rw [← hbreak, hhas hbody] at hcaught
      exact nomatch hcaught
  | define name id =>
    obtain ⟨_, rfl⟩ := Mention.body.inj (mem_singleton.mp hown)
    obtain ⟨body, hbody, hkind, _⟩ := hadmits
    rw [hhas hbody] at hkind
    exact nomatch hkind
  | openClass name superclass isModule id =>
    obtain ⟨_, rfl⟩ := Mention.body.inj (mem_singleton.mp hown)
    obtain ⟨body, hbody, hkind⟩ := hadmits
    rw [hhas hbody] at hkind
    cases isModule with
    | _ => exact nomatch hkind
  | argument index onMissing => cases onMissing <;> simp [Code.ownMentions] at hown
  | _ => simp [Code.ownMentions] at hown

namespace Program

variable {p : Program} {options : LowerOptions} {u : CodeUnit}

theorem newBodies (h : (p.lowering options).mistakes = []) :
    NewBodies {} [.body .topLevel 0] (p.lowering options) := by
  obtain ⟨c, s, ms, code, hscope, _, hlowers, hcode, heq⟩ := p.lowers options
  have hin : (({} : LoweringState).enter 0 .topLevel).Sound :=
    sound_enter sound_empty nofun
  have hlt : c.scope < (({} : LoweringState).enter 0 .topLevel).nextBody :=
    hscope ▸ Nat.lt_succ_self 0
  have hmistakes : s.mistakes = [] := by rwa [heq] at h
  have hle := (hlowers.advances hin hlt).nextBody_le hin
  rw [heq]
  exact .body rfl hle (hlowers.newBodies hin hlt hmistakes ms rfl) hcode

theorem adds (p : Program) (options : LowerOptions) :
    ({} : LoweringState).Adds (.body .topLevel {} p.span :: p.visits) (p.lowering options) := by
  obtain ⟨codes, s, hcodes, heq⟩ := p.lowering_eq options
  have hadds := (Lower.Minds.statements p.body).follows.adds (context options)
    (({} : LoweringState).enter 0 .topLevel)
  rw [hcodes] at hadds
  rw [heq]
  exact LoweringState.Adds.finish (s := {}) hadds

theorem owner_of_lower (h : p.lower options = .ok u) {b : BodyId} {body : Body}
    (hb : u.body? b = some body) (hne : b ≠ u.main) :
    ∃ outer, outer < b ∧ ∀ q, u.Names q b ↔ q = outer := by
  rw [(lower_wellScoped h).first] at hne
  obtain ⟨hclean, rfl⟩ := lower_ok_iff.mp h
  have hnew := p.newBodies hclean
  obtain ⟨hlt, _⟩ := Array.getElem?_eq_some_iff.mp hb
  have hplaces := (p.complete hclean).sound.places
  obtain ⟨holder, hholder⟩ := hnew.one (Nat.zero_le b) (Nat.lt_of_lt_of_le hlt hplaces)
  cases holder with
  | none =>
    obtain ⟨_, hm⟩ := (hholder none).mpr rfl
    exact absurd (Mention.body.inj (mem_singleton.mp hm)).2 hne
  | some outer =>
    have hnames : ∀ q, (p.lowering options).unit.Names q b ↔ q = outer := fun q =>
      (and_iff_right (Nat.zero_le q)).symm.trans ((hholder (some q)).trans Option.some_inj)
    have hinward := hnew.inward (Nat.zero_le outer) ((hnames outer).mpr rfl)
    exact ⟨outer, hinward.1, hnames⟩

theorem filled_of_lower (h : p.lower options = .ok u) (b : BodyId) :
    u.body? b ≠ some (CodeUnit.placeholder b) := by
  intro hb
  by_cases hmain : b = u.main
  · obtain ⟨body, hbody, hkind⟩ := (lower_wellScoped h).main
    rw [← hmain, hb, Option.some.injEq] at hbody
    rw [← hbody] at hkind
    exact nomatch hkind
  · obtain ⟨outer, _, hnames⟩ := owner_of_lower h hb hmain
    exact (exits_of_lower h).ne_placeholder ((hnames outer).mpr rfl) hb

theorem origin_of_lower (h : p.lower options = .ok u) {b : BodyId} {body : Body}
    (hb : u.body? b = some body) :
    b = u.main ∧ body.span = p.span ∨ .body body.kind body.arity body.span ∈ p.visits := by
  have hadds := p.adds options b body (by rwa [← (lower_ok_iff.mp h).2])
  rcases hadds with hempty | rfl | hmem
  · simp [CodeUnit.body?] at hempty
  · exact absurd hb (filled_of_lower h b)
  · rcases mem_cons.mp hmem with hself | hmem
    · obtain ⟨hkind, _, hspan⟩ := Visit.body.inj hself
      by_cases hmain : b = u.main
      · exact Or.inl ⟨hmain, hspan⟩
      · -- whatever is not the program is named, and code names no program
        obtain ⟨outer, _, hnames⟩ := owner_of_lower h hb hmain
        obtain ⟨_, kind, houter, hm⟩ := (hnames outer).mpr rfl
        obtain ⟨inner, hinner, hinnerKind⟩ := (lower_wellScoped h).body houter hm
        rw [hb, Option.some.injEq] at hinner
        refine absurd ?_ (Code.ne_topLevel_of_mem_mentions hm)
        rw [← hinnerKind, ← hinner, hkind]
    · exact Or.inr hmem

/-- **The table of bodies is complete.** Every place holds a body that was made of a construct of
the program, bodies are used as what they are, and each has one owner. -/
theorem lower_tabulates (h : p.lower options = .ok u) : u.Tabulates p := by
  have hu := lower_wellScoped h
  have hx := exits_of_lower h
  have hadmits : ∀ {b body part}, u.body? b = some body → part ∈ body.code.preorder →
      ∃ site, u.register.Admits site part := by
    intro b body part hb hpart
    obtain ⟨site, _, hplaced⟩ := (hx.placed hb).mem_preorder hpart
    exact ⟨site, hplaced.admits⟩
  constructor
  case main =>
    obtain ⟨body, hb, hkind⟩ := hu.main
    exact ⟨hu.first, body, hu.first ▸ hb, hkind⟩
  case id => exact hu.id
  case filled => exact filled_of_lower h
  case origin => exact origin_of_lower h
  case closure =>
    intro b body id lambda hb hpart
    obtain ⟨site, hadmitted⟩ := hadmits hb hpart
    cases lambda with
    | true => exact hadmitted
    | false =>
      obtain ⟨inner, hinner, hkind, _⟩ := hadmitted
      exact ⟨inner, hinner, hkind⟩
  case define =>
    intro b body name id hb hpart
    obtain ⟨site, hadmitted⟩ := hadmits hb hpart
    exact hadmitted
  case openClass =>
    intro b body name superclass isModule id hb hpart
    obtain ⟨site, hadmitted⟩ := hadmits hb hpart
    exact hadmitted
  case owner =>
    intro b body hb hne
    obtain ⟨outer, hlt, hnames⟩ := owner_of_lower h hb hne
    exact ⟨outer, Nat.ne_of_lt hlt, hnames⟩

/-- `class C; def m(f = -> { 1 }) f end end; $a.each { |x| x }`. -/
def bodiesInside : Program where
  body := [
    Build.classDef "C" none [
      Build.define "m" (Params.empty.withOptional "f" (Build.lambda Params.empty [Build.integer 1]))
        [Build.localVar "f"]],
    Build.callWithBlock (some (Build.globalVar "a")) "each" []
      (Build.block (Params.empty.require "x") [Build.localVar "x"])]

/-- The five bodies of `bodiesInside`, of which the lambda was the first to be done with. -/
theorem bodiesInside_tabulates : ∃ u : CodeUnit, bodiesInside.lower {} = .ok u ∧
    u.bodies.toList.map (·.kind) = [.topLevel, .classBody, .method, .lambda, .block] ∧
    u.Tabulates bodiesInside := by
  have hlower : bodiesInside.lower {} = .ok (bodiesInside.lowering {}).unit :=
    lower_of_isEmpty (by decide +kernel)
  exact ⟨_, hlower, by decide +kernel, lower_tabulates hlower⟩

end Program

end BlockLang
