import BlockLang.Proofs.Lowering.Building

/-!
# Where names get their slots

A body gets slots in three ways. Its parameters are declared when its scope is opened, hidden
variables are added to the scope that they are used in, and a name that is assigned and known
nowhere goes to the nearest scope that is no block. `Passes` is the list of what emitting does to a
state, with these ways told apart: a scope is only asked for names of its own that were declared
when it was opened, and every body comes with what it was made of (`Stems`).

What lowering passes through it leaves in order (`Passes.leads`): look-ups give what they gave, and
one scope at most gets slots for other than hidden variables. All bodies on the way were made so
(`Program.made_of_lower`), and all references in their code were answers on the way
(`Emits.uses`). Nothing is assumed of the names that a program uses.
-/

namespace BlockLang

open List LoweringState Scopes

/-! ## Blocks and other scopes -/

/-- A scope as lowering opens them: unknown names are declared in it unless it is a block, and
names are looked for around a block. -/
structure Scope.Regular (scope : Scope) : Prop where
  isSealed : scope.hidesOuterNames = true → scope.parent = none
  owns : (scope.hidesOuterNames || scope.ownsNewNames) = !scope.isBlock
  inside : scope.isBlock = true → scope.parent ≠ none

theorem Scope.Regular.extends {a b : Scope} (h : a.Regular) (he : a.Extends b) : b.Regular := by
  rw [he.same]
  exact ⟨h.isSealed, h.owns, h.inside⟩

/-- There are no more than further slots for hidden variables. -/
def Scope.Fills (a b : Scope) : Prop :=
  ∃ added, b.slots = a.slots ++ added ∧ ∀ n ∈ added, isHidden n = true

theorem Scope.fills_same {a b : Scope} (h : b.slots = a.slots) : a.Fills b :=
  ⟨[], by simp [h], by simp⟩

namespace Scopes

variable {k : Nat} {live : List ScopeId}

variable {s s' : Scopes} {P : Scope → Prop}

/-- What holds of every scope and does not depend on slots and marks. -/
theorem forall_grows (hP : ∀ {a b : Scope}, P a → a.Extends b → P b)
    (h : ∀ k scope, s.get? k = some scope → P scope) (hgrows : Grows live s s')
    (hsize : s'.size = s.size) : ∀ k scope, s'.get? k = some scope → P scope := by
  intro k scope' hget'
  obtain ⟨scope, hget⟩ := exists_get? (hsize ▸ lt_size_of_get? hget')
  obtain ⟨scope₁, hget₁, he, _⟩ := hgrows k scope hget
  rw [hget', Option.some.injEq] at hget₁
  subst hget₁
  exact hP (h k scope hget) he

def Regular (s : Scopes) : Prop := ∀ k scope, s.get? k = some scope → scope.Regular

theorem Regular.isSealed (h : s.Regular) : s.Sealed := fun k scope hget => (h k scope hget).isSealed

theorem Regular.grows (h : s.Regular) (hgrows : Grows live s s') (hsize : s'.size = s.size) :
    s'.Regular :=
  forall_grows Scope.Regular.extends h hgrows hsize

theorem Regular.openScope (h : s.Regular) (outer : ScopeId) (kind : BodyKind) :
    (s.openScope outer kind).2.Regular := by
  have hnew : ∃ scope, (s.openScope outer kind).2.scopes = s.scopes.push scope ∧ scope.Regular := by
    cases kind <;> exact ⟨_, rfl, by simp, rfl, by simp [Scope.isBlock]⟩
  obtain ⟨new, hpush, hnew⟩ := hnew
  intro k scope hget
  unfold Scopes.get? at hget
  rw [hpush, Array.getElem?_push] at hget
  split at hget
  · cases hget
    exact hnew
  · exact h k scope hget

/-! ## The nearest scope that is no block -/

theorem nearestNonBlock_of_block (hw : s.WellFormed) {p : Nat} (hget : s.get? k = some scope)
    (hblock : scope.isBlock = true) (hp : scope.parent = some p) :
    s.nearestNonBlock k = s.nearestNonBlock p := by
  have hlt : p < s.size := Nat.lt_trans (hw k scope p hget hp) (lt_size_of_get? hget)
  have hfirst := ancestry_zero hw hlt
  unfold nearestNonBlock nearest
  rw [ancestry_of_parent hw hget hp]
  cases hp : s.ancestry p with
  | nil => simp [hp] at hfirst
  | cons first rest => simp [hget, hblock, List.getLast?_cons]

theorem nearestNonBlock_self (hw : s.WellFormed) (hget : s.get? k = some scope)
    (hblock : scope.isBlock = false) : s.nearestNonBlock k = k := by
  unfold nearestNonBlock nearest
  rw [ancestry_of_get? hw hget]
  simp [hget, hblock]

theorem get?_nearestNonBlock (hw : s.WellFormed) (hr : s.Regular) : ∀ {k : Nat}, k < s.size →
    ∃ scope, s.get? (s.nearestNonBlock k) = some scope ∧ scope.isBlock = false := by
  intro k
  induction k using Nat.strongRecOn with
  | _ k ih =>
    intro hk
    obtain ⟨scope, hget⟩ := exists_get? hk
    cases hblock : scope.isBlock with
    | false => exact ⟨scope, by rw [nearestNonBlock_self hw hget hblock, hget], hblock⟩
    | true =>
      obtain ⟨p, hp⟩ := Option.ne_none_iff_exists'.mp ((hr k scope hget).inside hblock)
      have hlt := hw k scope p hget hp
      rw [nearestNonBlock_of_block hw hget hblock hp]
      exact ih p hlt (Nat.lt_trans hlt hk)

theorem nearestNonBlock_grows (hw : s.WellFormed) (hw' : s'.WellFormed) (hr : s.Regular)
    (hgrows : Grows live s s') : ∀ {k : Nat}, k < s.size →
    s'.nearestNonBlock k = s.nearestNonBlock k := by
  intro k
  induction k using Nat.strongRecOn with
  | _ k ih =>
    intro hk
    obtain ⟨scope, hget⟩ := exists_get? hk
    obtain ⟨scope', hget', he, _⟩ := hgrows k scope hget
    have hsame : scope'.isBlock = scope.isBlock := by rw [Scope.isBlock, he.kind, Scope.isBlock]
    cases hblock : scope.isBlock with
    | false =>
      rw [nearestNonBlock_self hw hget hblock, nearestNonBlock_self hw' hget' (hsame.trans hblock)]
    | true =>
      obtain ⟨p, hp⟩ := Option.ne_none_iff_exists'.mp ((hr k scope hget).inside hblock)
      have hlt := hw k scope p hget hp
      rw [nearestNonBlock_of_block hw hget hblock hp,
        nearestNonBlock_of_block hw' hget' (hsame.trans hblock) (he.parent.trans hp)]
      exact ih p hlt (Nat.lt_trans hlt hk)

/-- An unknown name that is assigned is declared in the nearest scope that is no block. -/
theorem declarationTarget_eq (hr : s.Regular) (k : ScopeId) :
    s.declarationTarget k = s.nearestNonBlock k := by
  have hsame : (fun i => (s.get? i).any fun scope => scope.hidesOuterNames || scope.ownsNewNames) =
      fun i => (s.get? i).any fun scope => !scope.isBlock := by
    funext i
    cases hget : s.get? i with
    | none => rfl
    | some scope => exact (hr i scope hget).owns
  unfold declarationTarget nearestNonBlock nearest
  rw [hsame]

/-! ## Who gets slots -/

/-- Only the scope `home` gets slots for other than hidden variables. -/
def Fills (home : ScopeId) (s s' : Scopes) : Prop :=
  ∀ j a, j ≠ home → s.get? j = some a → ∃ b, s'.get? j = some b ∧ a.Fills b

theorem Fills.refl (home : ScopeId) (s : Scopes) : Fills home s s :=
  fun _ a _ h => ⟨a, h, Scope.fills_same rfl⟩

theorem Fills.trans (h : Fills home s s') (h' : Fills home s' s'') : Fills home s s'' := by
  intro j a hj ha
  obtain ⟨b, hb, added, hslots, hhidden⟩ := h j a hj ha
  obtain ⟨d, hd, more, hslots', hhidden'⟩ := h' j b hj hb
  refine ⟨d, hd, added ++ more, by rw [hslots', hslots, append_assoc], fun n hn => ?_⟩
  exact (mem_append.mp hn).elim (hhidden n) (hhidden' n)

theorem fills_declare {k : ScopeId}
    (h : k = home ∨ isHidden name = true ∨ (s.slotAt k name).isSome) :
    Fills home s (s.declare k name).2 := by
  intro j a hj ha
  by_cases hjk : j = k
  · subst hjk
    unfold declare
    simp only [ha]
    cases hslot : a.slot? name with
    | some slot => exact ⟨a, ha, Scope.fills_same rfl⟩
    | none =>
      refine ⟨a.addSlot name, by simp [get?_modify, ha], [name], rfl, ?_⟩
      have hnone : (s.slotAt j name).isSome = false := by simp [slotAt, ha, hslot]
      simpa [hnone] using h.resolve_left hj
  · exact ⟨a, by rw [get?_declare_ne name hjk]; exact ha, Scope.fills_same rfl⟩

theorem fills_refer (home : ScopeId) (s : Scopes) (k : ScopeId) (name : String) (r : Resolution) :
    Fills home s (s.refer k name r).2 := by
  intro j a _ ha
  have hget := get?_markCaptured ((s.ancestry k).take r.level) s j
  rw [ha, Option.map_some] at hget
  exact ⟨_, hget, Scope.fills_same rfl⟩

theorem fills_resolveOr (hw : s.WellFormed) (hk : k < s.size) (hmem : home ∈ s.ancestry k)
    (name : String) : Fills home s (s.resolveOr k home kind name).2 := by
  obtain ⟨t, r, _, hrefer, ⟨rfl, _⟩ | ⟨rfl, _⟩⟩ := resolveOr_eq_refer hw hk hmem kind name
  · rw [hrefer]
    exact fills_refer home _ k name r
  · rw [hrefer]
    exact (fills_declare (.inl rfl)).trans (fills_refer home _ k name r)

/-- **A request gives slots to the nearest scope that is no block**, but for hidden variables, if
the names of the scope itself have theirs before. -/
theorem fills_answer (hw : s.WellFormed) (hr : s.Regular) (hk : k < s.size)
    (howned : ∀ name, r = .own name → (s.slotAt k name).isSome) :
    Fills (s.nearestNonBlock k) s (s.answer k r).2 := by
  cases r with
  | known name =>
    show Fills _ s (s.resolve k name).2
    unfold resolve
    cases s.lookup k name with
    | none => exact .refl _ s
    | some r => exact fills_refer _ s k name r
  | assigned name =>
    show Fills _ s (s.resolveForAssignment k name).2
    unfold resolveForAssignment
    cases hhides : (s.get? k).any (·.hidesOuterNames) with
    | false =>
      simp only [Bool.false_eq_true, if_false, declarationTarget_eq hr]
      exact fills_resolveOr hw hk (nearest_mem_ancestry hw hk _) name
    | true =>
      obtain ⟨scope, hget⟩ := exists_get? hk
      rw [hget, Option.any_some] at hhides
      have hblock : scope.isBlock = false := by simpa [hhides] using (hr k scope hget).owns
      have hmem : k ∈ s.ancestry k := mem_of_getElem? (ancestry_zero hw hk)
      have hgrows := grows_declare s name hmem
      simp only [if_true, declarationTarget_eq (hr.grows hgrows size_declare),
        nearestNonBlock_grows hw (wellFormed_declare hw k name) hr hgrows hk]
      rw [nearestNonBlock_self hw hget hblock]
      exact (fills_declare (.inl rfl)).trans (fills_resolveOr (wellFormed_declare hw k name)
        (by simpa using hk) (hgrows.ancestry hw (wellFormed_declare hw k name) hk ▸ hmem) name)
  | frameGlobal name =>
    exact fills_resolveOr hw hk (nearest_mem_ancestry hw hk _) (frameGlobalSlot name)
  | own name => exact fills_declare (.inr (.inr (howned name rfl)))
  | temp hint =>
    have hcounted : Fills (s.nearestNonBlock k) s { s with nextTemp := s.nextTemp + 1 } := .refl _ s
    exact hcounted.trans (fills_declare (.inr (.inl (isHidden_temp hint s.nextTemp))))

end Scopes

/-! ## What emitting passes through -/

/-- The request is for a name of the policy, or for one that the scope has declared. -/
def Request.Fair (ρ : Policy) (own : List String) : Request → Prop
  | .known name | .assigned name => ρ.name name
  | .own name => name ∈ own
  | .frameGlobal _ | .temp _ => True

/-- **What emitting does to a state** in a scope that has declared the names `own`. -/
inductive Passes (ρ : Policy) : ScopeId → List String → LoweringState → LoweringState → Prop
  | refl : Passes ρ k own s s
  | trans : Passes ρ k own s s₁ → Passes ρ k own s₁ s₂ → Passes ρ k own s s₂
  | ask (r : Request) : r.Fair ρ own → Passes ρ k own s { s with scopes := (s.scopes.answer k r).2 }
  | enterLoop : Passes ρ k own s (s.enterLoop k)
  | setBreak (id : Option BreakId) : Passes ρ k own s (s.setBreak k id)
  | body {inner : ScopeId} (name : String) (arity : Arity) (span : Span) :
      inner = (s.scopes.openScope k kind).1 →
      Stems ρ inner code (s.enter k kind) s' kind arity span names →
      Emits ρ (fun _ => True) inner (names.map .own) ((s.enter k kind).declareAll inner names)
        [.code code] s' →
      Passes ρ inner names ((s.enter k kind).declareAll inner names) s' →
        Passes ρ k own s (s'.finish (s'.bodyOf s.nextBody name kind inner arity span code))

theorem Request.Allowed.fair {ρ : Policy} {E : List Supply} {own : List String} {r : Request}
    (h : r.Allowed ρ E) (hown : ∀ n, .own n ∈ E → n ∈ own) : r.Fair ρ own := by
  cases r with
  | known name | assigned name => exact h
  | own name => exact hown name h
  | frameGlobal name | temp hint => trivial

namespace Emits

variable {ρ : Policy} {N : Names} {k : ScopeId} {E G : List Supply} {s s' : LoweringState}

/-- Nothing is declared on the way. -/
theorem own_mem (h : Emits ρ N k E s G s') : .own n ∈ G → .own n ∈ E := by
  induction h with
  | supplied hG => exact hG _
  | step _ _ ih₁ ih₂ => exact fun hn => (mem_append.mp (ih₂ hn)).elim ih₁ id
  | loop _ ih => exact ih
  | _ => simp

theorem passes {own : List String} (h : Emits ρ N k E s G s') :
    (∀ n, .own n ∈ E → n ∈ own) → Passes ρ k own s s' := by
  have hcons : ∀ {own : List String} {E : List Supply} {l : Local}, (∀ n, .own n ∈ E → n ∈ own) →
      ∀ n, .own n ∈ .items l :: E → n ∈ own := by simp
  induction h generalizing own with
  | supplied | node | join | read | write | take | readable => exact fun _ => .refl
  | step h₁ _ ih₁ ih₂ =>
    refine fun hown => (ih₁ hown).trans (ih₂ fun n hn => hown n ?_)
    exact (mem_append.mp hn).elim h₁.own_mem id
  | reference r hr _ => exact fun hown => .ask r (hr.fair hown)
  | spread _ _ _ _ _ _ ih₁ ih₂ ih₃ =>
    refine fun hown => .trans (.ask (.temp "array") trivial) ?_
    exact (ih₁ (hcons hown)).trans ((ih₂ (hcons hown)).trans (ih₃ hown))
  | eitherWay _ _ ih =>
    exact fun hown => .trans (.ask (.temp "destructure") trivial) (ih (hcons hown))
  | loop _ ih => exact fun hown => .trans .enterLoop ((ih hown).trans (.setBreak _))
  | body name arity span hinner _ hstems h ih =>
    exact fun _ => .body name arity span hinner hstems h (ih (by simp))

end Emits

namespace LoweringState

/-- A state in which a scope can go on: it has declared its own names. -/
structure Tidy (s : LoweringState) (k : ScopeId) (own : List String) : Prop where
  sound : s.Sound
  regular : s.scopes.Regular
  live : k < s.nextBody
  owned : ∀ name ∈ own, (s.scopes.slotAt k name).isSome

/-- What stays the same from one state to another. -/
structure Leads (s : LoweringState) (k : ScopeId) (s' : LoweringState) : Prop where
  advances : s.Advances (s.scopes.ancestry k) s'
  regular : s'.scopes.Regular
  keeps : s.scopes.Keeps s'.scopes
  fills : Scopes.Fills (s.scopes.nearestNonBlock k) s.scopes s'.scopes

variable {s s₁ s₂ : LoweringState} {k : Nat} {own : List String}

theorem Tidy.refl (h : s.Tidy k own) : s.Leads k s :=
  ⟨.refl h.sound, h.regular, .refl _, .refl _ _⟩

theorem Tidy.later (h : s.Tidy k own) (hl : s.Leads k s₁) : s₁.Tidy k own := by
  have hs := h.sound
  refine ⟨hl.advances.sound, hl.regular,
    hl.advances.lt hs h.live, fun name hname => ?_⟩
  obtain ⟨slot, hslot⟩ := Option.isSome_iff_exists.mp (h.owned name hname)
  have hfound := hl.keeps k (hs.size ▸ h.live) name _ (fun _ => rfl)
    (lookup_of_slotAt hs.wellFormed hslot)
  rw [slotAt_of_lookup hl.advances.sound.wellFormed hfound rfl]
  rfl

theorem Leads.trans (h : s.Tidy k own) (h₁ : s.Leads k s₁) (h₂ : s₁.Leads k s₂) : s.Leads k s₂ := by
  have hs := h.sound
  have hhome := nearestNonBlock_grows hs.wellFormed h₁.advances.sound.wellFormed h.regular
    h₁.advances.grows (hs.size ▸ h.live)
  exact ⟨h₁.advances.andThen hs h.live fun _ _ => h₂.advances, h₂.regular,
    h₁.keeps.trans h₁.advances.grows.size_le h₂.keeps, h₁.fills.trans (hhome ▸ h₂.fills)⟩

theorem Tidy.ask (h : s.Tidy k own)
    (howned : ∀ name, r = .own name → (s.scopes.slotAt k name).isSome) :
    s.Leads k { s with scopes := (s.scopes.answer k r).2 } := by
  cases hl : (s.scopes.answer k r).1 with
  | none =>
    rw [answer_eq_none hl]
    exact h.refl
  | some l =>
    have hs := h.sound
    have hk := hs.size ▸ h.live
    have ha := access_answer hs.wellFormed hk hl
    exact ⟨advances_reference hs h.live r, h.regular.grows ha.grows ha.size,
      (settles_answer hs.wellFormed h.regular.isSealed hk howned hl).keeps,
      fills_answer hs.wellFormed h.regular hk howned⟩

/-- Look-ups do not see what a `break` leaves. -/
theorem Tidy.setBreak (h : s.Tidy k own) (id : Option BreakId) : s.Leads k (s.setBreak k id) := by
  have hs := h.sound
  have ha := advances_setBreak hs (hs.mem_ancestry h.live) id
  refine ⟨ha, h.regular.grows ha.grows (size_modify ..), ?_, fun j a _ hget => ?_⟩
  · refine keeps_of_view hs.wellFormed ha.sound.wellFormed fun j _ => ?_
    unfold Scopes.view LoweringState.setBreak
    rw [Scopes.get?_modify, Option.map_map]
    congr 1
    funext scope
    by_cases hj : j = k
    · simp [hj]
    · simp [hj]
  · refine ⟨_, (Scopes.get?_modify ..).trans (by rw [hget]; rfl), Scope.fills_same ?_⟩
    grind

theorem Tidy.enterLoop (h : s.Tidy k own) : s.Leads k (s.enterLoop k) := by
  have hs := h.sound
  have hfresh : Tidy { s with scopes := s.scopes.freshBreak.2 } k own :=
    ⟨⟨hs.wellFormed, hs.size, hs.places⟩, h.regular, h.live, h.owned⟩
  have hset := hfresh.setBreak (some s.scopes.freshBreak.1)
  have hhome : s.scopes.freshBreak.2.nearestNonBlock k = s.scopes.nearestNonBlock k :=
    nearestNonBlock_grows hs.wellFormed hfresh.sound.wellFormed h.regular
      (.refl [] s.scopes) (hs.size ▸ h.live)
  exact ⟨advances_enterLoop hs (hs.mem_ancestry h.live), hset.regular,
    (keeps_of_view hs.wellFormed hfresh.sound.wellFormed fun _ _ => rfl).trans
      (Nat.le_refl _) hset.keeps, hhome ▸ hset.fills⟩

end LoweringState

theorem Scopes.get?_declareAll_ne {k : ScopeId} (hne : j ≠ k) : ∀ (names : List String)
    (s : Scopes), (s.declareAll k names).get? j = s.get? j
  | [], _ => rfl
  | name :: rest, s => by
    show ((s.declare k name).2.declareAll k rest).get? j = s.get? j
    rw [get?_declareAll_ne hne rest, get?_declare_ne name hne]

namespace LoweringState

/-- The state in which a body is lowered: its own names are declared. -/
def opened (s : LoweringState) (k : ScopeId) (kind : BodyKind) (names : List String) :
    LoweringState :=
  (s.enter k kind).declareAll s.nextBody names

/-- A state in which a body can be opened in a scope. -/
structure Open (s : LoweringState) (k : ScopeId) (kind : BodyKind) : Prop where
  sound : s.Sound
  regular : s.scopes.Regular
  live : kind.isClosure = true → k < s.nextBody

variable {s s₁ : LoweringState} {k : Nat} {kind : BodyKind} {own names : List String}

theorem Tidy.open (h : s.Tidy k own) : s.Open k kind :=
  ⟨h.sound, h.regular, fun _ => h.live⟩

theorem get?_opened (h : s.Open k kind) (hj : j < s.nextBody) :
    (s.opened k kind names).scopes.get? j = s.scopes.get? j :=
  (Scopes.get?_declareAll_ne (Nat.ne_of_lt hj) names _).trans (get?_enter_old h.sound hj)

theorem Open.get?_new (h : s.Open k kind) (names : List String) : ∃ scope : Scope,
    (s.opened k kind names).scopes.get? s.nextBody = some scope ∧ scope.kind = kind ∧
      scope.parent = (if kind.isClosure then some k else none) ∧ scope.slots = addNames [] names := by
  obtain ⟨scope, hget, hkind, hparent, _, hempty⟩ := get?_enter_new h.sound
  obtain ⟨scope', hget', he, hslots⟩ := Scopes.get?_declareAll names hget
  exact ⟨scope', hget', he.kind.trans hkind, he.parent.trans hparent, hempty ▸ hslots⟩

theorem Open.advances (h : s.Open k kind) (names : List String) :
    (s.enter k kind).Advances ((s.enter k kind).scopes.ancestry s.nextBody)
      (s.opened k kind names) :=
  advances_declareAll names (sound_enter h.sound h.live) (Nat.lt_succ_self _)

theorem Open.tidy (h : s.Open k kind) (names : List String) :
    (s.opened k kind names).Tidy s.nextBody names := by
  have ha := h.advances names
  refine ⟨ha.sound, (h.regular.openScope k kind).grows ha.grows
    (ha.sound.size.trans (sound_enter h.sound h.live).size.symm), Nat.lt_succ_self _, ?_⟩
  intro name hname
  obtain ⟨scope, hget, _, _, hslots⟩ := h.get?_new names
  unfold Scopes.slotAt Scope.slot?
  rw [hget, Option.bind_some, isSome_idxOf?, hslots]
  exact mem_addNames.mpr (Or.inr hname)

theorem Open.keeps (h : s.Open k kind) (names : List String) :
    s.scopes.Keeps (s.opened k kind names).scopes := by
  refine keeps_of_view h.sound.wellFormed (h.tidy names).sound.wellFormed fun j hj => ?_
  rw [Scopes.view, get?_opened h (h.sound.size ▸ hj), Scopes.view]

theorem Open.grows (h : s.Open k kind) :
    Scopes.Grows [] s.scopes (s.opened k kind names).scopes := fun _ own hi =>
  ⟨own, (get?_opened h (h.sound.size ▸ lt_size_of_get? hi)).trans hi, .refl own, fun _ => rfl⟩

theorem Open.nearestNonBlock_block (h : s.Open k .block) :
    (s.opened k .block names).scopes.nearestNonBlock s.nextBody = s.scopes.nearestNonBlock k := by
  have hw := (h.tidy names).sound.wellFormed
  obtain ⟨scope, hnew, hkind, hparent, _⟩ := h.get?_new names
  rw [nearestNonBlock_of_block hw hnew (by simp [Scope.isBlock, hkind]) hparent]
  exact nearestNonBlock_grows h.sound.wellFormed hw h.regular h.grows (h.sound.size ▸ h.live rfl)

theorem Open.nearestNonBlock_other (h : s.Open k kind) (hkind : kind ≠ .block) :
    (s.opened k kind names).scopes.nearestNonBlock s.nextBody = s.nextBody := by
  obtain ⟨scope, hnew, hnewKind, _⟩ := h.get?_new names
  exact nearestNonBlock_self (h.tidy names).sound.wellFormed hnew
    (by simp [Scope.isBlock, hnewKind, hkind])

theorem Leads.fromOpened (h : s.Tidy k own) (hl : (s.opened k kind names).Leads s.nextBody s₁) :
    s.Leads k s₁ := by
  have hs := h.sound
  have ho : s.Open k kind := h.open
  have ht := ho.tidy names
  have ha := (ho.advances names).andThen (sound_enter hs ho.live) (Nat.lt_succ_self _)
    fun _ _ => hl.advances
  have hsize : s.scopes.size ≤ (s.opened k kind names).scopes.size := by
    rw [hs.size, ht.sound.size]
    exact Nat.le_succ _
  refine ⟨ha.fromEnter hs ho.live, hl.regular, (ho.keeps names).trans hsize hl.keeps,
    fun j a hj hget => ?_⟩
  have hlt : j < s.nextBody := hs.size ▸ lt_size_of_get? hget
  refine hl.fills j a (fun heq => ?_) ((get?_opened ho hlt).trans hget)
  by_cases hkind : kind = .block
  · subst hkind
    exact hj (heq.trans ho.nearestNonBlock_block)
  · rw [ho.nearestNonBlock_other hkind] at heq
    exact absurd heq (Nat.ne_of_lt hlt)

theorem Leads.finish (h : s.Leads k s₁) (body : Body) (hid : body.id = s.nextBody)
    (hlt : s.nextBody < s₁.nextBody) : s.Leads k (s₁.finish body) :=
  ⟨h.advances.finish hid (Nat.le_refl _) hlt, h.regular, h.keeps, h.fills⟩

end LoweringState

namespace Passes

variable {ρ : Policy} {k : Nat} {own : List String} {s s' : LoweringState}

/-- **What emitting passes through it leaves in order.** -/
theorem leads (h : Passes ρ k own s s') : s.Tidy k own → s.Leads k s' := by
  induction h with
  | refl => exact fun ht => ht.refl
  | trans _ _ ih₁ ih₂ => exact fun ht => (ih₁ ht).trans ht (ih₂ (ht.later (ih₁ ht)))
  | ask r hr => exact fun ht => ht.ask fun name hname => ht.owned name (by rw [hname] at hr; exact hr)
  | enterLoop => exact fun ht => ht.enterLoop
  | setBreak id => exact fun ht => ht.setBreak id
  | body name arity span hinner _ _ _ ih =>
    intro ht
    obtain rfl := hinner.trans (openScope_fst ht.sound)
    have hin := ih (ht.open.tidy _)
    exact (hin.fromOpened ht).finish _ rfl (hin.advances.nextBody_le (ht.open.tidy _).sound)

end Passes

/-! ## The variables that code uses -/

namespace Code

/-- What the node itself reads and writes. What a method has for itself is no global variable. -/
def UsesItself (R W : Local → Prop) : Code → Prop
  | .readLocal l => R l
  | .writeLocal l _ => W l
  | .readGlobal name | .writeGlobal name _ => isFrameGlobal name = false
  | _ => True

/-- What the code reads and writes, bodies of closures apart. -/
def Uses (R W : Local → Prop) (c : Code) : Prop := ∀ part ∈ c.preorder, part.UsesItself R W

namespace Uses

variable {l : Local}

variable {R W : Local → Prop} {array : Local} {c : Code}

theorem node (hc : c.isNeutral = true) (hparts : ∀ part ∈ c.children, part.Uses R W) :
    c.Uses R W := by
  refine forall_preorder.mpr ⟨?_, hparts⟩
  cases c with
  | readLocal | writeLocal => exact absurd hc (by simp [isNeutral])
  | readGlobal | writeGlobal => exact Bool.not_eq_eq_eq_not.mp hc
  | _ => trivial

theorem children (h : c.Uses R W) : ∀ part ∈ c.children, part.Uses R W := (forall_preorder.mp h).2

theorem join (h : ∀ c ∈ pieces, c.Uses R W) : (join pieces).Uses R W := by
  refine join_of_forall (P := Uses R W) (fun items hitems => ?_) (fun body result hboth => ?_) ?_
    (fun items hitems => node rfl hitems) h
  · exact hitems.children
  · exact hboth.children body (by simp [Code.children])
  · exact node rfl (by simp [Code.children])

theorem read (h : R l) : (readLocal l).Uses R W :=
  forall_preorder.mpr ⟨h, by simp [Code.children]⟩

theorem write (h : W l) (hvalue : value.Uses R W) : (writeLocal l value).Uses R W := by
  refine forall_preorder.mpr ⟨h, fun part hpart => ?_⟩
  rw [mem_singleton.mp hpart]
  exact hvalue

theorem take (h : R array) (hc : c.TakesFrom array) : c.Uses R W := by
  cases hc <;>
  · refine forall_preorder.mpr ⟨trivial, fun part hpart => ?_⟩
    rw [mem_singleton.mp hpart]
    exact read h

theorem spread {value : Code} {onNil : NilAsArray} {size : Nat} {nothing large small : List Code}
    (hread : R array) (hwrite : W array) (hvalue : value.Uses R W)
    (hnothing : ∀ c ∈ nothing, c.Uses R W) (hlarge : ∀ c ∈ large, c.Uses R W)
    (hsmall : ∀ c ∈ small, c.Uses R W) :
    (Code.spread array value onNil size nothing large small).Uses R W := by
  refine join fun c hc => ?_
  simp only [mem_cons, not_mem_nil, or_false] at hc
  rcases hc with rfl | rfl
  · refine write hwrite (node rfl fun part hpart => ?_)
    rw [mem_singleton.mp hpart]
    exact hvalue
  · refine node rfl fun part hpart => ?_
    simp only [Code.children, mem_cons, not_mem_nil, or_false] at hpart
    rcases hpart with rfl | rfl | rfl
    · refine node rfl fun part hpart => ?_
      rw [mem_singleton.mp hpart]
      exact read hread
    · exact join hnothing
    · refine node rfl fun part hpart => ?_
      simp only [Code.children, mem_cons, not_mem_nil, or_false] at hpart
      rcases hpart with rfl | rfl | rfl
      · exact take hread (.atLeast _)
      · exact join hlarge
      · exact join hsmall

theorem eitherWay (hwrite : W array) (hitems : ∀ c ∈ fromItems, c.Uses R W)
    (hpositional : ∀ c ∈ positional, c.Uses R W) :
    (Code.eitherWay array fromItems positional).Uses R W := by
  refine node rfl fun part hpart => ?_
  simp only [Code.eitherWay, Code.children, mem_cons, not_mem_nil, or_false] at hpart
  rcases hpart with rfl | rfl | rfl
  · exact node rfl (by simp [Code.children])
  · refine join fun c hc => ?_
    rcases mem_cons.mp hc with rfl | hc
    · refine write hwrite (node rfl fun part hpart => ?_)
      rw [mem_singleton.mp hpart]
      exact node rfl (by simp [Code.children])
    · exact hitems c hc
  · exact join hpositional

theorem refers {P : Local → Prop} (h : c.Uses P P) (hl : c.Refers l) : P l := by
  rcases hl with hl | ⟨value, hl⟩
  · exact h _ hl
  · exact h _ hl

end Uses

end Code

/-- The variables at hand may be used as they will be. -/
def Supply.Uses (R W : Local → Prop) : Supply → Prop
  | .code c => c.Uses R W
  | .reference l => W l
  | .readable l => R l
  | .items l => R l ∧ W l
  | .own _ => True

/-- The variable was the answer to a request on the way. -/
def Answered (ρ : Policy) (k : ScopeId) (own : List String) (s s' : LoweringState) (l : Local) :
    Prop :=
  ∃ t r, Passes ρ k own s t ∧ r.Fair ρ own ∧ (t.scopes.answer k r).1 = some l ∧
    Passes ρ k own { t with scopes := (t.scopes.answer k r).2 } s'

section

variable {ρ : Policy} {k : Nat} {own : List String} {s s₁ s' : LoweringState} {l : Local}

theorem Answered.before (h : Answered ρ k own s₁ s' l) (hp : Passes ρ k own s s₁) :
    Answered ρ k own s s' l := by
  obtain ⟨t, r, hpasses, hlater⟩ := h
  exact ⟨t, r, hp.trans hpasses, hlater⟩

theorem Answered.after (h : Answered ρ k own s s₁ l) (hp : Passes ρ k own s₁ s') :
    Answered ρ k own s s' l := by
  obtain ⟨t, r, hpasses, hr, hl, hlater⟩ := h
  exact ⟨t, r, hpasses, hr, hl, hlater.trans hp⟩

theorem answered_ask (hr : r.Fair ρ own) (hl : (s.scopes.answer k r).1 = some l) :
    Answered ρ k own s { s with scopes := (s.scopes.answer k r).2 } l :=
  ⟨s, r, .refl, hr, hl, .refl⟩

/-- **Code uses what was answered on the way**, and reads only what may be read. -/
theorem Emits.uses {N : Names} {E G : List Supply} {R W : Local → Prop}
    (h : Emits ρ N k E s G s') : (∀ l, W l → MayRead N l.name → R l) →
    (∀ n, .own n ∈ E → n ∈ own) → (∀ l, Answered ρ k own s s' l → W l) → (∀ x ∈ E, x.Uses R W) →
    ∀ x ∈ G, x.Uses R W := by
  have hcons : ∀ {own : List String} {E : List Supply} {l : Local}, (∀ n, .own n ∈ E → n ∈ own) →
      ∀ n, .own n ∈ .items l :: E → n ∈ own := by simp
  have htemp : ∀ {N : Names} {l : Local}, (∀ l, W l → MayRead N l.name → R l) → W l →
      isHidden l.name = true → (Supply.items l).Uses R W :=
    fun hread hl hhidden => ⟨hread _ hl (.inl hhidden), hl⟩
  induction h generalizing own with
  | supplied hG => exact fun _ _ _ hE x hx => hE x (hG x hx)
  | step h₁ h₂ ih₁ ih₂ =>
    intro hread hown hW hE
    have hown' := fun n hn => (mem_append.mp hn).elim (fun hn => hown n (h₁.own_mem hn)) (hown n)
    have hmade := ih₁ hread hown (fun l hl => hW l (hl.after (h₂.passes hown'))) hE
    refine ih₂ hread hown' (fun l hl => hW l (hl.before (h₁.passes hown))) fun x hx => ?_
    exact (mem_append.mp hx).elim (hmade x) (hE x)
  | node hc hparts =>
    intro _ _ _ hE x hx
    rw [mem_singleton.mp hx]
    exact .node (Bool.and_eq_true_iff.mp hc).1 fun part hpart => hE _ (hparts part hpart)
  | join hpieces =>
    intro _ _ _ hE x hx
    rw [mem_singleton.mp hx]
    exact .join fun c hc => hE _ (hpieces c hc)
  | read hl =>
    intro _ _ _ hE x hx
    rw [mem_singleton.mp hx]
    exact .read (hE _ hl)
  | write hl hvalue =>
    intro _ _ _ hE x hx
    rw [mem_singleton.mp hx]
    exact .write (hE _ hl) (hE _ hvalue)
  | take harray hc =>
    intro _ _ _ hE x hx
    rw [mem_singleton.mp hx]
    exact .take (hE _ harray).1 hc
  | reference r hr hl =>
    intro _ hown hW _ x hx
    rw [mem_singleton.mp hx]
    exact hW _ (answered_ask (hr.fair hown) hl)
  | readable hl hname =>
    intro hread _ _ hE x hx
    rw [mem_singleton.mp hx]
    exact hread _ (hE _ hl) hname
  | spread onNil size hvalue h₁ h₂ h₃ ih₁ ih₂ ih₃ =>
    rename_i E _ k s₁ s₂ s₃ s value large small nothing
    intro hread hown hW hE x hx
    have hp₀ : Passes ρ k own s (s.addTemp k "array") := .ask (.temp "array") trivial
    have hp₁ := h₁.passes (hcons hown)
    have hp₂ := h₂.passes (hcons hown)
    have hp₃ := h₃.passes hown
    have harray := htemp hread (hW _ ((answered_ask (r := .temp "array") trivial rfl).after
      (hp₁.trans (hp₂.trans hp₃)))) (isHidden_hiddenName _ _)
    have hE₀ := forall_mem_cons.mpr ⟨harray, hE⟩
    have hlarge := ih₁ hread (hcons hown)
      (fun l hl => hW l ((hl.before hp₀).after (hp₂.trans hp₃))) hE₀
    have hsmall := ih₂ hread (hcons hown)
      (fun l hl => hW l ((hl.before (hp₀.trans hp₁)).after hp₃)) hE₀
    have hnothing := ih₃ hread hown (fun l hl => hW l (hl.before (hp₀.trans (hp₁.trans hp₂)))) hE
    rw [mem_singleton.mp hx]
    exact .spread harray.1 harray.2 (hE _ hvalue)
      (fun c hc => hnothing _ (mem_map.mpr ⟨c, hc, rfl⟩))
      (fun c hc => hlarge _ (mem_map.mpr ⟨c, hc, rfl⟩))
      fun c hc => hsmall _ (mem_map.mpr ⟨c, hc, rfl⟩)
  | eitherWay hpositional h ih =>
    rename_i E _ k s' s positional fromItems
    intro hread hown hW hE x hx
    have hp₀ : Passes ρ k own s (s.addTemp k "destructure") := .ask (.temp "destructure") trivial
    have harray := htemp hread (hW _ ((answered_ask (r := .temp "destructure") trivial rfl).after
      (h.passes (hcons hown)))) (isHidden_hiddenName _ _)
    have hitems := ih hread (hcons hown) (fun l hl => hW l (hl.before hp₀))
      (forall_mem_cons.mpr ⟨harray, hE⟩)
    rw [mem_singleton.mp hx]
    exact .eitherWay harray.2 (fun c hc => hitems _ (mem_map.mpr ⟨c, hc, rfl⟩))
      fun c hc => hE _ (hpositional c hc)
  | loop _ ih =>
    intro hread hown hW
    exact ih hread hown fun l hl => hW l ((hl.before .enterLoop).after (.setBreak _))
  | body => exact fun _ _ _ _ => forall_mem_nil _

/-- What was answered on the way is what look-ups give in the end. -/
theorem Answered.finds (h : Answered ρ k own s s' l) (hs : s.Tidy k own) : s'.scopes.Finds k l := by
  obtain ⟨t, r, hpasses, hr, hl, hlater⟩ := h
  have ht := hs.later (hpasses.leads hs)
  have howned : ∀ name, r = .own name → (t.scopes.slotAt k name).isSome :=
    fun name hname => ht.owned name (by rw [hname] at hr; exact hr)
  have hk := ht.sound.size ▸ ht.live
  have hsettles := settles_answer ht.sound.wellFormed ht.regular.isSealed hk howned hl
  have hasked := ht.later (ht.ask howned)
  have hfinds : Scopes.Finds (t.scopes.answer k r).2 k l := fun _ => hsettles.found
  exact hfinds.later (hasked.sound.size ▸ hasked.live) (hlater.leads hasked).keeps

end

theorem Scopes.nextTemp_openScope (s : Scopes) (outer : ScopeId) (kind : BodyKind) :
    (s.openScope outer kind).2.nextTemp = s.nextTemp := by
  cases kind <;> rfl

theorem Passes.nextTemp_le {ρ : Policy} {k : ScopeId} {own : List String} {s s' : LoweringState}
    (h : Passes ρ k own s s') : s.scopes.nextTemp ≤ s'.scopes.nextTemp := by
  induction h with
  | refl | enterLoop | setBreak => exact Nat.le_refl _
  | trans _ _ ih₁ ih₂ => exact Nat.le_trans ih₁ ih₂
  | ask r => exact Scopes.nextTemp_answer _ _ r
  | @body _ _ kind names k _ s inner _ _ _ _ _ _ _ ih =>
    have henter : ((s.enter k kind).declareAll inner names).scopes.nextTemp = s.scopes.nextTemp :=
      (Scopes.nextTemp_declareAll inner names _).trans (s.scopes.nextTemp_openScope k kind)
    exact henter ▸ ih

theorem Passes.mistakes {ρ : Policy} {k : ScopeId} {own : List String} {s s' : LoweringState}
    (h : Passes ρ k own s s') : s'.mistakes = s.mistakes := by
  induction h with
  | refl | ask | enterLoop | setBreak => rfl
  | trans _ _ ih₁ ih₂ => exact ih₂.trans ih₁
  | body _ _ _ _ _ _ _ ih => exact ih

/-! ## How bodies were made -/

/-- How a body was made, in the scope `outer` and from the state `t` to the state `t'`. -/
structure Body.Origin (body : Body) (ρ : Policy) (outer : ScopeId) (t t' : LoweringState)
    (names : List String) : Prop where
  opening : t.Open outer body.kind
  clean : t'.mistakes = []
  stems : Stems ρ t.nextBody body.code (t.enter outer body.kind) t' body.kind body.arity body.span
    names
  emits : Emits ρ (fun _ => True) t.nextBody (names.map .own) (t.opened outer body.kind names)
    [.code body.code] t'
  eq : body = t'.bodyOf t.nextBody body.name body.kind t.nextBody body.arity body.span body.code

namespace Body.Origin

variable {body : Body} {ρ : Policy} {outer : ScopeId} {t t' : LoweringState} {names : List String}

theorem passes (h : body.Origin ρ outer t t' names) :
    Passes ρ t.nextBody names (t.opened outer body.kind names) t' :=
  h.emits.passes (by simp)

theorem leads (h : body.Origin ρ outer t t' names) :
    (t.opened outer body.kind names).Leads t.nextBody t' :=
  h.passes.leads (h.opening.tidy names)

theorem finds (h : body.Origin ρ outer t t' names) :
    body.code.Uses (t'.scopes.Finds t.nextBody) (t'.scopes.Finds t.nextBody) :=
  h.emits.uses (fun _ hl _ => hl) (by simp)
    (fun _ (hl : Answered ρ _ names _ _ _) => hl.finds (h.opening.tidy names))
    (by simp [Supply.Uses]) (.code body.code) mem_cons_self

end Body.Origin

/-- The place holds a body that was made of something before, and its variables are still found. -/
def LoweringState.MadeAt (s : LoweringState) (ρ : Policy) (b : BodyId) : Prop :=
  ∃ body outer t t' names live, s.unit.body? b = some body ∧ body.Origin ρ outer t t' names ∧
    Scopes.Grows live t'.scopes s.scopes ∧ ∀ l, body.code.Refers l → s.scopes.Finds b l

section

variable {ρ : Policy} {k : Nat} {own : List String} {s s' : LoweringState}

theorem LoweringState.MadeAt.later {b : BodyId} (h : s.MadeAt ρ b) (hs : s.Sound)
    (hl : s.Leads k s') : s'.MadeAt ρ b := by
  obtain ⟨body, outer, t, t', names, live, hb, horigin, hgrows, hfinds⟩ := h
  have hlt : b < s.scopes.size :=
    hs.size ▸ Nat.lt_of_lt_of_le (Array.getElem?_eq_some_iff.mp hb).1 hs.places
  exact ⟨body, outer, t, t', names, _, hl.advances.body? hs hb, horigin,
    hgrows.append hl.advances.grows, fun l hrefers => (hfinds l hrefers).later hlt hl.keeps⟩

theorem LoweringState.madeAt_finish {body : Body} {outer : ScopeId} {names : List String}
    (horigin : body.Origin ρ outer s s' names) (hid : body.id = s.nextBody)
    (h : ∀ b, s.nextBody < b → b < s'.nextBody → s'.MadeAt ρ b) :
    ∀ b, s.nextBody ≤ b → b < s'.nextBody → (s'.finish body).MadeAt ρ b := by
  intro b hle hlt
  rcases Nat.lt_or_eq_of_le hle with hlater | rfl
  · obtain ⟨other, outer, t, t', names, live, hb, hother, hlast⟩ := h b hlater hlt
    refine ⟨other, outer, t, t', names, live, ?_, hother, hlast⟩
    rcases s'.unit.body?_add_ne (b := body) (hid ▸ Nat.ne_of_gt hlater) with heq | ⟨hnone, _⟩
    · exact heq.trans hb
    · exact absurd (hnone.symm.trans hb) (by simp)
  · exact ⟨body, outer, s, s', names, [], hid ▸ CodeUnit.body?_add_self s'.unit body, horigin,
      .refl _ _, fun _ => horigin.finds.refers⟩

/-- **Every place that was given out on the way holds a body**, and it is known what of. -/
theorem Passes.made (h : Passes ρ k own s s') : s.Tidy k own → s.mistakes = [] →
    ∀ b, s.nextBody ≤ b → b < s'.nextBody → s'.MadeAt ρ b := by
  induction h with
  | refl | ask | enterLoop | setBreak =>
    exact fun _ _ b hle hlt => absurd hlt (Nat.not_lt.mpr hle)
  | trans h₁ h₂ ih₁ ih₂ =>
    rename_i s s₁ s₂
    intro ht hclean b hle hlt
    have ht₁ := ht.later (h₁.leads ht)
    rcases Nat.lt_or_ge b s₁.nextBody with hb | hb
    · exact (ih₁ ht hclean b hle hb).later ht₁.sound (h₂.leads ht₁)
    · exact ih₂ ht₁ (h₁.mistakes.trans hclean) b hb hlt
  | body name arity span hinner hstems hemits h ih =>
    rename_i code s' kind names outer own s inner
    intro ht hclean
    obtain rfl : inner = s.nextBody := hinner.trans (openScope_fst ht.sound)
    have horigin : (s'.bodyOf s.nextBody name kind s.nextBody arity span code).Origin ρ outer s s'
        names := ⟨ht.open, h.mistakes.trans hclean, hstems, hemits, rfl⟩
    have hinside := ih (ht.open.tidy names) hclean
    intro b
    exact madeAt_finish horigin rfl hinside b

end

namespace Program

variable {p : Program} {options : LowerOptions}

/-- **How every body of a unit was made.** -/
theorem madeAt (hclean : (p.lowering options).mistakes = []) {b : BodyId} {body : Body}
    (hb : (p.lowering options).unit.body? b = some body) :
    (p.lowering options).MadeAt (p.policy options) b := by
  obtain ⟨codes, s, ⟨hemits, -, -⟩, heq⟩ := p.puts options hclean
  have hopen : ({} : LoweringState).Open 0 .topLevel :=
    ⟨sound_empty, by simp [Scopes.Regular, Scopes.get?], by simp [BodyKind.isClosure]⟩
  have hjoin : Emits (p.policy options) (fun _ => True) 0 [] (({} : LoweringState).opened 0 .topLevel [])
      [.code (.join codes)] s := .step hemits (.join fun c hc => by simp [hc])
  have hpasses : Passes (p.policy options) 0 [] _ s := hjoin.passes (by simp)
  have hleads := hpasses.leads (hopen.tidy [])
  have horigin : (s.bodyOf 0 mainName .topLevel 0 {} p.span (.join codes)).Origin
      (p.policy options) 0 {} s [] :=
    ⟨hopen, hpasses.mistakes, .plain mem_cons_self, hjoin, rfl⟩
  have hmade := madeAt_finish horigin rfl fun b hb => hpasses.made (hopen.tidy []) rfl b hb
  rw [heq] at hb
  have hlt : b < s.nextBody := by
    have hplaced := (Array.getElem?_eq_some_iff.mp hb).1
    rw [LoweringState.finish, CodeUnit.size_add] at hplaced
    exact Nat.lt_of_lt_of_le hplaced
      (Nat.max_le.mpr ⟨hleads.advances.sound.places, hleads.advances.nextBody_le (hopen.tidy []).sound⟩)
  rw [heq]
  exact hmade b (Nat.zero_le b) hlt

variable {u : CodeUnit} {b : BodyId} {body : Body}

theorem madeBefore_of_lower (h : p.lower options = .ok u) (hb : u.body? b = some body) :
    ∃ outer t t' names live, body.Origin (p.policy options) outer t t' names ∧
      Scopes.Grows live t'.scopes (p.lowering options).scopes ∧
      ∀ l, body.code.Refers l → (p.lowering options).scopes.Finds b l := by
  obtain ⟨hclean, rfl⟩ := lower_ok_iff.mp h
  obtain ⟨other, outer, t, t', names, live, hother, hmade⟩ := madeAt hclean hb
  cases hb.symm.trans hother
  exact ⟨outer, t, t', names, live, hmade⟩

theorem made_of_lower (h : p.lower options = .ok u) (hb : u.body? b = some body) :
    ∃ outer t t' names, body.Origin (p.policy options) outer t t' names :=
  let ⟨outer, t, t', names, _, horigin, _⟩ := madeBefore_of_lower h hb
  ⟨outer, t, t', names, horigin⟩

theorem finds_of_lower (h : p.lower options = .ok u) (hb : u.body? b = some body) {l : Local}
    (hl : body.code.Refers l) : (p.lowering options).scopes.Finds b l :=
  let ⟨_, _, _, _, _, _, _, hfinds⟩ := madeBefore_of_lower h hb
  hfinds l hl

end Program

end BlockLang
