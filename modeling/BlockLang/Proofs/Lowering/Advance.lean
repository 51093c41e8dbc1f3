import BlockLang.Proofs.Lowering.Expr

/-!
# Lowering only adds

Scopes and places of bodies are given out in the same order, one of each at a time: **the scope of
a body has the number of the body** (`LoweringState.Sound`). From then on lowering adds to what is
there. A scope that is not open any more stays as it is, a finished body stays, and the only thing
that is ever overwritten is the placeholder of a body that is not finished yet
(`LoweringState.Advances`). `Lowers.advances` says so of everything lowering does, mistakes
included.
-/

namespace BlockLang

open List LoweringState Scopes

/-! ## Adding a body to a unit -/

namespace CodeUnit

theorem bodies_reserve (u : CodeUnit) (id b : Nat) :
    (u.reserve id).bodies[b]? = if b < u.bodies.size then u.bodies[b]? else
      if b ≤ id then some (placeholder b) else none := by
  unfold reserve
  simp only [Array.getElem?_append, List.getElem?_toArray, List.getElem?_map]
  by_cases hb : b < u.bodies.size
  · simp [hb]
  · simp only [hb, if_false]
    by_cases hid : b ≤ id
    · have hplace : u.bodies.size + 1 * (b - u.bodies.size) = b := by omega
      rw [List.getElem?_range' (by omega), Option.map_some, hplace, if_pos hid]
    · rw [List.getElem?_eq_none (by simp; omega), if_neg hid]
      rfl

theorem size_reserve (u : CodeUnit) (id : Nat) :
    (u.reserve id).bodies.size = max u.bodies.size (id + 1) := by
  simp [reserve]
  omega

theorem body?_add_self (u : CodeUnit) (b : Body) : (u.add b).body? b.id = some b := by
  have hsize := u.size_reserve b.id
  unfold add body?
  simp only [Array.set!_eq_setIfInBounds]
  rw [Array.getElem?_setIfInBounds_self_of_lt]
  omega

/-- The other bodies stay, and missing ones may get a placeholder. -/
theorem body?_add_ne (u : CodeUnit) {id : Nat} (h : id ≠ b.id) :
    (u.add b).body? id = u.body? id ∨
      u.body? id = none ∧ (u.add b).body? id = some (placeholder id) := by
  have hbodies := u.bodies_reserve b.id id
  unfold add body?
  simp only [Array.set!_eq_setIfInBounds]
  rw [Array.getElem?_setIfInBounds_ne (Ne.symm h), hbodies]
  by_cases hid : id < u.bodies.size
  · simp [hid]
  · rw [if_neg hid, Array.getElem?_eq_none (Nat.le_of_not_lt hid)]
    by_cases hle : id ≤ b.id
    · simp [hle]
    · simp [hle]

theorem size_add (u : CodeUnit) (b : Body) :
    (u.add b).bodies.size = max u.bodies.size (b.id + 1) := by
  unfold add
  simp [size_reserve]

end CodeUnit

/-! ## Opening a scope -/

namespace Scopes

/-- A new scope is empty, and names are looked for around it only if it is that of a closure. -/
theorem openScope_spec (s : Scopes) (outer : ScopeId) (kind : BodyKind) :
    ∃ scope : Scope, (s.openScope outer kind).1 = s.size ∧
      (s.openScope outer kind).2.scopes = s.scopes.push scope ∧ scope.kind = kind ∧
      scope.parent = (if kind.isClosure then some outer else none) ∧ scope.slots = [] ∧
      scope.captured = false := by
  cases kind <;> exact ⟨_, rfl, rfl, rfl, rfl, rfl, rfl⟩

end Scopes

namespace LoweringState

variable {live : List ScopeId} {s : LoweringState}

/-- The numbers of scopes and bodies go together. -/
structure Sound (s : LoweringState) : Prop where
  wellFormed : s.scopes.WellFormed
  size : s.scopes.size = s.nextBody
  places : s.unit.bodies.size ≤ s.nextBody

theorem Sound.mem_ancestry (hs : s.Sound) (hk : k < s.nextBody) : k ∈ s.scopes.ancestry k :=
  mem_of_getElem? (ancestry_zero hs.wellFormed (hs.size ▸ hk))

/-- A later state, in which only the scopes of `live` may have changed. -/
structure Advances (live : List ScopeId) (s s' : LoweringState) : Prop where
  sound : s'.Sound
  grows : Scopes.Grows live s.scopes s'.scopes
  kept : ∀ b < s.nextBody, s'.unit.body? b = s.unit.body? b ∨
    s.unit.body? b = none ∧ s'.unit.body? b = some (CodeUnit.placeholder b)
  mistakes : s.mistakes <+: s'.mistakes
  main : s'.unit.main = s.unit.main

namespace Advances

variable {live : List ScopeId} {s s₁ s₂ : LoweringState}

theorem refl (h : s.Sound) : Advances live s s :=
  ⟨h, .refl live s.scopes, fun _ _ => Or.inl rfl, prefix_rfl, rfl⟩

theorem nextBody_le (hs : s.Sound) (h : Advances live s s₁) : s.nextBody ≤ s₁.nextBody := by
  have hle := h.grows.size_le
  rwa [hs.size, h.sound.size] at hle

theorem lt (hs : s.Sound) (h : Advances live s s₁) (hk : k < s.nextBody) : k < s₁.nextBody :=
  Nat.lt_of_lt_of_le hk (h.nextBody_le hs)

theorem trans (hs : s.Sound) (h₁ : Advances live s s₁) (h₂ : Advances live s₁ s₂) :
    Advances live s s₂ := by
  have hle := h₁.nextBody_le hs
  refine ⟨h₂.sound, h₁.grows.trans h₂.grows, fun b hb => ?_, h₁.mistakes.trans h₂.mistakes,
    h₂.main.trans h₁.main⟩
  rcases h₁.kept b hb with hb₁ | ⟨hnone, hplaced⟩
  · rcases h₂.kept b (Nat.lt_of_lt_of_le hb hle) with hb₂ | ⟨hnone, hplaced⟩
    · exact Or.inl (hb₂.trans hb₁)
    · exact Or.inr ⟨hb₁ ▸ hnone, hplaced⟩
  · rcases h₂.kept b (Nat.lt_of_lt_of_le hb hle) with hb₂ | ⟨hnone₁, _⟩
    · exact Or.inr ⟨hnone, hb₂.trans hplaced⟩
    · rw [hplaced] at hnone₁
      exact absurd hnone₁ (by simp)

theorem body? (hs : s.Sound) (h : Advances live s s₁) (hb : s.unit.body? b = some body) :
    s₁.unit.body? b = some body := by
  obtain ⟨hlt, _⟩ := Array.getElem?_eq_some_iff.mp hb
  rcases h.kept b (Nat.lt_of_lt_of_le hlt hs.places) with heq | ⟨hnone, _⟩
  · exact heq.trans hb
  · rw [hb] at hnone
    exact absurd hnone (by simp)

end Advances

/-! ## The steps -/

theorem advances_setBreak (hs : s.Sound) (hk : k ∈ live) (id : Option BreakId) :
    Advances live s (s.setBreak k id) := by
  have hgrows : Scopes.Grows live s.scopes (s.setBreak k id).scopes := by
    intro j scope hj
    refine ⟨if j = k then { scope with breakId := id } else scope, ?_, ?_, ?_⟩
    · simp only [setBreak, Scopes.get?_modify, hj, Option.map_some]
    · split
      · exact ⟨rfl, prefix_rfl, fun h => h⟩
      · exact .refl scope
    · intro hn
      have hne : j ≠ k := fun heq => hn (heq ▸ hk)
      rw [if_neg hne]
  have hsize : (s.setBreak k id).scopes.size = s.scopes.size := size_modify ..
  exact ⟨⟨hgrows.wellFormed hsize hs.wellFormed, hsize.trans hs.size, hs.places⟩, hgrows,
    fun _ _ => Or.inl rfl, prefix_rfl, rfl⟩

theorem advances_enterLoop (hs : s.Sound) (hk : k ∈ live) : Advances live s (s.enterLoop k) :=
  -- the counter of identities is no part of any scope
  have hfresh : Sound { s with scopes := s.scopes.freshBreak.2 } :=
    ⟨hs.wellFormed, hs.size, hs.places⟩
  Advances.trans hs ⟨hfresh, .refl live s.scopes, fun _ _ => Or.inl rfl, prefix_rfl, rfl⟩
    (advances_setBreak hfresh hk _)

theorem advances_reference (hs : s.Sound) (hk : k < s.nextBody) (r : Request) :
    Advances (s.scopes.ancestry k) s { s with scopes := (s.scopes.answer k r).2 } := by
  cases hl : (s.scopes.answer k r).1 with
  | none =>
    rw [answer_eq_none hl]
    exact .refl hs
  | some l =>
    have ha := access_answer hs.wellFormed (hs.size ▸ hk) hl
    exact ⟨⟨ha.grows.wellFormed ha.size hs.wellFormed, ha.size.trans hs.size, hs.places⟩, ha.grows,
      fun _ _ => Or.inl rfl, prefix_rfl, rfl⟩

/-! ## Inside a body -/

theorem Advances.finish {id : Nat} (h : Advances live s₀ s) (hbody : body.id = id)
    (hid₀ : s₀.nextBody ≤ id) (hid : id < s.nextBody) : Advances live s₀ (s.finish body) := by
  subst hbody
  have hs := h.sound
  refine ⟨⟨hs.wellFormed, hs.size, ?_⟩, h.grows, fun b hb => ?_, h.mistakes, h.main⟩
  · show (s.unit.add body).bodies.size ≤ s.nextBody
    rw [s.unit.size_add body]
    exact Nat.max_le.mpr ⟨hs.places, hid⟩
  · have hne : b ≠ body.id := Nat.ne_of_lt (Nat.lt_of_lt_of_le hb hid₀)
    show (s.unit.add body).body? b = _ ∨ _
    rcases s.unit.body?_add_ne hne with heq | ⟨hnone, hplaced⟩
    · rcases h.kept b hb with hkept | ⟨hnone, hplaced⟩
      · exact Or.inl (heq.trans hkept)
      · exact Or.inr ⟨hnone, heq.trans hplaced⟩
    · rcases h.kept b hb with hkept | ⟨_, hplaced₀⟩
      · exact Or.inr ⟨hkept ▸ hnone, hplaced⟩
      · rw [hplaced₀] at hnone
        exact absurd hnone (by simp)

section Enter

variable {s : LoweringState} {outer : Nat} {kind : BodyKind} (hs : s.Sound)

include hs

theorem openScope_fst : (s.scopes.openScope outer kind).1 = s.nextBody := by
  obtain ⟨_, hid, _⟩ := s.scopes.openScope_spec outer kind
  rw [hid, hs.size]

theorem get?_enter_new :
    ∃ scope : Scope, (s.enter outer kind).scopes.get? s.nextBody = some scope ∧ scope.kind = kind ∧
      scope.parent = (if kind.isClosure then some outer else none) ∧ scope.captured = false ∧
      scope.slots = [] := by
  obtain ⟨scope, _, hpush, hkind, hparent, hslots, hcaptured⟩ :=
    s.scopes.openScope_spec outer kind
  refine ⟨scope, ?_, hkind, hparent, hcaptured, hslots⟩
  unfold enter Scopes.get?
  simp only [hpush, ← hs.size, Scopes.size, Array.getElem?_push_size]

theorem get?_enter_old (hk : k < s.nextBody) :
    (s.enter outer kind).scopes.get? k = s.scopes.get? k := by
  obtain ⟨scope, _, hpush, _⟩ := s.scopes.openScope_spec outer kind
  unfold enter Scopes.get?
  have hlt : k < s.scopes.scopes.size := Nat.lt_of_lt_of_eq hk hs.size.symm
  simp only [hpush]
  rw [Array.getElem?_push_lt hlt, Array.getElem?_eq_getElem hlt]

theorem sound_enter (ho : kind.isClosure = true → outer < s.nextBody) :
    (s.enter outer kind).Sound := by
  obtain ⟨scope, hid, hpush, hkind, hparent, _⟩ := s.scopes.openScope_spec outer kind
  have hsize : (s.enter outer kind).scopes.size = s.nextBody + 1 := by
    unfold enter Scopes.size
    simp only [hpush, Array.size_push]
    rw [← hs.size]
    rfl
  refine ⟨fun k own p hk hp => ?_, hsize, Nat.le_succ_of_le hs.places⟩
  have hlt := lt_size_of_get? hk
  rcases Nat.lt_or_ge k s.nextBody with hold | hnew
  · rw [get?_enter_old hs hold] at hk
    exact hs.wellFormed k own p hk hp
  · have hk' : k = s.nextBody := by omega
    obtain ⟨scope', hget, _, hparent', _⟩ := get?_enter_new hs
    rw [hk', hget, Option.some.injEq] at hk
    rw [← hk, hparent'] at hp
    split at hp
    · rename_i hclosure
      cases hp
      exact hk' ▸ ho hclosure
    · simp at hp

theorem ancestry_enter (ho : kind.isClosure = true → outer < s.nextBody) :
    (s.enter outer kind).scopes.ancestry s.nextBody =
      s.nextBody :: (if kind.isClosure then s.scopes.ancestry outer else []) := by
  obtain ⟨scope, hget, _, hparent, _⟩ := get?_enter_new hs
  have hw := (sound_enter hs ho).wellFormed
  have hgrows : Scopes.Grows [] s.scopes (s.enter outer kind).scopes := by
    intro k own hk
    have hlt := hs.size ▸ lt_size_of_get? hk
    exact ⟨own, (get?_enter_old hs hlt).trans hk, .refl own, fun _ => rfl⟩
  cases hc : kind.isClosure with
  | true =>
    rw [hc, if_pos rfl] at hparent
    rw [ancestry_of_parent hw hget hparent, hgrows.ancestry hs.wellFormed hw (hs.size ▸ ho hc)]
    rfl
  | false =>
    rw [hc] at hparent
    rw [ancestry_of_root hw hget (by simpa using hparent)]
    rfl

theorem Advances.fromEnter (ho : kind.isClosure = true → outer < s.nextBody)
    (h : Advances ((s.enter outer kind).scopes.ancestry s.nextBody) (s.enter outer kind) s') :
    Advances (s.scopes.ancestry outer) s s' := by
  refine ⟨h.sound, ?_, fun b hb => h.kept b (Nat.lt_succ_of_lt hb), h.mistakes, h.main⟩
  intro k own hk
  have hlt := hs.size ▸ lt_size_of_get? hk
  obtain ⟨own', hk', he, hsame⟩ := h.grows k own ((get?_enter_old hs hlt).trans hk)
  refine ⟨own', hk', he, fun hn => hsame fun hm => ?_⟩
  rw [ancestry_enter hs ho, mem_cons] at hm
  rcases hm with heq | hm
  · omega
  · split at hm
    · exact hn hm
    · simp at hm

theorem sound_inside {inner : ScopeId} (houter : outer < s.nextBody)
    (hinner : inner = (s.scopes.openScope outer kind).1) :
    (s.enter outer kind).Sound ∧ inner < (s.enter outer kind).nextBody :=
  ⟨sound_enter hs fun _ => houter, hinner.trans (openScope_fst hs) ▸ Nat.lt_succ_self _⟩

theorem advances_inside (ho : kind.isClosure = true → outer < s.nextBody) {inner : Context}
    (hscope : inner.scope = (s.scopes.openScope outer kind).1)
    (ih : (s.enter outer kind).Sound → inner.scope < (s.enter outer kind).nextBody →
      (s.enter outer kind).Advances ((s.enter outer kind).scopes.ancestry inner.scope) s') :
    (s.enter outer kind).Advances ((s.enter outer kind).scopes.ancestry s.nextBody) s' := by
  rw [hscope.trans (openScope_fst hs)] at ih
  exact ih (sound_enter hs ho) (Nat.lt_succ_self _)

end Enter

end LoweringState

/-- **Whatever lowering does, it only adds.** -/
theorem Lowers.advances {s : LoweringState} (h : Lowers c s out s') :
    s.Sound → c.scope < s.nextBody →
      s.Advances (s.scopes.ancestry c.scope) s' := by
  induction h with
  | nothing | mistake | super _ => exact fun hs _ => .refl hs
  | append _ _ ih₁ ih₂ =>
    intro hs hk
    have h₁ := ih₁ hs hk
    have h₂ := ih₂ h₁.sound (h₁.lt hs hk)
    rw [h₁.grows.ancestry hs.wellFormed h₁.sound.wellFormed (hs.size ▸ hk)] at h₂
    exact h₁.trans hs h₂
  | reference r => exact fun hs hk => advances_reference hs hk r
  | inside _ hscope _ ih =>
    intro hs hk
    rw [← hscope] at hk ⊢
    exact ih hs hk
  | loop _ ih =>
    intro hs hk
    have hmem := hs.mem_ancestry hk
    have h₁ := advances_enterLoop hs hmem
    have h₂ := ih h₁.sound hk
    rw [h₁.grows.ancestry hs.wellFormed h₁.sound.wellFormed (hs.size ▸ hk)] at h₂
    exact (h₁.trans hs h₂).trans hs (advances_setBreak h₂.sound hmem _)
  | body name arity span hscope hmethod _ _ ih =>
    intro hs hk
    have hin := advances_inside hs (fun _ => hk) hscope ih
    have hle := hin.nextBody_le (sound_enter hs fun _ => hk)
    exact (hin.fromEnter hs fun _ => hk).finish rfl (Nat.le_refl _) hle
  | abandoned hscope hmethod _ ih =>
    intro hs hk
    exact (advances_inside hs (fun _ => hk) hscope ih).fromEnter hs fun _ => hk
  | recovered d _ ih =>
    intro hs hk
    have h := ih hs hk
    exact ⟨⟨h.sound.wellFormed, h.sound.size, h.sound.places⟩, h.grows, h.kept,
      h.mistakes.trans (prefix_append _ _), h.main⟩

end BlockLang
