import BlockLang.Proofs.Lowering.Exact
import BlockLang.Proofs.Scopes.Histories

/-!
# Identities are given out once

A `return` or `break` names what it leaves by an identity, and identities come from two counters.
A closure gets a `break` of its own and so does every loop; a program, method or lambda gets a
`return` of its own, and a block has that of the scope around it.

`LoweringState.Apart` says that no two scopes have the same `break`, and no two that are not blocks
the same `return`. That a loop borrows the `break` of its scope, while scopes inside the loop get
theirs from the same counter, is why this needs an invariant: what is set back after the loop was
given out before all that was given out inside.

A body takes its identities from its scope when it is finished (`LoweringState.Matches`).
-/

namespace BlockLang

open LoweringState

namespace LoweringState

/-- The kind of a scope. -/
def kindOf (s : LoweringState) (k : ScopeId) : Option BodyKind := (s.scopes.get? k).map (·.kind)

variable {s s' : LoweringState} {k : Nat}

theorem exitsOf_of_le (hs : s.Sound) (hk : s.nextBody ≤ k) :
    s.breakOf k = none ∧ s.returnOf k = none ∧ s.kindOf k = none := by
  have hsize : s.scopes.scopes.size = s.nextBody := hs.size
  have hnone : s.scopes.get? k = none := Array.getElem?_eq_none (hsize ▸ hk)
  unfold breakOf returnOf kindOf
  rw [hnone]
  exact ⟨rfl, rfl, rfl⟩

theorem Advances.kindOf (h : Advances live s s') (hs : s.Sound) (hk : k < s.nextBody) :
    s'.kindOf k = s.kindOf k := by
  obtain ⟨scope, hget⟩ := Scopes.exists_get? (hs.size ▸ hk)
  obtain ⟨scope', hget', he, _⟩ := h.grows k scope hget
  unfold LoweringState.kindOf
  rw [hget, hget', Option.map_some, Option.map_some, he.same]

/-! ## Identities that are apart -/

/-- No identity was given out twice, and none that the counters have yet to give. -/
structure Apart (s : LoweringState) : Prop where
  breakIssued : ∀ {k id}, s.breakOf k = some id → id.index < s.scopes.nextBreak
  breakApart : ∀ {j k id}, s.breakOf j = some id → s.breakOf k = some id → j = k
  returnIssued : ∀ {k id}, s.returnOf k = some id → id.index < s.scopes.nextReturn
  returnApart : ∀ {j k id}, s.kindOf j ≠ some .block → s.kindOf k ≠ some .block →
    s.returnOf j = some id → s.returnOf k = some id → j = k

theorem breakOf_eq_some {id : BreakId} : s.breakOf k = some id ↔
    ∃ scope, s.scopes.get? k = some scope ∧ scope.breakId = some id := by
  unfold breakOf
  cases s.scopes.get? k with
  | none => exact ⟨nofun, nofun⟩
  | some scope => simp

theorem returnOf_eq_some {id : ReturnId} : s.returnOf k = some id ↔
    ∃ scope, s.scopes.get? k = some scope ∧ scope.returnId = some id := by
  unfold returnOf
  cases s.scopes.get? k with
  | none => exact ⟨nofun, nofun⟩
  | some scope => simp

theorem apart_iff : s.Apart ↔ s.scopes.Identified := by
  have hkind : ∀ {k scope}, s.scopes.get? k = some scope →
      (s.kindOf k ≠ some .block ↔ scope.kind ≠ .block) := by
    intro k scope hk
    rw [kindOf, hk, Option.map_some, Ne, Option.some.injEq]
  constructor
  · intro h
    exact ⟨fun hk hid => h.returnIssued (returnOf_eq_some.mpr ⟨_, hk, hid⟩),
      fun hj hk ha hb hid hid' => h.returnApart ((hkind hj).mpr ha) ((hkind hk).mpr hb)
        (returnOf_eq_some.mpr ⟨_, hj, hid⟩) (returnOf_eq_some.mpr ⟨_, hk, hid'⟩),
      fun hk hid => h.breakIssued (breakOf_eq_some.mpr ⟨_, hk, hid⟩),
      fun hj hk hid hid' => h.breakApart (breakOf_eq_some.mpr ⟨_, hj, hid⟩)
        (breakOf_eq_some.mpr ⟨_, hk, hid'⟩)⟩
  · intro h
    constructor
    · intro k id hk
      obtain ⟨scope, hget, hid⟩ := breakOf_eq_some.mp hk
      exact h.breakIssued hget hid
    · intro j k id hj hk
      obtain ⟨a, hgeta, hid⟩ := breakOf_eq_some.mp hj
      obtain ⟨b, hgetb, hid'⟩ := breakOf_eq_some.mp hk
      exact h.breakApart hgeta hgetb hid hid'
    · intro k id hk
      obtain ⟨scope, hget, hid⟩ := returnOf_eq_some.mp hk
      exact h.returnIssued hget hid
    · intro j k id ha hb hj hk
      obtain ⟨a, hgeta, hid⟩ := returnOf_eq_some.mp hj
      obtain ⟨b, hgetb, hid'⟩ := returnOf_eq_some.mp hk
      exact h.returnApart hgeta hgetb ((hkind hgeta).mp ha) ((hkind hgetb).mp hb) hid hid'

theorem Apart.reference (h : s.Apart) (hs : s.Sound) (hk : k < s.nextBody) (r : Request) :
    Apart { s with scopes := (s.scopes.answer k r).2 } :=
  apart_iff.mpr ((apart_iff.mp h).answer hs.wellFormed (hs.size ▸ hk) r)

theorem returnOf_setBreak (s : LoweringState) (k : ScopeId) (id : Option BreakId) (j : ScopeId) :
    (s.setBreak k id).returnOf j = s.returnOf j := by
  unfold returnOf setBreak
  rw [Scopes.get?_modify]
  by_cases hj : j = k
  · cases s.scopes.get? j <;> simp [hj]
  · cases s.scopes.get? j <;> simp [hj]

theorem kindOf_setBreak (s : LoweringState) (k : ScopeId) (id : Option BreakId) (j : ScopeId) :
    (s.setBreak k id).kindOf j = s.kindOf j := by
  unfold kindOf setBreak
  rw [Scopes.get?_modify]
  by_cases hj : j = k
  · cases s.scopes.get? j <;> simp [hj]
  · cases s.scopes.get? j <;> simp [hj]

theorem Apart.setBreak (h : s.Apart) (k : ScopeId)
    (hissued : ∀ id, target = some id → id.index < s.scopes.nextBreak)
    (hother : ∀ id j, target = some id → j ≠ k → s.breakOf j ≠ some id) :
    (s.setBreak k target).Apart := by
  have hset : ∀ {j id}, (s.setBreak k target).breakOf j = some id →
      (j = k ∧ target = some id) ∨ (j ≠ k ∧ s.breakOf j = some id) := by
    intro j id hj
    rw [breakOf_setBreak] at hj
    by_cases hjk : j = k
    · rw [if_pos hjk] at hj
      obtain ⟨_, _, hid⟩ := Option.bind_eq_some_iff.mp hj
      exact Or.inl ⟨hjk, hid⟩
    · rw [if_neg hjk] at hj
      exact Or.inr ⟨hjk, hj⟩
  constructor
  · intro j id hj
    rcases hset hj with ⟨_, hid⟩ | ⟨_, hid⟩
    · exact hissued id hid
    · exact h.breakIssued hid
  · intro i j id hi hj
    rcases hset hi with ⟨rfl, hid⟩ | ⟨hne, hid⟩
    · rcases hset hj with ⟨rfl, _⟩ | ⟨hne, hid'⟩
      · rfl
      · exact absurd hid' (hother id j hid hne)
    · rcases hset hj with ⟨rfl, hid'⟩ | ⟨_, hid'⟩
      · exact absurd hid (hother id i hid' hne)
      · exact h.breakApart hid hid'
  · intro j id hj
    exact h.returnIssued (returnOf_setBreak s k target j ▸ hj)
  · intro i j id hi hj hid hid'
    rw [kindOf_setBreak] at hi hj
    rw [returnOf_setBreak] at hid hid'
    exact h.returnApart hi hj hid hid'

theorem Apart.enterLoop (h : s.Apart) (k : ScopeId) : (s.enterLoop k).Apart := by
  have hfresh : Apart { s with scopes := s.scopes.freshBreak.2 } :=
    ⟨fun hk => Nat.lt_succ_of_lt (h.breakIssued hk), h.breakApart, h.returnIssued, h.returnApart⟩
  refine hfresh.setBreak k ?_ ?_
  · rintro id ⟨⟩
    exact Nat.lt_succ_self _
  · rintro id j ⟨⟩ _ hj
    exact absurd (h.breakIssued hj) (Nat.lt_irrefl _)

/-! ## A new scope -/

section Enter

variable {s : LoweringState}

theorem nextBreak_enter (s : LoweringState) (outer : ScopeId) (kind : BodyKind) :
    (s.enter outer kind).scopes.nextBreak =
      s.scopes.nextBreak + if kind.isClosure then 1 else 0 := by
  cases kind <;> rfl

theorem kindOf_enter (hs : s.Sound) (outer : ScopeId) (kind : BodyKind) :
    (s.enter outer kind).kindOf s.nextBody = some kind := by
  obtain ⟨scope, hget, hkind, _⟩ := get?_enter_new hs
  unfold kindOf
  rw [hget, Option.map_some, hkind]

variable {k outer : Nat} {kind : BodyKind}

theorem exitsOf_enter_old (hs : s.Sound) (outer : ScopeId) (kind : BodyKind) (hk : k < s.nextBody) :
    (s.enter outer kind).breakOf k = s.breakOf k ∧
      (s.enter outer kind).returnOf k = s.returnOf k ∧
      (s.enter outer kind).kindOf k = s.kindOf k := by
  unfold breakOf returnOf kindOf
  rw [get?_enter_old hs hk]
  exact ⟨rfl, rfl, rfl⟩

theorem breakOf_enter_cases (hs : s.Sound) (hin : (s.enter outer kind).Sound) {id : BreakId}
    (h : (s.enter outer kind).breakOf k = some id) :
    (k < s.nextBody ∧ s.breakOf k = some id) ∨
      (k = s.nextBody ∧ kind.isClosure = true ∧ id.index = s.scopes.nextBreak) := by
  rcases Nat.lt_or_ge k s.nextBody with hlt | hge
  · exact Or.inl ⟨hlt, (exitsOf_enter_old hs outer kind hlt).1 ▸ h⟩
  · rcases Nat.eq_or_lt_of_le hge with rfl | hgt
    · rw [breakOf_enter hs outer kind] at h
      cases hclosure : kind.isClosure with
      | true =>
        rw [hclosure] at h
        cases h
        exact Or.inr ⟨rfl, rfl, rfl⟩
      | false => simp [hclosure] at h
    · rw [(exitsOf_of_le hin hgt).1] at h
      exact absurd h (by simp)

theorem Apart.enter (h : s.Apart) (hs : s.Sound) (ho : kind.isClosure = true → outer < s.nextBody) :
    (s.enter outer kind).Apart := by
  obtain ⟨_, hadds⟩ := Scopes.adds_openScope fun hclosure => hs.size ▸ ho hclosure
  exact apart_iff.mpr (hadds.identified (apart_iff.mp h))

end Enter

/-! ## Later states -/

/-- What comes later has identities of its own. -/
structure Issues (s s' : LoweringState) : Prop where
  apart : s'.Apart
  nextBreak_le : s.scopes.nextBreak ≤ s'.scopes.nextBreak
  /-- A scope that came later got its `break` later. -/
  later : ∀ {k id}, s.nextBody ≤ k → s'.breakOf k = some id → s.scopes.nextBreak ≤ id.index

theorem Issues.refl (hs : s.Sound) (h : s.Apart) : Issues s s :=
  ⟨h, Nat.le_refl _, fun hk hid => by simp [(exitsOf_of_le hs hk).1] at hid⟩

theorem Issues.fromEnter (hs : s.Sound) {outer : Nat} {kind : BodyKind}
    (hold : ∀ k < (s.enter outer kind).nextBody, s'.breakOf k = (s.enter outer kind).breakOf k)
    (h : Issues (s.enter outer kind) s') : Issues s s' := by
  have hnext := nextBreak_enter s outer kind
  refine ⟨h.apart, ?_, fun {k id} hk hid => ?_⟩
  · exact Nat.le_trans (by rw [hnext]; exact Nat.le_add_right _ _) h.nextBreak_le
  · rcases Nat.lt_or_eq_of_le hk with hlt | rfl
    · exact Nat.le_trans (by rw [hnext]; exact Nat.le_add_right _ _) (h.later hlt hid)
    · rw [hold s.nextBody (Nat.lt_succ_self _), breakOf_enter hs outer kind] at hid
      split at hid
      · cases hid
        exact Nat.le_refl _
      · simp at hid

end LoweringState

/-- **Lowering gives out every identity once.** -/
theorem Lowers.issues {s s' : LoweringState} (h : Lowers c s out s') :
    s.Sound → c.scope < s.nextBody → s.Apart → s.Issues s' := by
  induction h with
  | nothing | mistake | super => exact fun hs _ ha => .refl hs ha
  | append h₁ h₂ ih₁ ih₂ =>
    rename_i s₁ s₂ s₃ _ _
    intro hs hscope ha
    have hadv := h₁.advances hs hscope
    have hle := hadv.nextBody_le hs
    have hscope₂ := Nat.lt_of_lt_of_le hscope hle
    have i₁ := ih₁ hs hscope ha
    have i₂ := ih₂ hadv.sound hscope₂ i₁.apart
    refine ⟨i₂.apart, Nat.le_trans i₁.nextBreak_le i₂.nextBreak_le, fun {k id} hk hid => ?_⟩
    rcases Nat.lt_or_ge k s₂.nextBody with hlt | hge
    · rw [h₂.breakOf hadv.sound hlt] at hid
      exact i₁.later hk hid
    · exact Nat.le_trans i₁.nextBreak_le (i₂.later hge hid)
  | reference r =>
    rename_i c s
    intro hs hscope ha
    have hadv := advances_reference hs hscope r
    have hissued := (Prod.mk.inj (Scopes.Asked.answer s.scopes c.scope r).issued).2
    refine ⟨ha.reference hs hscope r, Nat.le_of_eq hissued.symm, fun hk hid => ?_⟩
    simp [(exitsOf_of_le hadv.sound hk).1] at hid
  | inside _ hscope' _ ih =>
    intro hs hscope
    exact ih hs (hscope' ▸ hscope)
  | loop h ih =>
    rename_i c s s' _
    intro hs hscope ha
    have hmem := hs.mem_ancestry hscope
    have henter := advances_enterLoop hs hmem
    have hi := ih henter.sound hscope (ha.enterLoop _)
    have hold := fun j => h.breakOf (k := j) henter.sound
    have hlt : s.scopes.nextBreak < (s.enterLoop c.scope).scopes.nextBreak := Nat.lt_succ_self _
    refine ⟨hi.apart.setBreak _ (fun id hid => ?_) (fun id j hid hj hid' => ?_),
      Nat.le_trans (Nat.le_of_lt hlt) hi.nextBreak_le, fun {k id} hk hid => ?_⟩
    · exact Nat.lt_of_lt_of_le (ha.breakIssued hid) (Nat.le_trans (Nat.le_of_lt hlt) hi.nextBreak_le)
    · -- the scopes inside the loop came later, and those outside were apart before
      rcases Nat.lt_or_ge j s.nextBody with hlt' | hge
      · rw [hold j hlt', LoweringState.enterLoop, breakOf_setBreak, if_neg hj] at hid'
        exact hj (ha.breakApart hid' hid)
      · have hlater := hi.later hge hid'
        have hissued := ha.breakIssued hid
        omega
    · have hne : k ≠ c.scope := Nat.ne_of_gt (Nat.lt_of_lt_of_le hscope hk)
      rw [breakOf_setBreak, if_neg hne] at hid
      exact Nat.le_trans (Nat.le_of_lt hlt) (hi.later hk hid)
  | body name arity span hinner _ h _ ih =>
    rename_i c inner s s' _ kind _ _ _
    intro hs hscope ha
    obtain ⟨hin, hlt⟩ := sound_inside hs hscope hinner
    have hi := ih hin hlt (ha.enter hs fun _ => hscope)
    have hout := hi.fromEnter hs fun _ => h.breakOf hin
    exact ⟨⟨hout.apart.breakIssued, hout.apart.breakApart, hout.apart.returnIssued,
      hout.apart.returnApart⟩, hout.nextBreak_le, hout.later⟩
  | abandoned hinner _ h ih =>
    rename_i c inner s s' kind _
    intro hs hscope ha
    obtain ⟨hin, hlt⟩ := sound_inside hs hscope hinner
    exact (ih hin hlt (ha.enter hs fun _ => hscope)).fromEnter hs fun _ => h.breakOf hin
  | recovered d _ ih =>
    intro hs hscope ha
    have hi := ih hs hscope ha
    exact ⟨⟨hi.apart.breakIssued, hi.apart.breakApart, hi.apart.returnIssued,
      hi.apart.returnApart⟩, hi.nextBreak_le, hi.later⟩

/-! ## Finished bodies -/

/-- Programs, methods and lambdas are what a `return` leaves. -/
def BodyKind.isHome : BodyKind → Bool
  | topLevel | method | lambda => true
  | block | classBody | moduleBody => false

namespace LoweringState

/-- A finished body has the identities of its scope, and its kind says which it has. -/
structure Matches (s : LoweringState) (b : BodyId) (body : Body) : Prop where
  kind : s.kindOf b = some body.kind
  breakOf : body.breakId = s.breakOf b
  returnOf : body.returnId = s.returnOf b
  breaks : body.breakId.isSome = body.kind.isClosure
  returns : body.kind ≠ .block → body.returnId.isSome = body.kind.isHome

theorem body?_of_le {s : LoweringState} (hs : s.Sound) {b : Nat} (hb : s.nextBody ≤ b) :
    s.unit.body? b = none :=
  Array.getElem?_eq_none (Nat.le_trans hs.places hb)

theorem matches_bodyOf {s s' : LoweringState} {outer : Nat} {kind : BodyKind} (hs : s.Sound)
    (ho : kind.isClosure = true → outer < s.nextBody) (hscope : c.scope = s.nextBody)
    (h : Lowers c (s.enter outer kind) out s') (name : String) (arity : Arity) (span : Span)
    (code : Code) :
    s'.Matches s.nextBody (s'.bodyOf s.nextBody name kind s.nextBody arity span code) := by
  have hin := sound_enter hs ho
  have ha := h.advances hin (hscope ▸ Nat.lt_succ_self _)
  refine ⟨(ha.kindOf hin (Nat.lt_succ_self _)).trans (kindOf_enter hs outer kind), rfl, rfl, ?_,
    fun hblock => ?_⟩
  · show (s'.breakOf s.nextBody).isSome = kind.isClosure
    rw [h.breakOf hin (Nat.lt_succ_self _), breakOf_enter hs outer kind]
    cases kind <;> rfl
  · show (s'.returnOf s.nextBody).isSome = kind.isHome
    rw [ha.returnOf hin (Nat.lt_succ_self _), returnOf_enter hs outer kind]
    cases kind with
    | block => exact absurd rfl hblock
    | _ => rfl

end LoweringState

end BlockLang
