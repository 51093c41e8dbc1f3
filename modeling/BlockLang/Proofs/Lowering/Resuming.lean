import BlockLang.Proofs.Lowering.Advance

/-!
# Lowering leaves its surroundings as they were

A mistake ends an expression wherever it happens to be: in the condition of a loop, behind the
`next` of a block, halfway through the parameters of a method. Lowering then goes on with the next
statement, so whatever was set up for a part has to be undone on the way out, by the part that
succeeds and by the one that gives up alike.

`LoweringState.Resumes` is what the next statement may rely on. A scope that was there is still
there, and only two things can have happened to it: it got more slots, or a reference reached
through it. Above all a `break` leaves what it left before, although loops set that for a while.
Mistakes are added to the list and never taken off it.

**Nothing is assumed of the state.** Growth (`LoweringState.Advances`) is about states that lowering
can be in; this is about any state at all, and the current scope need not even exist.
-/

namespace BlockLang

open List Lower

/-- A scope to go on in: as it was, but for new slots and for references that reach through it. -/
structure Scope.Resumes (old new : Scope) : Prop extends old.Extends new where
  breakId : new.breakId = old.breakId

namespace Scope.Resumes

theorem refl (scope : Scope) : scope.Resumes scope := ⟨.refl scope, rfl⟩

theorem trans {a : Scope} (hab : a.Resumes b) (hbc : b.Resumes c) : a.Resumes c :=
  ⟨hab.toExtends.trans hbc.toExtends, hbc.breakId.trans hab.breakId⟩

theorem returnId {a : Scope} (h : a.Resumes b) : b.returnId = a.returnId := by rw [h.same]

end Scope.Resumes

namespace Scopes

/-- Every scope that there was can be gone on in. -/
def Resumes (s s' : Scopes) : Prop :=
  ∀ (k : Nat) (own : Scope), s.get? k = some own →
    ∃ own', s'.get? k = some own' ∧ own.Resumes own'

namespace Resumes

theorem refl (s : Scopes) : s.Resumes s :=
  fun _ own h => ⟨own, h, .refl own⟩

theorem trans {a : Scopes} (hab : a.Resumes b) (hbc : b.Resumes c) : a.Resumes c := by
  intro k own hk
  obtain ⟨own₁, hk₁, h₁⟩ := hab k own hk
  obtain ⟨own₂, hk₂, h₂⟩ := hbc k own₁ hk₁
  exact ⟨own₂, hk₂, h₁.trans h₂⟩

/-! ## New scopes -/

theorem push {s : Scopes} (hpush : s'.scopes = s.scopes.push new) : s.Resumes s' := by
  intro k own hk
  have hlt : k < s.scopes.size := lt_size_of_get? hk
  refine ⟨own, ?_, .refl own⟩
  unfold Scopes.get? at hk ⊢
  rw [hpush, Array.getElem?_push_lt hlt, ← Array.getElem?_eq_getElem hlt]
  exact hk

theorem openScope (s : Scopes) (outer : ScopeId) (kind : BodyKind) :
    s.Resumes (s.openScope outer kind).2 := by
  obtain ⟨_, _, hpush, _⟩ := s.openScope_spec outer kind
  exact push hpush

end Resumes

/-! ## References -/

/-- How many identities have been given out. -/
def issued (s : Scopes) : Nat × Nat := (s.nextReturn, s.nextBreak)

/-- Scopes after something was asked for. A reference takes no identity. -/
structure Asked (s s' : Scopes) : Prop where
  resumes : s.Resumes s'
  issued : s'.issued = s.issued

namespace Asked

theorem refl (s : Scopes) : s.Asked s := ⟨.refl s, rfl⟩

theorem trans {a : Scopes} (hab : a.Asked b) (hbc : b.Asked c) : a.Asked c :=
  ⟨hab.resumes.trans hbc.resumes, hbc.issued.trans hab.issued⟩

theorem declare (s : Scopes) (home : ScopeId) (name : String) :
    s.Asked (s.declare home name).2 := by
  unfold Scopes.declare
  split
  · exact .refl s
  · split
    · exact .refl s
    · refine ⟨fun k own hk => ⟨if k = home then own.addSlot name else own, ?_, ?_⟩, rfl⟩
      · rw [get?_modify, hk, Option.map_some]
      · split
        · exact ⟨⟨rfl, prefix_append _ _, id⟩, rfl⟩
        · exact .refl own

theorem markCaptured (s : Scopes) (ids : List ScopeId) : s.Asked (s.markCaptured ids) := by
  refine ⟨fun k own hk => ?_, ?_⟩
  · refine ⟨_, (get?_markCaptured ids s k).trans (by rw [hk, Option.map_some]), ?_⟩
    exact ⟨⟨rfl, prefix_rfl, fun hc => by simp [hc]⟩, rfl⟩
  · induction ids generalizing s with
    | nil => rfl
    | cons id rest ih => exact ih (s.modify id fun scope => { scope with captured := true })

theorem answer (s : Scopes) (k : ScopeId) (r : Request) : s.Asked (s.answer k r).2 :=
  answer_keeps (fun t home name h => h.trans (declare t home name))
    (fun t ids h => h.trans (markCaptured t ids)) (fun _ h => ⟨h.resumes, h.issued⟩) (.refl s) k r

end Asked

end Scopes

/-- A state to go on in. -/
structure LoweringState.Resumes (s s' : LoweringState) : Prop where
  scopes : s.scopes.Resumes s'.scopes
  mistakes : s.mistakes <+: s'.mistakes

namespace LoweringState.Resumes

variable {s s₁ s₂ : LoweringState}

theorem refl (s : LoweringState) : s.Resumes s := ⟨.refl s.scopes, prefix_rfl⟩

theorem trans (h₁ : s.Resumes s₁) (h₂ : s₁.Resumes s₂) : s.Resumes s₂ :=
  ⟨h₁.scopes.trans h₂.scopes, h₁.mistakes.trans h₂.mistakes⟩

theorem enter (s : LoweringState) (outer : ScopeId) (kind : BodyKind) :
    s.Resumes (s.enter outer kind) :=
  ⟨.openScope s.scopes outer kind, prefix_rfl⟩

/-- What a loop sets is set back, so its parts may go on from it as from any other state. -/
theorem leaveLoop (h : (s.enterLoop k).Resumes s₁) : s.Resumes (s₁.setBreak k (s.breakOf k)) := by
  refine ⟨fun j own hj => ?_, h.mistakes⟩
  have hin : (s.enterLoop k).scopes.get? j =
      some (if j = k then { own with breakId := some s.scopes.freshBreak.1 } else own) := by
    unfold LoweringState.enterLoop LoweringState.setBreak
    rw [Scopes.get?_modify]
    show Option.map _ (s.scopes.get? j) = _
    rw [hj, Option.map_some]
  obtain ⟨own', hj', hown⟩ := h.scopes j _ hin
  refine ⟨if j = k then { own' with breakId := s.breakOf k } else own', ?_, ?_⟩
  · unfold LoweringState.setBreak
    rw [Scopes.get?_modify, hj', Option.map_some]
  by_cases hjk : j = k
  · rw [if_pos hjk] at hown ⊢
    refine ⟨⟨?_, hown.slots, hown.captured⟩, ?_⟩
    · have hsame := hown.same
      rw [hsame]
    · unfold LoweringState.breakOf
      rw [← hjk, hj]
      rfl
  · rw [if_neg hjk] at hown ⊢
    exact hown

theorem breakOf (h : s.Resumes s₁) (hs : s.Sound) (hk : k < s.nextBody) :
    s₁.breakOf k = s.breakOf k := by
  obtain ⟨scope, hget⟩ := Scopes.exists_get? (hs.size ▸ hk)
  obtain ⟨scope₁, hget₁, hscope⟩ := h.scopes k scope hget
  unfold LoweringState.breakOf
  rw [hget, hget₁, Option.getD_some, Option.getD_some, hscope.breakId]

end LoweringState.Resumes

/-- **Whatever lowering does, its surroundings can be gone on in.** -/
theorem Lowers.resumes {s : LoweringState} (h : Lowers c s out s') : s.Resumes s' := by
  induction h with
  | nothing | mistake | super => exact .refl _
  | append _ _ ih₁ ih₂ => exact ih₁.trans ih₂
  | reference r => exact ⟨(Scopes.Asked.answer _ _ r).resumes, prefix_rfl⟩
  | inside _ _ _ ih => exact ih
  | loop _ ih => exact ih.leaveLoop
  | body name arity span _ _ _ _ ih =>
    -- finishing a body touches the unit alone
    have hin := (LoweringState.Resumes.enter _ _ _).trans ih
    exact ⟨hin.scopes, hin.mistakes⟩
  | abandoned _ _ _ ih => exact (LoweringState.Resumes.enter _ _ _).trans ih
  | recovered d _ ih => exact ⟨ih.scopes, ih.mistakes.trans (prefix_append _ _)⟩

/-- **Lowering an expression restores its surroundings**, whether it succeeds or gives up: the
context is what it was, and every scope that there was before can be gone on in. -/
theorem Lower.expr_restores (e : Located Expr) (l : Lowerer) :
    (Lowerer.after ((expr e).act l)).context = l.context ∧
      l.built.Resumes (Lowerer.after ((expr e).act l)).built := by
  refine ⟨(expr e).restores l, ?_⟩
  have hmeets := Meets.expr e l.context l.built
  rw [act_eq]
  unfold reading
  dsimp only
  cases hrun : expr e l.context l.built with
  | ok code s' =>
    rw [hrun] at hmeets
    obtain ⟨ms, hlowers, _⟩ := hmeets
    exact hlowers.resumes
  | error d s' =>
    rw [hrun] at hmeets
    exact hmeets.resumes

end BlockLang
