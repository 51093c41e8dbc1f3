import BlockLang.Proofs.Lowering.Resuming

/-!
# What lowering leaves as it was

`LoweringState.Advances` says that scopes only grow. For control flow that is not enough: a loop
sets what a `break` leaves in the scope around it, and whatever comes after the loop relies on its
being set back. Here: every scope that was there before has the same `return` and the same `break`
afterwards, also when a part was given up, and a name that was known stays known.
-/

namespace BlockLang

open List

namespace Scopes

theorem Grows.lookup_isSome {s : Scopes} (h : Grows live s s') (hw : s.WellFormed)
    (hw' : s'.WellFormed) (hk : k < s.size) (hl : (s.lookup k name).isSome) :
    (s'.lookup k name).isSome := by
  obtain ⟨r, hr⟩ := Option.isSome_iff_exists.mp hl
  obtain ⟨scope, ha, hs, hslot⟩ := lookup_eq_some hr
  obtain ⟨scope', hs', he, _⟩ := h r.scope scope hs
  obtain ⟨slot, hslot'⟩ : ∃ slot, scope'.slot? name = some slot := by
    have hmem : name ∈ scope'.slots := he.slots.subset (mem_of_getElem? hslot)
    exact Option.isSome_iff_exists.mp (isSome_idxOf?.mpr hmem)
  refine lookupIn_isSome ?_ hs' hslot' 0
  rw [h.ancestry hw hw' hk]
  exact mem_of_getElem? ha

end Scopes

namespace LoweringState

variable {s : LoweringState}

/-- What a `return` ends in a scope. -/
def returnOf (s : LoweringState) (scope : ScopeId) : Option ReturnId :=
  ((s.scopes.get? scope).getD default).returnId

theorem breakOf_setBreak (s : LoweringState) (k : ScopeId) (id : Option BreakId) (j : ScopeId) :
    (s.setBreak k id).breakOf j =
      if j = k then (s.scopes.get? k).bind (fun _ => id) else s.breakOf j := by
  unfold breakOf setBreak
  rw [Scopes.get?_modify]
  by_cases hj : j = k
  · subst hj
    cases s.scopes.get? j with
    | none => simp; rfl
    | some scope => simp
  · cases s.scopes.get? j <;> simp [hj]

theorem Advances.returnOf (h : Advances live s s') (hs : s.Sound) (hk : k < s.nextBody) :
    s'.returnOf k = s.returnOf k := by
  obtain ⟨scope, hget⟩ := Scopes.exists_get? (hs.size ▸ hk)
  obtain ⟨scope', hget', he, _⟩ := h.grows k scope hget
  unfold LoweringState.returnOf
  rw [hget, hget', Option.getD_some, Option.getD_some, he.same]

/-! ## What a new scope has -/

theorem returnOf_enter (hs : s.Sound) (outer : ScopeId) (kind : BodyKind) :
    (s.enter outer kind).returnOf s.nextBody =
      match kind with
      | .topLevel | .method | .lambda => some ⟨s.scopes.nextReturn⟩
      | .block => s.returnOf outer
      | .classBody | .moduleBody => none := by
  unfold LoweringState.returnOf enter Scopes.get?
  rw [← hs.size]
  cases kind with
  | block =>
    simp only [Scopes.openScope, Scopes.addBlock, Scopes.push, Scopes.freshBreak, Scopes.size,
      Array.getElem?_push_size, Option.getD_some]
    unfold Scopes.get?
    cases s.scopes.scopes[outer]? <;> rfl
  | _ =>
    simp [Scopes.openScope, Scopes.addRoot, Scopes.addLambda, Scopes.push, Scopes.freshReturn,
      Scopes.freshBreak, Scopes.size]

theorem breakOf_enter (hs : s.Sound) (outer : ScopeId) (kind : BodyKind) :
    (s.enter outer kind).breakOf s.nextBody =
      if kind.isClosure then some ⟨s.scopes.nextBreak⟩ else none := by
  unfold breakOf enter Scopes.get?
  rw [← hs.size]
  cases kind with
  | _ =>
    simp [Scopes.openScope, Scopes.addRoot, Scopes.addBlock, Scopes.addLambda, Scopes.push,
      Scopes.freshReturn, Scopes.freshBreak, Scopes.size, BodyKind.isClosure]

theorem breakOf_enterLoop (hs : s.Sound) (hk : k < s.nextBody) :
    (s.enterLoop k).breakOf k = some ⟨s.scopes.nextBreak⟩ := by
  obtain ⟨scope, hget⟩ := Scopes.exists_get? (hs.size ▸ hk)
  unfold enterLoop
  rw [breakOf_setBreak, if_pos rfl]
  show (s.scopes.get? k).bind _ = _
  rw [hget]
  rfl

theorem lookup_enter (hs : s.Sound) (ho : outer < s.nextBody) (hkind : kind.isClosure = true)
    (h : (s.scopes.lookup outer name).isSome) :
    ((s.enter outer kind).scopes.lookup s.nextBody name).isSome := by
  obtain ⟨r, hr⟩ := Option.isSome_iff_exists.mp h
  obtain ⟨i, scope, _, hi, hget, hslot⟩ := Scopes.lookupIn_eq_some hr
  have hlt : r.scope < s.nextBody := hs.size ▸ Scopes.lt_size_of_get? hget
  have hmem : r.scope ∈ (s.enter outer kind).scopes.ancestry s.nextBody := by
    rw [ancestry_enter hs fun _ => ho, hkind]
    exact mem_cons_of_mem _ (mem_of_getElem? hi)
  exact Scopes.lookupIn_isSome hmem ((get?_enter_old hs hlt).trans hget) hslot 0

end LoweringState

/-! ## Parts that ask where they are -/

namespace Lower

theorem breakTarget_run (span : Span) (c : Context) (s : LoweringState) : breakTarget span c s =
      ((s.breakOf c.scope).elim (fail .breakOutsideLoop span) Pure.pure : Lower BreakId) c s := by
  unfold LoweringState.breakOf
  generalize hs : (s.scopes.get? c.scope).getD default = own
  have hcurrent : currentScope c s = .ok own s := hs ▸ rfl
  simp only [breakTarget, bind_run, hcurrent]
  cases own.breakId <;> rfl

theorem returnWith_run (value : Code) (span : Span) (c : Context) (s : LoweringState) :
    returnWith value span c s = ((s.returnOf c.scope).elim (bif c.inLoop then
        (s.breakOf c.scope).elim (fail .returnOutsideMethod span) fun id =>
          Pure.pure (.breakWith id value)
      else fail .returnOutsideMethod span)
      fun id => Pure.pure (.returnWith id value) : Lower Code) c s := by
  unfold LoweringState.breakOf LoweringState.returnOf
  generalize hs : (s.scopes.get? c.scope).getD default = own
  have hcurrent : currentScope c s = .ok own s := hs ▸ rfl
  simp only [returnWith, bind_run, hcurrent]
  obtain ⟨options, scope, kind, inLoop⟩ := c
  cases own.returnId <;> cases inLoop <;> cases own.breakId <;> rfl

theorem requireMethod_run (mistake : Mistake) (span : Span) (c : Context) (s : LoweringState) :
    requireMethod mistake span c s =
      (c.method.elim (fail mistake span) Pure.pure : Lower Params) c s := by
  obtain ⟨options, scope, kind, inLoop, inNext, method⟩ := c
  cases method <;> rfl

end Lower

/-! ## Declaring names ahead -/

theorem mem_addNames {name : String} : ∀ {more names : List String},
    name ∈ addNames names more ↔ name ∈ names ∨ name ∈ more
  | [], names => by simp [addNames]
  | first :: rest, names => by
    show name ∈ addNames (addName names first) rest ↔ _
    rw [mem_addNames, mem_cons]
    unfold addName
    split
    · rename_i hfirst
      have hmem : first ∈ names := by simpa using hfirst
      constructor
      · exact fun h => h.imp id Or.inr
      · rintro (h | rfl | h)
        · exact Or.inl h
        · exact Or.inl hmem
        · exact Or.inr h
    · simp [or_assoc]

namespace Scopes

theorem get?_declareAll {k : ScopeId} : ∀ (names : List String) {s : Scopes} {scope : Scope},
    s.get? k = some scope → ∃ scope', (s.declareAll k names).get? k = some scope' ∧
      scope.Extends scope' ∧ scope'.slots = addNames scope.slots names
  | [], s, scope, h => ⟨scope, h, .refl scope, rfl⟩
  | name :: rest, s, scope, h => by
    obtain ⟨scope₁, hget₁, he₁, hslots₁⟩ : ∃ scope₁, (s.declare k name).2.get? k = some scope₁ ∧
        scope.Extends scope₁ ∧ scope₁.slots = addName scope.slots name := by
      obtain ⟨scope₁, hget₁, he₁, _⟩ := get?_declare_self name h
      refine ⟨scope₁, hget₁, he₁, ?_⟩
      unfold declare at hget₁
      simp only [h] at hget₁
      cases hslot : scope.slot? name with
      | some slot =>
        have hmem := mem_of_getElem? (slot?_eq_some hslot)
        rw [hslot, h, Option.some.injEq] at hget₁
        simp [← hget₁, addName, hmem]
      | none =>
        have hnew : name ∉ scope.slots := List.idxOf?_eq_none_iff.mp hslot
        simp only [hslot, get?_modify, h, Option.map_some, if_true, Option.some.injEq] at hget₁
        simp [← hget₁, addName, hnew, Scope.addSlot]
    obtain ⟨scope₂, hget₂, he₂, hslots₂⟩ := get?_declareAll rest hget₁
    exact ⟨scope₂, hget₂, he₁.trans he₂, by rw [hslots₂, hslots₁]; rfl⟩

theorem mem_slots_declareAll (names : List String) {s : Scopes} (h : s.get? k = some scope) :
    ∃ scope', (s.declareAll k names).get? k = some scope' ∧
      scope.Extends scope' ∧ ∀ name ∈ names, name ∈ scope'.slots := by
  obtain ⟨scope', hget, he, hslots⟩ := get?_declareAll names h
  exact ⟨scope', hget, he, fun name hname => hslots ▸ mem_addNames.mpr (Or.inr hname)⟩

end Scopes

/-- **Lowering sets back what a `break` leaves**, in every scope that was there before. -/
theorem Lowers.breakOf {s : LoweringState} (h : Lowers c s out s') (hs : s.Sound)
    (hk : k < s.nextBody) : s'.breakOf k = s.breakOf k :=
  h.resumes.breakOf hs hk

end BlockLang
