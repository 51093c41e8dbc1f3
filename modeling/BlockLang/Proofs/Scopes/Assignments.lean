import BlockLang.Proofs.Scopes.Histories
import BlockLang.Proofs.Scopes.Stability

/-!
# What an assignment does to the scopes

To get the reference of a name that is assigned, a slot may be added, a look-up is made, and scopes
are marked. `Scopes.readied` is what there is between: the name has its slot, and
`Scopes.resolveForAssignment_eq_refer` says that the reference is to what a look-up then finds. So
the branch of `Scopes.resolveOr` in which nothing is found is never taken.

**An assignment changes only what it must** (`Scopes.assignment_assigns`): one slot at most, at the
end of one scope, and the marks of the scopes that the reference walks through. Done again it
changes nothing. It holds however scopes were put together, and whatever names they are made to own
or to hide (`Scopes.Reachable`).
-/

namespace BlockLang

open List

namespace Scopes

variable {s : Scopes} {k : Nat} {name : String}

/-- Scopes after any operations, between which it may be changed what names a scope owns or hides
and what a `break` in it leaves. -/
inductive Reachable : Scopes → Prop
  | empty : Reachable {}
  | step {s s' : Scopes} : Reachable s → Step s s' → Reachable s'
  | change {s : Scopes} (k : ScopeId) (ownsNewNames hidesOuterNames : Bool)
      (breakId : Option BreakId) : Reachable s →
      Reachable (s.modify k fun scope => { scope with ownsNewNames, hidesOuterNames, breakId })

theorem Reachable.wellFormed (h : Reachable s) : s.WellFormed := by
  induction h with
  | empty => exact arranged_empty.wellFormed
  | step _ hstep ih => exact hstep.wellFormed ih
  | change k owns hides breakId _ ih =>
    refine wellFormed_of_view ih fun j => ?_
    unfold view
    rw [get?_modify, Option.map_map]
    congr 1
    funext scope
    simp only [Function.comp_apply]
    split <;> rfl

/-- The name is known to an assignment here. Where outer names are hidden, the scope has to have
it. -/
def sees (s : Scopes) (k : ScopeId) (name : String) : Bool :=
  if (s.get? k).any (·.hidesOuterNames) then (s.slotAt k name).isSome else (s.lookup k name).isSome

/-- The scope that a name gets its slot in if it is not known to the assignment. -/
def assignmentHome (s : Scopes) (k : ScopeId) : ScopeId :=
  if (s.get? k).any (·.hidesOuterNames) then k else s.declarationTarget k

/-- What an assignment to the name in scope `k` does: `l` is the reference that it gets. -/
structure Assigns (s : Scopes) (k : ScopeId) (name : String) (l : Local) (s' : Scopes) : Prop where
  name_eq : l.name = name
  refers : s'.Refers k l
  /-- No scope that is nearer has the name. -/
  nearest : ∀ i < l.level, ∀ a, (s'.ancestry k)[i]? = some a → s'.slotAt a name = none
  ancestry : s'.ancestry k = s.ancestry k
  get? : ∀ j, s'.get? j = (s.get? j).map fun scope => { scope with
    slots := if s.sees k name = false ∧ j = s.assignmentHome k then scope.slots ++ [name]
      else scope.slots
    captured := scope.captured || ((s.ancestry k).take l.level).contains j }
  counters : (s'.nextReturn, s'.nextBreak, s'.nextTemp) = (s.nextReturn, s.nextBreak, s.nextTemp)
  again : s'.resolveForAssignment k name = (l, s')

/-! ## The slot -/

/-- The scopes with a slot for the name, before any scope is marked. -/
def readied (s : Scopes) (k : ScopeId) (name : String) : Scopes :=
  if s.sees k name then s else s.modify (s.assignmentHome k) (·.addSlot name)

theorem readied_of_sees (h : s.sees k name = true) : s.readied k name = s := if_pos h

theorem get?_readied (s : Scopes) (k : ScopeId) (name : String) (j : ScopeId) :
    (s.readied k name).get? j = (s.get? j).map fun scope => { scope with
      slots := if s.sees k name = false ∧ j = s.assignmentHome k then scope.slots ++ [name]
        else scope.slots } := by
  unfold readied
  cases s.sees k name with
  | true => simp
  | false =>
    simp only [Bool.false_eq_true, if_false, get?_modify, true_and]
    congr 1
    funext scope
    split <;> rfl

theorem size_readied (s : Scopes) (k : ScopeId) (name : String) :
    (s.readied k name).size = s.size := by
  unfold readied
  split
  · rfl
  · exact size_modify _ _ _

theorem grows_readied (s : Scopes) (k : ScopeId) (name : String) :
    Grows [s.assignmentHome k] s (s.readied k name) := by
  intro j scope hj
  have hj' := get?_readied s k name j
  rw [hj, Option.map_some] at hj'
  refine ⟨_, hj', ⟨rfl, ?_, id⟩, fun hne => ?_⟩
  · dsimp only
    split
    · exact prefix_append _ _
    · exact prefix_rfl
  · rw [mem_singleton] at hne
    simp [hne]

theorem wellFormed_readied (hw : s.WellFormed) (k : ScopeId) (name : String) :
    (s.readied k name).WellFormed :=
  (grows_readied s k name).wellFormed (size_readied s k name) hw

theorem declare_eq (hhome : home < s.size) (name : String) : (s.declare home name).2 =
      if (s.slotAt home name).isSome then s else s.modify home (·.addSlot name) := by
  obtain ⟨scope, hget⟩ := exists_get? hhome
  cases hslot : scope.slot? name with
  | none | some => simp [declare, slotAt, hget, hslot]

/-- An assignment refers to what is found once the name has its slot. -/
theorem resolveForAssignment_eq_refer (hw : s.WellFormed) (hk : k < s.size) (name : String) :
    ∃ r, (s.readied k name).lookup k name = some r ∧
      s.resolveForAssignment k name = (s.readied k name).refer k name r := by
  unfold resolveForAssignment readied sees assignmentHome
  cases hhides : (s.get? k).any (·.hidesOuterNames) with
  | true =>
    obtain ⟨scope, hget⟩ := exists_get? hk
    have hfound := lookup_of_slotAt (wellFormed_declare hw k name) (slotAt_declare_self hget name)
    simp only [if_true, ← declare_eq hk]
    exact ⟨_, hfound, by simp only [resolveOr, hfound]⟩
  | false =>
    have hmem : s.declarationTarget k ∈ s.ancestry k := nearest_mem_ancestry hw hk _
    obtain ⟨t, r, hr, hrefer, ⟨rfl, hknown⟩ | ⟨rfl, hnone⟩⟩ := resolveOr_eq_refer hw hk hmem .variable name
    · simp only [Bool.false_eq_true, if_false, hknown, if_true]
      exact ⟨r, hr, hrefer⟩
    · have hout := lookup_eq_none_of_mem_ancestry hw hmem hnone
      have hslot : s.slotAt (s.declarationTarget k) name = none := by
        cases hslot : s.slotAt (s.declarationTarget k) name with
        | none => rfl
        | some slot => exact absurd ((lookup_of_slotAt hw hslot).symm.trans hout) (by simp)
      rw [declare_eq (mem_ancestry hw hmem).2 name, hslot] at hr hrefer
      simp only [Bool.false_eq_true, if_false, hnone, Option.isSome_none] at hr hrefer ⊢
      exact ⟨r, hr, hrefer⟩

theorem sees_readied (hw : s.WellFormed) (hk : k < s.size) (name : String) :
    (s.readied k name).sees k name = true := by
  cases hsees : s.sees k name with
  | true => rwa [readied_of_sees hsees]
  | false =>
    obtain ⟨r, hr, _⟩ := resolveForAssignment_eq_refer hw hk name
    obtain ⟨scope, hget⟩ := exists_get? hk
    have hget' := get?_readied s k name k
    rw [hget, Option.map_some] at hget'
    unfold sees slotAt
    rw [hr, hget']
    cases hhides : scope.hidesOuterNames with
    | false => simp
    | true =>
      have hhome : k = s.assignmentHome k := by simp [assignmentHome, hget, hhides]
      simp [hsees, ← hhome, Scope.slot?, List.isSome_idxOf?]

/-! ## The marks -/

theorem counters_markCaptured (ids : List ScopeId) : ∀ s : Scopes,
    ((s.markCaptured ids).nextReturn, (s.markCaptured ids).nextBreak,
      (s.markCaptured ids).nextTemp) = (s.nextReturn, s.nextBreak, s.nextTemp) := by
  induction ids with
  | nil => exact fun _ => rfl
  | cons id rest ih => exact fun s => ih (s.modify id fun scope => { scope with captured := true })

theorem markCaptured_markCaptured (s : Scopes) (ids : List ScopeId) :
    (s.markCaptured ids).markCaptured ids = s.markCaptured ids := by
  have hget : ∀ j, ((s.markCaptured ids).markCaptured ids).get? j = (s.markCaptured ids).get? j := by
    intro j
    rw [get?_markCaptured, get?_markCaptured, Option.map_map]
    congr 1
    funext scope
    simp
  have hcounters := counters_markCaptured ids (s.markCaptured ids)
  generalize (s.markCaptured ids).markCaptured ids = t at hget hcounters
  obtain ⟨scopes, _, _, _⟩ := t
  obtain rfl : scopes = (s.markCaptured ids).scopes := Array.ext_getElem? hget
  cases hcounters
  rfl

theorem sees_markCaptured (hw : s.WellFormed) (ids : List ScopeId) (k : ScopeId) (name : String) :
    (s.markCaptured ids).sees k name = s.sees k name := by
  have hview := view_markCaptured s ids
  unfold sees
  rw [slotAt_eq_of_view (hview k), get?_markCaptured,
    lookup_congr hw (wellFormed_of_view hw hview) name fun i _ => hview i]
  cases s.get? k with
  | none | some => rfl

/-- What is referred to is referred to again, and there is nothing more to mark. -/
theorem refer_again (hw : s.WellFormed) (hk : k < s.size) (h : s.lookup k name = some r) :
    (s.refer k name r).2.WellFormed ∧
      (s.refer k name r).2.lookup k name = some r ∧
      (s.refer k name r).2.refer k name r = s.refer k name r := by
  have hview := view_markCaptured s ((s.ancestry k).take r.level)
  have hw' := wellFormed_of_view hw hview
  have hanc := (access_refer hw hk h).grows.ancestry hw hw' hk
  refine ⟨hw', (lookup_congr hw hw' name fun i _ => hview i).trans h, ?_⟩
  show Prod.mk _ ((s.refer k name r).2.markCaptured
    (((s.refer k name r).2.ancestry k).take r.level)) = _
  rw [hanc]
  exact Prod.ext rfl (markCaptured_markCaptured s _)

/-! ## Assignments -/

/-- **An assignment changes only what it must.** -/
theorem assignment_assigns (s : Scopes) (hs : Reachable s) (k : ScopeId) (hk : k < s.size)
    (name : String) : s.Assigns k name (s.resolveForAssignment k name).1
      (s.resolveForAssignment k name).2 := by
  have hw := hs.wellFormed
  have haccess := access_resolveForAssignment hw hk name
  obtain ⟨r, hr, hrefer⟩ := resolveForAssignment_eq_refer hw hk name
  rw [hrefer] at haccess ⊢
  have hw₁ := wellFormed_readied hw k name
  have hk₁ : k < (s.readied k name).size := by rwa [size_readied]
  have hanc₁ := (grows_readied s k name).ancestry hw hw₁ hk
  obtain ⟨hw₂, hfound, hagain⟩ := refer_again hw₁ hk₁ hr
  refine ⟨rfl, haccess.refers, fun i hi a ha => ?_, haccess.grows.ancestry hw hw₂ hk, fun j => ?_,
    ?_, ?_⟩
  · exact lookupIn_before hfound i a (by rwa [Nat.zero_add]) ha
  · show ((s.readied k name).markCaptured (((s.readied k name).ancestry k).take r.level)).get? j = _
    rw [get?_markCaptured, get?_readied, hanc₁, Option.map_map]
    rfl
  · refine (counters_markCaptured _ _).trans ?_
    unfold readied
    split <;> rfl
  · obtain ⟨r', hr', hrefer'⟩ := resolveForAssignment_eq_refer hw₂ (haccess.size ▸ hk) name
    -- the name is known now, so that no slot is added
    have hsees : ((s.readied k name).refer k name r).2.sees k name = true :=
      (sees_markCaptured hw₁ _ k name).trans (sees_readied hw hk name)
    rw [readied_of_sees hsees, hfound, Option.some.injEq] at hr'
    rw [hrefer', readied_of_sees hsees, ← hr', hagain]

/-- In a block in a block, the name of a variable that is new goes to the method, two scopes
outward. -/
theorem assignment_assigns_outward : Reachable (blockInMethod.addBlock 1 false).2 ∧
    (blockInMethod.addBlock 1 false).2.Assigns 2 "b" { level := 2, slot := 1, name := "b" }
      ((blockInMethod.addBlock 1 false).2.resolveForAssignment 2 "b").2 := by
  have hs : Reachable (blockInMethod.addBlock 1 false).2 :=
    .step (.step (.step (.step .empty (.root .method)) (.request (.own "a") (by decide)))
      (.block false (by decide))) (.block false (by decide))
  have hl : ((blockInMethod.addBlock 1 false).2.resolveForAssignment 2 "b").1 =
      { level := 2, slot := 1, name := "b" } := by decide +kernel
  exact ⟨hs, hl ▸ assignment_assigns _ hs 2 (by decide) "b"⟩

end Scopes

end BlockLang
