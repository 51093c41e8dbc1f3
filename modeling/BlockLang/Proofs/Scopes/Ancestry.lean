import BlockLang.Scope

/-!
# Walking outward

`Scopes.outward` is bounded by a number of scopes and `Scopes.ancestry` hands it a bound that looks
arbitrary. This file says why the bound never shows: a parent is older than its scope
(`Scopes.WellFormed`), so `Scopes.ancestry_of_get?` is the plain recursion on parents, and the walk
never comes to a scope twice (`Scopes.ancestry_nodup`).

`Scopes.lookup` then says where a name is: the level of a resolution is the place of its scope in
the ancestry, and its slot holds the name (`Scopes.lookup_eq_some`).
-/

namespace BlockLang

open List

namespace Scopes

variable {id : Nat} {scope : Scope} {s : Scopes} {name : String}

/-- Every parent is older than its scope. -/
def WellFormed (s : Scopes) : Prop :=
  ∀ (k : Nat) (scope : Scope) (p : Nat), s.get? k = some scope → scope.parent = some p → p < k

theorem lt_size_of_get? {k : Nat} (h : s.get? k = some scope) : k < s.size := by
  obtain ⟨hk, _⟩ := Array.getElem?_eq_some_iff.mp h
  exact hk

theorem exists_get? {k : Nat} (h : k < s.size) : ∃ scope, s.get? k = some scope :=
  ⟨_, Array.getElem?_eq_getElem h⟩

theorem get?_modify (s : Scopes) (k : ScopeId) (f : Scope → Scope) (j : ScopeId) :
    (s.modify k f).get? j = (s.get? j).map fun scope => if j = k then f scope else scope := by
  unfold modify get?
  simp only [Array.getElem?_modify]
  by_cases hj : k = j
  · simp [hj]
  · simp [hj, Ne.symm hj]

@[simp] theorem size_modify (s : Scopes) (k : ScopeId) (f : Scope → Scope) :
    (s.modify k f).size = s.size := by
  simp [modify, size]

/-! ## The bound of the walk -/

theorem outward_eq_outward (hw : s.WellFormed) :
    ∀ n id : Nat, id < n → s.outward n id = s.outward (id + 1) id := by
  intro n
  induction n using Nat.strongRecOn with
  | _ n ih =>
    intro id hid
    obtain ⟨n, rfl⟩ : ∃ m, n = m + 1 := ⟨n - 1, by omega⟩
    simp only [outward]
    cases hs : s.get? id with
    | none => rfl
    | some scope =>
      cases hp : scope.parent with
      | none => simp [hp]
      | some p =>
        have hlt := hw id scope p hs hp
        simp only [hp]
        -- Both walks go on at the parent, each with more steps than the parent can need.
        rw [ih n (by omega) p (by omega), ih id hid p hlt]

theorem ancestry_of_get? (hw : s.WellFormed) (h : s.get? id = some scope) :
    s.ancestry id = id :: (scope.parent.map s.ancestry).getD [] := by
  cases hp : scope.parent with
  | none => simp [ancestry, outward, h, hp]
  | some p =>
    have hlt := hw id scope p h hp
    have ho := outward_eq_outward hw id p hlt
    simp only [ancestry, outward, h, hp] at ho ⊢
    rw [ho]
    rfl

theorem ancestry_of_parent (hw : s.WellFormed) {p : Nat} (h : s.get? id = some scope)
    (hp : scope.parent = some p) :
    s.ancestry id = id :: s.ancestry p := by
  rw [ancestry_of_get? hw h, hp]
  rfl

theorem ancestry_of_root (hw : s.WellFormed) (h : s.get? id = some scope)
    (hp : scope.parent = none) : s.ancestry id = [id] := by
  rw [ancestry_of_get? hw h, hp]
  rfl

theorem ancestry_of_none (h : s.get? id = none) : s.ancestry id = [] := by
  simp [ancestry, outward, h]

theorem ancestry_zero (hw : s.WellFormed) (h : id < s.size) : (s.ancestry id)[0]? = some id := by
  obtain ⟨scope, hs⟩ := exists_get? h
  rw [ancestry_of_get? hw hs]
  rfl

/-! ## What the walk meets -/

theorem mem_ancestry (hw : s.WellFormed) :
    ∀ {id a : Nat}, a ∈ s.ancestry id → a ≤ id ∧ a < s.size := by
  intro id
  induction id using Nat.strongRecOn with
  | _ id ih =>
    intro a ha
    cases hs : s.get? id with
    | none => simp [ancestry_of_none hs] at ha
    | some scope =>
      have hid := lt_size_of_get? hs
      cases hp : scope.parent with
      | none =>
        rw [ancestry_of_root hw hs hp, mem_singleton] at ha
        exact ⟨by omega, by omega⟩
      | some p =>
        rw [ancestry_of_parent hw hs hp, mem_cons] at ha
        rcases ha with rfl | ha
        · exact ⟨Nat.le_refl _, hid⟩
        · have hlt := hw id scope p hs hp
          obtain ⟨hle, hsize⟩ := ih p hlt ha
          exact ⟨by omega, hsize⟩

/-- No scope is met twice: the walk goes to older scopes only. -/
theorem ancestry_nodup (hw : s.WellFormed) : ∀ id : Nat, (s.ancestry id).Nodup := by
  intro id
  induction id using Nat.strongRecOn with
  | _ id ih =>
    cases hs : s.get? id with
    | none => simp [ancestry_of_none hs]
    | some scope =>
      cases hp : scope.parent with
      | none => simp [ancestry_of_root hw hs hp]
      | some p =>
        have hlt := hw id scope p hs hp
        rw [ancestry_of_parent hw hs hp, nodup_cons]
        refine ⟨fun hmem => ?_, ih p hlt⟩
        have := (mem_ancestry hw hmem).1
        omega

/-! ## Looking a name up -/

theorem slot?_eq_some (h : scope.slot? name = some slot) : scope.slots[slot]? = some name := by
  obtain ⟨hlt, heq, _⟩ := List.idxOf?_eq_some_iff.mp h
  exact List.getElem?_eq_some_iff.mpr ⟨hlt, heq⟩

theorem lookupIn_eq_some :
    ∀ {ids : List ScopeId} {level : Nat} {r : Resolution}, s.lookupIn name level ids = some r →
      ∃ i scope, r.level = level + i ∧ ids[i]? = some r.scope ∧ s.get? r.scope = some scope ∧
        scope.slot? name = some r.slot := by
  intro ids
  induction ids with
  | nil => intro level r h; simp [lookupIn] at h
  | cons id rest ih =>
    intro level r h
    rw [lookupIn] at h
    cases hs : (s.get? id).bind (·.slot? name) with
    | some slot =>
      rw [hs] at h
      simp only [Option.some.injEq] at h
      subst h
      obtain ⟨scope, hid, hslot⟩ := Option.bind_eq_some_iff.mp hs
      exact ⟨0, scope, rfl, rfl, hid, hslot⟩
    | none =>
      rw [hs] at h
      obtain ⟨i, scope, hlevel, hi, hid, hslot⟩ := ih h
      exact ⟨i + 1, scope, by omega, by simpa using hi, hid, hslot⟩

theorem lookupIn_isSome {ids : List ScopeId} {home : Nat} {slot : SlotId} (hmem : home ∈ ids)
    (hs : s.get? home = some scope) (hslot : scope.slot? name = some slot) :
    ∀ level, (s.lookupIn name level ids).isSome := by
  induction ids with
  | nil => simp at hmem
  | cons id rest ih =>
    intro level
    rw [lookupIn]
    cases hid : (s.get? id).bind (·.slot? name) with
    | some _ => rfl
    | none =>
      rcases mem_cons.mp hmem with rfl | hrest
      · simp [hs, hslot] at hid
      · exact ih hrest (level + 1)

theorem lookup_eq_some {r : Resolution} (h : s.lookup id name = some r) :
    ∃ scope, (s.ancestry id)[r.level]? = some r.scope ∧ s.get? r.scope = some scope ∧
      scope.slots[r.slot]? = some name := by
  obtain ⟨i, scope, hlevel, hi, hs, hslot⟩ := lookupIn_eq_some h
  rw [Nat.zero_add] at hlevel
  exact ⟨scope, by rw [hlevel]; exact hi, hs, slot?_eq_some hslot⟩

theorem nearest_mem_ancestry (hw : s.WellFormed) (h : id < s.size) (p : Scope → Bool) :
    s.nearest id p ∈ s.ancestry id := by
  show ((s.ancestry id).find? (fun i => (s.get? i).any p) <|> (s.ancestry id).getLast?).getD id ∈ _
  cases hf : (s.ancestry id).find? fun i => (s.get? i).any p with
  | some a => exact mem_of_find?_eq_some hf
  | none =>
    cases hl : (s.ancestry id).getLast? with
    | some a => exact mem_of_getLast? hl
    | none =>
      have hz := ancestry_zero hw h
      rw [List.getLast?_eq_none_iff.mp hl] at hz
      simp at hz

end Scopes

end BlockLang
