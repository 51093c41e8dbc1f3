import BlockLang.Proofs.Scopes.Access
import BlockLang.Proofs.Syntax.Naming

/-!
# What a look-up finds stays found

Scopes get more slots while lowering goes on, and a slot that is added in a nearer scope would hide
the one that was found before. It is never added: a name gets a slot where it is not known, or where
it has one (`Scopes.keeps_declare`). The exception are hidden variables, which nobody looks for from
further in; of those only the scope's own are kept (`Scopes.Keeps`).

So a reference is what a look-up of its name gives, now and from now on (`Scopes.Finds`).
-/

namespace BlockLang

namespace Scopes

/-! ## Looking a name up, scope by scope -/

/-- What look-ups see of a scope. -/
def view (s : Scopes) (k : ScopeId) : Option (Option ScopeId × List String) :=
  (s.get? k).map fun scope => (scope.parent, scope.slots)

/-- The slot of a name in this very scope. -/
def slotAt (s : Scopes) (k : ScopeId) (name : String) : Option SlotId :=
  (s.get? k).bind (·.slot? name)

variable {s s' : Scopes} {k : Nat} {scope : Scope} {name : String} {l : Local}

theorem slotAt_eq_of_view {k : ScopeId} (h : s'.view k = s.view k) (name : String) :
    s'.slotAt k name = s.slotAt k name := by
  have hslots : ∀ t : Scopes, t.slotAt k name = (t.view k).bind fun v => v.2.idxOf? name := by
    intro t
    unfold slotAt view Scope.slot?
    cases t.get? k <;> rfl
  rw [hslots, hslots, h]

theorem lookupIn_cons (s : Scopes) (name : String) (level : Nat) (id : ScopeId)
    (rest : List ScopeId) : s.lookupIn name level (id :: rest) =
      match s.slotAt id name with
      | some slot => some { level, scope := id, slot }
      | none => s.lookupIn name (level + 1) rest := rfl

theorem lookupIn_add (s : Scopes) (name : String) (n : Nat) : ∀ (ids : List ScopeId) (level : Nat),
    s.lookupIn name (level + n) ids =
      (s.lookupIn name level ids).map fun r => { r with level := r.level + n }
  | [], _ => rfl
  | id :: rest, level => by
    rw [lookupIn_cons, lookupIn_cons]
    cases s.slotAt id name with
    | some slot => rfl
    | none =>
      have hnext : level + n + 1 = level + 1 + n := by omega
      rw [hnext]
      exact lookupIn_add s name n rest (level + 1)

/-- Before the scope where a look-up ends no scope has the name. -/
theorem lookupIn_before : ∀ {ids : List ScopeId} {level : Nat} {r : Resolution},
    s.lookupIn name level ids = some r → ∀ i j, level + i < r.level → ids[i]? = some j →
    s.slotAt j name = none
  | [], _, _, h, _, _, _, _ => nomatch h
  | id :: rest, level, r, h, i, j, hi, hj => by
    rw [lookupIn_cons] at h
    cases hslot : s.slotAt id name with
    | some slot =>
      rw [hslot] at h
      cases h
      exact absurd hi (Nat.not_lt.mpr (Nat.le_add_right level i))
    | none =>
      rw [hslot] at h
      cases i with
      | zero =>
        cases hj
        exact hslot
      | succ i => exact lookupIn_before h i j (by omega) hj

theorem lookup_eq (hw : s.WellFormed) (h : s.get? k = some scope) (name : String) :
    s.lookup k name =
      match s.slotAt k name with
      | some slot => some { level := 0, scope := k, slot }
      | none => (scope.parent.bind fun p => s.lookup p name).map
          fun r => { r with level := r.level + 1 } := by
  have hrest : s.lookupIn name (0 + 1) ((scope.parent.map s.ancestry).getD []) =
      (scope.parent.bind fun p => s.lookup p name).map fun r => { r with level := r.level + 1 } := by
    rw [lookupIn_add]
    cases scope.parent with
    | none => rfl
    | some p => rfl
  rw [← hrest]
  show s.lookupIn name 0 (s.ancestry k) = _
  rw [ancestry_of_get? hw h, lookupIn_cons]

theorem lookup_of_slotAt (hw : s.WellFormed) (h : s.slotAt k name = some slot) :
    s.lookup k name = some { level := 0, scope := k, slot } := by
  obtain ⟨scope, hget, _⟩ := Option.bind_eq_some_iff.mp h
  rw [lookup_eq hw hget, h]

theorem slotAt_of_lookup (hw : s.WellFormed) (h : s.lookup k name = some r)
    (hlevel : r.level = 0) : s.slotAt k name = some r.slot := by
  cases hget : s.get? k with
  | none =>
    have hnone : s.lookup k name = none := by
      show s.lookupIn name 0 (s.ancestry k) = none
      rw [ancestry_of_none hget]
      rfl
    rw [h] at hnone
    exact absurd hnone (by simp)
  | some scope =>
    rw [lookup_eq hw hget] at h
    cases hslot : s.slotAt k name with
    | some slot =>
      rw [hslot] at h
      cases h
      rfl
    | none =>
      rw [hslot] at h
      obtain ⟨outer, _, rfl⟩ := Option.map_eq_some_iff.mp h
      exact absurd hlevel (Nat.succ_ne_zero _)

/-- A look-up sees the scope and older ones. -/
theorem lookup_congr (hw : s.WellFormed) (hw' : s'.WellFormed) (name : String) :
    ∀ {k : Nat}, (∀ i ≤ k, s'.view i = s.view i) → s'.lookup k name = s.lookup k name := by
  intro k
  induction k using Nat.strongRecOn with
  | _ k ih =>
    intro h
    have hk := h k (Nat.le_refl k)
    cases hget : s.get? k with
    | none =>
      have hget' : s'.get? k = none := by
        unfold view at hk
        rw [hget] at hk
        exact Option.map_eq_none_iff.mp hk
      show s'.lookupIn name 0 (s'.ancestry k) = s.lookupIn name 0 (s.ancestry k)
      rw [ancestry_of_none hget, ancestry_of_none hget']
      rfl
    | some scope =>
      obtain ⟨scope', hget', hsame⟩ : ∃ scope', s'.get? k = some scope' ∧
          (scope'.parent, scope'.slots) = (scope.parent, scope.slots) := by
        unfold view at hk
        rw [hget] at hk
        exact Option.map_eq_some_iff.mp hk
      have hparent : scope'.parent = scope.parent := congrArg Prod.fst hsame
      rw [lookup_eq hw hget, lookup_eq hw' hget', slotAt_eq_of_view hk, hparent]
      cases hp : scope.parent with
      | none => rfl
      | some p =>
        have hlt := hw k scope p hget hp
        have hsame := ih p hlt fun i hi => h i (by omega)
        simp only [Option.bind_some, hsame]

/-- A name that is not known somewhere is not known further out. -/
theorem lookup_eq_none_of_mem_ancestry (hw : s.WellFormed) :
    ∀ {k a : Nat}, a ∈ s.ancestry k → s.lookup k name = none → s.lookup a name = none := by
  intro k
  induction k using Nat.strongRecOn with
  | _ k ih =>
    intro a ha hnone
    cases hget : s.get? k with
    | none => simp [ancestry_of_none hget] at ha
    | some scope =>
      rw [ancestry_of_get? hw hget, List.mem_cons] at ha
      rcases ha with rfl | ha
      · exact hnone
      · rw [lookup_eq hw hget] at hnone
        cases hslot : s.slotAt k name with
        | some slot =>
          rw [hslot] at hnone
          exact absurd hnone (by simp)
        | none =>
          rw [hslot] at hnone
          cases hp : scope.parent with
          | none => simp [hp] at ha
          | some p =>
            simp only [hp, Option.map_some, Option.getD_some] at ha
            simp only [hp, Option.bind_some, Option.map_eq_none_iff] at hnone
            exact ih p (hw k scope p hget hp) ha hnone

/-! ## Look-ups later on -/

/-- What look-ups find in a scope they find later on. Of a hidden variable only the scope's own
counts. -/
def Keeps (s s' : Scopes) : Prop :=
  ∀ k < s.size, ∀ name r, (isHidden name = true → r.level = 0) → s.lookup k name = some r →
    s'.lookup k name = some r

theorem Keeps.refl (s : Scopes) : Keeps s s := fun _ _ _ _ _ h => h

theorem Keeps.trans (h₁ : Keeps s₁ s₂) (hsize : s₁.size ≤ s₂.size) (h₂ : Keeps s₂ s₃) :
    Keeps s₁ s₃ :=
  fun k hk name r hr h => h₂ k (Nat.lt_of_lt_of_le hk hsize) name r hr (h₁ k hk name r hr h)

theorem keeps_of_view (hw : s.WellFormed) (hw' : s'.WellFormed)
    (h : ∀ k < s.size, s'.view k = s.view k) : Keeps s s' := by
  intro k hk name r _ hr
  rw [lookup_congr hw hw' name fun i hi => h i (Nat.lt_of_le_of_lt hi hk)]
  exact hr

theorem declare_snd (s : Scopes) (home : ScopeId) (name : String) :
    (s.declare home name).2 = s ∨ (s.declare home name).2 = s.modify home (·.addSlot name) := by
  unfold declare
  split
  · exact Or.inl rfl
  · split
    · exact Or.inl rfl
    · exact Or.inr rfl

/-- A slot for one name changes nothing for the others. -/
theorem slotAt_declare_ne (home k : ScopeId) (hne : other ≠ name) :
    (s.declare home name).2.slotAt k other = s.slotAt k other := by
  rcases declare_snd s home name with hsame | hadded
  · rw [hsame]
  · have hslot : ∀ scope : Scope, (scope.addSlot name).slot? other = scope.slot? other := by
      intro scope
      have hnot : (name == other) = false := by simpa using Ne.symm hne
      simp [Scope.slot?, Scope.addSlot, List.idxOf?, List.findIdx?_append, hnot]
    unfold slotAt
    rw [hadded, get?_modify]
    cases s.get? k with
    | none => rfl
    | some scope =>
      simp only [Option.map_some, Option.bind_some]
      split
      · exact hslot scope
      · rfl

theorem slotAt_declare (home : ScopeId) (name : String) {k : ScopeId}
    (h : s.slotAt k other = some slot) : (s.declare home name).2.slotAt k other = some slot := by
  by_cases hne : other = name
  · subst hne
    by_cases hk : k = home
    · subst hk
      obtain ⟨scope, hget, hslot⟩ := Option.bind_eq_some_iff.mp h
      unfold declare
      simp only [hget, hslot]
      exact h
    · unfold slotAt
      rw [get?_declare_ne other hk]
      exact h
  · rw [slotAt_declare_ne home k hne]
    exact h

theorem slotAt_declare_self (h : s.get? home = some scope) (name : String) :
    (s.declare home name).2.slotAt home name = some (s.declare home name).1 := by
  obtain ⟨scope', hget', _, _, hslot⟩ := get?_declare_self name h
  unfold slotAt
  rw [hget']
  exact hslot

theorem parent_declare (home : ScopeId) (name : String) {k : ScopeId} (h : s.get? k = some scope) :
    ∃ scope', (s.declare home name).2.get? k = some scope' ∧ scope'.parent = scope.parent := by
  obtain ⟨scope', hget', he, _⟩ := grows_declare s name (List.mem_singleton_self home) k scope h
  exact ⟨scope', hget', he.parent⟩

/-- **A slot for a name that is not known hides nothing**; neither does that of a hidden
variable. -/
theorem keeps_declare (hw : s.WellFormed)
    (h : isHidden name = true ∨ s.lookup home name = none ∨ (s.slotAt home name).isSome) :
    Keeps s (s.declare home name).2 := by
  have hw' := wellFormed_declare hw home name
  intro k
  induction k using Nat.strongRecOn with
  | _ k ih =>
    intro hk other r hlevel hr
    obtain ⟨scope, hget⟩ := exists_get? hk
    obtain ⟨scope', hget', hparent⟩ := parent_declare home name hget
    rw [lookup_eq hw hget] at hr
    rw [lookup_eq hw' hget', hparent]
    cases hslot : s.slotAt k other with
    | some slot =>
      rw [hslot] at hr
      rw [slotAt_declare home name hslot]
      exact hr
    | none =>
      rw [hslot] at hr
      obtain ⟨outer, houter, rfl⟩ := Option.map_eq_some_iff.mp hr
      obtain ⟨p, hp, hfound⟩ := Option.bind_eq_some_iff.mp houter
      have hplain : isHidden other = false := by
        cases hhidden : isHidden other with
        | false => rfl
        | true => exact absurd (hlevel hhidden) (Nat.succ_ne_zero _)
      -- the name was found further out, so it is not the one that gets a slot here
      have hslot' : (s.declare home name).2.slotAt k other = none := by
        by_cases hne : other = name
        · subst hne
          by_cases hhome : k = home
          · subst hhome
            rcases h with h | h | h
            · rw [hplain] at h
              exact absurd h (by simp)
            · rw [lookup_eq hw hget, hslot, hp] at h
              simp [hfound] at h
            · rw [hslot] at h
              exact absurd h (by simp)
          · unfold slotAt
            rw [get?_declare_ne other hhome]
            exact hslot
        · rw [slotAt_declare_ne home k hne]
          exact hslot
      have hlt := hw k scope p hget hp
      have hkept := ih p hlt (Nat.lt_trans hlt hk) other outer (by simp [hplain]) hfound
      rw [hslot', hp]
      simp only [Option.bind_some, hkept, Option.map_some]

theorem view_markCaptured (s : Scopes) (ids : List ScopeId) (k : ScopeId) :
    (s.markCaptured ids).view k = s.view k := by
  unfold view
  rw [get?_markCaptured, Option.map_map]
  rfl

theorem wellFormed_of_view (hw : s.WellFormed) (h : ∀ k, s'.view k = s.view k) : s'.WellFormed := by
  intro k scope' p hget' hp
  have hk := h k
  unfold view at hk
  rw [hget', Option.map_some] at hk
  obtain ⟨scope, hget, hsame⟩ := Option.map_eq_some_iff.mp hk.symm
  exact hw k scope p hget ((congrArg Prod.fst hsame).trans hp)

/-! ## References -/

/-- The reference is what a look-up of its name gives. Hidden variables are looked up in their own
scope. -/
def Finds (s : Scopes) (k : ScopeId) (l : Local) : Prop :=
  (isHidden l.name = true → l.level = 0) →
    ∃ scope, s.lookup k l.name = some { level := l.level, scope, slot := l.slot }

theorem Finds.later (h : s.Finds k l) (hk : k < s.size) (hs : Keeps s s') : s'.Finds k l := by
  intro hlevel
  obtain ⟨scope, hfound⟩ := h hlevel
  exact ⟨scope, hs k hk l.name _ hlevel hfound⟩

/-- One name, one variable. -/
theorem Finds.unique {k : ScopeId} (h : s.Finds k l) (h' : s.Finds k l')
    (hlevel : isHidden l.name = true → l.level = 0)
    (hlevel' : isHidden l'.name = true → l'.level = 0) (hname : l.name = l'.name) :
    l.level = l'.level ∧ l.slot = l'.slot := by
  obtain ⟨scope, hfound⟩ := h hlevel
  obtain ⟨scope', hfound'⟩ := h' hlevel'
  rw [hname, hfound', Option.some.injEq, Resolution.mk.injEq] at hfound
  exact ⟨hfound.1.symm, hfound.2.2.symm⟩

/-- What a request may leave behind. -/
structure Settles (s : Scopes) (k : ScopeId) (l : Local) (s' : Scopes) : Prop where
  keeps : Keeps s s'
  found : ∃ scope, s'.lookup k l.name = some { level := l.level, scope, slot := l.slot }

theorem settles_refer (hw : s.WellFormed) (h : s.lookup k name = some r) :
    Settles s k (s.refer k name r).1 (s.refer k name r).2 := by
  have hview := view_markCaptured s ((s.ancestry k).take r.level)
  have hw' := wellFormed_of_view hw hview
  refine ⟨keeps_of_view hw hw' fun i _ => hview i, r.scope, ?_⟩
  show ((s.markCaptured ((s.ancestry k).take r.level))).lookup k name = some r
  rw [lookup_congr hw hw' name fun i _ => hview i]
  exact h

theorem settles_resolveOr (hw : s.WellFormed) (hk : k < s.size) (hmem : home ∈ s.ancestry k)
    (kind : LocalKind) (name : String) :
    Settles s k (s.resolveOr k home kind name).1 (s.resolveOr k home kind name).2 := by
  obtain ⟨t, r, hr, hrefer, ⟨rfl, _⟩ | ⟨rfl, hl⟩⟩ := resolveOr_eq_refer hw hk hmem kind name
  · rw [hrefer]
    exact settles_refer hw hr
  · have hkeeps : Keeps s (s.declare home name).2 :=
      keeps_declare hw (Or.inr (Or.inl (lookup_eq_none_of_mem_ancestry hw hmem hl)))
    have hsettles := settles_refer (wellFormed_declare hw home name) hr
    rw [hrefer]
    exact ⟨hkeeps.trans (Nat.le_of_eq size_declare.symm) hsettles.keeps, hsettles.found⟩

/-- A scope that hides outer names has none around it. -/
def Sealed (s : Scopes) : Prop :=
  ∀ k scope, s.get? k = some scope → scope.hidesOuterNames = true → scope.parent = none

theorem settles_resolveForAssignment (hw : s.WellFormed) (hsealed : s.Sealed) (hk : k < s.size)
    (name : String) :
    Settles s k (s.resolveForAssignment k name).1 (s.resolveForAssignment k name).2 := by
  unfold resolveForAssignment
  cases hhides : (s.get? k).any (·.hidesOuterNames) with
  | false => exact settles_resolveOr hw hk (nearest_mem_ancestry hw hk _) _ name
  | true =>
    obtain ⟨scope, hget⟩ := exists_get? hk
    rw [hget, Option.any_some] at hhides
    have hroot := hsealed k scope hget hhides
    have hkeeps : Keeps s (s.declare k name).2 := by
      refine keeps_declare hw (Or.inr ?_)
      cases hslot : s.slotAt k name with
      | some slot => exact Or.inr rfl
      | none =>
        refine Or.inl ?_
        rw [lookup_eq hw hget, hslot, hroot]
        rfl
    have hw' := wellFormed_declare hw k name
    have hk' : k < (s.declare k name).2.size := by simpa using hk
    have hhome : (s.declare k name).2.declarationTarget k ∈ (s.declare k name).2.ancestry k :=
      nearest_mem_ancestry hw' hk' _
    have hor := settles_resolveOr hw' hk' hhome .variable name
    exact ⟨hkeeps.trans (Nat.le_of_eq size_declare.symm) hor.keeps, hor.found⟩

theorem isHidden_temp (hint : String) (n : Nat) : isHidden s!"%{hint}_{n}" = true := by
  show isHidden ("%" ++ hint ++ "_" ++ toString n) = true
  simp [isHidden, String.toList_append]

theorem isHidden_frameGlobalSlot (name : String) : isHidden (frameGlobalSlot name) = false := by
  simp [isHidden, frameGlobalSlot, String.toList_append]

/-- **A request finds its name for good**. The names of parameters have their slots before. -/
theorem settles_answer (hw : s.WellFormed) (hsealed : s.Sealed) (hk : k < s.size)
    (howned : ∀ name, r = .own name → (s.slotAt k name).isSome) (h : (s.answer k r).1 = some l) :
    Settles s k l (s.answer k r).2 := by
  obtain ⟨scope, hget⟩ := exists_get? hk
  cases r with
  | known name =>
    unfold answer resolve at h ⊢
    cases hl : s.lookup k name with
    | none => simp [hl] at h
    | some r =>
      simp only [hl, Option.some.injEq] at h ⊢
      exact h ▸ settles_refer hw hl
  | assigned name =>
    cases h
    exact settles_resolveForAssignment hw hsealed hk name
  | frameGlobal name =>
    cases h
    exact settles_resolveOr hw hk (nearest_mem_ancestry hw hk _) _ (frameGlobalSlot name)
  | own name =>
    cases h
    refine ⟨keeps_declare hw (Or.inr (Or.inr (howned name rfl))), k, ?_⟩
    exact lookup_of_slotAt (wellFormed_declare hw k name) (slotAt_declare_self hget name)
  | temp hint =>
    cases h
    -- the counter of hidden names is no part of any scope
    let counted : Scopes := { s with nextTemp := s.nextTemp + 1 }
    have hw' : counted.WellFormed := hw
    have hget' : counted.get? k = some scope := hget
    have hcounted : Keeps s counted := keeps_of_view hw hw' fun _ _ => rfl
    have hdeclared : Keeps counted (counted.declare k s!"%{hint}_{s.nextTemp}").2 :=
      keeps_declare hw' (Or.inl (isHidden_temp hint s.nextTemp))
    refine ⟨hcounted.trans (Nat.le_refl _) hdeclared, k, ?_⟩
    exact lookup_of_slotAt (wellFormed_declare hw' k _) (slotAt_declare_self hget' _)

end Scopes

end BlockLang
