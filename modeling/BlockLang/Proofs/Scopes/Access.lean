import BlockLang.Proofs.Scopes.Ancestry

/-!
# What a reference does to the scopes

Lowering asks the scopes for references in five ways (`Request`). They differ in where a name that
is not known gets its slot, and in nothing else: whatever is asked, the answer is an
`Scopes.Access`. A slot is appended to at most one scope of the ancestry, the reference names the
slot that it stands for, and the scopes that it walks through, those and no others, become
captured. `Scopes.access_answer` is that statement; the rest of the development never looks at
the five ways again.

`Scopes.Grows` is what is left when the reference itself is forgotten: scopes are added, slots are
appended and marks are set, and only in scopes that are open.
-/

namespace BlockLang

open List

/-- A scope later on: more slots, perhaps captured, perhaps inside of another loop, and otherwise
the same. -/
structure Scope.Extends (old new : Scope) : Prop where
  same : new = { old with slots := new.slots, captured := new.captured, breakId := new.breakId }
  slots : old.slots <+: new.slots
  captured : old.captured = true → new.captured = true

namespace Scope.Extends

theorem refl (scope : Scope) : scope.Extends scope := ⟨rfl, prefix_rfl, id⟩

variable {a b : Scope}

theorem trans (hab : a.Extends b) (hbc : b.Extends c) : a.Extends c := by
  refine ⟨?_, hab.slots.trans hbc.slots, fun h => hbc.captured (hab.captured h)⟩
  have hc := hbc.same
  rw [hab.same] at hc
  exact hc

theorem parent (h : a.Extends b) : b.parent = a.parent := by rw [h.same]

theorem kind (h : a.Extends b) : b.kind = a.kind := by rw [h.same]

end Scope.Extends

namespace Scopes

variable {name : String}

def capturedAt (s : Scopes) (k : ScopeId) : Bool := (s.get? k).any (·.captured)

/-- Later scopes: those that are not in `live` are as they were. -/
def Grows (live : List ScopeId) (s s' : Scopes) : Prop :=
  ∀ (k : Nat) (scope : Scope), s.get? k = some scope →
    ∃ scope', s'.get? k = some scope' ∧ scope.Extends scope' ∧ (k ∉ live → scope' = scope)

/-- The reference, looked for from scope `k`, names a slot of the scope at its level. -/
def Refers (s : Scopes) (k : ScopeId) (l : Local) : Prop :=
  ∃ a scope, (s.ancestry k)[l.level]? = some a ∧ s.get? a = some scope ∧
    scope.slots[l.slot]? = some l.name

/-- What getting the reference `l` from scope `k` does. -/
structure Access (s : Scopes) (k : ScopeId) (l : Local) (s' : Scopes) : Prop where
  size : s'.size = s.size
  grows : Grows (s.ancestry k) s s'
  refers : s'.Refers k l
  captured : ∀ {d a : Nat}, (s.ancestry k)[d]? = some a →
    (s'.capturedAt a = true ↔ s.capturedAt a = true ∨ d < l.level)

/-! ## Growth -/

namespace Grows

theorem refl (live : List ScopeId) (s : Scopes) : Grows live s s :=
  fun _ scope h => ⟨scope, h, .refl scope, fun _ => rfl⟩

variable {live : List ScopeId} {s s' : Scopes}

theorem trans {a b : Scopes} (hab : Grows live a b) (hbc : Grows live b c) : Grows live a c := by
  intro k scope hk
  obtain ⟨scope₁, hk₁, he₁, hs₁⟩ := hab k scope hk
  obtain ⟨scope₂, hk₂, he₂, hs₂⟩ := hbc k scope₁ hk₁
  exact ⟨scope₂, hk₂, he₁.trans he₂, fun hn => (hs₂ hn).trans (hs₁ hn)⟩

theorem append {a b : Scopes} (hab : Grows live a b) (hbc : Grows live' b c) :
    Grows (live ++ live') a c := by
  intro k scope hk
  obtain ⟨scope₁, hk₁, he₁, hs₁⟩ := hab k scope hk
  obtain ⟨scope₂, hk₂, he₂, hs₂⟩ := hbc k scope₁ hk₁
  refine ⟨scope₂, hk₂, he₁.trans he₂, fun hn => ?_⟩
  rw [mem_append, not_or] at hn
  exact (hs₂ hn.2).trans (hs₁ hn.1)

theorem size_le (h : Grows live s s') : s.size ≤ s'.size := by
  cases hn : s.size with
  | zero => exact Nat.zero_le _
  | succ n =>
    obtain ⟨scope, hs⟩ := exists_get? (s := s) (k := n) (by omega)
    obtain ⟨scope', hs', _⟩ := h n scope hs
    exact lt_size_of_get? hs'

theorem wellFormed (h : Grows live s s') (hsize : s'.size = s.size) (hw : s.WellFormed) :
    s'.WellFormed := by
  intro k scope' p hk' hp
  obtain ⟨scope, hk⟩ := exists_get? (s := s) (hsize ▸ lt_size_of_get? hk')
  obtain ⟨scope₁, hk₁, he, _⟩ := h k scope hk
  rw [hk', Option.some.injEq] at hk₁
  subst hk₁
  exact hw k scope p hk (he.parent ▸ hp)

theorem ancestry (h : Grows live s s') (hw : s.WellFormed) (hw' : s'.WellFormed) :
    ∀ {k : Nat}, k < s.size → s'.ancestry k = s.ancestry k := by
  intro k
  induction k using Nat.strongRecOn with
  | _ k ih =>
    intro hk
    obtain ⟨scope, hs⟩ := exists_get? hk
    obtain ⟨scope', hs', he, _⟩ := h k scope hs
    cases hp : scope.parent with
    | none => rw [ancestry_of_root hw hs hp, ancestry_of_root hw' hs' (he.parent.trans hp)]
    | some p =>
      have hlt := hw k scope p hs hp
      rw [ancestry_of_parent hw hs hp, ancestry_of_parent hw' hs' (he.parent.trans hp),
        ih p hlt (Nat.lt_trans hlt hk)]

theorem capturedAt (h : Grows live s s') {k : Nat} (hc : s.capturedAt k = true) :
    s'.capturedAt k = true := by
  unfold Scopes.capturedAt at hc ⊢
  cases hs : s.get? k with
  | none => simp [hs] at hc
  | some scope =>
    obtain ⟨scope', hs', he, _⟩ := h k scope hs
    simp only [hs, Option.any_some] at hc
    simpa [hs'] using he.captured hc

theorem refers (h : Grows live s s') (hw : s.WellFormed) (hw' : s'.WellFormed) {k : Nat}
    (hk : k < s.size) (hl : s.Refers k l) : s'.Refers k l := by
  obtain ⟨a, scope, ha, hs, hslot⟩ := hl
  obtain ⟨scope', hs', he, _⟩ := h a scope hs
  obtain ⟨more, hmore⟩ := he.slots
  refine ⟨a, scope', by rw [h.ancestry hw hw' hk]; exact ha, hs', ?_⟩
  rw [← hmore, List.getElem?_append_left (List.getElem?_eq_some_iff.mp hslot).1]
  exact hslot

end Grows

/-! ## Declaring a name -/

variable {s : Scopes} {home : ScopeId} {k : Nat}

theorem get?_declare_self (name : String) (h : s.get? home = some scope) :
    ∃ scope', (s.declare home name).2.get? home = some scope' ∧ scope.Extends scope' ∧
      scope'.captured = scope.captured ∧ scope'.slot? name = some (s.declare home name).1 := by
  unfold declare
  cases hslot : scope.slot? name with
  | some slot => exact ⟨scope, by simp [h, hslot], .refl scope, rfl, by simp [h, hslot]⟩
  | none =>
    refine ⟨scope.addSlot name, by simp [h, hslot, get?_modify],
      ⟨rfl, prefix_append _ _, id⟩, rfl, ?_⟩
    -- The name is new, so its first place is behind all the others.
    have hnew : name ∉ scope.slots := List.idxOf?_eq_none_iff.mp hslot
    have hfirst : (scope.slots ++ [name]).idxOf? name = some scope.slots.length := by
      refine List.idxOf?_eq_some_iff.mpr ⟨by simp, by simp, fun j hj => ?_⟩
      rw [getElem_append_left hj]
      exact fun heq => hnew (heq ▸ getElem_mem hj)
    simp only [h, hslot]
    exact hfirst

theorem get?_declare_ne {k : ScopeId} (name : String) (hne : k ≠ home) :
    (s.declare home name).2.get? k = s.get? k := by
  unfold declare
  split
  · rfl
  · split
    · rfl
    · rw [get?_modify]
      simp [hne]

@[simp] theorem size_declare : (s.declare home name).2.size = s.size := by
  unfold declare
  split
  · rfl
  · split
    · rfl
    · simp

theorem grows_declare (s : Scopes) {live : List ScopeId} (name : String) (hmem : home ∈ live) :
    Grows live s (s.declare home name).2 := by
  intro k scope hk
  by_cases hne : k = home
  · subst hne
    obtain ⟨scope', hs', he, _, _⟩ := get?_declare_self name hk
    exact ⟨scope', hs', he, fun hn => absurd hmem hn⟩
  · exact ⟨scope, by rw [get?_declare_ne name hne]; exact hk, .refl scope, fun _ => rfl⟩

theorem wellFormed_declare (hw : s.WellFormed) (home : ScopeId) (name : String) :
    (s.declare home name).2.WellFormed :=
  (grows_declare s name (mem_singleton_self home)).wellFormed size_declare hw

theorem capturedAt_declare (s : Scopes) (home : ScopeId) (name : String) (k : ScopeId) :
    (s.declare home name).2.capturedAt k = s.capturedAt k := by
  unfold capturedAt
  by_cases hne : k = home
  · subst hne
    cases hk : s.get? k with
    | none => simp [declare, hk]
    | some scope =>
      obtain ⟨scope', hs', _, hc, _⟩ := get?_declare_self name hk
      simp [hs', hc]
  · rw [get?_declare_ne name hne]

/-! ## Marking scopes -/

theorem get?_markCaptured (ids : List ScopeId) : ∀ (s : Scopes) (k : ScopeId),
    (s.markCaptured ids).get? k =
      (s.get? k).map fun scope => { scope with captured := scope.captured || ids.contains k } := by
  induction ids with
  | nil => intro s k; simp [markCaptured]
  | cons id rest ih =>
    intro s k
    show ((s.modify id fun scope => { scope with captured := true }).markCaptured rest).get? k = _
    rw [ih, get?_modify, Option.map_map]
    congr 1
    funext scope
    by_cases hk : k = id
    · simp [hk]
    · simp [hk]

@[simp] theorem size_markCaptured (ids : List ScopeId) :
    ∀ s : Scopes, (s.markCaptured ids).size = s.size := by
  induction ids with
  | nil => intro s; rfl
  | cons id rest ih =>
    intro s
    show ((s.modify id fun scope => { scope with captured := true }).markCaptured rest).size = _
    rw [ih, size_modify]

theorem access_refer (hw : s.WellFormed) (hk : k < s.size) (h : s.lookup k name = some r) :
    Access s k (s.refer k name r).1 (s.refer k name r).2 := by
  have hget := get?_markCaptured ((s.ancestry k).take r.level) s
  have hgrows : Grows (s.ancestry k) s (s.refer k name r).2 := by
    intro j scope hj
    have hj' : (s.refer k name r).2.get? j = _ := (hget j).trans (by rw [hj, Option.map_some])
    refine ⟨_, hj', ⟨rfl, prefix_rfl, fun hc => by simp [hc]⟩, fun hn => ?_⟩
    have hnot : j ∉ (s.ancestry k).take r.level := fun hm => hn (mem_of_mem_take hm)
    simp [hnot]
  have hsize : (s.refer k name r).2.size = s.size := by simp [refer]
  have hw' := hgrows.wellFormed hsize hw
  obtain ⟨scope, ha, hs, hslot⟩ := lookup_eq_some h
  refine ⟨hsize, hgrows, hgrows.refers hw hw' hk ⟨r.scope, scope, ha, hs, hslot⟩, ?_⟩
  intro d a hd
  have hmem : a ∈ (s.ancestry k).take r.level ↔ d < r.level := by
    constructor
    · intro hm
      obtain ⟨i, hi⟩ := mem_iff_getElem?.mp hm
      rw [List.getElem?_take] at hi
      split at hi
      · rename_i hlt
        -- No scope is met twice, so the place of `a` is `d`.
        have hi' : (s.ancestry k)[d]? = (s.ancestry k)[i]? := hd.trans hi.symm
        have hdlen := (List.getElem?_eq_some_iff.mp hd).1
        rw [(List.getElem?_inj hdlen (ancestry_nodup hw k)).mp hi']
        exact hlt
      · exact absurd hi (by simp)
    · intro hlt
      refine mem_iff_getElem?.mpr ⟨d, ?_⟩
      rw [List.getElem?_take_of_lt hlt]
      exact hd
  have halt := (mem_ancestry hw (mem_of_getElem? hd)).2
  obtain ⟨own, hown⟩ := exists_get? halt
  simp only [capturedAt, refer, hget, hown, Option.map_some, Option.any_some, Bool.or_eq_true,
    contains_iff_mem, hmem]

/-! ## The five requests -/

theorem Access.afterDeclare (hw : s.WellFormed) {home : Nat} (hk : k < s.size)
    (hmem : home ∈ s.ancestry k) {s' : Scopes} (h : Access (s.declare home name).2 k l s') :
    Access s k l s' := by
  have hgrows := grows_declare s name hmem
  have hw₁ := wellFormed_declare hw home name
  have hanc := hgrows.ancestry hw hw₁ hk
  refine ⟨h.size.trans size_declare, hgrows.trans (hanc ▸ h.grows), h.refers, ?_⟩
  intro d a hd
  rw [h.captured (hanc ▸ hd), capturedAt_declare]

theorem access_declare (hw : s.WellFormed) (hk : k < s.size) (name : String) :
    Access s k { level := 0, slot := (s.declare k name).1, name } (s.declare k name).2 := by
  have hmem : k ∈ s.ancestry k := mem_of_getElem? (ancestry_zero hw hk)
  have hw' := wellFormed_declare hw k name
  obtain ⟨scope, hs⟩ := exists_get? hk
  obtain ⟨scope', hs', _, _, hslot⟩ := get?_declare_self name hs
  refine ⟨size_declare, grows_declare s name hmem,
    ⟨k, scope', ancestry_zero hw' (by simpa using hk), hs', slot?_eq_some hslot⟩, ?_⟩
  intro d a _
  simp [capturedAt_declare]

/-- Once a name has its slot, the reference is to what a look-up finds. -/
theorem resolveOr_eq_refer (hw : s.WellFormed) {home : Nat} (hk : k < s.size)
    (hmem : home ∈ s.ancestry k) (kind : LocalKind) (name : String) :
    ∃ t r, t.lookup k name = some r ∧
      s.resolveOr k home kind name = t.refer k name r ∧
      (t = s ∧ (s.lookup k name).isSome ∨
        t = (s.declare home name).2 ∧ s.lookup k name = none) := by
  cases hl : s.lookup k name with
  | some r => exact ⟨s, r, hl, by rw [resolveOr, hl], .inl ⟨rfl, rfl⟩⟩
  | none =>
    have hgrows := grows_declare s name hmem
    have hw₁ := wellFormed_declare hw home name
    obtain ⟨scope, hs⟩ := exists_get? (mem_ancestry hw hmem).2
    obtain ⟨scope', hs', _, _, hslot⟩ := get?_declare_self name hs
    have hfound : ((s.declare home name).2.lookup k name).isSome :=
      lookupIn_isSome (by rw [hgrows.ancestry hw hw₁ hk]; exact hmem) hs' hslot 0
    obtain ⟨r, hr⟩ := Option.isSome_iff_exists.mp hfound
    exact ⟨_, r, hr, by simp only [resolveOr, hl, hr], .inr ⟨rfl, rfl⟩⟩

theorem access_resolveOr (hw : s.WellFormed) {home : Nat} (hk : k < s.size)
    (hmem : home ∈ s.ancestry k) (name : String) :
    Access s k (s.resolveOr k home kind name).1 (s.resolveOr k home kind name).2 := by
  obtain ⟨t, r, hr, hrefer, ⟨rfl, _⟩ | ⟨rfl, _⟩⟩ := resolveOr_eq_refer hw hk hmem kind name
  · rw [hrefer]
    exact access_refer hw hk hr
  · have hw₁ := wellFormed_declare hw home name
    rw [hrefer]
    exact Access.afterDeclare hw hk hmem (access_refer hw₁ (by simpa using hk) hr)

theorem access_resolveForAssignment (hw : s.WellFormed) (hk : k < s.size) (name : String) :
    Access s k (s.resolveForAssignment k name).1 (s.resolveForAssignment k name).2 := by
  unfold resolveForAssignment
  cases (s.get? k).any (·.hidesOuterNames) with
  | false => exact access_resolveOr hw hk (nearest_mem_ancestry hw hk _) name
  | true =>
    have hmem : k ∈ s.ancestry k := mem_of_getElem? (ancestry_zero hw hk)
    have hw₁ := wellFormed_declare hw k name
    have hk₁ : k < (s.declare k name).2.size := by simpa using hk
    exact Access.afterDeclare hw hk hmem
      (access_resolveOr hw₁ hk₁ (nearest_mem_ancestry hw₁ hk₁ _) name)

end Scopes

/-- The ways in which lowering asks for a reference. -/
inductive Request where
  /-- A name that has to be known. -/
  | known (name : String)
  /-- A name that is assigned. -/
  | assigned (name : String)
  /-- A global that the nearest method has for itself. -/
  | frameGlobal (name : String)
  /-- A name of the scope itself. -/
  | own (name : String)
  /-- A hidden name of the scope itself. -/
  | temp (hint : String)

namespace Scopes

variable {s : Scopes}

/-- The reference that a request gives, if there is one, and the scopes after it. -/
def answer (s : Scopes) (k : ScopeId) : Request → Option Local × Scopes
  | .known name => s.resolve k name
  | .assigned name => Prod.map some id (s.resolveForAssignment k name)
  | .frameGlobal name => Prod.map some id (s.resolveFrameGlobal k name)
  | .own name => Prod.map (fun slot => some { level := 0, slot, name }) id (s.declare k name)
  | .temp hint => Prod.map some id (s.addTemp k hint)

/-- What a new slot, marks and the counter of hidden names leave true, every request leaves true. -/
theorem answer_keeps {P : Scopes → Prop} (hdeclare : ∀ s home name, P s → P (s.declare home name).2)
    (hmark : ∀ s ids, P s → P (s.markCaptured ids))
    (hcount : ∀ s : Scopes, P s → P { s with nextTemp := s.nextTemp + 1 }) (h : P s) (k : ScopeId)
    (r : Request) : P (s.answer k r).2 := by
  have hresolveOr : ∀ s home kind name, P s → P (s.resolveOr k home kind name).2 := by
    intro s home kind name h
    unfold resolveOr
    cases s.lookup k name with
    | some r => exact hmark s _ h
    | none =>
      have hdeclared := hdeclare s home name h
      simp only
      split
      · exact hmark _ _ hdeclared
      · exact hdeclare _ _ _ hdeclared
  cases r with
  | known name =>
    show P (s.resolve k name).2
    unfold resolve
    cases s.lookup k name with
    | none => exact h
    | some r => exact hmark s _ h
  | assigned name =>
    -- a scope that hides the names around it declares the name before anything is looked up
    show P (s.resolveForAssignment k name).2
    unfold resolveForAssignment
    cases (s.get? k).any (·.hidesOuterNames) with
    | true => exact hresolveOr _ _ _ name (hdeclare s k name h)
    | false => exact hresolveOr s _ _ name h
  | frameGlobal name => exact hresolveOr s _ _ _ h
  | own name => exact hdeclare s k name h
  | temp hint => exact hdeclare _ k _ (hcount s h)

theorem answer_eq_none {k : ScopeId} (h : (s.answer k r).1 = none) : (s.answer k r).2 = s := by
  cases r with
  | known name =>
    unfold answer resolve at h ⊢
    cases hl : s.lookup k name with
    | none => simp only [hl]
    | some r => simp [hl] at h
  | assigned name | frameGlobal name | own name | temp hint => exact absurd h (by simp [answer])

/-- **Every reference is an access**, whichever way it was asked for. -/
theorem access_answer (hw : s.WellFormed) {k : Nat} (hk : k < s.size)
    (h : (s.answer k r).1 = some l) : Access s k l (s.answer k r).2 := by
  cases r with
  | known name =>
    unfold answer resolve at h ⊢
    cases hl : s.lookup k name with
    | none => simp [hl] at h
    | some r =>
      simp only [hl, Option.some.injEq] at h ⊢
      exact h ▸ access_refer hw hk hl
  | assigned name =>
    cases h
    exact access_resolveForAssignment hw hk name
  | frameGlobal name =>
    cases h
    exact access_resolveOr hw hk (nearest_mem_ancestry hw hk _) (frameGlobalSlot name)
  | own name =>
    cases h
    exact access_declare hw hk name
  | temp hint =>
    cases h
    -- The counter of hidden names is no part of any scope.
    have hsame : Grows (s.ancestry k) s { s with nextTemp := s.nextTemp + 1 } := .refl _ _
    have hanc := hsame.ancestry hw hw hk
    have ha := access_declare (s := { s with nextTemp := s.nextTemp + 1 }) hw hk
      s!"%{hint}_{s.nextTemp}"
    exact ⟨ha.size, hanc ▸ ha.grows, ha.refers, fun hd => ha.captured (hanc ▸ hd)⟩

end Scopes

end BlockLang
