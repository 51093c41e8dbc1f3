import BlockLang.Proofs.Lowering.Resuming
import Mathlib.Logic.Relation

/-!
# Scopes through any history

Lowering uses scopes in an order of its own. Here it does not matter: `Scopes.Step` is any operation
on scopes that are there, and `Scopes.Evolves` any number of operations in any order.

* `Scopes.Arranged` is the invariant. Parents are older, so that every walk outward ends; the names
  of a scope are apart; a block returns from what the scope around it returns from; and all other
  identities were given out once.
* **References last** (`Scopes.references_last`): what was answered in a scope names the same slot
  of the same scope for ever, because scopes that are there are only gone on in.
-/

namespace BlockLang

open List

namespace Scopes

/-- One operation, on scopes that are there. -/
inductive Step (s : Scopes) : Scopes → Prop
  | root (kind : BodyKind) : Step s (s.addRoot kind).2
  | block {parent : ScopeId} (ownsNewNames : Bool) :
      parent < s.size → Step s (s.addBlock parent ownsNewNames).2
  | lambda {parent : ScopeId} : parent < s.size → Step s (s.addLambda parent).2
  | request {k : ScopeId} (r : Request) : k < s.size → Step s (s.answer k r).2
  | returnId : Step s s.freshReturn.2
  | breakId : Step s s.freshBreak.2

/-- Operations one after the other. -/
abbrev Evolves : Scopes → Scopes → Prop := Relation.ReflTransGen Step

/-- No identity was given out twice, and none that the counters have yet to give. -/
structure Identified (s : Scopes) : Prop where
  returnIssued : ∀ {k scope id}, s.get? k = some scope → scope.returnId = some id →
    id.index < s.nextReturn
  returnApart : ∀ {j k a b id}, s.get? j = some a → s.get? k = some b → a.kind ≠ .block →
    b.kind ≠ .block → a.returnId = some id → b.returnId = some id → j = k
  breakIssued : ∀ {k scope id}, s.get? k = some scope → scope.breakId = some id →
    id.index < s.nextBreak
  breakApart : ∀ {j k a b id}, s.get? j = some a → s.get? k = some b → a.breakId = some id →
    b.breakId = some id → j = k

/-- What holds of scopes whatever was done before. -/
structure Arranged (s : Scopes) : Prop extends s.Identified where
  wellFormed : s.WellFormed
  names : ∀ {k scope}, s.get? k = some scope → scope.slots.Nodup
  blockReturn : ∀ {k scope p outer}, s.get? k = some scope → scope.kind = .block →
    scope.parent = some p → s.get? p = some outer → scope.returnId = outer.returnId

variable {s s' : Scopes} {k : ScopeId}

/-! ## Requests -/

theorem nodup_declare (home : ScopeId) (name : String)
    (h : ∀ {k scope}, s.get? k = some scope → scope.slots.Nodup)
    (hk : (s.declare home name).2.get? k = some scope) : scope.slots.Nodup := by
  unfold declare at hk
  split at hk
  · exact h hk
  rename_i own hown
  split at hk
  · exact h hk
  rename_i hnew
  rw [get?_modify] at hk
  obtain ⟨old, hold, rfl⟩ := Option.map_eq_some_iff.mp hk
  split
  next heq =>
    -- a name gets a slot where it has none
    subst heq
    rw [hown, Option.some.injEq] at hold
    subst hold
    have hnot : name ∉ own.slots := List.idxOf?_eq_none_iff.mp hnew
    refine nodup_append.mpr ⟨h hown, pairwise_singleton _ _, fun a ha b hb heq => hnot ?_⟩
    rwa [← mem_singleton.mp hb, ← heq]
  next => exact h hold

theorem nodup_answer (h : ∀ {k scope}, s.get? k = some scope → scope.slots.Nodup) (k : ScopeId)
    (r : Request) (hj : (s.answer k r).2.get? j = some scope) : scope.slots.Nodup := by
  refine answer_keeps (P := fun t => ∀ j scope, t.get? j = some scope → scope.slots.Nodup)
    (fun t home name ht j scope => nodup_declare home name (ht _ _)) (fun t ids ht j scope hj => ?_)
    (fun _ ht => ht) (fun _ _ => h) k r j scope hj
  rw [get?_markCaptured] at hj
  obtain ⟨old, hold, rfl⟩ := Option.map_eq_some_iff.mp hj
  exact ht j old hold

theorem size_answer (hw : s.WellFormed) (hk : k < s.size) (r : Request) :
    (s.answer k r).2.size = s.size := by
  cases hl : (s.answer k r).1 with
  | none => rw [answer_eq_none hl]
  | some l => exact (access_answer hw hk hl).size

/-- Every scope was there before the request, with the same place, kind and identities. -/
theorem exists_resumes_answer (hw : s.WellFormed) (hk : k < s.size) (r : Request) {new : Scope}
    (hj : (s.answer k r).2.get? j = some new) : ∃ old, s.get? j = some old ∧ old.Resumes new := by
  obtain ⟨old, hget⟩ := exists_get? (size_answer hw hk r ▸ lt_size_of_get? hj)
  obtain ⟨new', hget', hold⟩ := (Asked.answer s k r).resumes j old hget
  rw [hj, Option.some.injEq] at hget'
  exact ⟨old, hget, hget' ▸ hold⟩

theorem Identified.answer (h : s.Identified) (hw : s.WellFormed) (hk : k < s.size) (r : Request) :
    (s.answer k r).2.Identified := by
  obtain ⟨hnextReturn, hnextBreak⟩ := Prod.mk.inj (Asked.answer s k r).issued
  constructor
  · intro j new id hj hid
    obtain ⟨old, hget, hold⟩ := exists_resumes_answer hw hk r hj
    rw [hnextReturn]
    exact h.returnIssued hget (hold.returnId ▸ hid)
  · intro i j a b id hi hj ha hb hid hid'
    obtain ⟨a', hgeta, holda⟩ := exists_resumes_answer hw hk r hi
    obtain ⟨b', hgetb, holdb⟩ := exists_resumes_answer hw hk r hj
    exact h.returnApart hgeta hgetb (holda.kind ▸ ha) (holdb.kind ▸ hb) (holda.returnId ▸ hid)
      (holdb.returnId ▸ hid')
  · intro j new id hj hid
    obtain ⟨old, hget, hold⟩ := exists_resumes_answer hw hk r hj
    rw [hnextBreak]
    exact h.breakIssued hget (hold.breakId ▸ hid)
  · intro i j a b id hi hj hid hid'
    obtain ⟨a', hgeta, holda⟩ := exists_resumes_answer hw hk r hi
    obtain ⟨b', hgetb, holdb⟩ := exists_resumes_answer hw hk r hj
    exact h.breakApart hgeta hgetb (holda.breakId ▸ hid) (holdb.breakId ▸ hid')

theorem WellFormed.answer (hw : s.WellFormed) (hk : k < s.size) (r : Request) :
    (s.answer k r).2.WellFormed := by
  intro j new p hj hp
  obtain ⟨old, hget, hold⟩ := exists_resumes_answer hw hk r hj
  exact hw j old p hget (hold.parent ▸ hp)

theorem Arranged.answer (h : s.Arranged) (hk : k < s.size) (r : Request) :
    (s.answer k r).2.Arranged := by
  refine ⟨h.toIdentified.answer h.wellFormed hk r, h.wellFormed.answer hk r,
    nodup_answer h.names k r, ?_⟩
  intro j new p outer hj hkind hp houter
  obtain ⟨old, hget, hold⟩ := exists_resumes_answer h.wellFormed hk r hj
  obtain ⟨oldOuter, hgetOuter, holdOuter⟩ := exists_resumes_answer h.wellFormed hk r houter
  rw [hold.returnId, holdOuter.returnId]
  exact h.blockReturn hget (hold.kind ▸ hkind) (hold.parent ▸ hp) hgetOuter

/-! ## New scopes -/

/-- There is one more scope. Its identities are new or, if it is a block, those of the scope around
it. -/
structure Adds (s : Scopes) (new : Scope) (s' : Scopes) : Prop where
  push : s'.scopes = s.scopes.push new
  parent : ∀ p, new.parent = some p → p < s.size
  slots : new.slots = []
  block : new.kind = .block → new.returnId = (new.parent.bind s.get?).bind (·.returnId)
  returns : s.nextReturn ≤ s'.nextReturn
  breaks : s.nextBreak ≤ s'.nextBreak
  returnId : ∀ id, new.returnId = some id → new.kind ≠ .block →
    s.nextReturn ≤ id.index ∧ id.index < s'.nextReturn
  breakId : ∀ id, new.breakId = some id → s.nextBreak ≤ id.index ∧ id.index < s'.nextBreak

theorem adds_addRoot (s : Scopes) (kind : BodyKind) : ∃ new, s.Adds new (s.addRoot kind).2 := by
  cases kind with
  | topLevel | method =>
    refine ⟨_, rfl, nofun, rfl, nofun, Nat.le_succ _, Nat.le_refl _, ?_, nofun⟩
    rintro id ⟨⟩ -
    exact ⟨Nat.le_refl _, Nat.lt_succ_self _⟩
  | block | lambda | classBody | moduleBody =>
    exact ⟨_, rfl, nofun, rfl, fun _ => rfl, Nat.le_refl _, Nat.le_refl _, nofun, nofun⟩

theorem adds_addBlock (hk : k < s.size) (ownsNewNames : Bool) :
    ∃ new, s.Adds new (s.addBlock k ownsNewNames).2 := by
  refine ⟨_, rfl, ?_, rfl, fun _ => rfl, Nat.le_refl _, Nat.le_succ _,
    fun _ _ hkind => absurd rfl hkind, ?_⟩
  · rintro p ⟨⟩
    exact hk
  · rintro id ⟨⟩
    exact ⟨Nat.le_refl _, Nat.lt_succ_self _⟩

theorem adds_addLambda (hk : k < s.size) : ∃ new, s.Adds new (s.addLambda k).2 := by
  refine ⟨_, rfl, ?_, rfl, nofun, Nat.le_succ _, Nat.le_succ _, ?_, ?_⟩
  · rintro p ⟨⟩
    exact hk
  · rintro id ⟨⟩ -
    exact ⟨Nat.le_refl _, Nat.lt_succ_self _⟩
  · rintro id ⟨⟩
    exact ⟨Nat.le_refl _, Nat.lt_succ_self _⟩

theorem adds_openScope (hk : kind.isClosure = true → k < s.size) :
    ∃ new, s.Adds new (s.openScope k kind).2 := by
  cases kind with
  | topLevel | method | classBody | moduleBody => exact adds_addRoot s _
  | block => exact adds_addBlock (hk rfl) false
  | lambda => exact adds_addLambda (hk rfl)

namespace Adds

variable {new : Scope}

theorem get?_cases (h : s.Adds new s') (hk : s'.get? k = some scope) :
    s.get? k = some scope ∨ (k = s.size ∧ scope = new) := by
  unfold get? at hk ⊢
  rw [h.push, Array.getElem?_push] at hk
  split at hk
  · exact .inr ⟨‹_›, (Option.some.inj hk).symm⟩
  · exact .inl hk

theorem identified (h : s.Adds new s') (hs : s.Identified) : s'.Identified := by
  constructor
  · intro k scope id hk hid
    rcases h.get?_cases hk with hold | ⟨_, rfl⟩
    · exact Nat.lt_of_lt_of_le (hs.returnIssued hold hid) h.returns
    by_cases hkind : scope.kind = .block
    · rw [h.block hkind] at hid
      obtain ⟨outer, houter, hid⟩ := Option.bind_eq_some_iff.mp hid
      obtain ⟨p, _, houter⟩ := Option.bind_eq_some_iff.mp houter
      exact Nat.lt_of_lt_of_le (hs.returnIssued houter hid) h.returns
    · exact (h.returnId id hid hkind).2
  · intro j k a b id hj hk ha hb hid hid'
    rcases h.get?_cases hj with hj | ⟨rfl, rfl⟩ <;> rcases h.get?_cases hk with hk | ⟨rfl, rfl⟩
    · exact hs.returnApart hj hk ha hb hid hid'
    · exact absurd (hs.returnIssued hj hid) (Nat.not_lt.mpr (h.returnId id hid' hb).1)
    · exact absurd (hs.returnIssued hk hid') (Nat.not_lt.mpr (h.returnId id hid ha).1)
    · rfl
  · intro k scope id hk hid
    rcases h.get?_cases hk with hold | ⟨_, rfl⟩
    · exact Nat.lt_of_lt_of_le (hs.breakIssued hold hid) h.breaks
    · exact (h.breakId id hid).2
  · intro j k a b id hj hk hid hid'
    rcases h.get?_cases hj with hj | ⟨rfl, rfl⟩ <;> rcases h.get?_cases hk with hk | ⟨rfl, rfl⟩
    · exact hs.breakApart hj hk hid hid'
    · exact absurd (hs.breakIssued hj hid) (Nat.not_lt.mpr (h.breakId id hid').1)
    · exact absurd (hs.breakIssued hk hid') (Nat.not_lt.mpr (h.breakId id hid).1)
    · rfl

theorem wellFormed (h : s.Adds new s') (hw : s.WellFormed) : s'.WellFormed := by
  intro k scope p hk hp
  rcases h.get?_cases hk with hold | ⟨rfl, rfl⟩
  · exact hw k scope p hold hp
  · exact h.parent p hp

theorem arranged (h : s.Adds new s') (hs : s.Arranged) : s'.Arranged := by
  refine ⟨h.identified hs.toIdentified, h.wellFormed hs.wellFormed, ?_, ?_⟩
  · intro k scope hk
    rcases h.get?_cases hk with hold | ⟨_, rfl⟩
    · exact hs.names hold
    · rw [h.slots]
      exact nodup_nil
  · intro k scope p outer hk hkind hp houter
    -- what is around a scope is older, so it is not the new one
    have hold : p < s.size → s.get? p = some outer := fun hlt =>
      (h.get?_cases houter).resolve_right fun hnew => Nat.lt_irrefl _ (hnew.1 ▸ hlt)
    rcases h.get?_cases hk with hget | ⟨rfl, rfl⟩
    · have hlt := Nat.lt_trans (hs.wellFormed k scope p hget hp) (lt_size_of_get? hget)
      exact hs.blockReturn hget hkind hp (hold hlt)
    · rw [h.block hkind, hp, Option.bind_some, hold (h.parent p hp), Option.bind_some]

end Adds

/-! ## Histories -/

namespace Step

theorem arranged (h : Step s s') (hs : s.Arranged) : s'.Arranged := by
  cases h with
  | root kind =>
    obtain ⟨_, hadds⟩ := adds_addRoot s kind
    exact hadds.arranged hs
  | block ownsNewNames hk =>
    obtain ⟨_, hadds⟩ := adds_addBlock hk ownsNewNames
    exact hadds.arranged hs
  | lambda hk =>
    obtain ⟨_, hadds⟩ := adds_addLambda hk
    exact hadds.arranged hs
  | request r hk => exact hs.answer hk r
  | returnId =>
    exact { hs with returnIssued := fun hk hid => Nat.lt_succ_of_lt (hs.returnIssued hk hid) }
  | breakId =>
    exact { hs with breakIssued := fun hk hid => Nat.lt_succ_of_lt (hs.breakIssued hk hid) }

theorem wellFormed (h : Step s s') (hw : s.WellFormed) : s'.WellFormed := by
  cases h with
  | root kind => exact (adds_addRoot s kind).elim fun _ hadds => hadds.wellFormed hw
  | block owns hk => exact (adds_addBlock hk owns).elim fun _ hadds => hadds.wellFormed hw
  | lambda hk => exact (adds_addLambda hk).elim fun _ hadds => hadds.wellFormed hw
  | request r hk => exact hw.answer hk r
  | returnId | breakId => exact hw

theorem resumes (h : Step s s') : s.Resumes s' := by
  cases h with
  | root kind => cases kind <;> exact .push rfl
  | block | lambda => exact .push rfl
  | request r => exact (Asked.answer _ _ r).resumes
  | returnId | breakId => exact .refl s

end Step

namespace Evolves

theorem arranged (h : Evolves s s') (hs : s.Arranged) : s'.Arranged := by
  induction h with
  | refl => exact hs
  | tail _ hstep ih => exact hstep.arranged ih

theorem resumes (h : Evolves s s') : s.Resumes s' := by
  induction h with
  | refl => exact .refl s
  | tail _ hstep ih => exact ih.trans hstep.resumes

end Evolves

theorem arranged_empty : ({} : Scopes).Arranged := by
  have hnone : ∀ {k scope} {p : Prop}, ({} : Scopes).get? k = some scope → p := by
    intro k scope p h
    simp [get?] at h
  exact ⟨⟨hnone, hnone, hnone, hnone⟩, fun _ _ _ h => hnone h, hnone, hnone⟩

theorem Resumes.refers (h : s.Resumes s') (hs : s.WellFormed) (hs' : s'.WellFormed)
    (hk : k < s.size) (hl : s.Refers k l) : s'.Refers k l := by
  have hgrows : Grows (List.range s.size) s s' := by
    intro j own hj
    obtain ⟨own', hj', hown⟩ := h j own hj
    exact ⟨own', hj', hown.toExtends,
      fun hnot => absurd (List.mem_range.mpr (lt_size_of_get? hj)) hnot⟩
  exact hgrows.refers hs hs' hk hl

/-- **References last.** After any operations scopes are arranged, a new scope gets its place for
its number, walks go from parent to parent, and what is answered for a scope is a reference to its
name there, whatever is done later. -/
theorem references_last (s : Scopes) (hs : Evolves {} s) :
    s.Arranged ∧
    (∀ kind, (s.addRoot kind).1 = s.size) ∧ (∀ k owns, (s.addBlock k owns).1 = s.size) ∧
    (∀ k, (s.addLambda k).1 = s.size) ∧
    (∀ {k scope}, s.get? k = some scope →
      s.ancestry k = k :: (scope.parent.map s.ancestry).getD []) ∧
    ∀ k < s.size, ∀ r l, (s.answer k r).1 = some l → ∀ s', Evolves (s.answer k r).2 s' →
      s'.Refers k l := by
  have harranged := hs.arranged arranged_empty
  have hw := harranged.wellFormed
  refine ⟨harranged, fun kind => by cases kind <;> rfl, fun _ _ => rfl, fun _ => rfl,
    ancestry_of_get? hw, ?_⟩
  intro k hk r l hl s' hlater
  have hanswered := harranged.answer hk r
  have haccess := access_answer hw hk hl
  exact hlater.resumes.refers hanswered.wellFormed (hlater.arranged hanswered).wellFormed
    (haccess.size ▸ hk) haccess.refers

/-- A method with a variable, and a block in it. -/
def blockInMethod : Scopes :=
  (((addRoot {} .method).2.answer 0 (.own "a")).2.addBlock 0 false).2

theorem references_last_captured : Evolves {} blockInMethod ∧ ∀ s',
    Evolves (blockInMethod.answer 1 (.known "a")).2 s' →
      s'.Refers 1 { level := 1, slot := 0, name := "a" } := by
  have hs : Evolves {} blockInMethod :=
    .tail (.tail (.tail .refl (.root .method)) (.request (.own "a") (by decide)))
      (.block false (by decide))
  exact ⟨hs, (references_last blockInMethod hs).2.2.2.2.2 1 (by decide) (.known "a") _
    (by decide +kernel)⟩

end Scopes

end BlockLang
