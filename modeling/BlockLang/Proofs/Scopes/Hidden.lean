import BlockLang.Proofs.Scopes.Stability

/-!
# Hidden variables

Lowering names the variables that it needs for itself by a hint and a number, and takes each number
once. The hint and the number can be read off the name (`hiddenName_inj`), and the number of the next
hidden variable only grows (`Scopes.nextTemp_answer`). A reference has the name that was asked for
(`Scopes.name_answer`).
-/

namespace BlockLang

open List

/-! ## Names -/

/-- The name of a hidden variable. -/
def hiddenName (hint : String) (i : Nat) : String := s!"%{hint}_{i}"

theorem toList_hiddenName (hint : String) (i : Nat) :
    (hiddenName hint i).toList = '%' :: hint.toList ++ '_' :: Nat.toDigits 10 i := by
  show ("%" ++ hint ++ "_" ++ toString i).toList = _
  simp [String.toList_append, Nat.toString_eq_repr, Nat.toList_repr]

theorem underscore_not_mem_toDigits (i : Nat) : '_' ∉ Nat.toDigits 10 i := by
  intro hmem
  have hdigit := Nat.isDigit_of_mem_toDigits (by decide) (by decide) hmem
  exact absurd hdigit (by decide)

/-- The last underscore of a name is where the number starts. -/
theorem hiddenName_inj (h : hiddenName hint i = hiddenName hint' j) : hint = hint' ∧ i = j := by
  have hlast : ∀ {front digits front' digits' : List Char}, '_' ∉ digits →
      front ++ '_' :: digits = front' ++ '_' :: digits' → ∀ more, front' = front ++ more →
      more = [] := by
    rintro front digits front' digits' hdigits heq more rfl
    rw [append_assoc, append_cancel_left_eq] at heq
    cases more with
    | nil => rfl
    | cons c more =>
      injection heq with _ heq
      rw [heq] at hdigits
      exact absurd (mem_append_right more mem_cons_self) hdigits
  have hlists := congrArg String.toList h
  rw [toList_hiddenName, toList_hiddenName] at hlists
  have hfront : '%' :: hint.toList = '%' :: hint'.toList := by
    rcases append_eq_append_iff.mp hlists with ⟨more, hmore, _⟩ | ⟨more, hmore, _⟩
    · rw [hmore, hlast (underscore_not_mem_toDigits i) hlists more hmore, append_nil]
    · rw [hmore, hlast (underscore_not_mem_toDigits j) hlists.symm more hmore, append_nil]
  rw [hfront, append_cancel_left_eq] at hlists
  injection hlists with _ hdigits
  injection hfront with _ hhint
  refine ⟨String.toList_inj.mp hhint, ?_⟩
  have hread := congrArg (fun digits => Nat.ofDigitChars 10 digits 0) hdigits
  simpa using hread

theorem isHidden_hiddenName (hint : String) (i : Nat) : isHidden (hiddenName hint i) = true :=
  Scopes.isHidden_temp hint i

/-! ## Numbers -/

namespace Scopes

@[simp] theorem nextTemp_declare (s : Scopes) (home : ScopeId) (name : String) :
    (s.declare home name).2.nextTemp = s.nextTemp := by
  rcases declare_snd s home name with heq | heq <;> rw [heq]
  rfl

@[simp] theorem nextTemp_declareAll (k : ScopeId) : ∀ (names : List String) (s : Scopes),
    (s.declareAll k names).nextTemp = s.nextTemp
  | [], _ => rfl
  | name :: rest, s => (nextTemp_declareAll k rest _).trans (nextTemp_declare s k name)

@[simp] theorem nextTemp_addTemp (s : Scopes) (k : ScopeId) (hint : String) :
    (s.addTemp k hint).2.nextTemp = s.nextTemp + 1 :=
  nextTemp_declare { s with nextTemp := s.nextTemp + 1 } k _

@[simp] theorem nextTemp_markCaptured : ∀ (ids : List ScopeId) (s : Scopes),
    (s.markCaptured ids).nextTemp = s.nextTemp
  | [], _ => rfl
  | _ :: rest, _ => nextTemp_markCaptured rest _

theorem nextTemp_answer (s : Scopes) (k : ScopeId) (r : Request) :
    s.nextTemp ≤ (s.answer k r).2.nextTemp := by
  refine answer_keeps (P := fun t => s.nextTemp ≤ t.nextTemp) ?_ ?_ ?_ (Nat.le_refl _) k r
  · intro t home name h
    rwa [nextTemp_declare]
  · intro t ids h
    rwa [nextTemp_markCaptured]
  · exact fun t h => Nat.le_succ_of_le h

/-! ## The names of references -/

/-- The name that a request is for. -/
def requested (s : Scopes) : Request → String
  | .known name | .assigned name | .own name => name
  | .frameGlobal name => frameGlobalSlot name
  | .temp hint => hiddenName hint s.nextTemp

theorem name_resolveOr (s : Scopes) (k home : ScopeId) (kind : LocalKind) (name : String) :
    (s.resolveOr k home kind name).1.name = name := by
  unfold resolveOr
  split
  · rfl
  · simp only
    split <;> rfl

theorem name_answer {s : Scopes} (h : (s.answer k r).1 = some l) : l.name = s.requested r := by
  cases r with
  | known name =>
    have hfound : (s.resolve k name).1 = some l := h
    unfold resolve at hfound
    cases hl : s.lookup k name with
    | none => simp [hl] at hfound
    | some r =>
      simp only [hl, Option.some.injEq] at hfound
      exact hfound ▸ rfl
  | assigned name =>
    cases h
    show (s.resolveForAssignment k name).1.name = name
    unfold resolveForAssignment
    exact name_resolveOr _ _ _ _ name
  | frameGlobal name =>
    cases h
    exact name_resolveOr _ _ _ _ _
  | own name | temp hint =>
    cases h
    rfl

theorem level_answer {s : Scopes} (hl : (s.answer k r).1 = some l)
    (hasked : ∀ name, r = .known name ∨ r = .assigned name → isHidden name = false)
    (hhidden : isHidden l.name = true) : l.level = 0 := by
  rw [name_answer hl] at hhidden
  cases r with
  | known name | assigned name => exact absurd hhidden (by simp [requested, hasked name])
  | frameGlobal name => exact absurd hhidden (by simp [requested, isHidden_frameGlobalSlot])
  | own name | temp hint =>
    cases hl
    rfl

end Scopes

end BlockLang
