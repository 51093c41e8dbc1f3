import BlockLang.Proofs.Lowering.Lexical

/-!
# Lowered programs are well scoped

The scopes are gone when a program has been lowered. What is left of them is in the unit: where a
body stands can be read off the closures that its code creates, because the scope of a body has the
body's number, and a closure is created by the body around it and by no other. So the ancestry of a
scope and the bodies outward from a body are one and the same list
(`LoweringState.Complete.ancestor?_eq`), and everything that was known of the scopes is now known of the
unit: **a unit that lowering accepts is well scoped** (`Program.lower_wellScoped`).
-/

namespace BlockLang

open List Scopes

/-! ## The state that a program leaves -/

theorem LoweringState.sound_empty : ({} : LoweringState).Sound :=
  ⟨fun k scope p h _ => by simp [Scopes.get?] at h, rfl, Nat.le_refl _⟩

namespace Program

/-- The context of the statements of a program. -/
def context (options : LowerOptions) : Context :=
  { options, scope := 0, kind := .topLevel, scopeName := mainName }

theorem lowering_eq (p : Program) (options : LowerOptions) :
    ∃ codes s, Lower.statements p.body (context options) (({} : LoweringState).enter 0 .topLevel) =
        .ok codes s ∧
      p.lowering options = s.finish (s.bodyOf 0 mainName .topLevel 0 {} p.span (.join codes)) := by
  obtain ⟨codes, s, hcodes⟩ := Lower.statements_total p.body (context options)
    (({} : LoweringState).enter 0 .topLevel)
  refine ⟨codes, s, hcodes, ?_⟩
  have hrun : (Lower.program p).run (context options)
      { scopes := (({} : Scopes).addRoot .topLevel).2 } =
      .ok () (s.finish (s.bodyOf 0 mainName .topLevel 0 {} p.span (.join codes))) := by
    have hcode : (Code.join <$> Lower.statements p.body) (context options)
        (({} : LoweringState).enter (context options).scope .topLevel) = .ok (.join codes) s := by
      exact (Lower.run_bind (f := fun codes => pure (Code.join codes)) hcodes).trans rfl
    refine (Lower.addBody_run (s := {}) _ {} p.span (fun _ => mainName) (fun _ c => c)
      (fun _ _ => ()) rfl).trans ?_
    unfold Lower.inBody
    rw [Lower.reading_run]
    dsimp only
    rw [hcode]
    rfl
  unfold lowering
  dsimp only
  split
  case h_1 left hleft =>
    cases hrun.symm.trans hleft
    rfl
  case h_2 hleft => cases hrun.symm.trans hleft

theorem lowers (p : Program) (options : LowerOptions) :
    ∃ c s ms code, c.scope = 0 ∧ c.method = none ∧
      Lowers c (({} : LoweringState).enter 0 .topLevel) (some ms) s ∧ Assembled ms code ∧
      p.lowering options = s.finish (s.bodyOf 0 mainName .topLevel 0 {} p.span code) := by
  obtain ⟨codes, s, hcodes, heq⟩ := p.lowering_eq options
  have hmeets := (Lower.Meets.statements p.body (context options)).noArguments
    (({} : LoweringState).enter 0 .topLevel)
  rw [hcodes] at hmeets
  obtain ⟨ms, hlowers, hmade, hnone⟩ := hmeets
  exact ⟨context options, s, ms, .join codes, rfl, rfl, hlowers, .unguarded hmade.join hnone, heq⟩

end Program

/-- A state in which every body is finished. -/
structure LoweringState.Complete (s : LoweringState) : Prop where
  sound : s.Sound
  main : s.unit.main = 0
  mainKind : ∃ scope, s.scopes.get? 0 = some scope ∧ scope.kind = .topLevel
  finished : ∀ b < s.nextBody, ∃ body scope, s.Finished b body scope
  linked : ∀ (b : Nat) (scope : Scope) (p : Nat), s.scopes.get? b = some scope →
    scope.parent = some p →
      ∃ outer, s.unit.body? p = some outer ∧ .body scope.kind b ∈ outer.code.mentions

theorem Program.complete {p : Program} (h : (p.lowering options).mistakes = []) :
    (p.lowering options).Complete := by
  obtain ⟨c, s, ms, code, hscope, hmethod, hlowers, hcode, heq⟩ := p.lowers options
  have hs := LoweringState.sound_empty
  have hk : BodyKind.isClosure .topLevel = true → 0 < ({} : LoweringState).nextBody := by
    intro h
    simp [BodyKind.isClosure] at h
  have hin : (({} : LoweringState).enter 0 .topLevel).Sound := LoweringState.sound_enter hs hk
  have hmistakes : s.mistakes = [] := by
    rw [heq] at h
    exact h
  have ha : (({} : LoweringState).enter 0 .topLevel).Advances
      ((({} : LoweringState).enter 0 .topLevel).scopes.ancestry 0) s :=
    hscope ▸ hlowers.advances hin (hscope ▸ Nat.lt_succ_self 0)
  have hlowered : Lowered 0 (({} : LoweringState).enter 0 .topLevel) ms s :=
    hscope ▸ hlowers.lowered hin (hscope ▸ Nat.lt_succ_self 0) (by simp [hmethod]) hmistakes ms rfl
  have hall := Lowered.body mainName {} p.span hs hk ha hlowered hcode
  have hadvances : ({} : LoweringState).Advances _
      (s.finish (s.bodyOf 0 mainName .topLevel 0 {} p.span code)) :=
    (ha.fromEnter hs hk).finish rfl (Nat.le_refl _) (ha.nextBody_le hin)
  have hmain : Mention.ValidIn _ 0 (.body .topLevel 0) := hall.valid _ (mem_singleton_self _)
  obtain ⟨scope₀, hget₀, hkind₀, hparent₀⟩ := hmain
  rw [← heq] at hall hadvances hget₀
  refine ⟨hadvances.sound, hadvances.main, ⟨scope₀, hget₀, hkind₀⟩,
    fun b hb => hall.finished b (Nat.zero_le b) hb, fun b scope p hget hp => ?_⟩
  rcases hall.linked b scope p (Nat.zero_le b) hget hp with ⟨_, hm⟩ | ⟨_, houter⟩
  · -- the program itself has no parent
    have hb : b = 0 := (Mention.body.inj (mem_singleton.mp hm)).2
    rw [hb, hget₀, Option.some.injEq] at hget
    rw [← hget, hparent₀] at hp
    simp [BodyKind.isClosure] at hp
  · exact houter

/-! ## From scopes to bodies -/

namespace LoweringState.Complete

variable {s : LoweringState}

theorem exists_finished (h : s.Complete) (hget : s.scopes.get? b = some scope) :
    ∃ body, s.Finished b body scope := by
  obtain ⟨body, own, hf⟩ := h.finished b (h.sound.size ▸ lt_size_of_get? hget)
  rw [hf.scope, Option.some.injEq] at hget
  exact ⟨body, hget ▸ hf⟩

theorem finished_of_body? (h : s.Complete) (hbody : s.unit.body? b = some body) :
    ∃ scope, s.Finished b body scope := by
  obtain ⟨hlt, _⟩ := Array.getElem?_eq_some_iff.mp hbody
  obtain ⟨body', scope, hf⟩ := h.finished b (Nat.lt_of_lt_of_le hlt h.sound.places)
  rw [hf.here, Option.some.injEq] at hbody
  exact ⟨scope, hbody ▸ hf⟩

theorem parent_of_creates (h : s.Complete) (hc : (s.unit.body? p).any (·.code.creates b) = true) :
    ∃ scope, s.scopes.get? b = some scope ∧ scope.kind.isClosure = true ∧ scope.parent = some p := by
  cases hbody : s.unit.body? p with
  | none => simp [hbody] at hc
  | some outer =>
    rw [hbody, Option.any_some] at hc
    obtain ⟨kind, hkind, hm⟩ := Code.creates_iff.mp hc
    obtain ⟨_, hf⟩ := h.finished_of_body? hbody
    obtain ⟨scope, hget, rfl, hparent⟩ := hf.valid _ hm
    exact ⟨scope, hget, hkind, by rw [hparent, if_pos hkind]⟩

/-- The lexical parent of a body is the body of the scope around its scope. -/
theorem parent?_eq (h : s.Complete) (hget : s.scopes.get? b = some scope) :
    s.unit.parent? b = scope.parent := by
  have hunique : ∀ p, (s.unit.body? p).any (·.code.creates b) = true → scope.parent = some p := by
    intro p hc
    obtain ⟨scope', hget', _, hparent⟩ := h.parent_of_creates hc
    rw [hget, Option.some.injEq] at hget'
    exact hget' ▸ hparent
  cases hfind : s.unit.parent? b with
  | some p => exact (hunique p (CodeUnit.creates_of_parent? hfind)).symm
  | none =>
    cases hp : scope.parent with
    | none => rfl
    | some p =>
      obtain ⟨outer, houter, hm⟩ := h.linked b scope p hget hp
      obtain ⟨_, hf⟩ := h.finished_of_body? houter
      obtain ⟨scope', hget', hkind, hparent⟩ := hf.valid _ hm
      -- a body with a parent is that of a closure, so the parent's code creates it
      have hclosure : scope.kind.isClosure = true := by
        rw [hget, Option.some.injEq] at hget'
        rw [← hget', hp] at hparent
        split at hparent
        · assumption
        · simp at hparent
      obtain ⟨hlt, _⟩ := Array.getElem?_eq_some_iff.mp houter
      have hnot := List.find?_eq_none.mp hfind p (mem_range.mpr hlt)
      rw [houter, Option.any_some] at hnot
      exact absurd (Code.creates_iff.mpr ⟨scope.kind, hclosure, hm⟩) hnot

theorem ancestor?_eq (h : s.Complete) (n : Nat) :
    ∀ {b : Nat}, b < s.nextBody → s.unit.ancestor? n b = (s.scopes.ancestry b)[n]? := by
  induction n with
  | zero =>
    intro b hb
    rw [ancestry_zero h.sound.wellFormed (h.sound.size ▸ hb)]
    rfl
  | succ n ih =>
    intro b hb
    obtain ⟨scope, hget⟩ := exists_get? (h.sound.size ▸ hb)
    rw [CodeUnit.ancestor?, h.parent?_eq hget]
    cases hp : scope.parent with
    | none =>
      rw [ancestry_of_root h.sound.wellFormed hget hp]
      rfl
    | some p =>
      have hlt := h.sound.wellFormed b scope p hget hp
      rw [ancestry_of_parent h.sound.wellFormed hget hp]
      exact ih (Nat.lt_trans hlt hb)

theorem finished_of_mem_ancestry (h : s.Complete) (ha : a ∈ s.scopes.ancestry b) :
    ∃ body scope, s.Finished a body scope :=
  h.finished a (h.sound.size ▸ (mem_ancestry h.sound.wellFormed ha).2)

theorem wellScoped (h : s.Complete) : s.unit.WellScoped where
  first := h.main
  main := by
    obtain ⟨scope, hget, hkind⟩ := h.mainKind
    obtain ⟨body, hf⟩ := h.exists_finished hget
    exact ⟨body, h.main ▸ hf.here, hf.kind.trans hkind⟩
  id hbody := by
    obtain ⟨scope, hf⟩ := h.finished_of_body? hbody
    exact hf.id
  body houter hm := by
    obtain ⟨_, hf⟩ := h.finished_of_body? houter
    obtain ⟨scope, hget, hkind, _⟩ := hf.valid _ hm
    obtain ⟨body, hf'⟩ := h.exists_finished hget
    exact ⟨body, hf'.here, hf'.kind.trans hkind⟩
  parent houter hm hclosure := by
    obtain ⟨_, hf⟩ := h.finished_of_body? houter
    obtain ⟨scope, hget, _, hparent⟩ := hf.valid _ hm
    rw [h.parent?_eq hget, hparent, if_pos hclosure]
  root hbody hp := by
    obtain ⟨scope, hf⟩ := h.finished_of_body? hbody
    obtain ⟨scope', hget', hclosure, _⟩ := h.parent_of_creates (CodeUnit.creates_of_parent? hp)
    rw [hf.scope, Option.some.injEq] at hget'
    rw [hf.kind, hget']
    exact hclosure
  slot hbody hm := by
    obtain ⟨_, hf⟩ := h.finished_of_body? hbody
    obtain ⟨⟨a, scope, ha, hget, hslot⟩, _⟩ := hf.valid _ hm
    obtain ⟨owner, hf'⟩ := h.exists_finished hget
    refine ⟨a, owner, ?_, hf'.here, hf'.slots ▸ hslot⟩
    rw [h.ancestor?_eq _ (h.sound.size ▸ lt_size_of_get? hf.scope)]
    exact ha
  link hbody hm d hd := by
    obtain ⟨_, hf⟩ := h.finished_of_body? hbody
    obtain ⟨⟨a, _, ha, _, _⟩, hcaptured⟩ := hf.valid _ hm
    have hlt := (List.getElem?_eq_some_iff.mp ha).1
    obtain ⟨a', ha'⟩ : ∃ a', (s.scopes.ancestry _)[d]? = some a' :=
      ⟨_, List.getElem?_eq_getElem (Nat.lt_trans hd hlt)⟩
    obtain ⟨between, scope, hf'⟩ := h.finished_of_mem_ancestry (mem_of_getElem? ha')
    refine ⟨a', between, ?_, hf'.here, ?_⟩
    · rw [h.ancestor?_eq _ (h.sound.size ▸ lt_size_of_get? hf.scope)]
      exact ha'
    · have hc := hcaptured d a' hd ha'
      simpa [Scopes.capturedAt, hf'.scope, hf'.captured] using hc
  super hbody hm := by
    obtain ⟨_, hf⟩ := h.finished_of_body? hbody
    obtain ⟨a, scope, hlast, hget, hkind⟩ := hf.valid _ hm
    obtain ⟨body, hf'⟩ := h.exists_finished hget
    obtain ⟨n, hn⟩ := mem_iff_getElem?.mp (mem_of_getLast? hlast)
    refine ⟨n, a, body, ?_, hf'.here, hf'.kind.trans hkind⟩
    rw [h.ancestor?_eq _ (h.sound.size ▸ lt_size_of_get? hf.scope)]
    exact hn
  guarded hbody := by
    obtain ⟨_, hf⟩ := h.finished_of_body? hbody
    exact hf.guarded
  needed hbody hc := by
    obtain ⟨_, hf⟩ := h.finished_of_body? hbody
    exact hf.needed hc

end LoweringState.Complete

/-- **A unit that lowering accepts is well scoped.** -/
theorem Program.lower_wellScoped {p : Program} (h : p.lower options = .ok u) : u.WellScoped := by
  unfold Program.lower at h
  simp only at h
  split at h
  · rename_i hmistakes
    cases h
    exact (Program.complete (List.isEmpty_iff.mp hmistakes)).wellScoped
  · simp at h

end BlockLang
