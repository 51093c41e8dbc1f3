import BlockLang.Proofs.Lowering.Reports

/-!
# The options only filter

The two checks of `LowerOptions` are there to refuse programs. A check that is off does change what
lowering does: a name that is not known gets a slot, where it would have been reported. So with
fewer checks the states of lowering may be others, and nothing can be said about a program in which
there are mistakes.

As long as nothing is reported no check has failed, and then the two runs go through the same states
(`Lower.Follows.relaxed`). The induction is over runs that end with the reports they began with.
Since reports are never taken back, no part of such a run has reported anything either.
-/

namespace BlockLang

namespace Lower

variable {α : Type}

variable {m : Lower α} {c : Context} {s s' : LoweringState} {a : α}

/-- Reports are never taken back. -/
theorem Follows.mistakes_extend (h : Follows m vs) (hrun : m c s = .ok a s') :
    s.mistakes <+: s'.mistakes := by
  have htells := h.tells c s
  rw [hrun] at htells
  obtain ⟨new, hnew, _⟩ := htells
  exact ⟨new, hnew.symm⟩

theorem Tests.relaxed {o : LowerOptions} (h : Tests m spans) (hrun : m c s = .ok a s')
    (ho : o.Relaxes c.options) : m { c with options := o } s = .ok a s' := by
  rcases h c s with ⟨b, scopes, hok⟩ | ⟨mistake, span, _, scopes, herror⟩
  · have hrun' : m c s = _ := hok c.options (.refl _)
    rw [hok o ho, ← hrun', hrun]
  · rw [herror] at hrun
    exact nomatch hrun

theorem Tests.mistakes_eq (h : Tests m spans) (hrun : m c s = .ok a s') :
    s'.mistakes = s.mistakes := by
  rcases h c s with ⟨b, scopes, hok⟩ | ⟨mistake, span, _, scopes, herror⟩
  · have hrun' : m c s = _ := hok c.options (.refl _)
    rw [hrun] at hrun'
    cases hrun'
    rfl
  · rw [herror] at hrun
    exact nomatch hrun

theorem mistakes_between {s₁ : LoweringState} (hfirst : s.mistakes <+: s₁.mistakes)
    (hrest : s₁.mistakes <+: s'.mistakes) (hsame : s'.mistakes = s.mistakes) :
    s₁.mistakes = s.mistakes ∧ s'.mistakes = s₁.mistakes := by
  rw [hsame] at hrest
  have heq : s.mistakes = s₁.mistakes := hfirst.eq_of_length_le hrest.length_le
  exact ⟨heq.symm, hsame.trans heq⟩

/-- **A run that reports nothing is the same run with fewer checks.** -/
theorem Follows.relaxed (h : Follows m vs) :
    ∀ {c : Context} {s s' : LoweringState} {a : α} {o : LowerOptions}, m c s = .ok a s' →
      s'.mistakes = s.mistakes → o.Relaxes c.options → m { c with options := o } s = .ok a s' := by
  induction h with
  | test hm _ => exact fun hrun _ ho => hm.relaxed hrun ho
  | after hm _ _ ih =>
    intro c s s' b o hrun hsame ho
    obtain ⟨a, s₁, hfirst, hrest⟩ := ok_of_bind hrun
    have hsame₁ := hm.mistakes_eq hfirst
    refine (run_bind (hm.relaxed hfirst ho)).trans ?_
    exact ih a hrest (hsame.trans hsame₁.symm) ho
  | bind hm hf ihm ihf =>
    intro c s s' b o hrun hsame ho
    obtain ⟨a, s₁, hfirst, hrest⟩ := ok_of_bind hrun
    obtain ⟨hsame₁, hsame₂⟩ :=
      mistakes_between (hm.mistakes_extend hfirst) ((hf a).mistakes_extend hrest) hsame
    exact (run_bind (ihm hfirst hsame₁ ho)).trans (ihf a hrest hsame₂ ho)
  | recover fallback hm ih =>
    rename_i m vs
    intro c s s' a o hrun hsame ho
    have htells := hm.tells c s
    rw [recover_run] at hrun ⊢
    cases hs : m c s with
    | ok b s₁ =>
      rw [hs] at hrun
      cases hrun
      rw [ih hs hsame ho]
    | error d s₁ =>
      -- giving up is reported, and reports stay
      rw [hs] at hrun htells
      obtain ⟨new, hnew, _⟩ := htells
      cases hrun
      have hlonger : (s₁.mistakes ++ [d]).length = s.mistakes.length := congrArg List.length hsame
      rw [hnew] at hlonger
      simp at hlonger
  | ask _ hsame' ih =>
    rename_i f vs _
    intro c s s' a o hrun hsame ho
    show f { c with options := o } { c with options := o } s = _
    rw [hsame']
    exact ih c hrun hsame ho
  | inContext hf _ ih =>
    rename_i m change vs _
    intro c s s' a o hrun hsame ho
    have hoptions : (change.make c).options = c.options := by
      rw [show change.make c = _ from hf c c.options]
    rw [during_run] at hrun ⊢
    rw [hf]
    exact ih hrun hsame (hoptions.symm ▸ ho)
  | loop hc hb ihc ihb =>
    rename_i condition body f vs ws
    intro c s s' a o hrun hsame ho
    unfold inLoop at hrun ⊢
    rw [reading_run] at hrun ⊢
    dsimp only at hrun ⊢
    cases hs : condition { c with inLoop := true } (s.enterLoop c.scope) with
    | error d s₁ =>
      rw [hs] at hrun
      dsimp only at hrun
      cases hs' : body { c with inLoop := true } s₁ with
      | _ =>
        rw [hs'] at hrun
        exact nomatch hrun
    | ok code s₁ =>
      rw [hs] at hrun
      dsimp only at hrun
      cases hs' : body { c with inLoop := true } s₁ with
      | error d s₂ =>
        rw [hs'] at hrun
        exact nomatch hrun
      | ok codes s₂ =>
        rw [hs'] at hrun
        cases hrun
        obtain ⟨hsame₁, hsame₂⟩ :=
          mistakes_between (hc.mistakes_extend hs) (hb.mistakes_extend hs') hsame
        rw [show condition _ _ = _ from ihc hs hsame₁ ho]
        dsimp only
        rw [show body _ _ = _ from ihb hs' hsame₂ ho]
  | built kind arity span name inner f hname hinner _ ih =>
    rename_i code vs _
    intro c s s' a o hrun hsame ho
    unfold inBody at hrun ⊢
    rw [reading_run] at hrun ⊢
    dsimp only at hrun ⊢
    have hoptions : (inner (s.scopes.openScope c.scope kind).1 c).options = c.options := by
      rw [show inner _ c = _ from hinner _ c c.options]
    cases hs : code (inner (s.scopes.openScope c.scope kind).1 c) (s.enter c.scope kind) with
    | error d s₁ =>
      rw [hs] at hrun
      exact nomatch hrun
    | ok result s₁ =>
      rw [hs] at hrun
      cases hrun
      rw [hinner, hname, ih hs hsame (hoptions.symm ▸ ho)]
  | cover _ _ ih => exact ih

end Lower

/-! ## Programs -/

namespace Program

variable {p : Program} {o o' : LowerOptions} {u : CodeUnit}

/-- **The options only filter.** A program that is accepted is accepted with either check off, and
for any file, and nothing of what is made of it changes. -/
theorem lower_relaxed (h : p.lower o = .ok u) (hchecks : o'.Relaxes o) : p.lower o' = .ok u := by
  obtain ⟨hclean, rfl⟩ := lower_ok_iff.mp h
  obtain ⟨codes, s, hcodes, heq⟩ := p.lowering_eq o
  obtain ⟨codes', s', hcodes', heq'⟩ := p.lowering_eq o'
  have hstate : s.mistakes = [] := by rwa [heq] at hclean
  have hsame : Lower.statements p.body (context o') (({} : LoweringState).enter 0 .topLevel) =
      .ok codes s := (Lower.Minds.statements p.body).follows.relaxed hcodes hstate hchecks
  rw [hsame] at hcodes'
  cases hcodes'
  have hlowering : p.lowering o' = p.lowering o := heq'.trans heq.symm
  exact lower_ok_iff.mpr ⟨hlowering ▸ hclean, by rw [hlowering]⟩

/-- `def m(a, b = a) b end; x = m(1); x`, which both checks look at. -/
def earlierDefault : Program where
  body := [
    Build.define "m" ((Params.empty.require "a").withOptional "b" (Build.localVar "a"))
      [Build.localVar "b"],
    Build.assign "x" (Build.selfCall "m" [Build.integer 1]),
    Build.localVar "x"]

/-- `earlierDefault` passes both checks, and it is made the same of without them. -/
theorem earlierDefault_relaxed : ∃ u : CodeUnit, earlierDefault.lower {} = .ok u ∧
    LowerOptions.Relaxes { file := 7, rejectForwardReferences := false, strictLocals := false } {} ∧
    earlierDefault.lower { file := 7, rejectForwardReferences := false, strictLocals := false } =
      .ok u := by
  have hlower : earlierDefault.lower {} = .ok (earlierDefault.lowering {}).unit :=
    lower_of_isEmpty (by decide +kernel)
  exact ⟨_, hlower, ⟨nofun, nofun⟩, lower_relaxed hlower ⟨nofun, nofun⟩⟩

end Program

end BlockLang
