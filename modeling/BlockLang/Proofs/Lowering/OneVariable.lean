import BlockLang.Proofs.Lowering.Passage

/-!
# One name, one variable

In one body a name stands for one variable. Lowering asks for it again at every mention, and in
between scopes are opened, names are declared and bodies are finished; but none of that changes the
answer (`Body.Origin.finds`). Hidden variables are referred to in their own scope only, if the program
has no names like theirs.
-/

namespace BlockLang

/-- References to the same name are references to the same variable. -/
def Code.NamesAgree (c : Code) : Prop :=
  ∀ l l', c.Refers l → c.Refers l' → l.name = l'.name → l.level = l'.level ∧ l.slot = l'.slot

theorem Body.Origin.level_hidden {body : Body} (h : body.Origin ρ outer t t' names)
    (hnames : ∀ n, ρ.name n → isHidden n = false) :
    body.code.Uses (fun l => isHidden l.name = true → l.level = 0)
      fun l => isHidden l.name = true → l.level = 0 := by
  suffices hanswers : ∀ l, Answered ρ t.nextBody names (t.opened outer body.kind names) t' l →
      isHidden l.name = true → l.level = 0 from
    h.emits.uses (fun _ hl _ => hl) (by simp) hanswers (by simp [Supply.Uses])
      (.code body.code) List.mem_cons_self
  rintro l ⟨t, r, _, hr, hl, _⟩
  refine Scopes.level_answer hl fun name hname => ?_
  rcases hname with rfl | rfl
  · exact hnames name hr
  · exact hnames name hr

namespace Program

theorem namesAgree_of_lower {p : Program} {options : LowerOptions} {u : CodeUnit} (hp : p.Plain)
    (h : p.lower options = .ok u) {b : BodyId} {body : Body} (hb : u.body? b = some body) :
    body.code.NamesAgree := by
  obtain ⟨outer, t, t', names, horigin⟩ := made_of_lower h hb
  have hhidden := horigin.level_hidden hp.policy
  intro l l' hl hl' hname
  exact (horigin.finds.refers hl).unique (horigin.finds.refers hl') (hhidden.refers hl)
    (hhidden.refers hl') hname

/-- **One name denotes one variable per body**: two nodes of a body that read or write the same name
agree in the level and in the slot. -/
theorem lower_oneVariable {p : Program} {options : LowerOptions} {u : CodeUnit} (hp : p.Plain)
    (h : p.lower options = .ok u) {b : BodyId} {body : Body} (hb : u.body? b = some body)
    {l l' : Local} (hl : body.code.Refers l) (hl' : body.code.Refers l')
    (hname : l.name = l'.name) : l.level = l'.level ∧ l.slot = l'.slot :=
  namesAgree_of_lower hp h hb l l' hl hl' hname

/-- `x = 1; -> { x = 2; -> { x = 3 }; x }`: between the two mentions of `x` in the outer lambda a
scope is opened and another mention of `x` is lowered. -/
def assignedInside : Program where
  body := [Build.assign "x" (Build.integer 1),
    Build.lambda Params.empty [Build.assign "x" (Build.integer 2),
      Build.lambda Params.empty [Build.assign "x" (Build.integer 3)], Build.localVar "x"]]

/-- All mentions of `x` in the outer lambda of `assignedInside` are the variable one body outward,
the one before the inner lambda and the one after it. -/
theorem assignedInside_oneVariable :
    ∃ u body, assignedInside.lower {} = .ok u ∧ u.body? 1 = some body ∧
      (∃ value, .writeLocal { level := 1, slot := 0, name := "x" } value ∈ body.code.preorder) ∧
      ∀ l, .readLocal l ∈ body.code.preorder → l.name = "x" → l.level = 1 ∧ l.slot = 0 := by
  have hplain : assignedInside.Plain := plain_of_isPlainTo 4 (by decide +kernel)
  obtain ⟨hlower, body, hbody, hwrite⟩ := assignedInside.lower_body 1 (·.code.preorder.any fun
    | .writeLocal l _ => l == { level := 1, slot := 0, name := "x" }
    | _ => false) (by decide +kernel)
  obtain ⟨part, hpart, hwrite⟩ := List.any_eq_true.mp hwrite
  cases part with
  | writeLocal l value =>
    cases eq_of_beq hwrite
    refine ⟨_, body, hlower, hbody, ⟨value, hpart⟩, fun l hl hname => ?_⟩
    exact lower_oneVariable hplain hlower hbody (Or.inl hl) (Or.inr ⟨value, hpart⟩) hname
  | _ => exact absurd hwrite (by simp)

end Program

end BlockLang
