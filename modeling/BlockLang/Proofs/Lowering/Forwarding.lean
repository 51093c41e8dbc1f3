import BlockLang.Proofs.Lowering.Passage

/-!
# What a bare `super` passes on

A bare `super` is lowered to reads of the parameters of the method around it, and these are looked
up by their names from where the `super` stands (`Lower.bareSuper_reads`). A look-up ends at the
first scope that has the name. So **a read is of the nearest body that has a slot of its name**
(`Program.nearest_of_lower`), which is the body of the method only if no closure in between has one.
-/

namespace BlockLang

open List Code Lower

/-! ## Look-ups -/

namespace Scopes

/-- Scopes in which every look-up gives the same. -/
structure Agrees (s s' : Scopes) : Prop where
  wellFormed : s'.WellFormed
  lookup : ∀ k name, s'.lookup k name = s.lookup k name

theorem Agrees.trans {s₁ : Scopes} (h₁ : s₁.Agrees s₂) (h₂ : s₂.Agrees s₃) : s₁.Agrees s₃ :=
  ⟨h₂.wellFormed, fun k name => (h₂.lookup k name).trans (h₁.lookup k name)⟩

theorem agrees_resolve {s : Scopes} (hw : s.WellFormed) (k : ScopeId) (name : String) :
    s.Agrees (s.resolve k name).2 := by
  unfold resolve
  cases s.lookup k name with
  | none => exact ⟨hw, fun _ _ => rfl⟩
  | some r =>
    have hview := view_markCaptured s ((s.ancestry k).take r.level)
    have hw' := wellFormed_of_view hw hview
    exact ⟨hw', fun k name => lookup_congr hw hw' name fun i _ => hview i⟩

theorem Agrees.resolve {s s' : Scopes} (h : s.Agrees s') (k : ScopeId) (name : String) :
    (s'.resolve k name).1 = (s.resolve k name).1 := by
  unfold Scopes.resolve
  rw [h.lookup]
  cases s.lookup k name <;> rfl

end Scopes

/-! ## The code of a bare `super` -/

namespace Lower

variable {c : Context} {s s' : LoweringState} {span : Span}

theorem replayRead_ok (hw : s.scopes.WellFormed)
    (h : replayRead span name c s = .ok code s') :
    ∃ l, code = .readLocal l ∧ some l = (s.scopes.resolve c.scope name).1 ∧
      s.scopes.Agrees s'.scopes := by
  obtain ⟨found, t, hfound, h⟩ := ok_of_bind h
  have hresolve : resolve? name c s = .ok (s.scopes.resolve c.scope name).1
      { s with scopes := (s.scopes.resolve c.scope name).2 } := rfl
  obtain ⟨rfl, rfl⟩ := EStateM.Result.ok.inj (hresolve.symm.trans hfound)
  have hagrees := Scopes.agrees_resolve hw c.scope name
  cases hl : (s.scopes.resolve c.scope name).1 with
  | none =>
    rw [hl] at h
    cases h
  | some l =>
    rw [hl] at h
    cases h
    exact ⟨l, rfl, rfl, hagrees⟩

theorem mapM_replayRead {α : Type} {m : α → Lower Code} (name : α → String) (wrap : Code → Code)
    (hm : ∀ a, m a = wrap <$> replayRead span (name a)) : ∀ {as : List α} {codes : List Code}
    {s : LoweringState}, s.scopes.WellFormed → as.mapM m c s = .ok codes s' →
    ∃ ls : List Local, codes = ls.map (fun l => wrap (.readLocal l)) ∧
      ls.map some = as.map (fun a => (s.scopes.resolve c.scope (name a)).1) ∧
      s.scopes.Agrees s'.scopes
  | [], _, s, hw, h => by
    rw [mapM_nil] at h
    cases h
    exact ⟨[], rfl, rfl, hw, fun _ _ => rfl⟩
  | a :: as, codes, s, hw, h => by
    rw [mapM_cons] at h
    obtain ⟨code, t, hcode, h⟩ := ok_of_bind h
    obtain ⟨more, t', hmore, h⟩ := ok_of_bind h
    obtain ⟨rfl, ht⟩ : code :: more = codes ∧ t' = s' := EStateM.Result.ok.inj h
    subst t'
    rw [hm, map_eq_pure_bind] at hcode
    obtain ⟨read, t, hread, hcode⟩ := ok_of_bind hcode
    cases hcode
    obtain ⟨l, rfl, hl, hagrees⟩ := replayRead_ok hw hread
    obtain ⟨ls, rfl, hls, hmore⟩ := mapM_replayRead name wrap hm hagrees.wellFormed hmore
    refine ⟨l :: ls, rfl, ?_, hagrees.trans hmore⟩
    simp only [map_cons, hl, hls, hagrees.resolve]

theorem requireMethod_eq (h : c.method = some params) :
    requireMethod mistake span c s = .ok params s := by
  obtain ⟨_, _, _, _, _, _, _⟩ := c
  cases h
  rfl

theorem replay_reads (hw : s.scopes.WellFormed) (h : replay params span c s = .ok codes s') :
    ∃ front rest : List Local,
      codes = front.map .readLocal ++ rest.map (fun l => .splat (.readLocal l)) ∧
      rest.length = params.rest.toList.length ∧
      (front ++ rest).map some =
        params.replayNames.map fun name => (s.scopes.resolve c.scope name).1 := by
  unfold replay at h
  cases hobstacle : replayObstacle? params with
  | some what =>
    rw [hobstacle] at h
    obtain ⟨_, _, hfail, _⟩ := ok_of_bind h
    cases hfail
  | none =>
    rw [hobstacle] at h
    obtain ⟨_, _, hfront, h⟩ := ok_of_bind h
    obtain ⟨_, _, hrest, h⟩ := ok_of_bind h
    cases h
    obtain ⟨front, rfl, hnames, hagrees⟩ :=
      mapM_replayRead id id (fun _ => (id_map _).symm) hw hfront
    obtain ⟨rest, rfl, hnames', _⟩ := mapM_replayRead (α := Located RestParam)
      (fun r => r.value.slotName) Code.splat (fun _ => rfl) hagrees.wellFormed hrest
    refine ⟨front, rest, rfl, ?_, ?_⟩
    · simpa using congrArg List.length hnames'
    · simp [Params.replayNames, hnames, hnames', hagrees.resolve]

/-- **A bare `super` reads the method's parameters by their names**, from where it stands. -/
theorem bareSuper_reads (hw : s.scopes.WellFormed) (hmethod : c.method = some params)
    (h : expr ⟨span, .bareSuper block⟩ c s = .ok code s') :
    ∃ (operand : BlockOperand) (front rest : List Local),
      code = operand.super (front.map .readLocal ++ rest.map fun l => .splat (.readLocal l)) ∧
      rest.length = params.rest.toList.length ∧
      (front ++ rest).map some =
        params.replayNames.map fun name => (s.scopes.resolve c.scope name).1 := by
  rw [expr, run_bind (requireMethod_eq hmethod)] at h
  obtain ⟨_, _, hargs, h⟩ := ok_of_bind h
  obtain ⟨operand, _, _, h⟩ := ok_of_bind h
  cases h
  obtain ⟨front, rest, rfl, hreads⟩ := replay_reads hw hargs
  exact ⟨operand, front, rest, rfl, hreads⟩

end Lower

/-- Some `super` in the code has the read of the variable as its only argument. -/
def Code.forwards (c : Code) (l : Local) : Bool :=
  c.preorder.any fun
    | .super [.readLocal l'] none true => l' == l
    | _ => false

theorem Code.mem_of_forwards {c : Code} (h : c.forwards l = true) :
    .super [.readLocal l] none true ∈ c.preorder := by
  obtain ⟨part, hpart, h⟩ := any_eq_true.mp h
  split at h
  · obtain rfl := eq_of_beq h
    exact hpart
  · simp at h

/-! ## The nearest body with the name -/

namespace Program

variable {p : Program} {options : LowerOptions} {u : CodeUnit}

/-- **What code refers to is a slot of the nearest body that has one of this name.** -/
theorem nearest_of_lower (h : p.lower options = .ok u) {b : BodyId} {body : Body} {l : Local}
    (hb : u.body? b = some body) (hl : body.code.Refers l) (hvisible : isHidden l.name = false) :
    (∃ a owner, u.ancestor? l.level b = some a ∧ u.body? a = some owner ∧
      owner.slots[l.slot]? = some l.name) ∧
    ∀ i < l.level, ∀ a inner, u.ancestor? i b = some a → u.body? a = some inner →
      l.name ∉ inner.slots := by
  obtain ⟨home, hfound⟩ := finds_of_lower h hb hl (by simp [hvisible])
  obtain ⟨hclean, rfl⟩ := lower_ok_iff.mp h
  have hcomplete := complete hclean
  obtain ⟨scope, hfinished⟩ := hcomplete.finished_of_body? hb
  have hlt : b < (p.lowering options).nextBody :=
    hcomplete.sound.size ▸ Scopes.lt_size_of_get? hfinished.scope
  constructor
  · obtain ⟨scope, hat, hget, hslot⟩ := Scopes.lookup_eq_some hfound
    obtain ⟨owner, howner⟩ := hcomplete.exists_finished hget
    exact ⟨home, owner, (hcomplete.ancestor?_eq l.level hlt).trans hat, howner.here,
      howner.slots ▸ hslot⟩
  · intro i hi a inner ha hinner hmem
    obtain ⟨scope, hfinished⟩ := hcomplete.finished_of_body? hinner
    have hnone := Scopes.lookupIn_before hfound i a (by simpa using hi)
      ((hcomplete.ancestor?_eq i hlt).symm.trans ha)
    rw [Scopes.slotAt, hfinished.scope, Option.bind_some, Scope.slot?, ← hfinished.slots] at hnone
    exact List.idxOf?_eq_none_iff.mp hnone hmem

/-- **What a bare `super` passes on.** Its arguments are reads of the method's parameters, each of
which is what a look-up of the name gives where the `super` stands. In the unit of a program this is
the slot of the method, `d` bodies outward, exactly when no body in between has a slot of the name;
otherwise it is a slot of such a body. -/
theorem lower_forwards (h : p.lower options = .ok u) :
    (∀ (span : Span) block (c : Context) params (t : LoweringState) code t',
      t.scopes.WellFormed → c.method = some params →
      Lower.expr ⟨span, .bareSuper block⟩ c t = .ok code t' →
      ∃ (operand : BlockOperand) (front rest : List Local),
        code = operand.super (front.map .readLocal ++ rest.map fun l => .splat (.readLocal l)) ∧
        rest.length = params.rest.toList.length ∧
        (front ++ rest).map some =
          params.replayNames.map fun name => (t.scopes.resolve c.scope name).1) ∧
    ∀ b body args block forward l, u.body? b = some body →
      .super args block forward ∈ body.code.preorder →
      .readLocal l ∈ args ∨ .splat (.readLocal l) ∈ args → isHidden l.name = false →
      ∀ d a method, u.ancestor? d b = some a → u.body? a = some method → l.name ∈ method.slots →
        (l.level = d ∧ method.slots[l.slot]? = some l.name ↔
          ∀ i < d, ∀ a' inner, u.ancestor? i b = some a' → u.body? a' = some inner →
            l.name ∉ inner.slots) ∧
        (l.level ≠ d → l.level < d) := by
  refine ⟨fun span block c params t code t' hw hmethod hrun =>
    bareSuper_reads hw hmethod hrun, ?_⟩
  intro b body args block forward l hb hsuper harg hvisible d a method ha hmethod hmem
  have hread : .readLocal l ∈ body.code.preorder := by
    refine preorder_trans hsuper ?_
    rcases harg with harg | harg
    · exact preorder_of_mem_children (mem_append_left _ harg) (self_mem_preorder _)
    · refine preorder_of_mem_children (mem_append_left _ harg) ?_
      exact preorder_of_mem_children mem_cons_self (self_mem_preorder _)
  obtain ⟨⟨a', owner, ha', howner, hslot⟩, hbefore⟩ := nearest_of_lower h hb (Or.inl hread) hvisible
  have hle : l.level ≤ d := Nat.not_lt.mp fun hlt => hbefore d hlt a method ha hmethod hmem
  refine ⟨⟨?_, fun hnone => ?_⟩, Nat.lt_of_le_of_ne hle⟩
  · rintro ⟨rfl, _⟩
    exact hbefore
  · rcases Nat.lt_or_eq_of_le hle with hlt | rfl
    · exact absurd (mem_of_getElem? hslot) (hnone l.level hlt a' owner ha' howner)
    · cases ha.symm.trans ha'
      cases hmethod.symm.trans howner
      exact ⟨rfl, hslot⟩

/-- `def m(a) [9].map { |inner| super } end`. -/
def superInBlock (inner : String) : Program where
  body := [Build.define "m" (Params.empty.require "a")
    [Build.callWithBlock (some (Build.array [Build.integer 9])) "map" []
      (Build.block (Params.empty.require inner) [Build.bareSuper])]]

/-- The block of `superInBlock "b"` has no `a`: the method's own is passed on. -/
theorem superInBlock_other :
    ∃ u body method l, (superInBlock "b").lower {} = .ok u ∧ u.body? 2 = some body ∧
      .super [.readLocal l] none true ∈ body.code.preorder ∧ u.ancestor? 1 2 = some 1 ∧
      u.body? 1 = some method ∧ l.level = 1 ∧ method.slots[l.slot]? = some "a" ∧
      ∀ i < 1, ∀ a inner, u.ancestor? i 2 = some a → u.body? a = some inner → "a" ∉ inner.slots := by
  obtain ⟨hlower, body, hb, hsuper⟩ := (superInBlock "b").lower_body 2
    (·.code.forwards { level := 1, slot := 0, name := "a" }) (by decide +kernel)
  obtain ⟨_, method, hmethod, hslots⟩ := (superInBlock "b").lower_body 1 (·.slots == ["a"])
    (by decide +kernel)
  have hancestor : ((superInBlock "b").lowering {}).unit.ancestor? 1 2 = some 1 := by decide +kernel
  have hslots := eq_of_beq hslots
  have hsuper := mem_of_forwards hsuper
  have hown := ((lower_forwards hlower).2 2 body _ none true _ hb hsuper (Or.inl mem_cons_self)
    (by decide) 1 1 method hancestor hmethod (by simp [hslots])).1.mp ⟨rfl, by simp [hslots]⟩
  exact ⟨_, body, method, _, hlower, hb, hsuper, hancestor, hmethod, rfl, by simp [hslots], hown⟩

/-- **A closure in between can take the place of the method**: the block of `superInBlock "a"` has a
parameter of the same name, and this is what is passed on. -/
theorem superInBlock_same :
    ∃ u body method, (superInBlock "a").lower {} = .ok u ∧ u.body? 2 = some body ∧
      .super [.readLocal { level := 0, slot := 0, name := "a" }] none true ∈ body.code.preorder ∧
      body.kind = .block ∧ u.ancestor? 1 2 = some 1 ∧ u.body? 1 = some method ∧
      method.kind = .method ∧ method.slots = ["a"] := by
  obtain ⟨hlower, body, hb, hfound⟩ := (superInBlock "a").lower_body 2 (fun body =>
    body.code.forwards { level := 0, slot := 0, name := "a" } && body.kind == .block)
    (by decide +kernel)
  obtain ⟨_, method, hm, hmethod⟩ := (superInBlock "a").lower_body 1 (fun method =>
    method.kind == .method && method.slots == ["a"]) (by decide +kernel)
  have hancestor : ((superInBlock "a").lowering {}).unit.ancestor? 1 2 = some 1 := by decide +kernel
  obtain ⟨hsuper, hblock⟩ := Bool.and_eq_true_iff.mp hfound
  obtain ⟨hkind, hslots⟩ := Bool.and_eq_true_iff.mp hmethod
  exact ⟨_, body, method, hlower, hb, mem_of_forwards hsuper, eq_of_beq hblock, hancestor, hm,
    eq_of_beq hkind, eq_of_beq hslots⟩

end Program

end BlockLang
