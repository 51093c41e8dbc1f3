import BlockLang.Proofs.Lowering.Ownership

/-!
# What a `return` or `break` leaves

A `return` in a block is meant for the body around the block, and around that one if it is a block
as well: for the first body outward that is none (`CodeUnit.Home`). All that the code knows of it is
an identity, which a block has from the body around it. **In a lowered program the two agree**: every
body has a home, and the identity is that of the home and of no other body that can be returned from
(`CodeUnit.ExitsPlaced.returnId_eq`).

The `break` of a block is caught around the call that the block is passed to, and around no other
code (`CodeUnit.ExitsPlaced.passes`).
-/

namespace BlockLang

variable {u : CodeUnit}

/-- The code that names a closure creates it. -/
theorem Program.parent_of_lower {p : Program} {options : LowerOptions} (h : p.lower options = .ok u)
    {b : BodyId} {body : Body} (hb : u.body? b = some body) (hkind : body.kind.isClosure = true) :
    ∃ outer, u.parent? b = some outer ∧ outer < b := by
  have hu := lower_wellScoped h
  have hne : b ≠ u.main := by
    rintro rfl
    obtain ⟨main, hmain, hmainKind⟩ := hu.main
    rw [Option.some.inj (hb.symm.trans hmain), hmainKind] at hkind
    exact nomatch hkind
  obtain ⟨outer, hlt, hnames⟩ := owner_of_lower h hb hne
  obtain ⟨outerBody, kind, houter, hm⟩ := (hnames outer).mpr rfl
  obtain ⟨inner, hinner, rfl⟩ := hu.body houter hm
  obtain rfl : inner = body := Option.some.inj (hinner.symm.trans hb)
  exact ⟨outer, hu.parent houter hm hkind, hlt⟩

/-! ## Homes -/

namespace CodeUnit

variable {u : CodeUnit}

/-- The first body outward from the body `b`, itself included, that is no block. -/
inductive Home (u : CodeUnit) : BodyId → BodyId → Prop
  | self {b : BodyId} {body : Body} : u.body? b = some body → body.kind ≠ .block → Home u b b
  | block {b outer home : BodyId} {body : Body} : u.body? b = some body → body.kind = .block →
      u.parent? b = some outer → Home u outer home → Home u b home

theorem Home.body? (h : u.Home b home) : ∃ body, u.body? home = some body ∧ body.kind ≠ .block := by
  induction h with
  | self hb hkind => exact ⟨_, hb, hkind⟩
  | block _ _ _ _ ih => exact ih

namespace ExitsPlaced

/-- A block has its `return` from the body around it, and a `break` of its own. -/
theorem exits_of_parent (hx : u.ExitsPlaced) (hu : u.WellScoped) (hb : u.body? b = some body)
    (hkind : body.kind = .block) (hp : u.parent? b = some p) (houter : u.body? p = some outer) :
    body.returnId = outer.returnId ∧ body.breakId.isSome = true := by
  obtain ⟨outer', houter', hcreates⟩ := hu.parent?_eq_some_iff.mp hp
  rw [houter, Option.some.injEq] at houter'
  subst houter'
  obtain ⟨part, hpart, hclosure⟩ := List.any_eq_true.mp hcreates
  obtain ⟨q, ⟨hreturns, -⟩, hplaced⟩ := (hx.placed houter).mem_preorder hpart
  have hadmits := hplaced.admits
  cases part with
  | closure b' lambda =>
    obtain rfl : b' = b := beq_iff_eq.mp hclosure
    cases lambda with
    | true =>
      obtain ⟨body', hb', hlambda⟩ := hadmits
      have heq : body' = body := Option.some.inj (hb'.symm.trans hb)
      rw [heq, hkind] at hlambda
      cases hlambda
    | false =>
      obtain ⟨body', hb', _, hreturn, hcaught, hbreak⟩ := hadmits
      have heq : body' = body := Option.some.inj (hb'.symm.trans hb)
      rw [heq] at hreturn hbreak
      exact ⟨hreturn.trans hreturns, hbreak ▸ hcaught⟩
  | _ => simp at hclosure

theorem returnId_eq (hx : u.ExitsPlaced) (hu : u.WellScoped) {b home : BodyId}
    (h : u.Home b home) : ∀ {body homeBody : Body}, u.body? b = some body →
      u.body? home = some homeBody → body.returnId = homeBody.returnId := by
  induction h with
  | self =>
    intro body homeBody hb hhome
    rw [hb, Option.some.injEq] at hhome
    rw [hhome]
  | @block b outer home own hown hkind hp _ ih =>
    intro body homeBody hb hhome
    obtain ⟨outerBody, houter, _⟩ := hu.parent?_eq_some_iff.mp hp
    rw [hown, Option.some.injEq] at hb
    subst hb
    exact (hx.exits_of_parent hu hown hkind hp houter).1.trans (ih houter hhome)

end ExitsPlaced

end CodeUnit

theorem Program.home_of_lower {p : Program} {options : LowerOptions} (h : p.lower options = .ok u) :
    ∀ (b : Nat) {body : Body}, u.body? b = some body →
      ∃ home, u.Home b home := by
  have hu := lower_wellScoped h
  intro b
  induction b using Nat.strongRecOn with
  | ind b ih =>
    intro body hb
    by_cases hkind : body.kind = .block
    · obtain ⟨outer, hp, hlt⟩ := parent_of_lower h hb (by rw [hkind]; rfl)
      obtain ⟨outerBody, houter, _⟩ := hu.parent?_eq_some_iff.mp hp
      obtain ⟨home, hhome⟩ := ih outer hlt houter
      exact ⟨home, .block hb hkind hp hhome⟩
    · exact ⟨b, .self hb hkind⟩

/-! ## Calls that blocks are passed to -/

/-- The code calls something, and passes the block. -/
def Code.Passes (b : BodyId) : Code → Prop
  | .call _ _ _ block | .super _ block _ => block = some (.closure b false)
  | _ => False

theorem Code.exists_passes {c : Code} (h : c.passesBlock = true) : ∃ b, c.Passes b := by
  have hblock : ∀ {block : Option Code}, block.any isBlock = true →
      ∃ b, block = some (.closure b false) := by
    intro block hany
    obtain ⟨code, rfl, hcode⟩ := (Option.any_eq_true _ _).mp hany
    cases code with
    | closure b lambda =>
      cases lambda with
      | true => cases hcode
      | false => exact ⟨b, rfl⟩
    | _ => cases hcode
  cases c with
  | call receiver method args block | super args block forwardBlock => exact hblock h
  | _ => cases h

/-- Code that catches the `break` of a block is a call that the block is passed to. -/
theorem CodeUnit.ExitsPlaced.passes (hx : u.ExitsPlaced) {id : BreakId}
    (houter : u.body? p = some outer) (hcall : .catchBreak id call ∈ outer.code.preorder)
    (hb : u.body? b = some body) (hid : body.breakId = some id) : call.Passes b := by
  obtain ⟨q, -, hplaced⟩ := (hx.placed houter).mem_preorder hcall
  obtain ⟨b', hpasses⟩ := Code.exists_passes hplaced.admits
  have hinner : call.WellPlaced u.register (q.catching id) := hplaced.part List.mem_cons_self
  have hclosure : (Code.closure b' false).WellPlaced u.register (q.catching id) := by
    cases call with
    | call receiver method args block | super args block forwardBlock =>
      obtain rfl : block = some (.closure b' false) := hpasses
      exact hinner.part (List.mem_append_right _ List.mem_cons_self)
    | _ => cases hpasses
  obtain ⟨body', hb', _, _, _, hbreak⟩ := hclosure.admits
  rw [hx.breakApart hb hb' hid hbreak]
  exact hpasses

end BlockLang
