import BlockLang.Proofs.Lowering.Homes

/-!
# Exits and what they leave

A unit of lowered code knows exits by their identities alone, so the identities have to be handed
out in pairs: what a `return` or `break` carries is what some body, loop or call around it has.
`CodeUnit.ExitsPaired` says which, for every place where one of them stands, and **lowering gives no
other units** (`Program.lower_pairs`).

For that it is not enough to know the parts of a piece of code: a `break` has to stand *inside* of
its loop, and a block right behind its call. `Code.Stands` keeps what is around a part.
-/

namespace BlockLang

open List

/-! ## Parts and what is around them -/

/-- A part stands in the code, inside of the pieces `around` it, the innermost first. -/
inductive Code.Stands (c : Code) : List Code → Code → Prop
  | whole : Stands c [] c
  | part {around : List Code} {outer inner : Code} :
      Stands c around outer → inner ∈ outer.children → Stands c (outer :: around) inner

theorem Code.Stands.within {c outer part : Code} {around outside : List Code}
    (h : outer.Stands around part) (hc : c.Stands outside outer) :
    c.Stands (around ++ outside) part := by
  induction h with
  | whole => exact hc
  | part _ hinner ih => exact .part ih hinner

theorem Code.exists_stands {c : Code} (h : part ∈ c.preorder) : ∃ around, c.Stands around part := by
  induction c using inductionOnChildren with
  | h c ih =>
    rw [preorder_eq] at h
    rcases mem_cons.mp h with rfl | h
    · exact ⟨[], .whole⟩
    · obtain ⟨child, hchild, hpart⟩ := mem_flatMap.mp h
      obtain ⟨around, hs⟩ := ih child hchild hpart
      exact ⟨around ++ [c], hs.within (.part .whole hchild)⟩

/-- What a call evaluates before its block. -/
def Code.operands : Code → List Code
  | .call receiver _ args _ => receiver.toList ++ args
  | .super args _ _ => args
  | _ => []

namespace Code

def isBreak : Code → Bool
  | .breakWith _ _ => true
  | _ => false

theorem eq_of_isBreak {c : Code} (h : c.isBreak = true) : ∃ id value, c = .breakWith id value := by
  cases c with
  | breakWith id value => exact ⟨id, value, rfl⟩
  | _ => cases h

/-- The `break` with the identity is caught for the sake of the part: the part is the call that it
is caught around, or the block of that call. -/
inductive CaughtFor (id : BreakId) : List Code → Code → Prop
  | call {rest : List Code} {call : Code} : call.passesBlock = true →
      CaughtFor id (.catchBreak id call :: rest) call
  | block {rest : List Code} {call : Code} {b : BodyId} : call.Passes b →
      CaughtFor id (call :: .catchBreak id call :: rest) (.closure b false)

theorem CaughtFor.of_closure {id : BreakId} {around : List Code}
    (h : CaughtFor id around (.closure b false)) :
    ∃ call rest, around = call :: .catchBreak id call :: rest ∧ call.Passes b := by
  cases h with
  | call hpasses => cases hpasses
  | block hpasses => exact ⟨_, _, rfl, hpasses⟩

theorem passes_of_partsAt {q q' : Site} {outer inner : Code} {id : BreakId}
    (hpasses : outer.passesBlock = true) (hmem : (q', inner) ∈ outer.partsAt q)
    (hcaught : q'.caught = some id) : ∃ b, inner = .closure b false ∧ outer.Passes b := by
  obtain ⟨b, hb⟩ := exists_passes hpasses
  refine ⟨b, ?_, hb⟩
  cases outer with
  | call receiver method args block | super args block forwardBlock =>
    obtain rfl : block = some (.closure b false) := hb
    simp only [partsAt, Option.toList_some, mem_append, mem_map, mem_singleton,
      Prod.mk.injEq] at hmem
    rcases hmem with ⟨_, _, rfl, rfl⟩ | ⟨_, rfl, rfl, rfl⟩
    · cases hcaught
    · rfl
  | _ => cases hb

namespace WellPlaced

variable {around : List Code}

variable {r : Register} {p : Site} {c : Code}

theorem caughtFor {q : Site} {part : Code} {id : BreakId} (h : c.WellPlaced r p)
    (hcaught : ∀ id, p.caught = some id → CaughtFor id around c) (hmem : (q, part) ∈ c.partsAt p)
    (hid : q.caught = some id) :
    CaughtFor id (c :: around) part := by
  have hplain : ∀ {codes : List Code}, (q, part) ∉ codes.map (p.plain, ·) := by
    intro codes hm
    obtain ⟨_, _, heq⟩ := mem_map.mp hm
    cases heq
    cases hid
  -- a block that is passed has the site of its call
  have hblock : p.caught = some id → CaughtFor id (c :: around) part := by
    intro hp
    cases hcaught id hp with
    | call hpasses =>
      obtain ⟨b, rfl, hb⟩ := passes_of_partsAt hpasses hmem hid
      exact .block hb
    | block => cases hmem
  have hsame : ∀ {codes : List Code}, (q, part) ∈ codes.map (p, ·) →
      CaughtFor id (c :: around) part := by
    intro codes hm
    obtain ⟨_, _, heq⟩ := mem_map.mp hm
    cases heq
    exact hblock hid
  cases c with
  | catchBreak id' inner =>
    cases mem_singleton.mp hmem
    cases hid
    exact .call h.admits
  | call receiver method args block | super args block forwardBlock =>
    exact (mem_append.mp hmem).elim (fun hm => absurd hm hplain) hsame
  | loop condition body bodyFirst id' =>
    simp only [partsAt, mem_cons, not_mem_nil, or_false, Prod.mk.injEq] at hmem
    rcases hmem with ⟨rfl, _⟩ | ⟨rfl, _⟩ <;> cases hid
  | _ => exact absurd hmem hplain

/-- **What is known of the site of a part, by what is around the part.** -/
theorem stands (h : c.WellPlaced r p) (hp : p.caught = none) {part : Code}
    (hs : c.Stands around part) : ∃ q, part.WellPlaced r q ∧ q.returns = p.returns ∧
      (q.breaks = p.breaks ∨ ∃ condition body bodyFirst id,
        .loop condition body bodyFirst id ∈ around ∧ q.breaks = some id) ∧
      ∀ id, q.caught = some id → CaughtFor id around part := by
  induction hs with
  | whole => exact ⟨p, h, rfl, Or.inl rfl, fun id hid => by simp [hp] at hid⟩
  | @part around outer inner _ hinner ih =>
    obtain ⟨q, hplaced, hreturns, hbreaks, hcaught⟩ := ih
    rw [← map_snd_partsAt q outer] at hinner
    obtain ⟨⟨q', inner⟩, hmem, rfl⟩ := mem_map.mp hinner
    obtain ⟨hreturns', hbreaks'⟩ := exits_of_mem_partsAt hmem
    refine ⟨q', hplaced.part hmem, hreturns'.trans hreturns, ?_, fun id hid => ?_⟩
    · rcases hbreaks' with hbreaks' | ⟨condition, body, bodyFirst, id, rfl, hid⟩
      · rw [hbreaks']
        refine hbreaks.imp id ?_
        rintro ⟨condition, body, bodyFirst, id, hloop, hid⟩
        exact ⟨condition, body, bodyFirst, id, mem_cons_of_mem _ hloop, hid⟩
      · exact Or.inr ⟨condition, body, bodyFirst, id, mem_cons_self, hid⟩
    · exact hplaced.caughtFor hcaught hmem hid

/-- A block is right behind its call, where its `break` is caught, and nowhere else in the call. -/
theorem block_behind_call (h : c.WellPlaced r p) (hp : p.caught = none) {b : BodyId}
    (hs : c.Stands around (.closure b false)) :
    ∃ id call rest body, around = call :: .catchBreak id call :: rest ∧ call.Passes b ∧
      .closure b false ∉ call.operands ∧ r.Has b body ∧ body.kind = .block ∧
      body.breakId = some id := by
  obtain ⟨q, hplaced, -, -, hcaught⟩ := h.stands hp hs
  obtain ⟨body, hbody, hkind, -, hsome, hbreak⟩ := hplaced.admits
  obtain ⟨id, hid⟩ := Option.isSome_iff_exists.mp hsome
  obtain ⟨call, rest, rfl, hpasses⟩ := (hcaught id hid).of_closure
  refine ⟨id, call, rest, body, rfl, hpasses, fun hmem => ?_, hbody, hkind, hbreak.trans hid⟩
  -- before the block nothing is caught for the sake of an operand
  cases hs with
  | part hcall _ =>
    obtain ⟨q', hplaced', -⟩ := h.stands hp hcall
    have hplain : (Code.closure b false).WellPlaced r q'.plain := by
      refine hplaced'.part ?_
      cases call with
      | call receiver method args block | super args block forwardBlock =>
        exact mem_append_left _ (mem_map.mpr ⟨_, hmem, rfl⟩)
      | _ => cases hpasses
    obtain ⟨_, _, _, _, hsome', _⟩ := hplain.admits
    cases hsome'

end WellPlaced

end Code

/-! ## Units -/

namespace CodeUnit

/-- Every exit has an identity that something around it has, and every identity that can be left has
one owner. -/
structure ExitsPaired (u : CodeUnit) : Prop where
  /-- Programs, methods and lambdas have each a `return` of their own. -/
  returns : ∀ {b body}, u.body? b = some body → body.kind.isHome = true →
    ∃ id, body.returnId = some id ∧ ∀ {b' body'}, u.body? b' = some body' →
      body'.kind.isHome = true → body'.returnId = some id → b' = b
  /-- A block has that of the body around it. -/
  returnOfBlock : ∀ {b body}, u.body? b = some body → body.kind = .block →
    ∃ p outer, u.parent? b = some p ∧ u.body? p = some outer ∧ body.returnId = outer.returnId
  /-- A class or module cannot be returned from. -/
  noReturn : ∀ {b body}, u.body? b = some body → body.kind = .classBody ∨ body.kind = .moduleBody →
    body.returnId = none
  /-- Closures have each a `break` of their own, which is no loop's. -/
  breaks : ∀ {b body}, u.body? b = some body → body.kind.isClosure = true →
    ∃ id, body.breakId = some id ∧
      (∀ {b' body'}, u.body? b' = some body' → body'.breakId = some id → b' = b) ∧
      ∀ {b' body'}, u.body? b' = some body' → ∀ {around condition inner bodyFirst id'},
        body'.code.Stands around (.loop condition inner bodyFirst id') → id' ≠ id
  noBreak : ∀ {b body}, u.body? b = some body → body.kind.isClosure = false → body.breakId = none
  returnWith : ∀ {b body}, u.body? b = some body → ∀ {around id value},
    body.code.Stands around (.returnWith id value) → body.returnId = some id
  /-- A `break` is inside of its loop, or is that of its body. -/
  breakWith : ∀ {b body}, u.body? b = some body → ∀ {around id value},
    body.code.Stands around (.breakWith id value) →
      (∃ condition inner bodyFirst, .loop condition inner bodyFirst id ∈ around) ∨
        body.breakId = some id
  /-- A block is right behind its call, and right around the call its `break` is caught. -/
  block : ∀ {b body}, u.body? b = some body → ∀ {around c},
    body.code.Stands around (.closure c false) →
      ∃ id call rest inner, around = call :: .catchBreak id call :: rest ∧ call.Passes c ∧
        .closure c false ∉ call.operands ∧ u.body? c = some inner ∧ inner.kind = .block ∧
        inner.breakId = some id

end CodeUnit

namespace Program

variable {p : Program} {options : LowerOptions} {u : CodeUnit}

theorem breakId_isSome (h : p.lower options = .ok u) {b : BodyId} {body : Body}
    (hb : u.body? b = some body) : body.breakId.isSome = body.kind.isClosure := by
  by_cases hkind : body.kind = .block
  · have hu := lower_wellScoped h
    obtain ⟨outer, hp, -⟩ := parent_of_lower h hb (by rw [hkind]; rfl)
    obtain ⟨outerBody, houter, -⟩ := hu.parent?_eq_some_iff.mp hp
    rw [((exits_of_lower h).exits_of_parent hu hb hkind hp houter).2, hkind]
    rfl
  · obtain ⟨hclean, rfl⟩ := lower_ok_iff.mp h
    rcases (files hclean).2 b body hb with rfl | ⟨hm, -⟩
    · exact absurd rfl hkind
    · exact hm.breaks

/-- **In a lowered program every exit is paired with what it leaves.** -/
theorem lower_pairs (h : p.lower options = .ok u) : u.ExitsPaired := by
  have hu := lower_wellScoped h
  have hx := exits_of_lower h
  constructor
  case returns =>
    intro b body hb hhome
    have hnotBlock : ∀ {kind : BodyKind}, kind.isHome = true → kind ≠ .block := by
      rintro kind hkind rfl
      cases hkind
    have hsome := hx.returns hb (hnotBlock hhome)
    obtain ⟨id, hid⟩ := Option.isSome_iff_exists.mp (hsome.trans hhome)
    refine ⟨id, hid, fun hb' hhome' hid' => ?_⟩
    exact hx.returnApart hb' hb (hnotBlock hhome') (hnotBlock hhome) hid' hid
  case returnOfBlock =>
    intro b body hb hkind
    obtain ⟨outer, hp, -⟩ := parent_of_lower h hb (by rw [hkind]; rfl)
    obtain ⟨outerBody, houter, -⟩ := hu.parent?_eq_some_iff.mp hp
    exact ⟨outer, outerBody, hp, houter, (hx.exits_of_parent hu hb hkind hp houter).1⟩
  case noReturn =>
    intro b body hb hkind
    have hnone : body.returnId.isSome = false := by
      rcases hkind with hkind | hkind <;>
      · rw [hx.returns hb (by simp [hkind]), hkind]
        rfl
    simpa using hnone
  case breaks =>
    intro b body hb hkind
    obtain ⟨id, hid⟩ := Option.isSome_iff_exists.mp ((breakId_isSome h hb).trans hkind)
    refine ⟨id, hid, fun hb' hid' => hx.breakApart hb' hb hid' hid, ?_⟩
    rintro b' body' hb' around condition inner bodyFirst id' hs rfl
    obtain ⟨q, hplaced, -⟩ := (hx.placed hb').stands rfl hs
    exact hplaced.admits hb hid
  case noBreak =>
    intro b body hb hkind
    simpa using (breakId_isSome h hb).trans hkind
  case returnWith =>
    intro b body hb around id value hs
    obtain ⟨q, hplaced, hreturns, -⟩ := (hx.placed hb).stands rfl hs
    exact hreturns.symm.trans hplaced.admits
  case breakWith =>
    intro b body hb around id value hs
    obtain ⟨q, hplaced, -, hbreaks, -⟩ := (hx.placed hb).stands rfl hs
    have hid : q.breaks = some id := hplaced.admits
    rcases hbreaks with hbreaks | ⟨condition, inner, bodyFirst, id', hloop, hid'⟩
    · exact Or.inr (hbreaks.symm.trans hid)
    · obtain rfl : id = id' := Option.some.inj (hid.symm.trans hid')
      exact Or.inl ⟨condition, inner, bodyFirst, hloop⟩
  case block =>
    intro b body hb around c hs
    exact (hx.placed hb).block_behind_call rfl hs

/-- `class C; while true; [1].each { |x| while x; break; end; break }; return; end; end`: a class
cannot be returned from, and its loop is left instead. -/
def leftLoops : Program where
  body := [Build.classDef "C" none [
    Build.whileLoop (Build.bool true) [
      Build.callWithBlock (some (Build.array [Build.integer 1])) "each" []
        (Build.block (Params.empty.require "x") [
          Build.whileLoop (Build.localVar "x") [Build.breakWith none],
          Build.breakWith none]),
      Build.returnWith none]]]

/-- In the class of `leftLoops` a `break` stands in a loop that it leaves. -/
theorem leftLoops_pairs : ∃ u body around id value, leftLoops.lower {} = .ok u ∧ u.ExitsPaired ∧
    u.body? 1 = some body ∧ body.kind = .classBody ∧
    body.code.Stands around (.breakWith id value) ∧
    ∃ condition inner bodyFirst, .loop condition inner bodyFirst id ∈ around := by
  obtain ⟨hlower, body, hbody, hfound⟩ := leftLoops.lower_body 1 (fun body =>
    body.kind == .classBody && body.code.preorder.any (·.isBreak)) (by decide +kernel)
  obtain ⟨hkind, hbreak⟩ := Bool.and_eq_true_iff.mp hfound
  obtain ⟨part, hpart, hbreak⟩ := any_eq_true.mp hbreak
  obtain ⟨id, value, rfl⟩ := Code.eq_of_isBreak hbreak
  obtain ⟨around, hs⟩ := Code.exists_stands hpart
  have hpairs := lower_pairs hlower
  have hclass : body.kind = .classBody := beq_iff_eq.mp hkind
  refine ⟨_, body, around, id, value, hlower, hpairs, hbody, hclass, hs, ?_⟩
  rcases hpairs.breakWith hbody hs with hloop | hid
  · exact hloop
  · rw [hpairs.noBreak hbody (by rw [hclass]; rfl)] at hid
    cases hid

end Program

end BlockLang
