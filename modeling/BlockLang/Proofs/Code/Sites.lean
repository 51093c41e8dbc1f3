import BlockLang.Code.Unit
import BlockLang.Proofs.Code.Parts

/-!
# Where a piece of code stands

What a `break` may be written as depends on the loops around it, and what a block may be written
as depends on the call that it is passed to. A `Site` is what matters of the surroundings of a
piece of code inside its body, and `Code.partsAt` hands it down to the parts.

`Code.WellPlaced` says of a piece of code and of all its parts that they may stand where they
stand (`Register.Admits`):

* a `return` and a `break` carry the identities of their site, and `next` has something to go to;
* a loop has a `break` that is no body's;
* **a block is passed to a call, and right around the call its `break` is caught**;
* closures, methods and classes name bodies of their own kind.

What bodies and loops there are is a parameter (`Register`), because while lowering goes on there
are more and more of them.
-/

namespace BlockLang

open List

/-- What matters of the surroundings of a piece of code. -/
structure Site where
  /-- What a `return` leaves. -/
  returns : Option ReturnId
  /-- What a `break` leaves. -/
  breaks : Option BreakId
  /-- Whether there is a closure or loop to go on with. -/
  inside : Bool
  /-- The `break` that is caught right around the call that this is passed to. -/
  caught : Option BreakId := none

namespace Site

/-- The site of a part that is nothing special. -/
def plain (p : Site) : Site := { p with caught := none }

/-- The site of the parts of a loop. -/
def loop (p : Site) (id : BreakId) : Site :=
  { p with breaks := some id, inside := true, caught := none }

/-- The site of a call whose block can be left. -/
def catching (p : Site) (id : BreakId) : Site := { p with caught := some id }

@[simp] theorem plain_plain (p : Site) : p.plain.plain = p.plain := rfl

@[simp] theorem plain_returns (p : Site) : p.plain.returns = p.returns := rfl

@[simp] theorem plain_catching (p : Site) (id : BreakId) : (p.catching id).plain = p.plain := rfl

end Site

/-- The site of the code of a body. -/
def Body.site (b : Body) : Site :=
  { returns := b.returnId, breaks := b.breakId, inside := b.kind.isClosure }

/-- The bodies that there are, and the `break`s that belong to loops. -/
structure Register where
  Has : BodyId → Body → Prop
  IsLoop : BreakId → Prop

namespace Code

/-- The direct parts, each with its site. -/
def partsAt (p : Site) : Code → List (Site × Code)
  | .catchBreak id inner => [(p.catching id, inner)]
  | .call receiver _ args block =>
    (receiver.toList ++ args).map (p.plain, ·) ++ block.toList.map (p, ·)
  | .super args block _ => args.map (p.plain, ·) ++ block.toList.map (p, ·)
  | .loop condition body _ id => [(p.loop id, condition), (p.loop id, body)]
  | c => c.children.map (p.plain, ·)

theorem map_snd_partsAt (p : Site) (c : Code) : (c.partsAt p).map Prod.snd = c.children := by
  cases c <;> simp [partsAt, children, Function.comp_def]

/-- A block that is written out. -/
def isBlock : Code → Bool
  | .closure _ lambda => !lambda
  | _ => false

/-- A call that such a block is passed to. -/
def passesBlock : Code → Bool
  | .call _ _ _ block | .super _ block _ => block.any isBlock
  | _ => false

/-- Code that may stand anywhere, if its parts may. -/
def isUnbound : Code → Bool
  | .call _ _ _ block | .super _ block _ => block.isNone
  | .returnWith _ _ | .breakWith _ _ | .nextWith _ | .redo | .retry | .loop _ _ _ _
  | .catchBreak _ _ | .closure _ _ | .define _ _ | .openClass _ _ _ _ => false
  | _ => true

end Code

/-- The code itself, without its parts, may stand at the site. -/
def Register.Admits (r : Register) (p : Site) : Code → Prop
  | .returnWith id _ => p.returns = some id
  | .breakWith id _ => p.breaks = some id
  | .nextWith _ | .redo | .retry => p.inside = true
  | .loop _ _ _ id => r.IsLoop id
  | .catchBreak _ call => call.passesBlock = true
  | .closure b true => ∃ body, r.Has b body ∧ body.kind = .lambda
  | .closure b false => ∃ body, r.Has b body ∧ body.kind = .block ∧
      body.returnId = p.returns ∧ p.caught.isSome ∧ body.breakId = p.caught
  | .define name b => ∃ body, r.Has b body ∧ body.kind = .method ∧ body.name = name
  | .openClass _ _ isModule b =>
    ∃ body, r.Has b body ∧ body.kind = if isModule then .moduleBody else .classBody
  | _ => True

/-- A register in which there is more. -/
structure Register.Within (r r' : Register) : Prop where
  has : ∀ {b body}, r.Has b body → r'.Has b body
  isLoop : ∀ {id}, r.IsLoop id → r'.IsLoop id

theorem Register.Admits.within {r r' : Register} {p : Site} {c : Code} (h : r.Admits p c)
    (hr : r.Within r') : r'.Admits p c := by
  cases c with
  | loop => exact hr.isLoop h
  | closure b lambda =>
    cases lambda <;>
    · obtain ⟨body, hbody, hrest⟩ := h
      exact ⟨body, hr.has hbody, hrest⟩
  | define | openClass =>
    obtain ⟨body, hbody, hrest⟩ := h
    exact ⟨body, hr.has hbody, hrest⟩
  | _ => exact h

/-- The code and all its parts may stand where they stand. -/
inductive Code.WellPlaced (r : Register) : Site → Code → Prop
  | intro {p : Site} {c : Code} : r.Admits p c →
      (∀ q part, (q, part) ∈ c.partsAt p → WellPlaced r q part) → WellPlaced r p c

namespace Code.WellPlaced

variable {r r' : Register} {p : Site} {c : Code}

theorem admits (h : WellPlaced r p c) : r.Admits p c := by
  obtain ⟨h, _⟩ := h
  exact h

theorem part (h : WellPlaced r p c) {q : Site} {part : Code} (hpart : (q, part) ∈ c.partsAt p) :
    WellPlaced r q part := by
  obtain ⟨_, h⟩ := h
  exact h q part hpart

theorem within (h : WellPlaced r p c) (hr : r.Within r') : WellPlaced r' p c := by
  induction h with
  | intro hadmits _ ih => exact ⟨hadmits.within hr, ih⟩

/-- What is left from a site `q` inside of code at `p`: what is left from `p`, or a loop of the
code. -/
def Leaves (p : Site) (c : Code) (q : Site) : Prop :=
  q.returns = p.returns ∧ (q.breaks = p.breaks ∨
    ∃ condition body bodyFirst id, .loop condition body bodyFirst id ∈ c.preorder ∧
      q.breaks = some id)

/-- A part stands where the whole stands, but for what is caught, unless the whole is a loop. -/
theorem site_of_mem_partsAt {q : Site} {part : Code} (h : (q, part) ∈ c.partsAt p) :
    (∃ caught, q = { p with caught }) ∨ ∃ condition body bodyFirst id,
      c = .loop condition body bodyFirst id ∧ q = p.loop id := by
  have hplain : ∀ {codes : List Code}, (q, part) ∈ codes.map (p.plain, ·) →
      ∃ caught, q = { p with caught } := by
    intro codes h
    obtain ⟨_, _, heq⟩ := mem_map.mp h
    cases heq
    exact ⟨none, rfl⟩
  have hsame : ∀ {codes : List Code}, (q, part) ∈ codes.map (p, ·) →
      ∃ caught, q = { p with caught } := by
    intro codes h
    obtain ⟨_, _, heq⟩ := mem_map.mp h
    cases heq
    exact ⟨p.caught, rfl⟩
  cases c with
  | catchBreak id inner =>
    cases mem_singleton.mp h
    exact Or.inl ⟨some id, rfl⟩
  | loop condition body bodyFirst id =>
    simp only [partsAt, mem_cons, not_mem_nil, or_false, Prod.mk.injEq] at h
    exact Or.inr ⟨condition, body, bodyFirst, id, rfl, h.elim And.left And.left⟩
  | call receiver method args block | super args block forwardBlock =>
    exact Or.inl ((mem_append.mp h).elim hplain hsame)
  | _ => exact Or.inl (hplain h)

/-- A part is left as the whole, unless the whole is a loop. -/
theorem exits_of_mem_partsAt {q : Site} {part : Code} (h : (q, part) ∈ c.partsAt p) :
    q.returns = p.returns ∧ (q.breaks = p.breaks ∨ ∃ condition body bodyFirst id,
      c = .loop condition body bodyFirst id ∧ q.breaks = some id) := by
  rcases site_of_mem_partsAt h with ⟨caught, rfl⟩ | ⟨condition, body, bodyFirst, id, hc, rfl⟩
  · exact ⟨rfl, Or.inl rfl⟩
  · exact ⟨rfl, Or.inr ⟨condition, body, bodyFirst, id, hc, rfl⟩⟩

theorem leaves_of_mem_partsAt {q : Site} {part : Code} (h : (q, part) ∈ c.partsAt p) :
    Leaves p c q := by
  obtain ⟨hreturns, hbreaks | ⟨condition, body, bodyFirst, id, rfl, hid⟩⟩ := exits_of_mem_partsAt h
  · exact ⟨hreturns, Or.inl hbreaks⟩
  · exact ⟨hreturns, Or.inr ⟨condition, body, bodyFirst, id, self_mem_preorder _, hid⟩⟩

/-- What stands anywhere in well placed code is well placed, and leaves what the whole leaves or a
loop in between. -/
theorem mem_preorder (h : WellPlaced r p c) {part : Code} (hpart : part ∈ c.preorder) :
    ∃ q, Leaves p c q ∧ WellPlaced r q part := by
  induction h with
  | @intro p c hadmits hparts ih =>
    rw [preorder_eq] at hpart
    rcases mem_cons.mp hpart with rfl | hpart
    · exact ⟨p, ⟨rfl, Or.inl rfl⟩, hadmits, hparts⟩
    · obtain ⟨child, hchild, hpart⟩ := mem_flatMap.mp hpart
      have hparts := hchild
      rw [← map_snd_partsAt p c] at hparts
      obtain ⟨⟨q, child⟩, hmem, rfl⟩ := mem_map.mp hparts
      obtain ⟨q', ⟨hreturns, hbreaks⟩, hplaced⟩ := ih q child hmem hpart
      obtain ⟨hreturns', hbreaks'⟩ := leaves_of_mem_partsAt hmem
      refine ⟨q', ⟨hreturns.trans hreturns', ?_⟩, hplaced⟩
      rcases hbreaks with hbreaks | ⟨condition, body, bodyFirst, id, hloop, hid⟩
      · rw [hbreaks]
        exact hbreaks'
      · have houter := preorder_of_mem_children hchild hloop
        exact Or.inr ⟨condition, body, bodyFirst, id, houter, hid⟩

theorem call (hreceiver : ∀ part ∈ receiver, WellPlaced r p.plain part)
    (hargs : ∀ part ∈ args, WellPlaced r p.plain part)
    (hblock : ∀ part ∈ block, WellPlaced r p part) :
    WellPlaced r p (.call receiver method args block) := by
  refine ⟨trivial, fun q part hpart => ?_⟩
  simp only [partsAt, mem_append, mem_map, Option.mem_toList, Prod.mk.injEq] at hpart
  rcases hpart with ⟨part, hpart | hpart, rfl, rfl⟩ | ⟨part, hpart, rfl, rfl⟩
  · exact hreceiver part hpart
  · exact hargs part hpart
  · exact hblock part hpart

theorem super (hargs : ∀ part ∈ args, WellPlaced r p.plain part)
    (hblock : ∀ part ∈ block, WellPlaced r p part) :
    WellPlaced r p (.super args block forwardBlock) := by
  refine ⟨trivial, fun q part hpart => ?_⟩
  simp only [partsAt, mem_append, mem_map, Option.mem_toList, Prod.mk.injEq] at hpart
  rcases hpart with ⟨part, hpart, rfl, rfl⟩ | ⟨part, hpart, rfl, rfl⟩
  · exact hargs part hpart
  · exact hblock part hpart

theorem catchBreak {id : BreakId} {inner : Code} (hpasses : inner.passesBlock = true)
    (hinner : WellPlaced r (p.catching id) inner) : WellPlaced r p (.catchBreak id inner) := by
  refine ⟨hpasses, fun q part hpart => ?_⟩
  cases mem_singleton.mp hpart
  exact hinner

theorem ofChildren (hadmits : r.Admits p c) (hparts : c.partsAt p = c.children.map (p.plain, ·))
    (hchildren : ∀ part ∈ c.children, WellPlaced r p.plain part) : WellPlaced r p c := by
  refine ⟨hadmits, fun q part hpart => ?_⟩
  rw [hparts, mem_map] at hpart
  obtain ⟨part, hpart, heq⟩ := hpart
  cases heq
  exact hchildren part hpart

theorem unbound (hc : c.isUnbound = true)
    (hchildren : ∀ part ∈ c.children, WellPlaced r p.plain part) : WellPlaced r p c := by
  cases c with
  | call receiver method args block =>
    obtain rfl : block = none := by simpa [isUnbound] using hc
    refine call (fun part hpart => hchildren part ?_) (fun part hpart => hchildren part ?_) (by simp)
    · simp [children, Option.mem_def.mp hpart]
    · simp [children, hpart]
  | super args block forwardBlock =>
    obtain rfl : block = none := by simpa [isUnbound] using hc
    exact super (fun part hpart => hchildren part (by simp [children, hpart])) (by simp)
  | returnWith | breakWith | nextWith | redo | retry | loop | catchBreak | closure | define
  | openClass => exact absurd hc (by simp [isUnbound])
  | _ => exact ofChildren trivial rfl hchildren

theorem leaf (hc : c.isUnbound = true) (hchildren : c.children = []) : WellPlaced r p c :=
  unbound hc (by simp [hchildren])

theorem inert (h : ∀ part ∈ c.preorder, part.isUnbound = true) : WellPlaced r p c := by
  induction c using inductionOnChildren generalizing p with
  | h c ih =>
    rw [preorder_eq] at h
    refine unbound (h c mem_cons_self) fun part hpart => ih part hpart fun inner hinner => ?_
    exact h inner (mem_cons_of_mem _ (mem_flatMap.mpr ⟨part, hpart, hinner⟩))

/-! ## Sequences -/

theorem join (h : ∀ c ∈ pieces, WellPlaced r p.plain c) :
    WellPlaced r p.plain (Code.join pieces) := by
  refine join_of_forall (P := WellPlaced r p.plain) (fun items hitems c hc => ?_) (fun body result hboth => ?_)
    (leaf rfl rfl) (fun items hitems => unbound rfl hitems) h
  · exact hitems.part (mem_map.mpr ⟨c, hc, rfl⟩)
  · exact hboth.part (mem_map.mpr ⟨body, by simp [children], rfl⟩)

end Code.WellPlaced

end BlockLang
