import BlockLang.Proofs.Lowering.Building

/-!
# Flat sequences

Joining opens the sequences among its pieces, and leaves out the results that nobody needs. It looks
into the pieces once and no deeper, so what it makes is flat only because the pieces are: no other
code is a sequence, and what comes before a result that may be left out has no such result at its
end, as an assignment never is one (`Code.isFlat`). **Every sequence in the code of a program has two
items or more, none of them is a sequence, and only of the last the result may be left out**
(`Program.lower_flattens`).
-/

namespace BlockLang

open List

namespace Code

def isSequence : Code → Bool
  | .sequence _ => true
  | _ => false

/-- Items that joining leaves as they are. -/
structure AreFlat (items : List Code) : Prop where
  opened : ∀ c ∈ items, c.isSequence = false
  elided : ∀ c ∈ items.dropLast, c.isElidable = false

/-- The node is flat, or a sequence of flat items. -/
def IsTrim : Code → Prop
  | .sequence items => 2 ≤ items.length ∧ AreFlat items
  | c => c.isFlat = true

/-- All the nodes of the code are trim. -/
def Trim (c : Code) : Prop := ∀ part ∈ c.preorder, part.IsTrim

variable {c : Code} {codes : List Code}

theorem trim_iff : c.Trim ↔ c.IsTrim ∧ ∀ part ∈ c.children, part.Trim := forall_preorder

theorem Trim.node (hc : c.isFlat = true) (h : ∀ part ∈ c.children, part.Trim) : c.Trim := by
  refine trim_iff.mpr ⟨?_, h⟩
  cases c with
  | sequence items => cases hc
  | _ => exact hc

theorem Trim.leaf (hc : c.isFlat = true) (h : c.children = []) : c.Trim := .node hc (by simp [h])

/-- Pieces of trim code that a sequence can have. -/
def IsItem (c : Code) : Prop := c.Trim ∧ c.isSequence = false

theorem Trim.items (h : c.Trim) : ∀ item ∈ c.items, item.IsItem := by
  intro item hitem
  obtain ⟨hself, hparts⟩ := trim_iff.mp h
  cases c with
  | sequence items => exact ⟨hparts item hitem, hself.2.opened item hitem⟩
  | _ =>
    rw [mem_singleton.mp hitem]
    exact ⟨h, rfl⟩

theorem IsItem.effectItems (h : c.IsItem) :
    ∀ item ∈ c.effectItems, item.IsItem ∧ item.isElidable = false := by
  intro item hitem
  obtain ⟨hself, hparts⟩ := trim_iff.mp h.1
  cases c with
  | elidable body result =>
    refine ⟨(hparts body mem_cons_self).items item hitem, ?_⟩
    have hsolid := all_eq_true.mp hself item hitem
    cases item with
    | elidable => cases hsolid
    | _ => rfl
  | _ =>
    rw [mem_singleton.mp hitem]
    exact ⟨h, rfl⟩

theorem elideResults_ne_nil : ∀ {codes : List Code}, codes ≠ [] → elideResults codes ≠ []
  | [], h => absurd rfl h
  | [_], _ => cons_ne_nil _ _
  | _ :: d :: rest, _ =>
    append_ne_nil_of_right_ne_nil _ (elideResults_ne_nil (cons_ne_nil d rest))

theorem isItem_elideResults : ∀ {codes : List Code}, (∀ c ∈ codes, c.IsItem) →
    (∀ c ∈ elideResults codes, c.IsItem) ∧ ∀ c ∈ (elideResults codes).dropLast, c.isElidable = false
  | [], h | [_], h => ⟨h, forall_mem_nil _⟩
  | c :: d :: rest, h => by
    have hfirst := (h c mem_cons_self).effectItems
    have hrest := isItem_elideResults fun x hx => h x (mem_cons_of_mem _ hx)
    rw [elideResults_cons, dropLast_append_of_ne_nil (elideResults_ne_nil (cons_ne_nil d rest))]
    exact ⟨forall_mem_append.mpr ⟨fun x hx => (hfirst x hx).1, hrest.1⟩,
      forall_mem_append.mpr ⟨fun x hx => (hfirst x hx).2, hrest.2⟩⟩

theorem Trim.join (h : ∀ c ∈ codes, c.Trim) : (join codes).Trim := by
  have hpieces : ∀ item ∈ codes.flatMap Code.items, item.IsItem := by
    intro item hitem
    obtain ⟨c, hc, hitem⟩ := mem_flatMap.mp hitem
    exact (h c hc).items item hitem
  obtain ⟨hitems, helided⟩ := isItem_elideResults hpieces
  unfold Code.join
  cases hcodes : elideResults (codes.flatMap Code.items) with
  | nil => exact .leaf rfl rfl
  | cons first rest =>
    rw [hcodes] at hitems helided
    cases rest with
    | nil => exact (hitems first mem_cons_self).1
    | cons second rest =>
      refine trim_iff.mpr ⟨⟨by simp, fun c hc => (hitems c hc).2, helided⟩, ?_⟩
      exact fun c hc => (hitems c hc).1

theorem Trim.ifElse (hc : condition.Trim) (h₁ : first.Trim) (h₂ : second.Trim) :
    (Code.ifElse condition first second).Trim := by
  refine .node rfl ?_
  simp [Code.children, hc, h₁, h₂]

theorem Trim.writeLocal (h : value.Trim) : (writeLocal l value).Trim :=
  .node rfl (forall_mem_singleton.mpr h)

theorem Trim.ofRead (hc : c.isFlat = true) (h : c.children = [.readLocal l]) : c.Trim :=
  .node hc (h ▸ forall_mem_singleton.mpr (.leaf rfl rfl))

end Code

/-- The code at hand is trim. -/
def Supply.Trim : Supply → Prop
  | .code c => c.Trim
  | _ => True

/-- The code of all bodies is trim. -/
def LoweringState.Trim (s : LoweringState) : Prop :=
  ∀ b body, s.unit.body? b = some body → body.code.Trim

theorem LoweringState.Trim.finish {s : LoweringState} (h : s.Trim) (hbody : body.code.Trim) :
    (s.finish body).Trim :=
  LoweringState.forall_finish (.leaf rfl rfl) h hbody

/-- **What is put together from trim code is trim**, and so are the bodies that are finished. -/
theorem Emits.trim (h : Emits ρ N k E s G s') (hE : ∀ x ∈ E, x.Trim) (hs : s.Trim) :
    (∀ x ∈ G, x.Trim) ∧ s'.Trim := by
  have hcodes : ∀ {G : List Supply} {codes : List Code}, (∀ x ∈ G, x.Trim) →
      (∀ c ∈ codes, .code c ∈ G) → (Code.join codes).Trim :=
    fun hG hcodes => .join fun c hc => hG _ (hcodes c hc)
  have hmade : ∀ {codes : List Code}, (∀ x ∈ codes.map Supply.code, x.Trim) →
      (Code.join codes).Trim :=
    fun h => hcodes h fun c hc => mem_map.mpr ⟨c, hc, rfl⟩
  induction h with
  | supplied hG => exact ⟨fun x hx => hE x (hG x hx), hs⟩
  | step _ _ ih₁ ih₂ =>
    obtain ⟨hG, hs₁⟩ := ih₁ hE hs
    exact ih₂ (forall_mem_append.mpr ⟨hG, hE⟩) hs₁
  | node hc hparts =>
    refine ⟨forall_mem_singleton.mpr (.node (Bool.and_eq_true_iff.mp hc).2 ?_), hs⟩
    exact fun part hpart => hE _ (hparts part hpart)
  | join hpieces => exact ⟨forall_mem_singleton.mpr (hcodes hE hpieces), hs⟩
  | read => exact ⟨forall_mem_singleton.mpr (.leaf rfl rfl), hs⟩
  | write _ hvalue => exact ⟨forall_mem_singleton.mpr (.writeLocal (hE _ hvalue)), hs⟩
  | take _ htakes =>
    cases htakes <;> exact ⟨forall_mem_singleton.mpr (.ofRead rfl rfl), hs⟩
  | reference | readable => exact ⟨forall_mem_singleton.mpr trivial, hs⟩
  | spread onNil size hvalue _ _ _ ih₁ ih₂ ih₃ =>
    obtain ⟨hlarge, hs₁⟩ := ih₁ (forall_mem_cons.mpr ⟨trivial, hE⟩) hs
    obtain ⟨hsmall, hs₂⟩ := ih₂ (forall_mem_cons.mpr ⟨trivial, hE⟩) hs₁
    obtain ⟨hnothing, hs₃⟩ := ih₃ hE hs₂
    refine ⟨forall_mem_singleton.mpr (.join (forall_mem_cons.mpr ⟨.writeLocal ?_,
      forall_mem_singleton.mpr (.ifElse (.ofRead rfl rfl) (hmade hnothing)
        (.ifElse (.ofRead rfl rfl) (hmade hlarge) (hmade hsmall)))⟩)), hs₃⟩
    exact .node rfl (forall_mem_singleton.mpr (hE _ hvalue))
  | eitherWay hpositional _ ih =>
    obtain ⟨hitems, hs'⟩ := ih (forall_mem_cons.mpr ⟨trivial, hE⟩) hs
    refine ⟨forall_mem_singleton.mpr (.ifElse (.leaf rfl rfl)
      (.join (forall_mem_cons.mpr ⟨.writeLocal ?_, fun c hc => ?_⟩)) (hcodes hE hpositional)), hs'⟩
    · exact .node rfl (forall_mem_singleton.mpr (.leaf rfl rfl))
    · exact hitems _ (mem_map.mpr ⟨c, hc, rfl⟩)
  | loop _ ih => exact ih hE hs
  | body name arity span _ _ _ _ ih =>
    obtain ⟨hcode, hs'⟩ := ih (fun x hx => by obtain ⟨_, _, rfl⟩ := mem_map.mp hx; trivial) hs
    exact ⟨forall_mem_nil _, hs'.finish (hcode _ mem_cons_self)⟩

/-- **Results that nobody needs are left out.** In the code of every body of an accepted program,
however deep, a sequence has two items or more, none of them a sequence, and none but the last has a
result that may be left out. -/
theorem Program.lower_flattens {p : Program} {options : LowerOptions} {u : CodeUnit}
    (h : p.lower options = .ok u) {b : BodyId} {body : Body} (hb : u.body? b = some body)
    {items : List Code} (hitems : .sequence items ∈ body.code.preorder) :
    2 ≤ items.length ∧ (∀ c ∈ items, c.isSequence = false) ∧
      ∀ c ∈ items.dropLast, c.isElidable = false := by
  obtain ⟨hclean, rfl⟩ := lower_ok_iff.mp h
  obtain ⟨codes, s, ⟨hemits, -, -⟩, heq⟩ := p.puts options hclean
  rw [heq] at hb
  obtain ⟨hcodes, hs⟩ := hemits.trim (forall_mem_nil _) fun b body hbody => by
    simp [LoweringState.enter, CodeUnit.body?] at hbody
  have hmain : (Code.join codes).Trim := .join fun c hc => hcodes _ (mem_map.mpr ⟨c, hc, rfl⟩)
  obtain ⟨hlength, hopened, helided⟩ := hs.finish hmain b body hb _ hitems
  exact ⟨hlength, hopened, helided⟩

/-- `a, b = 1, 2; c, d = a` -/
def Program.twoAssignments : Program where
  body := [
    Build.multiAssign ⟨[Build.localTarget "a", Build.localTarget "b"], none, []⟩
      (Build.array [Build.integer 1, Build.integer 2]),
    Build.multiAssign ⟨[Build.localTarget "c", Build.localTarget "d"], none, []⟩
      (Build.localVar "a")]

/-- The first assignment is discarded, so `twoAssignments` is one sequence: the two items and the two
assignments of the first, and the second with its result. -/
theorem Program.twoAssignments_flat : ∃ body items,
    twoAssignments.lower {} = .ok (twoAssignments.lowering {}).unit ∧
      (twoAssignments.lowering {}).unit.body? 0 = some body ∧ body.code = .sequence items ∧
      items.length = 5 ∧ (∀ c ∈ items, c.isSequence = false) ∧
      ∀ c ∈ items.dropLast, c.isElidable = false := by
  obtain ⟨hlower, body, hbody, hcode⟩ := twoAssignments.lower_body 0 (fun body =>
    body.code.isSequence && body.code.items.length == 5) (by decide +kernel)
  obtain ⟨hsequence, hlength⟩ := Bool.and_eq_true_iff.mp hcode
  cases hcode : body.code with
  | sequence items =>
    have hmem : .sequence items ∈ body.code.preorder := hcode ▸ body.code.self_mem_preorder
    rw [hcode] at hlength
    obtain ⟨_, hopened, helided⟩ := lower_flattens hlower hbody hmem
    exact ⟨body, items, hlower, hbody, hcode, beq_iff_eq.mp hlength, hopened, helided⟩
  | _ =>
    rw [hcode] at hsequence
    cases hsequence

end BlockLang
