import BlockLang.Proofs.Lowering.Passage

/-!
# The slots of a body

The slots of a body begin with the names that its parameters declare. What else it has depends on
what it is: a block only gets hidden variables, and a name that is assigned in it goes where it goes
from around the block, to the variable that is known there (`Body.Origin.level_known`) or to a new one
in the nearest body that is no block (`Body.Origin.level_unknown`). Bodies of a `for` are blocks
without parameters.
-/

namespace BlockLang

open List Scopes

/-! ## Declared names -/

theorem nodup_addNames : ∀ {more names : List String}, names.Nodup → (addNames names more).Nodup
  | [], _, h => h
  | name :: rest, names, h => by
    show (addNames (addName names name) rest).Nodup
    refine nodup_addNames ?_
    unfold addName
    split
    · exact h
    · rename_i hnew
      exact nodup_append.mpr ⟨h, by simp, by grind⟩

theorem addNames_of_nodup : ∀ {more names : List String}, (names ++ more).Nodup →
    addNames names more = names ++ more
  | [], names, _ => by simp [addNames]
  | name :: rest, names, h => by
    have hnew : name ∉ names := fun hmem =>
      (nodup_append.mp h).2.2 name hmem name mem_cons_self rfl
    show addNames (addName names name) rest = _
    rw [addName, if_neg (by simpa using hnew), addNames_of_nodup (by simpa using h)]
    simp

/-- A name is declared once, where it comes first. -/
theorem Params.addNames_declaredNames (p : Params) : addNames [] p.declaredNames = p.declaredNames :=
  addNames_of_nodup (nodup_addNames nodup_nil)

/-! ## Where a body comes from -/

namespace Body.Origin

variable {l : Local}

variable {body : Body} {ρ : Policy} {outer : ScopeId} {t t' : LoweringState} {names : List String}
  (h : body.Origin ρ outer t t' names)

include h

theorem source : (∃ k c, ρ.callable k ∧ c.options = ρ.options ∧
      k.Compilation c (t.enter outer body.kind) t' body ∧ names = k.params.declaredNames) ∨
    (∃ target iterable statements, ρ.node ⟨body.span, .forEach target iterable statements⟩ ∧
      body.kind = .block ∧ names = []) ∨
    body.kind ∈ [.topLevel, .classBody, .moduleBody] ∧ names = [] := by
  have hclean := h.passes.mistakes
  obtain ⟨hopen, _, hstems, _, hbody⟩ := h
  generalize hkind : body.kind = kind at *
  generalize harity : body.arity = arity at *
  generalize hspan : body.span = span at *
  generalize hcode : body.code = code at *
  cases hstems with
  | plain hkind => exact Or.inr (Or.inr ⟨hkind, rfl⟩)
  | loop _ target iterable statements _ hnode =>
    exact Or.inr (Or.inl ⟨target, iterable, statements, hnode, rfl, rfl⟩)
  | callable k c hk hscope hoptions hckind hmethod hrun =>
    obtain ⟨scope, hget, _, _, _, hempty⟩ := LoweringState.get?_enter_new hopen.sound
    refine Or.inl ⟨k, c, hk, hoptions, ⟨LoweringState.sound_enter hopen.sound hopen.live, ?_, ?_,
      hckind, hmethod, hcode ▸ hrun, hclean, ?_⟩, rfl⟩
    · rw [hscope]
      rfl
    · exact ⟨scope, hscope ▸ hget, hempty⟩
    · rw [hscope, hcode]
      exact hbody

theorem addNames_names : addNames [] names = names := by
  rcases h.source with ⟨k, _, _, _, _, rfl⟩ | ⟨_, _, _, _, _, rfl⟩ | ⟨_, rfl⟩
  · exact k.params.addNames_declaredNames
  · rfl
  · rfl

theorem get?_begin : ∃ scope : Scope,
    (t.opened outer body.kind names).scopes.get? t.nextBody = some scope ∧
      scope.kind = body.kind ∧ scope.parent = (if body.kind.isClosure then some outer else none) ∧
      scope.slots = names := by
  obtain ⟨scope, hget, hkind, hparent, hslots⟩ := h.opening.get?_new names
  exact ⟨scope, hget, hkind, hparent, hslots.trans h.addNames_names⟩

/-! ## Slots -/

theorem slots_eq (hget : t'.scopes.get? t.nextBody = some scope) : body.slots = scope.slots := by
  rw [h.eq]
  simp [LoweringState.bodyOf, hget]

theorem names_prefix : names <+: body.slots := by
  obtain ⟨scope, hget, _, _, rfl⟩ := h.get?_begin
  obtain ⟨scope', hget', he, _⟩ := h.leads.advances.grows t.nextBody scope hget
  rw [h.slots_eq hget']
  exact he.slots

/-- **A block gets no other slots than for hidden variables.** -/
theorem hidden_of_block (hblock : body.kind = .block) :
    ∀ n ∈ body.slots.drop names.length, isHidden n = true := by
  obtain ⟨scope, hget, hkind, _, rfl⟩ := h.get?_begin
  have ht := h.opening.tidy scope.slots
  have hne : t.nextBody ≠ (t.opened outer body.kind scope.slots).scopes.nearestNonBlock t.nextBody := by
    intro heq
    obtain ⟨home, hhome, hnot⟩ := Scopes.get?_nearestNonBlock ht.sound.wellFormed ht.regular
      (ht.sound.size ▸ ht.live)
    rw [← heq, hget, Option.some.injEq] at hhome
    simp [← hhome, Scope.isBlock, hkind, hblock] at hnot
  obtain ⟨scope', hget', added, hslots, hhidden⟩ := h.leads.fills _ scope hne hget
  rw [h.slots_eq hget', hslots, drop_left]
  exact hhidden

/-! ## References -/

theorem refers_begin (hl : body.code.Refers l) (hvisible : isHidden l.name = false)
    (hr : (t.opened outer body.kind names).scopes.lookup t.nextBody l.name = some r) :
    l.level = r.level ∧ l.slot = r.slot := by
  have ht := h.opening.tidy names
  obtain ⟨scope, hfound⟩ := h.finds.refers hl (by simp [hvisible])
  have hkept := h.leads.keeps t.nextBody (ht.sound.size ▸ ht.live) l.name r (by simp [hvisible]) hr
  rw [hfound, Option.some.injEq] at hkept
  exact ⟨by rw [← hkept], by rw [← hkept]⟩

theorem level_own (hl : body.code.Refers l) (hvisible : isHidden l.name = false)
    (hown : l.name ∈ names) : l.level = 0 := by
  have ht := h.opening.tidy names
  obtain ⟨slot, hslot⟩ := Option.isSome_iff_exists.mp (ht.owned l.name hown)
  exact (h.refers_begin hl hvisible (lookup_of_slotAt ht.sound.wellFormed hslot)).1

theorem slotAt_begin (hx : x ∉ names) :
    (t.opened outer body.kind names).scopes.slotAt t.nextBody x = none := by
  obtain ⟨scope, hget, _, _, rfl⟩ := h.get?_begin
  simp [Scopes.slotAt, hget, Scope.slot?, List.idxOf?_eq_none_iff, hx]

/-- **A name that is known around a closure is the variable it is there**, one body further out. -/
theorem level_known (hclosure : body.kind.isClosure = true) (hl : body.code.Refers l)
    (hvisible : isHidden l.name = false) (hnew : l.name ∉ names)
    (hknown : t.scopes.lookup outer l.name = some r) : l.level = r.level + 1 ∧ l.slot = r.slot := by
  obtain ⟨scope, hget, _, hparent, _⟩ := h.get?_begin
  have hlive := h.opening.sound.size ▸ h.opening.live hclosure
  have hkept := h.opening.keeps names outer hlive l.name r (by simp [hvisible]) hknown
  refine h.refers_begin (r := { r with level := r.level + 1 }) hl hvisible ?_
  rw [lookup_eq (h.opening.tidy names).sound.wellFormed hget, h.slotAt_begin hnew,
    hparent, if_pos hclosure]
  simp [hkept]

theorem outward (hclosure : body.kind.isClosure = true) : t.Leads outer t' := by
  have ht : t.Tidy outer [] :=
    ⟨h.opening.sound, h.opening.regular, h.opening.live hclosure, by simp⟩
  exact h.leads.fromOpened ht

theorem ancestry_end (hclosure : body.kind.isClosure = true) :
    t'.scopes.ancestry t.nextBody = t.nextBody :: t.scopes.ancestry outer := by
  obtain ⟨scope, hget, _, hparent, _⟩ := h.get?_begin
  obtain ⟨scope', hget', he, _⟩ := h.leads.advances.grows t.nextBody scope hget
  have hw' := h.leads.advances.sound.wellFormed
  rw [if_pos hclosure] at hparent
  rw [ancestry_of_parent hw' hget' (he.parent.trans hparent),
    (h.outward hclosure).advances.grows.ancestry h.opening.sound.wellFormed hw'
      (h.opening.sound.size ▸ h.opening.live hclosure)]

/-- A name that is not known around a body is a variable of the nearest body that is no block, and
has its slot there. -/
theorem refers_home (hl : body.code.Refers l) (hvisible : isHidden l.name = false)
    (hnew : l.name ∉ names)
    (hunknown : body.kind.isClosure = true → t.scopes.lookup outer l.name = none) :
    ∃ home scope, home = (t.opened outer body.kind names).scopes.nearestNonBlock t.nextBody ∧
      (t'.scopes.ancestry t.nextBody)[l.level]? = some home ∧ t'.scopes.get? home = some scope ∧
      scope.slots[l.slot]? = some l.name := by
  have hw := h.opening.sound.wellFormed
  have ht := h.opening.tidy names
  have hw₀ := ht.sound.wellFormed
  obtain ⟨home, hfound⟩ := h.finds.refers hl (by simp [hvisible])
  obtain ⟨scope', hat, hget', hslot⟩ := lookup_eq_some hfound
  refine ⟨home, scope', Classical.byContradiction fun hne => ?_, hat, hget', hslot⟩
  have hin := mem_of_getElem? hat
  rw [h.leads.advances.grows.ancestry hw₀ h.leads.advances.sound.wellFormed
    (ht.sound.size ▸ ht.live)] at hin
  obtain ⟨scope, hget⟩ := exists_get? (mem_ancestry hw₀ hin).2
  -- all other scopes only got hidden variables, so the name was there before
  obtain ⟨b, hb, added, hslots, hhidden⟩ := h.leads.fills home scope hne hget
  have hmem : l.name ∈ scope.slots := by
    have hmem := mem_of_getElem? hslot
    rw [Option.some.inj (hget'.symm.trans hb), hslots, mem_append] at hmem
    exact hmem.resolve_right fun hmem => absurd (hhidden _ hmem) (by simp [hvisible])
  obtain ⟨own, hown, _, hparent, rfl⟩ := h.get?_begin
  rw [ancestry_of_get? hw₀ hown, hparent] at hin
  rcases mem_cons.mp hin with rfl | hin
  · exact hnew (Option.some.inj (hown.symm.trans hget) ▸ hmem)
  cases hclosure : body.kind.isClosure with
  | false => simp [hclosure] at hin
  | true =>
    have hlive := h.opening.sound.size ▸ h.opening.live hclosure
    rw [hclosure, if_pos rfl, Option.map_some, Option.getD_some,
      h.opening.grows.ancestry hw hw₀ hlive] at hin
    have hnone := lookup_eq_none_of_mem_ancestry hw hin (hunknown hclosure)
    rw [LoweringState.get?_opened h.opening (h.opening.sound.size ▸ (mem_ancestry hw hin).2)] at hget
    obtain ⟨slot, hslot⟩ := Option.isSome_iff_exists.mp (isSome_idxOf?.mpr hmem)
    have hslotAt : t.scopes.slotAt home l.name = some slot := by
      rw [Scopes.slotAt, hget, Option.bind_some]
      exact hslot
    simp [lookup_of_slotAt hw hslotAt] at hnone

/-- **A name that is not known around a block is a variable of the nearest body that is none**, and
has its slot there. -/
theorem level_unknown (hblock : body.kind = .block) (hl : body.code.Refers l)
    (hvisible : isHidden l.name = false) (hnew : l.name ∉ names)
    (hunknown : t.scopes.lookup outer l.name = none) :
    ∃ i scope, l.level = i + 1 ∧
      (t.scopes.ancestry outer)[i]? = some (t.scopes.nearestNonBlock outer) ∧
      t'.scopes.get? (t.scopes.nearestNonBlock outer) = some scope ∧
      scope.slots[l.slot]? = some l.name := by
  have hclosure : body.kind.isClosure = true := by rw [hblock]; rfl
  have hopen : t.Open outer .block := hblock ▸ h.opening
  obtain ⟨home, scope, hhome, hat, hget, hslot⟩ := h.refers_home hl hvisible hnew fun _ => hunknown
  rw [hblock, hopen.nearestNonBlock_block] at hhome
  subst hhome
  have hmem := nearest_mem_ancestry hopen.sound.wellFormed (hopen.sound.size ▸ hopen.live rfl)
    fun scope => !scope.isBlock
  have hlt := hopen.sound.size ▸ (mem_ancestry hopen.sound.wellFormed hmem).2
  rw [h.ancestry_end hclosure] at hat
  cases hlevel : l.level with
  | zero =>
    rw [hlevel, List.getElem?_cons_zero, Option.some.injEq] at hat
    exact absurd hat (Nat.ne_of_gt hlt)
  | succ i =>
    rw [hlevel, List.getElem?_cons_succ] at hat
    exact ⟨i, scope, rfl, hat, hget, hslot⟩

end Body.Origin

/-- What a body of a program was made of, with the names that are declared for it: those of the
parameters if it was a callable, none otherwise. -/
inductive Body.StemsFrom (body : Body) (p : Program) : List String → Prop
  | callable (k : Callable) (hk : p.HasCallable k) (h : k.CompiledTo body) :
      StemsFrom body p k.params.declaredNames
  | loop {around : List Enclosure} {target : Located Target} {iterable : Located Expr}
      {statements : List (Located Expr)}
      (h : p.Has around ⟨body.span, .forEach target iterable statements⟩) (hkind : body.kind = .block) :
      StemsFrom body p []
  | plain (hkind : body.kind ∈ [.topLevel, .classBody, .moduleBody]) : StemsFrom body p []

theorem Body.Origin.stemsFrom {body : Body} {outer : ScopeId} {t t' : LoweringState}
    {names : List String} (h : body.Origin (p.policy options) outer t t' names) :
    body.StemsFrom p names := by
  rcases h.source with ⟨k, c, ⟨x, ⟨around, hx⟩, hk⟩, _, hcompiled, rfl⟩ |
    ⟨_, _, _, ⟨_, hx⟩, hkind, rfl⟩ | ⟨hkind, rfl⟩
  · exact .callable k ⟨around, x, hx, hk⟩ ⟨c, _, _, hcompiled⟩
  · exact .loop hx hkind
  · exact .plain hkind

/-- `a = (x = 2)`. -/
def Params.assigning : Params :=
  Params.empty.withOptional "a" (Build.assign "x" (Build.integer 2))

namespace Program

/-- **The slots of every body**: first the names that its parameters declare, in order. A block has
only hidden variables besides these, and what its code calls by a name that was not known when the
block was opened has its slot in the nearest body around it that is no block. -/
theorem lower_slotLayout {p : Program} {options : LowerOptions} {u : CodeUnit}
    (h : p.lower options = .ok u) {b : BodyId} {body : Body} (hb : u.body? b = some body) :
    (∃ outer t t' names, body.Origin (p.policy options) outer t t' names) ∧
    ∀ outer t t' names, body.Origin (p.policy options) outer t t' names →
      body.StemsFrom p names ∧ names <+: body.slots ∧
      (body.kind = .block → (∀ n ∈ body.slots.drop names.length, isHidden n = true) ∧
        ∀ l, body.code.Refers l → isHidden l.name = false → l.name ∉ names →
          t.scopes.lookup outer l.name = none →
          ∃ i scope, l.level = i + 1 ∧
            (t.scopes.ancestry outer)[i]? = some (t.scopes.nearestNonBlock outer) ∧
            t'.scopes.get? (t.scopes.nearestNonBlock outer) = some scope ∧
            scope.slots[l.slot]? = some l.name) :=
  ⟨made_of_lower h hb, fun _ _ _ _ horigin => ⟨horigin.stemsFrom, horigin.names_prefix,
    fun hblock => ⟨horigin.hidden_of_block hblock, fun _ => horigin.level_unknown hblock⟩⟩⟩

/-- `proc { |x| for i in x do y, z = i end }`. -/
def loopInBlock : Program where
  body := [Build.callWithBlock none "proc" [] (Build.block (Params.empty.require "x")
    [Build.forEach (Build.localTarget "i") (Build.localVar "x")
      [Build.multiAssign ⟨[Build.localTarget "y", Build.localTarget "z"], none, []⟩
        (Build.localVar "i")]])]

/-- The body of the loop has hidden variables for the parts of `i`, while `y` and `z` are variables of
the program. -/
theorem loopInBlock_slotLayout :
    ∃ u main body names, loopInBlock.lower {} = .ok u ∧ u.body? 0 = some main ∧
      main.slots = ["i", "y", "z"] ∧ u.body? 2 = some body ∧ body.kind = .block ∧
      body.StemsFrom loopInBlock names ∧ names <+: body.slots ∧
      ∀ n ∈ body.slots.drop names.length, isHidden n = true := by
  obtain ⟨hlower, body, hb, hkind⟩ := loopInBlock.lower_body 2 (·.kind == .block) (by decide +kernel)
  obtain ⟨_, main, hmain, hslots⟩ := loopInBlock.lower_body 0 (·.slots == ["i", "y", "z"])
    (by decide +kernel)
  obtain ⟨⟨outer, t, t', names, horigin⟩, hlayout⟩ := lower_slotLayout hlower hb
  obtain ⟨hstems, hprefix, hblock⟩ := hlayout outer t t' names horigin
  exact ⟨_, main, body, names, hlower, hmain, eq_of_beq hslots, hb, eq_of_beq hkind, hstems, hprefix,
    (hblock (eq_of_beq hkind)).1⟩

/-- **What a block assigns**: its own variable if the name is declared by its parameters, and the
variable that is known around it otherwise. -/
theorem lower_blockAssigns {p : Program} {options : LowerOptions} {u : CodeUnit}
    (h : p.lower options = .ok u) {b : BodyId} {body : Body} (hb : u.body? b = some body)
    (hblock : body.kind = .block) :
    (∃ outer t t' names, body.Origin (p.policy options) outer t t' names) ∧
    ∀ outer t t' names, body.Origin (p.policy options) outer t t' names →
      body.StemsFrom p names ∧
      ∀ l value, .writeLocal l value ∈ body.code.preorder → isHidden l.name = false →
        (l.name ∈ names → l.level = 0) ∧
        ∀ r, l.name ∉ names → t.scopes.lookup outer l.name = some r →
          l.level = r.level + 1 ∧ l.slot = r.slot := by
  refine ⟨made_of_lower h hb, fun outer t t' names horigin => ⟨horigin.stemsFrom, ?_⟩⟩
  intro l value hwrite hvisible
  have hrefers : body.code.Refers l := Or.inr ⟨value, hwrite⟩
  have hclosure : body.kind.isClosure = true := by rw [hblock]; rfl
  exact ⟨horigin.level_own hrefers hvisible, fun r => horigin.level_known hclosure hrefers hvisible⟩

/-- `x = 1; proc { |a| x = 2 }`. -/
def assignsInBlock : Program where
  body := [Build.assign "x" (Build.integer 1), Build.callWithBlock none "proc" [] (Build.block
    (Params.empty.require "a") [Build.assign "x" (Build.integer 2)])]

/-- The block assigns the variable `x` of the program, so its parameters do not declare `x`, and what
is known by this name around the block is the first slot of the program. -/
theorem assignsInBlock_outside :
    ∃ u body outer t t' names, assignsInBlock.lower {} = .ok u ∧ u.body? 1 = some body ∧
      body.kind = .block ∧ body.Origin (assignsInBlock.policy {}) outer t t' names ∧
      (∃ value, .writeLocal { level := 1, slot := 0, name := "x" } value ∈ body.code.preorder) ∧
      "x" ∉ names ∧ ∀ r, t.scopes.lookup outer "x" = some r → r.level = 0 ∧ r.slot = 0 := by
  obtain ⟨hlower, body, hb, hfound⟩ := assignsInBlock.lower_body 1 (fun body =>
    body.kind == .block && body.code.accesses true { level := 1, slot := 0, name := "x" })
    (by decide +kernel)
  obtain ⟨hkind, hwrites⟩ := Bool.and_eq_true_iff.mp hfound
  obtain ⟨value, hwrite⟩ := Code.writes_of_accesses hwrites
  obtain ⟨⟨outer, t, t', names, horigin⟩, hassigns⟩ := lower_blockAssigns hlower hb (eq_of_beq hkind)
  obtain ⟨hown, hknown⟩ := (hassigns outer t t' names horigin).2 _ value hwrite (by decide)
  have hnew : "x" ∉ names := fun hx => absurd (hown hx) (by decide)
  refine ⟨_, body, outer, t, t', names, hlower, hb, eq_of_beq hkind, horigin, ⟨value, hwrite⟩, hnew, ?_⟩
  intro r hr
  obtain ⟨hlevel, hslot⟩ := hknown r hnew hr
  exact ⟨Nat.succ.inj hlevel.symm, hslot.symm⟩

/-- `x = 1; proc { |a = (x = 2)| a }`. -/
def assignsInDefault : Program where
  body := [Build.assign "x" (Build.integer 1),
    Build.callWithBlock none "proc" [] (Build.block .assigning [Build.localVar "a"])]

/-- **A default value that assigns a name makes it the block's own**: `x` is known around the block
and no parameter of it, but the block has a second slot for it. -/
theorem assignsInDefault_inside :
    ∃ u main body value, assignsInDefault.lower {} = .ok u ∧ u.body? 0 = some main ∧
      main.slots = ["x"] ∧ u.body? 1 = some body ∧ body.kind = .block ∧
      "x" ∉ Params.assigning.boundNames ∧ Params.assigning.blockLocals = [] ∧
      .writeLocal { level := 0, slot := 1, name := "x" } value ∈ body.code.preorder := by
  obtain ⟨hlower, main, hmain, hslots⟩ := assignsInDefault.lower_body 0 (·.slots == ["x"])
    (by decide +kernel)
  obtain ⟨_, body, hb, hfound⟩ := assignsInDefault.lower_body 1 (fun body =>
    body.kind == .block && body.code.accesses true { level := 0, slot := 1, name := "x" })
    (by decide +kernel)
  obtain ⟨hkind, hwrites⟩ := Bool.and_eq_true_iff.mp hfound
  obtain ⟨value, hwrite⟩ := Code.writes_of_accesses hwrites
  exact ⟨_, main, body, value, hlower, hmain, eq_of_beq hslots, hb, eq_of_beq hkind,
    by decide +kernel, rfl, hwrite⟩

end Program

end BlockLang
