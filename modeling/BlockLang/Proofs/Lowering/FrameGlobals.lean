import BlockLang.Proofs.Lowering.Forwarding
import BlockLang.Proofs.Lowering.Homes
import BlockLang.Proofs.Lowering.Layout

/-!
# The variables that a method has for itself

`$~` and `$_` look like global variables, and they are local ones: of the nearest body that is no
block, where all blocks in it share them. That is where one gets its slot, but only if there is none
to be seen. A look-up does not stop at a lambda, so **a lambda that is written after a mention of
`$~` has that of the body around it**, and one that is written before has its own
(`Program.lower_frameGlobals`).
-/

namespace BlockLang

open List

/-! ## Reads and writes -/

theorem Lower.frameGlobal_accesses (hn : isFrameGlobal n = true) (span : Span) (c : Context)
    (s : LoweringState) : ∃ l s', l.name = frameGlobalSlot n ∧
      Lower.expr ⟨span, .globalVar n⟩ c s = .ok (.readLocal l) s' ∧
      ∀ value, Lower.assign ⟨span, .globalVar n⟩ value c s = .ok (.writeLocal l value) s' := by
  refine ⟨(s.scopes.resolveFrameGlobal c.scope n).1,
    { s with scopes := (s.scopes.resolveFrameGlobal c.scope n).2 },
    Scopes.name_answer (r := .frameGlobal n) rfl, ?_, fun value => ?_⟩
  · rw [Lower.expr, Lower.readGlobal, if_pos hn]
    rfl
  · rw [Lower.assign, Lower.writeGlobal, if_pos hn]
    rfl

/-! ## Homes -/

/-- The way home is through blocks. -/
theorem CodeUnit.Home.ancestor? {u : CodeUnit} {b : BodyId} (h : u.Home b home) :
    ∃ d, u.ancestor? d b = some home ∧ ∀ i < d, ∀ a inner, u.ancestor? i b = some a →
      u.body? a = some inner → inner.kind = .block := by
  induction h with
  | self => exact ⟨0, rfl, fun i hi => absurd hi (Nat.not_lt_zero i)⟩
  | block hb hkind hp _ ih =>
    obtain ⟨d, hd, hblocks⟩ := ih
    refine ⟨d + 1, (ancestor?_succ d hp).trans hd, fun i hi a inner ha hinner => ?_⟩
    cases i with
    | zero =>
      obtain rfl := Option.some.inj ha
      exact Option.some.inj (hinner.symm.trans hb) ▸ hkind
    | succ i => exact hblocks i (Nat.lt_of_succ_lt_succ hi) a inner (ancestor?_succ i hp ▸ ha) hinner

theorem LoweringState.Complete.nearestNonBlock_eq {s : LoweringState} (hs : s.Complete)
    {b : BodyId} (h : s.unit.Home b home) : s.scopes.nearestNonBlock b = home := by
  have hw := hs.sound.wellFormed
  induction h with
  | self hb hkind =>
    obtain ⟨scope, hf⟩ := hs.finished_of_body? hb
    exact Scopes.nearestNonBlock_self hw hf.scope (by simp [Scope.isBlock, ← hf.kind, hkind])
  | block hb hkind hp _ ih =>
    obtain ⟨scope, hf⟩ := hs.finished_of_body? hb
    rw [hs.parent?_eq hf.scope] at hp
    exact (Scopes.nearestNonBlock_of_block hw hf.scope (by simp [Scope.isBlock, ← hf.kind, hkind])
      hp).trans ih

namespace Program

variable {p : Program} {options : LowerOptions} {u : CodeUnit} {b : BodyId} {body : Body}

/-- A name that a body gets no other way goes home. -/
theorem home_of_unknown (h : p.lower options = .ok u) (hb : u.body? b = some body)
    (horigin : body.Origin (p.policy options) outer t t' names)
    (hgrows : Scopes.Grows live t'.scopes (p.lowering options).scopes) (hhome : u.Home b home)
    (hl : body.code.Refers l) (hvisible : isHidden l.name = false) (hnew : l.name ∉ names)
    (hunknown : body.kind.isClosure = true → t.scopes.lookup outer l.name = none) :
    u.ancestor? l.level b = some home := by
  have hid : b = t.nextBody :=
    ((lower_wellScoped h).id hb).symm.trans (congrArg Body.id horigin.eq)
  obtain ⟨hclean, rfl⟩ := lower_ok_iff.mp h
  have hcomplete := complete hclean
  have hw := hcomplete.sound.wellFormed
  have ht := horigin.opening.tidy names
  have ha := horigin.leads.advances
  have hlt : t.nextBody < t'.scopes.size :=
    Nat.lt_of_lt_of_le (ht.sound.size ▸ ht.live) ha.grows.size_le
  obtain ⟨_, _, rfl, hat, _⟩ := horigin.refers_home hl hvisible hnew hunknown
  -- homes do not change, neither while the body is lowered nor later
  rw [← Scopes.nearestNonBlock_grows ht.sound.wellFormed ha.sound.wellFormed ht.regular ha.grows
      (ht.sound.size ▸ ht.live),
    ← Scopes.nearestNonBlock_grows ha.sound.wellFormed hw horigin.leads.regular hgrows hlt,
    ← hid, hcomplete.nearestNonBlock_eq hhome] at hat
  rw [hcomplete.ancestor?_eq _ (hcomplete.sound.size ▸ Nat.lt_of_lt_of_le (hid ▸ hlt) hgrows.size_le),
    hgrows.ancestry ha.sound.wellFormed hw (hid ▸ hlt)]
  exact hid ▸ hat

/-- **Where `$~` and `$_` are.** Every access is one to a local variable. If a variable of this name
is known around a closure when lowering comes to it, that is the one, unless a parameter has the
name; if none is known, it is the one of the nearest body that is no block. So a variable that is
nearer is a parameter, and one further out is of a lambda that has none. -/
theorem lower_frameGlobals (h : p.lower options = .ok u) (hb : u.body? b = some body) :
    (∀ n, isFrameGlobal n = true →
      (∀ span c s, ∃ l s', l.name = frameGlobalSlot n ∧
        Lower.expr ⟨span, .globalVar n⟩ c s = .ok (.readLocal l) s' ∧
        ∀ value, Lower.assign ⟨span, .globalVar n⟩ value c s = .ok (.writeLocal l value) s') ∧
      .readGlobal n ∉ body.code.preorder ∧ ∀ value, .writeGlobal n value ∉ body.code.preorder) ∧
    ∃ outer t t' names home d homeBody, body.Origin (p.policy options) outer t t' names ∧
      body.StemsFrom p names ∧ u.Home b home ∧ u.ancestor? d b = some home ∧
      u.body? home = some homeBody ∧
      ∀ l n, body.code.Refers l → l.name = frameGlobalSlot n →
        (l.name ∈ names → l.level = 0) ∧
        (l.name ∉ names → body.kind.isClosure = true → ∀ r, t.scopes.lookup outer l.name = some r →
          l.level = r.level + 1 ∧ l.slot = r.slot) ∧
        (l.name ∉ names → (body.kind.isClosure = true → t.scopes.lookup outer l.name = none) →
          l.level = d ∧ homeBody.slots[l.slot]? = some l.name) ∧
        (l.level < d → ∃ a owner names, u.ancestor? l.level b = some a ∧ u.body? a = some owner ∧
          owner.kind = .block ∧ owner.StemsFrom p names ∧ l.name ∈ names) ∧
        (d < l.level → homeBody.kind = .lambda ∧ l.name ∉ homeBody.slots) := by
  obtain ⟨outer, t, t', names, live, horigin, hgrows, _⟩ := madeBefore_of_lower h hb
  obtain ⟨home, hhome⟩ := home_of_lower h b hb
  obtain ⟨d, hd, hblocks⟩ := hhome.ancestor?
  obtain ⟨homeBody, hhomeBody, hkind⟩ := hhome.body?
  have hnever : ∀ {n part}, part ∈ body.code.preorder → isFrameGlobal n = true →
      part ≠ .readGlobal n ∧ ∀ value, part ≠ .writeGlobal n value := by
    intro n part hpart hn
    have huses := horigin.finds part hpart
    constructor
    · rintro rfl
      exact absurd (hn.symm.trans huses) (by simp)
    · rintro value rfl
      exact absurd (hn.symm.trans huses) (by simp)
  refine ⟨fun n hn => ⟨Lower.frameGlobal_accesses hn, fun hmem => (hnever hmem hn).1 rfl,
    fun value hmem => (hnever hmem hn).2 value rfl⟩, outer, t, t', names, home, d, homeBody, horigin,
    horigin.stemsFrom, hhome, hd, hhomeBody, fun l n hl hname => ?_⟩
  have hvisible : isHidden l.name = false := hname ▸ Scopes.isHidden_frameGlobalSlot n
  obtain ⟨⟨a, owner, ha, howner, hslot⟩, hnearest⟩ := nearest_of_lower h hb hl hvisible
  refine ⟨horigin.level_own hl hvisible, fun hnew hclosure r =>
    horigin.level_known hclosure hl hvisible hnew, fun hnew hunknown => ?_, fun hlt => ?_,
    fun hlt => ⟨?_, hnearest d hlt home homeBody hd hhomeBody⟩⟩
  · have hat := home_of_unknown h hb horigin hgrows hhome hl hvisible hnew hunknown
    obtain rfl : a = home := Option.some.inj (ha.symm.trans hat)
    obtain rfl : owner = homeBody := Option.some.inj (howner.symm.trans hhomeBody)
    refine ⟨?_, hslot⟩
    rcases Nat.lt_trichotomy l.level d with hlt | heq | hgt
    · exact absurd (hblocks _ hlt _ _ ha howner) hkind
    · exact heq
    · exact absurd (mem_of_getElem? hslot) (hnearest d hgt _ _ hd howner)
  · have hblock := hblocks _ hlt _ _ ha howner
    obtain ⟨_, _, _, declared, hmade⟩ := made_of_lower h howner
    refine ⟨a, owner, declared, ha, howner, hblock, hmade.stemsFrom, ?_⟩
    have hmem := mem_of_getElem? hslot
    rw [← take_append_drop declared.length owner.slots, ← prefix_iff_eq_take.mp hmade.names_prefix,
      mem_append] at hmem
    exact hmem.resolve_right fun hmem =>
      absurd (hmade.hidden_of_block hblock _ hmem) (by simp [hvisible])
  · -- there is a body around the home, and it is no block
    obtain ⟨k, hk⟩ := Nat.exists_eq_add_of_lt hlt
    rw [hk, Nat.add_assoc, CodeUnit.ancestor?_add, hd, Option.bind_some] at ha
    obtain ⟨q, hq, _⟩ := Option.bind_eq_some_iff.mp ha
    have hclosure := (lower_wellScoped h).root hhomeBody hq
    cases hhomeKind : homeBody.kind with
    | lambda => rfl
    | block => exact absurd hhomeKind hkind
    | _ => simp [hhomeKind, BodyKind.isClosure] at hclosure

/-- `-> { proc { $~ = 1 } }; $~ = 2`. -/
def matchInBlock : Program where
  body := [Build.lambda Params.empty [Build.callWithBlock none "proc" [] (Build.block Params.empty
      [Build.assignTo (.bare (.globalVar "~")) (Build.integer 1)])],
    Build.assignTo (.bare (.globalVar "~")) (Build.integer 2)]

example : (matchInBlock.lowering {}).unit.bodies.map (·.slots) = #[["$~"], ["$~"], []] := by
  decide +kernel

/-- The block in `matchInBlock` assigns the `$~` of the lambda around it, because the one of the
program comes later. -/
theorem matchInBlock_frameGlobals :
    ∃ u body l value, matchInBlock.lower {} = .ok u ∧ u.body? 2 = some body ∧
      l = { level := 1, slot := 0, name := "$~", kind := .frameGlobal } ∧
      .writeLocal l value ∈ body.code.preorder ∧ .readGlobal "~" ∉ body.code.preorder ∧
      ∃ outer t t' names home d homeBody, body.Origin (matchInBlock.policy {}) outer t t' names ∧
        u.Home 2 home ∧ u.ancestor? d 2 = some home ∧ u.body? home = some homeBody ∧
        (d < l.level → homeBody.kind = .lambda ∧ l.name ∉ homeBody.slots) := by
  obtain ⟨hlower, body, hb, hwrites⟩ := matchInBlock.lower_body 2 (·.code.accesses true
    { level := 1, slot := 0, name := "$~", kind := .frameGlobal }) (by decide +kernel)
  obtain ⟨value, hwrite⟩ := Code.writes_of_accesses hwrites
  obtain ⟨hnever, outer, t, t', names, home, d, homeBody, horigin, _, hhome, hd, hbody, hplace⟩ :=
    lower_frameGlobals hlower hb
  exact ⟨_, body, _, value, hlower, hb, rfl, hwrite, (hnever "~" rfl).2.1, outer, t, t', names, home,
    d, homeBody, horigin, hhome, hd, hbody, (hplace _ "~" (Or.inr ⟨value, hwrite⟩) rfl).2.2.2.2⟩

/-- `$~ = 1; f = -> { $~ = 2 }; f.call; $~`. -/
def matchInLambda : Program where
  body := [Build.assignTo (.bare (.globalVar "~")) (Build.integer 1),
    Build.assign "f" (Build.lambda Params.empty
      [Build.assignTo (.bare (.globalVar "~")) (Build.integer 2)]),
    Build.call (Build.localVar "f") "call" [], Build.globalVar "~"]

/-- The lambda in `matchInLambda` has no `$~` of its own. It assigns the one of the program, which
was mentioned before. -/
theorem matchInLambda_outside :
    ∃ u main body value, matchInLambda.lower {} = .ok u ∧ u.body? 0 = some main ∧
      main.slots = ["$~", "f"] ∧ u.body? 1 = some body ∧ body.kind = .lambda ∧ body.slots = [] ∧
      .writeLocal { level := 1, slot := 0, name := "$~", kind := .frameGlobal } value ∈
        body.code.preorder := by
  obtain ⟨hlower, main, hmain, hslots⟩ := matchInLambda.lower_body 0 (·.slots == ["$~", "f"])
    (by decide +kernel)
  obtain ⟨_, body, hb, hfound⟩ := matchInLambda.lower_body 1 (fun body => body.kind == .lambda &&
    body.slots == [] && body.code.accesses true
      { level := 1, slot := 0, name := "$~", kind := .frameGlobal }) (by decide +kernel)
  simp only [Bool.and_eq_true, beq_iff_eq] at hfound
  obtain ⟨value, hwrite⟩ := Code.writes_of_accesses hfound.2
  exact ⟨_, main, body, value, hlower, hmain, eq_of_beq hslots, hb, hfound.1.1, hfound.1.2, hwrite⟩

end Program

end BlockLang
