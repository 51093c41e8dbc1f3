import BlockLang.Proofs.Code.Sites
import BlockLang.Proofs.Lowering.Emission
import BlockLang.Proofs.Lowering.Identities

/-!
# Where lowered code stands

While lowering goes on, code is held against the bodies and loops there are so far
(`LoweringState.register`), and more come: what may stand somewhere may stand there later
(`Supply.Sits.later`). `Ground` is what holds of the state in between: the bodies that have been
finished are well placed (`Code.WellPlaced`).

Only a loop has to be looked at twice, because it borrows the `break` of the scope around it. A
`break` counts as that of a loop once no scope has it any more, so code inside the loop may only be
held against the scopes as they are after it. There `first`, the number of the first identity of the
part, tells the loops inside from what the scope had before.
-/

namespace BlockLang

open Lowers (Reaches)

/-! ## What there is while lowering goes on -/

/-- The finished bodies so far, and the `break`s from `first` on that no scope has. -/
def LoweringState.register (s : LoweringState) (first : Nat) : Register where
  Has b body := s.unit.body? b = some body ∧ body ≠ CodeUnit.placeholder b
  IsLoop id := first ≤ id.index ∧ id.index < s.scopes.nextBreak ∧ ∀ k, s.breakOf k ≠ some id

/-- The site of what is lowered in the context. -/
def Context.site (c : Context) (s : LoweringState) : Site :=
  { returns := s.returnOf c.scope, breaks := s.breakOf c.scope,
    inside := c.kind.isClosure || c.inLoop }

/-- Code at hand may stand at the site. -/
def Supply.WellPlaced (r : Register) (p : Site) : Supply → Prop
  | .code c => c.WellPlaced r p
  | .reference _ | .readable _ | .items _ | .own _ => True

theorem Supply.WellPlaced.within {x : Supply} (h : x.WellPlaced r p) (hr : r.Within r') :
    x.WellPlaced r' p := by
  cases x with
  | code c => exact Code.WellPlaced.within h hr
  | reference | readable | items | own => trivial

/-- It may stand where the context is. -/
def Supply.Sits (c : Context) (first : Nat) (s : LoweringState) (x : Supply) : Prop :=
  x.WellPlaced (s.register first) (c.site s)

/-- The body at the place is finished: it has the identities of its scope, and its code stands where
it may. -/
structure LoweringState.Files (s : LoweringState) (first : Nat) (b : BodyId) (body : Body) : Prop
    where
  matching : s.Matches b body
  placed : body.code.WellPlaced (s.register first) body.site

/-- The scope at the place has the identities that it had. -/
structure LoweringState.Alike (s s' : LoweringState) (b : BodyId) : Prop where
  kindOf : s'.kindOf b = s.kindOf b
  breakOf : s'.breakOf b = s.breakOf b
  returnOf : s'.returnOf b = s.returnOf b

theorem LoweringState.Alike.of_get? {s s' : LoweringState}
    (h : s'.scopes.get? b = s.scopes.get? b) : s.Alike s' b := by
  constructor <;> simp only [LoweringState.kindOf, LoweringState.breakOf, LoweringState.returnOf, h]

theorem LoweringState.Files.within {s s' : LoweringState} {first : Nat}
    (h : s.Files first b body) (hsame : s.Alike s' b)
    (hr : (s.register first).Within (s'.register first')) : s'.Files first' b body := by
  obtain ⟨⟨hkind, hbreak, hreturn, hbreaks, hreturns⟩, hplaced⟩ := h
  exact ⟨⟨hsame.kindOf.trans hkind, hbreak.trans hsame.breakOf.symm,
    hreturn.trans hsame.returnOf.symm, hbreaks, hreturns⟩, hplaced.within hr⟩

/-- The finished bodies from `start` on are well placed, as far as there are any. -/
structure Ground (c : Context) (first start : Nat) (s : LoweringState) : Prop where
  sound : s.Sound
  scope : c.scope < s.nextBody
  apart : s.Apart
  issued : first ≤ s.scopes.nextBreak
  bodies : ∀ b body, start ≤ b → s.unit.body? b = some body →
    body = CodeUnit.placeholder b ∨ s.Files first b body

section Later

variable {c : Context} {s s' : LoweringState} {first start : Nat}

theorem Lowers.Reaches.issues (h : Reaches c s s') (hs : s.Sound) (hk : c.scope < s.nextBody)
    (ha : s.Apart) : s.Issues s' :=
  let ⟨_, h⟩ := h
  h.issues hs hk ha

theorem Lowers.Reaches.breakOf (h : Reaches c s s') (hs : s.Sound) (hk : k < s.nextBody) :
    s'.breakOf k = s.breakOf k :=
  let ⟨_, h⟩ := h
  h.breakOf hs hk

theorem Lowers.Reaches.alike (h : Reaches c s s') (hs : s.Sound) (hk : c.scope < s.nextBody)
    (hb : b < s.nextBody) : s.Alike s' b :=
  have ha := h.advances hs hk
  ⟨ha.kindOf hs hb, h.breakOf hs hb, ha.returnOf hs hb⟩

theorem Lowers.Reaches.site (h : Reaches c s s') (hs : s.Sound) (hk : c.scope < s.nextBody) :
    c.site s' = c.site s := by
  unfold Context.site
  rw [(h.alike hs hk hk).returnOf, h.breakOf hs hk]

theorem Lowers.Reaches.register (h : Reaches c s s') (hs : s.Sound) (hk : c.scope < s.nextBody)
    (ha : s.Apart) : (s.register first).Within (s'.register first) := by
  have hi := h.issues hs hk ha
  refine ⟨fun hb => ⟨(h.advances hs hk).body? hs hb.1, hb.2⟩, fun {id} hid => ?_⟩
  obtain ⟨hfirst, hissued, hfree⟩ := hid
  refine ⟨hfirst, Nat.lt_of_lt_of_le hissued hi.nextBreak_le, fun k hid' => ?_⟩
  rcases Nat.lt_or_ge k s.nextBody with hlt | hge
  · rw [h.breakOf hs hlt] at hid'
    exact hfree k hid'
  · have hlater := hi.later hge hid'
    omega

theorem Supply.Sits.later {x : Supply} (h : x.Sits c first s) (hg : Ground c first start s)
    (hreach : Reaches c s s') : x.Sits c first s' := by
  unfold Sits
  rw [hreach.site hg.sound hg.scope]
  exact WellPlaced.within h (hreach.register hg.sound hg.scope hg.apart)

theorem Ground.later (hg : Ground c first start s) (hreach : Reaches c s s')
    (hnew : ∀ b body, s.nextBody ≤ b → start ≤ b → s'.unit.body? b = some body →
      body = CodeUnit.placeholder b ∨ s'.Files first b body) :
    Ground c first start s' := by
  have ha := hreach.advances hg.sound hg.scope
  have hi := hreach.issues hg.sound hg.scope hg.apart
  refine ⟨ha.sound, ha.lt hg.sound hg.scope, hi.apart,
    Nat.le_trans hg.issued hi.nextBreak_le, fun b body hstart hbody => ?_⟩
  rcases Nat.lt_or_ge b s.nextBody with hlt | hge
  · rcases ha.kept b hlt with heq | ⟨_, hplaced⟩
    · refine (hg.bodies b body hstart (heq ▸ hbody)).imp id fun h => ?_
      exact h.within (hreach.alike hg.sound hg.scope hlt)
        (hreach.register hg.sound hg.scope hg.apart)
    · exact Or.inl (Option.some.inj (hbody.symm.trans hplaced))
  · exact hnew b body hge hstart hbody

theorem Ground.same (hg : Ground c first start s) (hreach : Reaches c s s')
    (hunit : s'.unit = s.unit) : Ground c first start s' :=
  hg.later hreach fun b body hb _ hbody => by
    rw [hunit, LoweringState.body?_of_le hg.sound hb] at hbody
    exact absurd hbody (by simp)

end Later

/-! ## Bodies -/

/-- What is known of a body that has just been finished, at the site of its creation. -/
structure Compiled (r : Register) (p : Site) (b : BodyId) (name : String) (kind : BodyKind)
    (body : Body) : Prop where
  has : r.Has b body
  named : body.name = name
  ofKind : body.kind = kind
  returns : kind = .block → body.returnId = p.returns
  breaks : kind.isClosure = true → body.breakId.isSome

section

variable {c inner : Context} {first start : Nat} {s s' : LoweringState} {kind : BodyKind}

theorem Ground.enter (hg : Ground c first start s) (hscope : inner.scope = s.nextBody) :
    Ground inner first start (s.enter c.scope kind) := by
  have hin : (s.enter c.scope kind).Sound :=
    LoweringState.sound_enter hg.sound fun _ => hg.scope
  have hwithin : (s.register first).Within ((s.enter c.scope kind).register first) := by
    refine ⟨fun hb => hb, fun {id} hid => ?_⟩
    obtain ⟨hfirst, hissued, hfree⟩ := hid
    refine ⟨hfirst, ?_, fun k hk => ?_⟩
    · rw [LoweringState.nextBreak_enter]
      exact Nat.lt_of_lt_of_le hissued (Nat.le_add_right _ _)
    · rcases LoweringState.breakOf_enter_cases hg.sound hin hk with ⟨_, hold⟩ | ⟨_, _, hnew⟩
      · exact hfree k hold
      · omega
  refine ⟨hin, ?_, hg.apart.enter hg.sound fun _ => hg.scope, ?_, fun b body hstart hbody => ?_⟩
  · rw [hscope]
    exact Nat.lt_succ_self _
  · rw [LoweringState.nextBreak_enter]
    exact Nat.le_trans hg.issued (Nat.le_add_right _ _)
  · have hlt : b < s.nextBody :=
      Nat.lt_of_lt_of_le (Array.getElem?_eq_some_iff.mp hbody).1 hg.sound.places
    exact (hg.bodies b body hstart hbody).imp id fun h =>
      h.within (.of_get? (LoweringState.get?_enter_old hg.sound hlt)) hwithin

theorem LoweringState.register_finish
    (hempty : ∀ old, s.unit.body? body.id = some old → old = CodeUnit.placeholder body.id) :
    (s.register first).Within ((s.finish body).register first) := by
  refine ⟨fun {b old} hold => ⟨?_, hold.2⟩, fun hid => hid⟩
  by_cases hb : b = body.id
  · subst hb
    exact absurd (hempty old hold.1) hold.2
  · rcases s.unit.body?_add_ne hb with heq | ⟨hnone, _⟩
    · exact heq.trans hold.1
    · rw [hold.1] at hnone
      exact absurd hnone (by simp)

theorem Ground.body?_open (hg : Ground c first start s) (hscope : inner.scope = s.nextBody)
    (hin : Reaches inner (s.enter c.scope kind) s') (hold : s'.unit.body? s.nextBody = some old) :
    old = CodeUnit.placeholder s.nextBody := by
  have hgin : Ground inner first start (s.enter c.scope kind) := hg.enter hscope
  have hnone : (s.enter c.scope kind).unit.body? s.nextBody = none :=
    LoweringState.body?_of_le hg.sound (Nat.le_refl _)
  rcases (hin.advances hgin.sound hgin.scope).kept s.nextBody (Nat.lt_succ_self _) with
    heq | ⟨_, hplaced⟩
  · rw [heq, hnone] at hold
    exact absurd hold (by simp)
  · exact Option.some.inj (hold.symm.trans hplaced)

theorem Ground.bodies_finish (hg' : Ground inner first start s')
    (hempty : ∀ old, s'.unit.body? body.id = some old → old = CodeUnit.placeholder body.id)
    (hnew : s'.Files first body.id body) (hstart : start ≤ b)
    (hother : (s'.finish body).unit.body? b = some other) :
    other = CodeUnit.placeholder b ∨ (s'.finish body).Files first b other := by
  have hwithin : (s'.register first).Within ((s'.finish body).register first) :=
    LoweringState.register_finish hempty
  by_cases hb : b = body.id
  · subst hb
    cases Option.some.inj (hother.symm.trans (CodeUnit.body?_add_self s'.unit body))
    exact Or.inr (hnew.within ⟨rfl, rfl, rfl⟩ hwithin)
  · rcases s'.unit.body?_add_ne hb with heq | ⟨_, hplaced⟩
    · exact (hg'.bodies b other hstart (heq ▸ hother)).imp id fun h =>
        h.within ⟨rfl, rfl, rfl⟩ hwithin
    · exact Or.inl (Option.some.inj (hother.symm.trans hplaced))

theorem Ground.compiled (hg : Ground c first start s) (hscope : inner.scope = s.nextBody)
    (hkind : inner.kind = kind) (hloop : inner.inLoop = false)
    (hin : Reaches inner (s.enter c.scope kind) s') (name : String) (arity : Arity) (span : Span)
    (code : Code) :
    (s'.bodyOf s.nextBody name kind s.nextBody arity span code).site = inner.site s' ∧
      s'.Matches s.nextBody (s'.bodyOf s.nextBody name kind s.nextBody arity span code) ∧
      Compiled ((s'.finish (s'.bodyOf s.nextBody name kind s.nextBody arity span code)).register
        first) (c.site s) s.nextBody name kind
        (s'.bodyOf s.nextBody name kind s.nextBody arity span code) := by
  obtain ⟨out, h⟩ := hin
  have hm := LoweringState.matches_bodyOf hg.sound (fun _ => hg.scope) hscope h name arity span code
  refine ⟨?_, hm, ⟨CodeUnit.body?_add_self _ _, fun heq => ?_⟩, rfl, rfl, ?_, hm.breaks.trans⟩
  · unfold Body.site Context.site
    rw [hscope, hkind, hloop, Bool.or_false]
    rfl
  · -- a block can be left, and a placeholder cannot
    rw [heq] at hm
    exact absurd hm.breaks (by simp [CodeUnit.placeholder, BodyKind.isClosure])
  · rintro rfl
    have hgin : Ground inner first start (s.enter c.scope .block) := hg.enter hscope
    exact ((h.advances hgin.sound hgin.scope).returnOf hgin.sound (Nat.lt_succ_self _)).trans
      (LoweringState.returnOf_enter hg.sound ..)

end

/-! ## Loops -/

section Loop

variable {c : Context} {first start : Nat} {s s' : LoweringState}
  (hg : Ground c first start s)

include hg

theorem Ground.advances_enterLoop : s.Advances (s.scopes.ancestry c.scope) (s.enterLoop c.scope) :=
  LoweringState.advances_enterLoop hg.sound (hg.sound.mem_ancestry hg.scope)

/-- The state in which the parts of a loop are lowered. All that they add is new. -/
theorem Ground.enterLoop :
    Ground { c with inLoop := true } (s.scopes.nextBreak + 1) s.nextBody (s.enterLoop c.scope) := by
  refine ⟨hg.advances_enterLoop.sound, hg.scope, hg.apart.enterLoop _, Nat.le_refl _, ?_⟩
  intro b body hb hbody
  have hnone : (s.enterLoop c.scope).unit.body? b = none := LoweringState.body?_of_le hg.sound hb
  rw [hnone] at hbody
  exact absurd hbody (by simp)

theorem Ground.site_enterLoop : { c with inLoop := true }.site (s.enterLoop c.scope) =
      (c.site s).loop ⟨s.scopes.nextBreak⟩ := by
  unfold Context.site Site.loop
  rw [hg.advances_enterLoop.returnOf hg.sound hg.scope,
    LoweringState.breakOf_enterLoop hg.sound hg.scope, Bool.or_true]

theorem Ground.register_leaveLoop : (s'.register (s.scopes.nextBreak + 1)).Within
      ((s'.setBreak c.scope (s.breakOf c.scope)).register first) := by
  refine ⟨fun hb => hb, fun {id} hid => ?_⟩
  obtain ⟨hnew, hissued, hfree⟩ := hid
  refine ⟨Nat.le_trans hg.issued (Nat.le_of_succ_le hnew), hissued, fun k hk => ?_⟩
  rw [LoweringState.breakOf_setBreak] at hk
  split at hk
  · obtain ⟨_, _, hold⟩ := Option.bind_eq_some_iff.mp hk
    have hlt := hg.apart.breakIssued hold
    omega
  · exact hfree k hk

/-- The `break` of the loop itself is no scope's any more. -/
theorem Ground.isLoop_leaveLoop (hin : Reaches { c with inLoop := true } (s.enterLoop c.scope) s') :
    ((s'.setBreak c.scope (s.breakOf c.scope)).register first).IsLoop ⟨s.scopes.nextBreak⟩ := by
  have hgin := hg.enterLoop
  have hi := hin.issues hgin.sound hgin.scope hgin.apart
  refine ⟨hg.issued, hi.nextBreak_le, fun k hk => ?_⟩
  rw [LoweringState.breakOf_setBreak] at hk
  by_cases hkc : k = c.scope
  · rw [if_pos hkc] at hk
    obtain ⟨_, _, hold⟩ := Option.bind_eq_some_iff.mp hk
    exact absurd (hg.apart.breakIssued hold) (Nat.lt_irrefl _)
  · rw [if_neg hkc] at hk
    rcases Nat.lt_or_ge k s.nextBody with hlt | hge
    · rw [hin.breakOf hgin.sound hlt, LoweringState.enterLoop,
        LoweringState.breakOf_setBreak, if_neg hkc] at hk
      exact absurd (hg.apart.breakIssued hk) (Nat.lt_irrefl _)
    · exact absurd (hi.later hge hk) (Nat.not_succ_le_self _)

end Loop

end BlockLang
