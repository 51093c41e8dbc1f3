import BlockLang.Proofs.Lowering.Building

/-!
# Every exit is well placed

What is put together stands where it may (`Puts.placed`). Read at a whole program: **in the unit of
a lowered program all code stands where it may** (`Program.exits_of_lower`), and no two bodies share
an identity that they should not share.
-/

namespace BlockLang

open LoweringState

namespace CodeUnit

/-- The bodies of the unit; a `break` that no body has is that of a loop. -/
def register (u : CodeUnit) : Register where
  Has b body := u.body? b = some body
  IsLoop id := ∀ {b body}, u.body? b = some body → body.breakId ≠ some id

/-- All code stands where it may, and identities tell the bodies apart. -/
structure ExitsPlaced (u : CodeUnit) : Prop where
  placed : ∀ {b body}, u.body? b = some body → body.code.WellPlaced u.register body.site
  breakApart : ∀ {b b' body body' id}, u.body? b = some body → u.body? b' = some body' →
    body.breakId = some id → body'.breakId = some id → b = b'
  returnApart : ∀ {b b' body body' id}, u.body? b = some body → u.body? b' = some body' →
    body.kind ≠ .block → body'.kind ≠ .block →
    body.returnId = some id → body'.returnId = some id → b = b'
  /-- A program, method or lambda can be returned from, a class or module cannot. -/
  returns : ∀ {b body}, u.body? b = some body → body.kind ≠ .block →
    body.returnId.isSome = body.kind.isHome

end CodeUnit

theorem LoweringState.apart_empty : ({} : LoweringState).Apart := by
  have hnone := fun k => exitsOf_of_le sound_empty (Nat.zero_le k)
  constructor
  · exact fun {k _} hk => absurd hk (by simp [(hnone k).1])
  · exact fun {j _ _} hj => absurd hj (by simp [(hnone j).1])
  · exact fun {k _} hk => absurd hk (by simp [(hnone k).2.1])
  · exact fun {j _ _} _ _ hj => absurd hj (by simp [(hnone j).2.1])

theorem LoweringState.exitsPlaced {s : LoweringState} (hapart : s.Apart)
    (hfiles : ∀ b body, s.unit.body? b = some body →
      body = CodeUnit.placeholder b ∨ s.Files 0 b body) : s.unit.ExitsPlaced := by
  have hwithin : (s.register 0).Within s.unit.register := by
    refine ⟨fun h => h.1, fun {id} hid b body hb => ?_⟩
    rcases hfiles b body hb with rfl | ⟨hm, -⟩
    · exact fun h => nomatch h
    · rw [hm.breakOf]
      exact hid.2.2 b
  constructor
  · intro b body hb
    rcases hfiles b body hb with rfl | h
    · exact .leaf rfl rfl
    · exact h.placed.within hwithin
  · intro b b' body body' id hb hb' hid hid'
    rcases hfiles b body hb with rfl | ⟨hm, -⟩
    · exact nomatch hid
    rcases hfiles b' body' hb' with rfl | ⟨hm', -⟩
    · exact nomatch hid'
    exact hapart.breakApart (hm.breakOf ▸ hid) (hm'.breakOf ▸ hid')
  · intro b b' body body' id hb hb' hkind hkind' hid hid'
    rcases hfiles b body hb with rfl | ⟨hm, -⟩
    · exact absurd rfl hkind
    rcases hfiles b' body' hb' with rfl | ⟨hm', -⟩
    · exact absurd rfl hkind'
    refine hapart.returnApart ?_ ?_ (hm.returnOf ▸ hid) (hm'.returnOf ▸ hid')
    · rw [hm.kind]
      exact fun h => hkind (Option.some.inj h)
    · rw [hm'.kind]
      exact fun h => hkind' (Option.some.inj h)
  · intro b body hb hkind
    rcases hfiles b body hb with rfl | ⟨hm, -⟩
    · exact absurd rfl hkind
    · exact hm.returns hkind

/-- **The bodies of a program are well placed** where lowering ends. -/
theorem Program.files {p : Program} (hclean : (p.lowering options).mistakes = []) :
    (p.lowering options).Apart ∧
    ∀ b body, (p.lowering options).unit.body? b = some body →
      body = CodeUnit.placeholder b ∨ (p.lowering options).Files 0 b body := by
  obtain ⟨codes, s, hputs, heq⟩ := p.puts options hclean
  have hroot : BodyKind.isClosure .topLevel = true → 0 < ({} : LoweringState).nextBody := nofun
  have hin : (({} : LoweringState).enter 0 .topLevel).Sound :=
    sound_enter sound_empty hroot
  have hnone : ∀ b, (({} : LoweringState).enter 0 .topLevel).unit.body? b = none :=
    fun b => LoweringState.body?_of_le sound_empty (Nat.zero_le b)
  have hg : Ground (context options) 0 0 (({} : LoweringState).enter 0 .topLevel) :=
    ⟨hin, Nat.lt_succ_self 0, apart_empty.enter sound_empty hroot,
      Nat.zero_le _, fun b body _ hbody => by simp [hnone b] at hbody⟩
  obtain ⟨hg', hsits⟩ := hputs.placed 0 0 hg (by simp)
  have hempty : ∀ old, s.unit.body? 0 = some old → old = CodeUnit.placeholder 0 := by
    intro old hold
    rcases (hputs.reaches.advances hin hg.scope).kept 0 (Nat.lt_succ_self 0) with
      hsame | ⟨_, hplaced⟩
    · exact absurd hold (by simp [hsame, hnone])
    · exact Option.some.inj (hold.symm.trans hplaced)
  obtain ⟨out, hlowers⟩ := hputs.reaches
  have hmain : s.Files 0 0 (s.bodyOf 0 mainName .topLevel 0 {} p.span (.join codes)) := by
    refine ⟨matches_bodyOf (s := {}) sound_empty hroot rfl hlowers ..,
      .join (p := (context options).site s) fun code hcode => ?_⟩
    exact hsits (.code code) (List.mem_map.mpr ⟨code, hcode, rfl⟩)
  rw [heq]
  exact ⟨⟨hg'.apart.breakIssued, hg'.apart.breakApart, hg'.apart.returnIssued,
    hg'.apart.returnApart⟩, fun b body hb => hg'.bodies_finish hempty hmain (Nat.zero_le b) hb⟩

/-- **In the unit of a lowered program every exit is well placed.** -/
theorem Program.exits_of_lower {p : Program} (h : p.lower options = .ok u) : u.ExitsPlaced := by
  obtain ⟨hclean, rfl⟩ := lower_ok_iff.mp h
  obtain ⟨hapart, hfiles⟩ := files hclean
  exact LoweringState.exitsPlaced hapart hfiles

end BlockLang
