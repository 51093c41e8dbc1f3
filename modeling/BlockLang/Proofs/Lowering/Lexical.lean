import BlockLang.Proofs.Code.Lexical
import BlockLang.Proofs.Lowering.Advance

/-!
# What lowering leaves is well scoped

While a program is lowered, where a body stands is known from its scope. This file follows the
scopes along everything that lowering does (`Lowers.lowered`) and reads off, at the end, what holds
of the unit alone: `Program.lower_wellScoped`.

**The hard part is what a scope has to keep.** A scope is marked captured at the moment a reference
walks through it, but the code that holds the reference may be thrown away later on, with a result
that nobody reads or with a part that is given up. So the induction carries, for every mark that is
set, the reason for it in the finished code (`Lowered.marked`): a chain of closures (`Walks`) down
to a reference that is still there. A part that is given up makes the program fail, and a reference
that walks outward is never part of a result that can be left out (`Made.complete`).
-/

namespace BlockLang

variable {s s' : LoweringState}

open List LoweringState Scopes

/-! ## Units that keep their bodies -/

namespace CodeUnit

/-- The bodies that mention anything are still there. -/
def Keeps (u u' : CodeUnit) : Prop :=
  ∀ b body, u.body? b = some body → u'.body? b = some body ∨ body.code.mentions = []

theorem not_walks_nil {u : CodeUnit} (h : u.Walks d []) : False := by
  cases h with
  | here hl _ => simp at hl
  | inside hb _ _ _ => simp at hb

theorem Walks.mono {u : CodeUnit} (hu : u.Keeps u') {ms : List Mention} (h : u.Walks d ms) :
    ∀ {ns : List Mention}, (∀ x ∈ ms, x.isKept = true → x ∈ ns) →
      u'.Walks d ns := by
  induction h with
  | here hl hlt =>
    intro ns hns
    refine .here (hns _ hl ?_) hlt
    simp only [Mention.isKept, decide_eq_true_eq]
    omega
  | inside hb hkind hbody hwalks ih =>
    intro ns hns
    rcases hu _ _ hbody with hbody' | hnil
    · exact .inside (hns _ hb rfl) hkind hbody' (ih fun _ hx _ => hx)
    · rw [hnil] at hwalks
      exact (not_walks_nil hwalks).elim

end CodeUnit

theorem LoweringState.Advances.keeps {live : List ScopeId} (hs : s.Sound) (h : s.Advances live s') :
    s.unit.Keeps s'.unit :=
  fun _ _ hb => Or.inl (h.body? hs hb)

/-! ## Mentions that are right where they stand -/

/-- The outermost scope around `k` is that of a method. -/
def Scopes.UnderMethod (s : Scopes) (k : ScopeId) : Prop :=
  ∃ a scope, (s.ancestry k).getLast? = some a ∧ s.get? a = some scope ∧ scope.kind = .method

/-- What a mention has to satisfy in the body with the scope `k`. -/
def Mention.ValidIn (s : Scopes) (k : ScopeId) : Mention → Prop
  | .variable l => s.Refers k l ∧ ∀ d a, d < l.level → (s.ancestry k)[d]? = some a →
      s.capturedAt a = true
  | .body kind b => ∃ scope, s.get? b = some scope ∧ scope.kind = kind ∧
      scope.parent = if kind.isClosure then some k else none
  | .argument _ => True
  | .super => s.UnderMethod k

section Growth

variable {live : List ScopeId} {s s' : Scopes} {k : Nat}

theorem Scopes.UnderMethod.mono (h : s.UnderMethod k) (hg : Scopes.Grows live s s')
    (hw : s.WellFormed) (hw' : s'.WellFormed) (hk : k < s.size) : s'.UnderMethod k := by
  obtain ⟨a, scope, hlast, hget, hkind⟩ := h
  obtain ⟨scope', hget', he, _⟩ := hg a scope hget
  exact ⟨a, scope', by rw [hg.ancestry hw hw' hk]; exact hlast, hget', he.kind.trans hkind⟩

theorem Mention.ValidIn.mono {x : Mention} (h : x.ValidIn s k) (hg : Scopes.Grows live s s')
    (hw : s.WellFormed) (hw' : s'.WellFormed) (hk : k < s.size) : x.ValidIn s' k := by
  match x, h with
  | .variable l, h =>
    refine ⟨hg.refers hw hw' hk h.1, fun d a hd ha => ?_⟩
    rw [hg.ancestry hw hw' hk] at ha
    exact hg.capturedAt (h.2 d a hd ha)
  | .body kind b, ⟨scope, hget, hkind, hparent⟩ =>
    obtain ⟨scope', hget', he, _⟩ := hg b scope hget
    exact ⟨scope', hget', he.kind.trans hkind, he.parent.trans hparent⟩
  | .argument i, _ => trivial
  | .super, h => exact Scopes.UnderMethod.mono h hg hw hw' hk

end Growth

/-! ## Finished bodies -/

/-- The body `b` is finished: it tells what its scope knows, and its code is right there. -/
structure LoweringState.Finished (s : LoweringState) (b : Nat) (body : Body) (own : Scope) :
    Prop where
  here : s.unit.body? b = some body
  scope : s.scopes.get? b = some own
  id : body.id = b
  kind : body.kind = own.kind
  slots : body.slots = own.slots
  captured : body.captured = own.captured
  guarded : body.code.Guarded
  valid : ∀ x ∈ body.code.mentions, x.ValidIn s.scopes b
  needed : body.captured = true → s.unit.Walks 0 body.code.mentions

theorem LoweringState.Finished.mono {live : List ScopeId} {b : Nat} {body : Body} {scope : Scope}
    (h : s.Finished b body scope) (hs : s.Sound) (ha : s.Advances live s') (hb : b ∉ live) :
    s'.Finished b body scope := by
  obtain ⟨scope', hget, _, hsame⟩ := ha.grows b scope h.scope
  rw [hsame hb] at hget
  refine ⟨ha.body? hs h.here, hget, h.id, h.kind, h.slots, h.captured, h.guarded, fun x hx => ?_,
    fun hc => (h.needed hc).mono (ha.keeps hs) fun _ hx _ => hx⟩
  exact (h.valid x hx).mono ha.grows hs.wellFormed ha.sound.wellFormed (lt_size_of_get? h.scope)

/-- What has been lowered, from `s` to `s'`, for the body with the scope `k`. -/
structure Lowered (k : Nat) (s : LoweringState) (ms : List Mention) (s' : LoweringState) :
    Prop where
  valid : ∀ x ∈ ms, x.ValidIn s'.scopes k
  finished : ∀ b, s.nextBody ≤ b → b < s'.nextBody → ∃ body scope, s'.Finished b body scope
  /-- A new closure is created by what was obtained, or by another new body. -/
  linked : ∀ (b : Nat) (scope : Scope) (p : Nat), s.nextBody ≤ b → s'.scopes.get? b = some scope →
    scope.parent = some p → p = k ∧ .body scope.kind b ∈ ms ∨
      s.nextBody ≤ p ∧ ∃ outer, s'.unit.body? p = some outer ∧
        .body scope.kind b ∈ outer.code.mentions
  /-- A mark that was set has its reason in what was obtained. -/
  marked : ∀ (d a : Nat), (s.scopes.ancestry k)[d]? = some a → s'.scopes.capturedAt a = true →
    s.scopes.capturedAt a = true ∨ s'.unit.Walks d ms

namespace Lowered

variable {k : Nat} {s s₁ s₂ : LoweringState} {ms ns : List Mention}

theorem same (hsize : s.scopes.size = s.nextBody) (hw : ∀ x ∈ ms, x.ValidIn s.scopes k) :
    Lowered k s ms s := by
  refine ⟨hw, fun b hb hb' => absurd hb (Nat.not_le_of_lt hb'), fun b scope p hb hget _ => ?_,
    fun d a _ hc => Or.inl hc⟩
  have hlt := lt_size_of_get? hget
  exact absurd hb (Nat.not_le_of_lt (hsize ▸ hlt))

/-- The scopes that are open are older than all that is new. -/
theorem notMem_ancestry (hs : s.Sound) (hk : k < s.nextBody) (hb : s.nextBody ≤ b) :
    b ∉ s.scopes.ancestry k := by
  intro hm
  have hle := (mem_ancestry hs.wellFormed hm).1
  exact absurd (Nat.le_trans hb hle) (Nat.not_le_of_lt hk)

theorem append (hs : s.Sound) (hk : k < s.nextBody)
    (ha₁ : s.Advances (s.scopes.ancestry k) s₁) (ha₂ : s₁.Advances (s.scopes.ancestry k) s₂)
    (h₁ : Lowered k s ms s₁) (h₂ : Lowered k s₁ ns s₂) : Lowered k s (ms ++ ns) s₂ := by
  have hle := ha₁.nextBody_le hs
  have hk₁ : k < s₁.nextBody := Nat.lt_of_lt_of_le hk hle
  have hanc := ha₁.grows.ancestry hs.wellFormed ha₁.sound.wellFormed (hs.size ▸ hk)
  have hkeeps := ha₂.keeps ha₁.sound
  refine ⟨fun x hx => ?_, fun b hb hb₂ => ?_, fun b scope p hb hget hp => ?_, fun d a hd hc => ?_⟩
  · rcases mem_append.mp hx with hx | hx
    · exact (h₁.valid x hx).mono ha₂.grows ha₁.sound.wellFormed ha₂.sound.wellFormed
        (ha₁.sound.size ▸ hk₁)
    · exact h₂.valid x hx
  · rcases Nat.lt_or_ge b s₁.nextBody with hlt | hge
    · obtain ⟨body, scope, hfinished⟩ := h₁.finished b hb hlt
      exact ⟨body, scope, hfinished.mono ha₁.sound ha₂ (notMem_ancestry hs hk hb)⟩
    · exact h₂.finished b hge hb₂
  · rcases Nat.lt_or_ge b s₁.nextBody with hlt | hge
    · -- a closure of the first part: its scope was closed before the second part began
      obtain ⟨scope₁, hget₁⟩ := exists_get? (ha₁.sound.size ▸ hlt)
      obtain ⟨scope₂, hget₂, _, hsame⟩ := ha₂.grows b scope₁ hget₁
      rw [hget, Option.some.injEq] at hget₂
      rw [hget₂, hsame (notMem_ancestry hs hk hb)] at hp ⊢
      rcases h₁.linked b scope₁ p hb hget₁ hp with ⟨rfl, hm⟩ | ⟨hp₁, outer, houter, hm⟩
      · exact Or.inl ⟨rfl, mem_append_left _ hm⟩
      · exact Or.inr ⟨hp₁, outer, ha₂.body? ha₁.sound houter, hm⟩
    · rcases h₂.linked b scope p hge hget hp with ⟨rfl, hm⟩ | ⟨hp₂, outer, houter, hm⟩
      · exact Or.inl ⟨rfl, mem_append_right _ hm⟩
      · exact Or.inr ⟨Nat.le_trans hle hp₂, outer, houter, hm⟩
  · rcases h₂.marked d a (hanc ▸ hd) hc with hc | hwalks
    · rcases h₁.marked d a hd hc with hc | hwalks
      · exact Or.inl hc
      · exact Or.inr (hwalks.mono hkeeps fun x hx _ => mem_append_left _ hx)
    · exact Or.inr (hwalks.mono (fun _ _ h => Or.inl h) fun x hx _ => mem_append_right _ hx)

theorem reference (hs : s.Sound) (hk : k < s.nextBody) (r : Request) :
    Lowered k s ((s.scopes.answer k r).1.toList.map .variable)
      { s with scopes := (s.scopes.answer k r).2 } := by
  cases hl : (s.scopes.answer k r).1 with
  | none =>
    rw [answer_eq_none hl]
    exact same hs.size (by simp)
  | some l =>
    have ha := access_answer hs.wellFormed (hs.size ▸ hk) hl
    have hw' := ha.grows.wellFormed ha.size hs.wellFormed
    refine ⟨fun x hx => ?_, fun b hb hb' => absurd hb (Nat.not_le_of_lt hb'),
      fun b scope p hb hget _ => ?_, fun d a hd hc => ?_⟩
    · simp only [Option.toList_some, map_cons, map_nil, mem_singleton] at hx
      subst hx
      refine ⟨ha.refers, fun d a hd ha' => ?_⟩
      rw [ha.grows.ancestry hs.wellFormed hw' (hs.size ▸ hk)] at ha'
      exact (ha.captured ha').mpr (Or.inr hd)
    · have hlt := lt_size_of_get? hget
      rw [ha.size, hs.size] at hlt
      exact absurd hb (Nat.not_le_of_lt hlt)
    · rcases (ha.captured hd).mp hc with hc | hlt
      · exact Or.inl hc
      · exact Or.inr (.here (l := l) (by simp) hlt)

theorem silent (hs : s₁.Sound) (hnext : s₁.nextBody = s.nextBody)
    (hc : ∀ a, s₁.scopes.capturedAt a = s.scopes.capturedAt a) : Lowered k s [] s₁ := by
  refine ⟨by simp, fun b hb hb' => absurd (hnext ▸ hb') (Nat.not_lt_of_le hb),
    fun b scope p hb hget _ => ?_, fun d a _ ha => Or.inl (hc a ▸ ha)⟩
  have hlt := lt_size_of_get? hget
  rw [hs.size, hnext] at hlt
  exact absurd hb (Nat.not_le_of_lt hlt)

theorem capturedAt_setBreak (s : LoweringState) (k : ScopeId) (id : Option BreakId) (a : ScopeId) :
    (s.setBreak k id).scopes.capturedAt a = s.scopes.capturedAt a := by
  unfold LoweringState.setBreak Scopes.capturedAt
  simp only [Scopes.get?_modify]
  cases s.scopes.get? a with
  | none => rfl
  | some scope =>
    simp only [Option.map_some, Option.any_some]
    split <;> rfl

/-- What a loop sets while its parts are lowered is nothing that they are looked at for. -/
theorem loop (hs : s.Sound) (hk : k < s.nextBody) (id : Option BreakId)
    (ha : (s.enterLoop k).Advances (s.scopes.ancestry k) s₁)
    (h : Lowered k (s.enterLoop k) ms s₁) : Lowered k s ms (s₁.setBreak k id) := by
  have hmem := hs.mem_ancestry hk
  have hin := advances_enterLoop hs hmem
  have hanc := hin.grows.ancestry hs.wellFormed hin.sound.wellFormed (hs.size ▸ hk)
  have hout := advances_setBreak ha.sound hmem id
  have hstart : Lowered k s [] (s.enterLoop k) :=
    silent hin.sound rfl fun a => capturedAt_setBreak _ k _ a
  have hend : Lowered k s₁ [] (s₁.setBreak k id) :=
    silent hout.sound rfl fun a => capturedAt_setBreak s₁ k id a
  have hrest := append hin.sound hk (hanc ▸ ha) (hanc ▸ hout) h hend
  have hall := append hs hk hin (ha.trans hin.sound hout) hstart hrest
  simpa using hall

/-! ### Finishing a body -/

section Body

variable {kind : BodyKind} {code : Code}

/-- A body that is not finished is none, or a placeholder that says nothing. -/
theorem keeps_finish (hs : s.Sound) {live : List ScopeId}
    (ha : (s.enter k kind).Advances live s₁) (hid : body.id = s.nextBody) :
    s₁.unit.Keeps (s₁.finish body).unit := by
  intro b old hold
  by_cases hb : b = body.id
  · right
    rw [hb, hid] at hold
    have hnone : s.unit.body? s.nextBody = none := Array.getElem?_eq_none hs.places
    rcases ha.kept s.nextBody (Nat.lt_succ_self _) with hsame | ⟨_, hplaced⟩
    · have hsome := hsame.symm.trans hold
      rw [show (s.enter k kind).unit = s.unit from rfl, hnone] at hsome
      simp at hsome
    · rw [hold, Option.some.injEq] at hplaced
      rw [hplaced]
      rfl
  · rcases s₁.unit.body?_add_ne hb with hsame | ⟨hnone, _⟩
    · exact Or.inl (hsame.trans hold)
    · rw [hold] at hnone
      simp at hnone

theorem finished_other (hkeeps : s₁.unit.Keeps (s₁.finish body).unit) (hb : b ≠ body.id)
    (h : s₁.Finished b other own) : (s₁.finish body).Finished b other own := by
  refine ⟨?_, h.scope, h.id, h.kind, h.slots, h.captured, h.guarded, h.valid,
    fun hc => (h.needed hc).mono hkeeps fun _ hx _ => hx⟩
  rcases s₁.unit.body?_add_ne hb with hsame | ⟨hnone, _⟩
  · exact hsame.trans h.here
  · rw [h.here] at hnone
    simp at hnone

theorem marked_inside (hs : s.Sound) (hk : kind.isClosure = true → k < s.nextBody)
    (h : Lowered s.nextBody (s.enter k kind) ms s₁)
    (hd : (s.nextBody :: (if kind.isClosure then s.scopes.ancestry k else []))[d]? = some a)
    (hc : s₁.scopes.capturedAt a = true) :
    a < s.nextBody ∧ s.scopes.capturedAt a = true ∨ s₁.unit.Walks d ms := by
  rw [← ancestry_enter hs hk] at hd
  rcases h.marked d a hd hc with hc | hwalks
  · left
    obtain ⟨new, hnew, _, _, hcaptured, _⟩ := LoweringState.get?_enter_new hs
    have hsin : (s.enter k kind).Sound := sound_enter hs hk
    have hlt : a < s.nextBody + 1 :=
      Nat.lt_of_lt_of_eq (mem_ancestry hsin.wellFormed (mem_of_getElem? hd)).2 hsin.size
    rcases Nat.lt_or_ge a s.nextBody with hold | hge
    · refine ⟨hold, ?_⟩
      unfold Scopes.capturedAt at hc ⊢
      rwa [LoweringState.get?_enter_old hs hold] at hc
    · -- the new scope was opened without a mark
      have ha : a = s.nextBody := Nat.le_antisymm (Nat.le_of_lt_succ hlt) hge
      unfold Scopes.capturedAt at hc
      rw [ha, hnew, Option.any_some, hcaptured] at hc
      simp at hc
  · exact Or.inr hwalks

theorem body (name : String) (arity : Arity) (span : Span) (hs : s.Sound)
    (hk : kind.isClosure = true → k < s.nextBody)
    (ha : (s.enter k kind).Advances ((s.enter k kind).scopes.ancestry s.nextBody) s₁)
    (h : Lowered s.nextBody (s.enter k kind) ms s₁) (hcode : Assembled ms code) :
    Lowered k s [.body kind s.nextBody]
      (s₁.finish (s₁.bodyOf s.nextBody name kind s.nextBody arity span code)) := by
  obtain ⟨hguarded, vs, hvs, hmade⟩ := hcode
  obtain ⟨new, hnew, hnewkind, hnewparent, _⟩ := LoweringState.get?_enter_new hs
  obtain ⟨own, hown, hext, _⟩ := ha.grows s.nextBody new hnew
  -- what a mark needs of the inside is still mentioned by the code
  have hlasting : ∀ x ∈ ms, x.isKept = true → x ∈ code.mentions := by
    intro x hx hkept
    obtain ⟨c, hc, hl⟩ := hmade.complete x hx hkept
    rw [mem_singleton.mp hc] at hl
    exact Code.mem_mentions_of_mem_lasting hl
  generalize hbody : s₁.bodyOf s.nextBody name kind s.nextBody arity span code = body
  have hid : body.id = s.nextBody := by rw [← hbody]; rfl
  have hmentions : body.code = code := by rw [← hbody]; rfl
  have hkeeps := keeps_finish hs ha hid
  have hhere : (s₁.finish body).unit.body? s.nextBody = some body :=
    hid ▸ s₁.unit.body?_add_self body
  have hwalks : ∀ {d : Nat}, s₁.unit.Walks d ms → (s₁.finish body).unit.Walks d body.code.mentions :=
    fun hw => hw.mono hkeeps (hmentions ▸ hlasting)
  refine ⟨fun x hx => ?_, fun b hb hb₁ => ?_, fun b scope p hb hget hp => ?_, fun d a hd hc => ?_⟩
  · rw [mem_singleton.mp hx]
    exact ⟨own, hown, hext.kind.trans hnewkind, hext.parent.trans hnewparent⟩
  · rcases Nat.lt_or_eq_of_le hb with hlt | rfl
    · obtain ⟨other, scope, hfinished⟩ := h.finished b hlt hb₁
      exact ⟨other, scope, finished_other hkeeps (hid ▸ Ne.symm (Nat.ne_of_lt hlt)) hfinished⟩
    · refine ⟨body, own, hhere, hown, hid, ?_, ?_, ?_, hmentions ▸ hguarded, fun x hx => ?_, ?_⟩
      · rw [← hbody]
        exact (hext.kind.trans hnewkind).symm
      · rw [← hbody]
        simp [LoweringState.bodyOf, hown]
      · rw [← hbody]
        simp [LoweringState.bodyOf, hown]
      · rw [hmentions] at hx
        rcases hmade.sound code (mem_singleton_self _) x hx with hx | hx
        · obtain ⟨i, rfl⟩ := hvs x hx
          trivial
        · exact h.valid x hx
      · intro hc
        have hcaptured : s₁.scopes.capturedAt s.nextBody = true := by
          rw [← hbody] at hc
          simpa [LoweringState.bodyOf, Scopes.capturedAt, hown] using hc
        rcases marked_inside hs hk h List.getElem?_cons_zero hcaptured with ⟨hlt, _⟩ | hw
        · exact absurd hlt (Nat.lt_irrefl _)
        · exact hwalks hw
  · rcases Nat.lt_or_eq_of_le hb with hlt | rfl
    · right
      rcases h.linked b scope p hlt hget hp with ⟨rfl, hm⟩ | ⟨hp₁, outer, houter, hm⟩
      · exact ⟨Nat.le_refl _, body, hhere, hmentions ▸ hlasting _ hm rfl⟩
      · refine ⟨Nat.le_of_succ_le hp₁, outer, ?_, hm⟩
        rcases hkeeps p outer houter with hsame | hnil
        · exact hsame
        · rw [hnil] at hm
          simp at hm
    · left
      rw [show (s₁.finish body).scopes = s₁.scopes from rfl, hown, Option.some.injEq] at hget
      subst hget
      rw [hext.parent, hnewparent] at hp
      rw [hext.kind, hnewkind]
      split at hp
      · cases hp
        exact ⟨rfl, mem_singleton_self _⟩
      · simp at hp
  · cases hclosure : kind.isClosure with
    | true =>
      have hd' : (s.nextBody :: (if kind.isClosure then s.scopes.ancestry k else []))[d + 1]? =
          some a := by
        rw [hclosure, if_pos rfl, List.getElem?_cons_succ]
        exact hd
      rcases marked_inside hs hk h hd' hc with ⟨_, hc⟩ | hw
      · exact Or.inl hc
      · exact Or.inr (.inside (mem_singleton_self _) hclosure hhere (hwalks hw))
    | false =>
      -- names are not looked for around the new body, so no scope there was marked
      left
      have hlt := hs.size ▸ (mem_ancestry hs.wellFormed (mem_of_getElem? hd)).2
      obtain ⟨old, hold⟩ := exists_get? (hs.size ▸ hlt)
      obtain ⟨later, hlater, _, hsame⟩ :=
        ha.grows a old ((LoweringState.get?_enter_old hs hlt).trans hold)
      have hnot : a ∉ (s.enter k kind).scopes.ancestry s.nextBody := by
        rw [ancestry_enter hs hk, hclosure]
        simpa using Nat.ne_of_lt hlt
      rw [hsame hnot] at hlater
      unfold Scopes.capturedAt at hc ⊢
      rw [show (s₁.finish body).scopes = s₁.scopes from rfl, hlater] at hc
      rw [hold]
      exact hc

/-- A method is under itself, and a closure is under whatever the body around it is. -/
theorem underMethod_enter (hs : s.Sound) (hk : kind.isClosure = true → k < s.nextBody)
    (houter : inMethod = true → s.scopes.UnderMethod k)
    (h : (kind == .method || kind.isClosure && inMethod) = true) :
    (s.enter k kind).scopes.UnderMethod s.nextBody := by
  obtain ⟨new, hnew, hkind, _, _⟩ := LoweringState.get?_enter_new hs
  unfold Scopes.UnderMethod
  rw [ancestry_enter hs hk]
  cases hclosure : kind.isClosure with
  | false =>
    rw [hclosure, Bool.false_and, Bool.or_false, beq_iff_eq] at h
    exact ⟨s.nextBody, new, rfl, hnew, hkind.trans h⟩
  | true =>
    have hin : inMethod = true := by
      cases kind <;> simp_all [BodyKind.isClosure]
    obtain ⟨a, scope, hlast, hget, hmethod⟩ := houter hin
    have hlt := hs.size ▸ lt_size_of_get? hget
    refine ⟨a, scope, ?_, (LoweringState.get?_enter_old hs hlt).trans hget, hmethod⟩
    rw [if_pos rfl, List.getLast?_cons, hlast]
    rfl

end Body

end Lowered

/-- **All that lowering builds without a mistake is right.** -/
theorem Lowers.lowered (h : Lowers c s out s') :
    s.Sound → c.scope < s.nextBody →
      (c.method.isSome = true → s.scopes.UnderMethod c.scope) → s'.mistakes = [] →
        ∀ ms, out = some ms → Lowered c.scope s ms s' := by
  induction h with
  | nothing =>
    rintro hs _ _ _ ms ⟨rfl⟩
    exact .same hs.size (by simp)
  | mistake | abandoned _ _ _ _ =>
    intro _ _ _ _ ms hms
    simp at hms
  | append first second ih₁ ih₂ =>
    rename_i c s₁ s₂ s₃ _ _
    intro hs hk hmethod hmistakes ms hms
    obtain ⟨p, q, rfl, rfl, rfl⟩ := parts_of_joined hms
    have ha₁ := first.advances hs hk
    have hk₂ := ha₁.lt hs hk
    have ha₂ := second.advances ha₁.sound hk₂
    have hanc := ha₁.grows.ancestry hs.wellFormed ha₁.sound.wellFormed (hs.size ▸ hk)
    have hmistakes₂ : s₂.mistakes = [] := prefix_nil.mp (hmistakes ▸ ha₂.mistakes)
    have hmethod₂ := fun hm => (hmethod hm).mono ha₁.grows hs.wellFormed ha₁.sound.wellFormed
      (hs.size ▸ hk)
    exact .append hs hk ha₁ (hanc ▸ ha₂) (ih₁ hs hk hmethod hmistakes₂ p rfl)
      (ih₂ ha₁.sound hk₂ hmethod₂ hmistakes q rfl)
  | reference r =>
    rintro hs hk _ _ ms ⟨rfl⟩
    exact .reference hs hk r
  | super hm =>
    rintro hs _ hmethod _ ms ⟨rfl⟩
    refine .same hs.size fun x hx => ?_
    rw [mem_singleton.mp hx]
    exact hmethod hm
  | inside _ hscope hmethod ih =>
    rw [hscope, hmethod] at ih
    exact ih
  | loop hpart ih =>
    rename_i c s s₁ out
    intro hs hk hmethod hmistakes ms hms
    have hmem := hs.mem_ancestry hk
    have hin := advances_enterLoop hs hmem
    have hanc := hin.grows.ancestry hs.wellFormed hin.sound.wellFormed (hs.size ▸ hk)
    have hmethod₁ := fun hm => (hmethod hm).mono hin.grows hs.wellFormed hin.sound.wellFormed
      (hs.size ▸ hk)
    exact .loop hs hk _ (hanc ▸ hpart.advances hin.sound hk)
      (ih hin.sound hk hmethod₁ hmistakes ms hms)
  | body name arity span hscope hmethod hinner hassembled ih =>
    rename_i c inner s s₁ ms kind code
    rintro hs hk houter hmistakes _ ⟨rfl⟩
    have ha := advances_inside hs (fun _ => hk) hscope hinner.advances
    have hsin : (s.enter c.scope kind).Sound := sound_enter hs fun _ => hk
    have hnew : inner.scope = s.nextBody := hscope.trans (openScope_fst hs)
    have hinside : inner.method.isSome = true →
        (s.enter c.scope kind).scopes.UnderMethod s.nextBody := by
      intro hm
      exact Lowered.underMethod_enter hs (fun _ => hk) houter (hmethod ▸ hm)
    rw [hnew] at ih ⊢
    exact .body name arity span hs (fun _ => hk) ha
      (ih hsin (Nat.lt_succ_self _) hinside hmistakes ms rfl) hassembled
  | recovered d _ _ =>
    intro _ _ _ hmistakes
    simp at hmistakes

end BlockLang
