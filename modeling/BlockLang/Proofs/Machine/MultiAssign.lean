import BlockLang.Proofs.Lowering.Binding
import BlockLang.Proofs.Machine.Spreading

/-!
# Lowered targets

What lowering makes of targets gives their variables their shares (`Lower.assign_performs` and
`Lower.targets_spread`), by induction on the targets. `Performs` is what the induction carries:
which names and which hidden variables the code writes, that its items stay as they are when they
are joined, and that it assigns whatever it is offered. Assignments follow each other without harm
because names are apart and numbers of hidden variables are taken once.
-/

namespace BlockLang

open List Code Lower

theorem Setting.Runs.join {σ : Setting} {f : FrameId} {pieces : List Code} {t : Store}
    (h : σ.Runs f (pieces.flatMap Code.items) s t) (hfirm : ∀ c ∈ pieces, c.IsFirm) :
    ∃ v, σ.Gives f (.join pieces) s t v := by
  rw [join_of_firm hfirm]
  cases hitems : pieces.flatMap Code.items with
  | nil =>
    rw [hitems] at h
    cases h
    exact ⟨.nil, .now fun _ _ => rfl⟩
  | cons first rest =>
    rw [hitems] at h
    obtain ⟨v, hv⟩ := h.items []
    rw [append_nil] at hv
    refine ⟨v, fun depth stack => ?_⟩
    cases rest with
    | nil => exact hv depth stack
    | cons second rest => exact .head rfl (hv depth stack)

/-! ## What is written -/

/-- One of the names, or that of a hidden variable with a number from the limit on. -/
def IsWritten (limit : Nat) (names : List String) (name : String) : Prop :=
  name ∈ names ∨ ∃ hint i, limit ≤ i ∧ name = hiddenName hint i

variable {limit : Nat} {names names' : List String}

theorem IsWritten.mono (h : IsWritten limit' names' name) (hlimit : limit ≤ limit')
    (hnames : names' ⊆ names) : IsWritten limit names name := by
  rcases h with h | ⟨hint, i, hi, hname⟩
  · exact Or.inl (hnames h)
  · exact Or.inr ⟨hint, i, Nat.le_trans hlimit hi, hname⟩

/-- Names of the program, no two of them the same. -/
structure AreApart (names : List String) : Prop where
  nodup : names.Nodup
  plain : ∀ name ∈ names, isHidden name = false

theorem AreApart.left (h : AreApart (names ++ names')) : AreApart names :=
  ⟨(nodup_append.mp h.nodup).1, fun name hname => h.plain name (mem_append_left _ hname)⟩

theorem AreApart.right (h : AreApart (names ++ names')) : AreApart names' :=
  ⟨(nodup_append.mp h.nodup).2.1, fun name hname => h.plain name (mem_append_right _ hname)⟩

/-- Names that come earlier are not written later. -/
theorem AreApart.not_isWritten (h : AreApart (names ++ names')) (hname : name ∈ names) :
    ¬ IsWritten limit names' name := by
  rintro (hmem | ⟨hint, i, _, rfl⟩)
  · exact (nodup_append.mp h.nodup).2.2 name hname name hmem rfl
  · have hplain := h.plain _ (mem_append_left _ hname)
    rw [isHidden_hiddenName] at hplain
    cases hplain

/-- Neither are hidden variables that were there before. -/
theorem AreApart.not_isWritten_hidden (h : AreApart names) (hi : i < limit) :
    ¬ IsWritten limit names (hiddenName hint i) := by
  rintro (hmem | ⟨hint', j, hj, heq⟩)
  · have hplain := h.plain _ hmem
    rw [isHidden_hiddenName] at hplain
    cases hplain
  · rw [(hiddenName_inj heq).2] at hi
    exact absurd hj (Nat.not_le.mpr hi)

/-! ## Lowered assignments -/

/-- The stores of the kind keep the arrays of the first one, and stay of the kind. -/
structure Stage (u : CodeUnit) (base : Store) (written : String → Prop) (I : Store → Prop) :
    Prop where
  base : ∀ s, I s → base.Retains s
  keeps : ∀ s t, s.Writes u written t → I s → I t

/-- What lowering an assignment comes to: the pieces that it makes give the variables of the names
their shares, wherever what they are assigned is offered. -/
structure Performs (names : List String) (t : LoweringState) (pieces : List Code)
    (t' : LoweringState) (offers : Setting → (Store → Prop) → FrameId → Store → Prop)
    (shares : Store → List (String × Part)) : Prop where
  nextTemp : t.scopes.nextTemp ≤ t'.scopes.nextTemp
  firm : ∀ c ∈ pieces, c.IsFirm
  shared : ∀ base, ∀ share ∈ shares base, share.1 ∈ names
  assigns : ∀ {σ : Setting} {base : Store} {I : Store → Prop} {f : FrameId},
    Stage σ.unit base (IsWritten t.scopes.nextTemp names) I → offers σ I f base →
      σ.Assigns I f (IsWritten t.scopes.nextTemp names) (pieces.flatMap Code.items) (shares base)

namespace Performs

variable {names names' : List String} {t t₁ t₂ : LoweringState} {pieces pieces' : List Code}
  {offers offers' : Setting → (Store → Prop) → FrameId → Store → Prop}
  {shares shares' : Store → List (String × Part)}

theorem nil : Performs [] t [] t offers fun _ => [] where
  nextTemp := Nat.le_refl _
  firm := by simp
  shared := by simp
  assigns _ _ := .nil

theorem append (h : Performs names t pieces t₁ offers shares)
    (h' : Performs names' t₁ pieces' t₂ offers' shares') (hapart : AreApart (names ++ names')) :
    Performs (names ++ names') t (pieces ++ pieces') t₂
      (fun σ I f base => offers σ I f base ∧ offers' σ I f base)
      fun base => shares base ++ shares' base where
  nextTemp := Nat.le_trans h.nextTemp h'.nextTemp
  firm c hc := (mem_append.mp hc).elim (h.firm c) (h'.firm c)
  shared base share hshare := by
    rcases mem_append.mp hshare with hshare | hshare
    · exact mem_append_left _ (h.shared base share hshare)
    · exact mem_append_right _ (h'.shared base share hshare)
  assigns {σ base I f} hstage hoffers := by
    have hleft : ∀ name, IsWritten t.scopes.nextTemp names name →
        IsWritten t.scopes.nextTemp (names ++ names') name := fun name hname =>
      hname.mono (Nat.le_refl _) (subset_append_left _ _)
    have hright : ∀ name, IsWritten t₁.scopes.nextTemp names' name →
        IsWritten t.scopes.nextTemp (names ++ names') name := fun name hname =>
      hname.mono h.nextTemp (subset_append_right _ _)
    have hkeeps := fun s r (hw : s.Writes σ.unit (IsWritten t.scopes.nextTemp names) r) =>
      hstage.keeps s r (hw.mono hleft)
    have hfirst := h.assigns ⟨hstage.base, hkeeps⟩ hoffers.1
    have hsecond := h'.assigns ⟨hstage.base, fun s r hw => hstage.keeps s r (hw.mono hright)⟩
      hoffers.2
    rw [flatMap_append]
    exact hfirst.append hsecond hkeeps hleft hright fun share hshare =>
      hapart.not_isWritten (h.shared base share hshare)

theorem mono (h : Performs names t pieces t₁ offers shares)
    (hoffers : ∀ σ I f base, (∀ s, I s → base.Retains s) → offers' σ I f base →
      offers σ I f base) : Performs names t pieces t₁ offers' shares :=
  { h with assigns := fun hstage hoffered =>
      h.assigns hstage (hoffers _ _ _ _ hstage.base hoffered) }

theorem assigns_of_eq {σ : Setting} {base : Store} {I : Store → Prop} {f : FrameId}
    (h : Performs names t pieces t₁ offers shares) (hlimit : t.scopes.nextTemp = limit)
    (hstage : Stage σ.unit base (IsWritten limit names) I) (hoffers : offers σ I f base) :
    σ.Assigns I f (IsWritten limit names) (pieces.flatMap Code.items) (shares base) := by
  subst hlimit
  exact h.assigns hstage hoffers

theorem since (h : Performs names t₁ pieces t₂ offers shares)
    (hle : t.scopes.nextTemp ≤ t₁.scopes.nextTemp) :
    Performs names t pieces t₂ offers shares where
  nextTemp := Nat.le_trans hle h.nextTemp
  firm := h.firm
  shared := h.shared
  assigns {σ base I f} hstage hoffers := by
    have hmono : ∀ name, IsWritten t₁.scopes.nextTemp names name →
        IsWritten t.scopes.nextTemp names name := fun name hname =>
      hname.mono hle (List.Subset.refl _)
    intro s hs hfinds
    obtain ⟨r, hruns, hwrites, hreceived⟩ := h.assigns
      ⟨hstage.base, fun s r hw => hstage.keeps s r (hw.mono hmono)⟩ hoffers s hs hfinds
    exact ⟨r, hruns, hwrites.mono hmono, hreceived⟩

theorem write {name : String} {l : Local} {value : Code} {part : Store → Part}
    (hname : l.name = name) (hle : t.scopes.nextTemp ≤ t₁.scopes.nextTemp) :
    Performs [name] t [.writeLocal l value] t₁
      (fun σ I f base => (part base).IsData base ∧ σ.Offers I f value (part base))
      fun base => [(name, part base)] where
  nextTemp := hle
  firm := by
    intro c hc
    rw [mem_singleton.mp hc]
    exact isFirm_writeLocal l value
  shared := by simp
  assigns {σ base I f} _ hoffers := by
    intro s hs hfinds
    obtain ⟨r, v, hgives, hadds, hpart⟩ := hoffers.2 s hs
    have hmention : .variable l ∈ [Code.writeLocal l value].flatMap Code.mentions := by
      rw [flatMap_singleton, mentions_eq]
      exact mem_append_left _ (mem_singleton_self _)
    obtain ⟨owner, howner⟩ := hfinds l hmention
    have howner' := (hadds.writes (P := fun _ => True)).resolves howner
    have hwrites := howner'.writes (P := IsWritten t.scopes.nextTemp [name]) v
      (Or.inl (hname ▸ mem_singleton_self _))
    refine ⟨_, .cons (hgives.writeTo howner') (.nil _), hadds.writes.trans hwrites, ?_⟩
    intro share hshare
    rw [mem_singleton.mp hshare]
    refine ⟨l, owner, hname, hmention, hwrites.resolves howner', ?_⟩
    rw [Store.slot_setSlot v howner'.inRange howner'.slot_lt, if_pos rfl]
    exact hpart.retains hwrites.toRetains

end Performs

/-- What a context spreads nil as. -/
def Context.onNil (c : Context) : NilAsArray := if c.inNext then .emptyArray else .arrayWithNil

/-- A value is offered, or items of data. -/
abbrev Offered (value : Code) (part : Store → Part) (σ : Setting) (I : Store → Prop) (f : FrameId)
    (base : Store) : Prop :=
  (part base).IsData base ∧ σ.Offers I f value (part base)

/-- Values are offered for so many targets. -/
abbrev OfferedEach (count : Nat) (value : Nat → Code) (values : Store → Nat → Value) (σ : Setting)
    (I : Store → Prop) (f : FrameId) (base : Store) : Prop :=
  ∀ i < count, base.IsData (values base i) ∧ σ.Offers I f (value i) (.value (values base i))

namespace Code

theorem mentions_join_of_firm {pieces : List Code} (h : ∀ c ∈ pieces, c.IsFirm) :
    (join pieces).mentions = (pieces.flatMap items).flatMap mentions := by
  rw [join_of_firm h, mentions_ofItems]

variable {array : Local} {value : Code} {onNil : NilAsArray} {size : Nat}
  {nothing large small : List Code}

/-- A test of the array, and what is done with it then. -/
def spreadTest (array : Local) (size : Nat) (nothing large small : List Code) : Code :=
  .ifElse (.isNil (.readLocal array)) (.join nothing)
    (.ifElse (.atLeast (.readLocal array) size) (.join large) (.join small))

theorem items_spread : (spread array value onNil size nothing large small).items =
    [.writeLocal array (.splatCast value onNil), spreadTest array size nothing large small] := rfl

theorem isFirm_spread : (spread array value onNil size nothing large small).IsFirm := by
  intro x hx
  rw [items_spread, mem_cons, mem_singleton] at hx
  rcases hx with rfl | rfl <;> exact ⟨rfl, rfl⟩

theorem mem_mentions_coerce : .variable array ∈
    (writeLocal array (.splatCast value onNil) :: rest).flatMap mentions := by
  rw [flatMap_cons, mentions_eq]
  exact mem_append_left _ (mem_append_left _ (mem_singleton_self _))

theorem mem_mentions_tail : ∀ x ∈ rest.flatMap mentions, x ∈ (first :: rest).flatMap mentions := by
  intro x hx
  rw [flatMap_cons]
  exact mem_append_right _ hx

theorem mem_mentions_spreadTest (h : x ∈ (join large).mentions ∨ x ∈ (join small).mentions) :
    x ∈ (spreadTest array size nothing large small).mentions := by
  rw [spreadTest, mentions_eq, mem_append]
  refine Or.inr ?_
  rw [children, flatMap_cons, flatMap_cons, flatMap_singleton]
  refine mem_append_right _ (mem_append_right _ ?_)
  rw [mentions_eq, children, flatMap_cons, flatMap_cons, flatMap_singleton]
  refine mem_append_right _ (mem_append_right _ (mem_append.mpr h))

end Code

section

variable {σ : Setting} {I : Store → Prop} {f : FrameId} {base : Store} {array : Local}
  {size : Nat} {nothing large small : List Code}

theorem Keeping.spreadTest {s r : Store} {id : ArrayId} {items : List Value} {v : Value}
    (h : Keeping σ.unit base f array id items s)
    (hbranch : σ.Gives f (.join (if size ≤ items.length then large else small)) s r v) :
    σ.Gives f (Code.spreadTest array size nothing large small) s r v := by
  have hnil : σ.Gives f (.isNil (.readLocal array)) s s (.bool false) :=
    h.read.andThen rfl fun _ _ => .refl
  refine hnil.andThen rfl ((h.read.atLeast h.array_eq size).ifElse ?_)
  by_cases hle : size ≤ items.length <;> simpa [hle] using hbranch

theorem Setting.Assigns.spreadTest {P : String → Prop} {id : ArrayId} {items : List Value}
    {shares : List (String × Part)} (hfirm : ∀ c ∈ large ++ small, c.IsFirm)
    (h : σ.Assigns (Keeping σ.unit base f array id items) f P
      ((if size ≤ items.length then large else small).flatMap Code.items) shares) :
    σ.Assigns (Keeping σ.unit base f array id items) f P
      [Code.spreadTest array size nothing large small] shares := by
  let pieces := if size ≤ items.length then large else small
  have hpieces : ∀ c ∈ pieces, c.IsFirm := by
    intro c hc
    refine hfirm c (mem_append.mpr ?_)
    by_cases hle : size ≤ items.length
    · exact Or.inl (by simpa only [pieces, if_pos hle] using hc)
    · exact Or.inr (by simpa only [pieces, if_neg hle] using hc)
  have hmentions : ∀ x ∈ (pieces.flatMap Code.items).flatMap Code.mentions,
      x ∈ [Code.spreadTest array size nothing large small].flatMap Code.mentions := by
    intro x hx
    rw [← mentions_join_of_firm hpieces] at hx
    rw [flatMap_singleton]
    refine mem_mentions_spreadTest ?_
    by_cases hle : size ≤ items.length
    · exact Or.inl (by simpa only [pieces, if_pos hle] using hx)
    · exact Or.inr (by simpa only [pieces, if_neg hle] using hx)
  intro s hs hfinds
  obtain ⟨r, hruns, hwrites, hreceived⟩ := h s hs (hfinds.writes (P := P) .refl hmentions)
  obtain ⟨w, hgives⟩ := hruns.join hpieces
  exact ⟨r, .cons (hs.spreadTest hgives) (.nil r), hwrites, fun share hshare =>
    (hreceived share hshare).mentioned hmentions⟩

theorem Setting.Assigns.spread {value : Code} {onNil : NilAsArray}
    {shares : List (String × Part)} (hI : ∀ s, I s → base.Retains s) (hdata : part.IsData base)
    (hoffers : σ.Offers I f value part) (hlevel : array.level = 0)
    (hname : array.name = hiddenName "array" limit)
    (hassigns : ∀ id,
      σ.Assigns (Keeping σ.unit base f array id (part.spread (base.itemsOf onNil))) f
        (IsWritten (limit + 1) names) [Code.spreadTest array size nothing large small] shares) :
    σ.Assigns I f (IsWritten limit names)
      (Code.spread array value onNil size nothing large small).items shares := by
  rw [items_spread]
  intro s hs hfinds
  obtain ⟨s₁, v, hcast, hadds, id, rfl, hitems⟩ := hoffers.splatCast onNil hI hdata s hs
  have harray : Resolves σ.unit s₁ f array f :=
    (hadds.writes (P := fun _ => True)).resolves (hfinds.here hlevel mem_mentions_coerce)
  obtain ⟨hkeeping, hwrite⟩ := harray.keeping (P := IsWritten limit names)
    ((hI s hs).trans hadds.toRetains) hitems (Or.inr ⟨"array", limit, Nat.le_refl _, hname⟩)
  have hwrites := hadds.writes.trans hwrite
  obtain ⟨r, hruns, hwrites', hreceived⟩ := hassigns id _ hkeeping
    (hfinds.writes hwrites mem_mentions_tail)
  exact ⟨r, .cons (hcast.writeTo harray) hruns,
    hwrites.trans (hwrites'.mono fun name h => h.mono (Nat.le_succ _) (List.Subset.refl _)),
    fun share hshare => (hreceived share hshare).mentioned mem_mentions_tail⟩

end

/-! ## Lowering targets -/

namespace Lower

/-- A value is spread over targets by this code, and they take what they get from its array. -/
structure Spreads (targets : Targets) (value : Code) (c : Context) (t : LoweringState) (code : Code)
    (t' : LoweringState) (nothing large small : List Code) : Prop where
  code : code = .spread (t.scopes.addTemp c.scope "array").1 value c.onNil
    (targets.pre.length + targets.post.length) nothing large small
  nextTemp : t.scopes.nextTemp ≤ t'.scopes.nextTemp
  shared : ∀ (base : Store) (items : List Value),
    ∀ share ∈ targets.shares (base.itemsOf c.onNil) items, share.1 ∈ targets.names
  assigns : ∀ {σ : Setting} {base : Store} {f : FrameId} {items : List Value},
    (∀ v ∈ items, base.IsData v) → ∀ id, σ.Assigns
      (Keeping σ.unit base f (t.scopes.addTemp c.scope "array").1 id items) f
      (IsWritten (t.scopes.nextTemp + 1) targets.names)
      [.spreadTest (t.scopes.addTemp c.scope "array").1 (targets.pre.length + targets.post.length)
        nothing large small] (targets.shares (base.itemsOf c.onNil) items)

theorem Spreads.performs {targets : Targets} {value code : Code} {c : Context}
    {t t' : LoweringState} {nothing large small : List Code}
    (h : Spreads targets value c t code t' nothing large small) (part : Store → Part) :
    Performs targets.names t [code] t' (Offered value part) fun base =>
      targets.shares (base.itemsOf c.onNil) ((part base).spread (base.itemsOf c.onNil)) where
  nextTemp := h.nextTemp
  firm x hx := by
    rw [mem_singleton.mp hx, h.code]
    exact isFirm_spread
  shared base := h.shared base _
  assigns {σ base I f} hstage hoffers := by
    rw [flatMap_singleton, h.code]
    exact .spread hstage.base hoffers.1 hoffers.2 rfl rfl (h.assigns (hoffers.1.spread c.onNil))

/-- The assignments of a value that is spread are lowered three times. -/
theorem destructure_spreads {value : Code} {t : LoweringState}
    (hapart : AreApart (Targets.names ⟨pre, rest, post⟩))
    (hpre : ∀ value t codes t', assignEach pre value c t = .ok codes t' → ∀ values,
      Performs (Target.namesEach pre) t codes t' (OfferedEach pre.length value values) fun base =>
      Target.sharesEach (base.itemsOf c.onNil) pre (values base))
    (hrest : ∀ value t codes t', assignRest rest value c t = .ok codes t' → ∀ items : Store →
      List Value, Performs (RestTarget.names rest) t codes t'
      (Offered value fun base => .items (items base)) fun base =>
      RestTarget.shares (base.itemsOf c.onNil) rest (items base))
    (hpost : ∀ value t codes t', assignEach post value c t = .ok codes t' → ∀ values,
      Performs (Target.namesEach post) t codes t' (OfferedEach post.length value values) fun base =>
      Target.sharesEach (base.itemsOf c.onNil) post (values base))
    (hcode : destructure pre.length post.length (assignEach pre) (assignRest rest)
      (assignEach post) value c t = .ok code t') :
    ∃ nothing large small, Spreads ⟨pre, rest, post⟩ value c t code t' nothing large small := by
  obtain ⟨array, t₀, harray, hcode⟩ := ok_of_bind hcode
  obtain ⟨onNil, _, honNil, hcode⟩ := ok_of_bind hcode
  cases harray
  obtain ⟨hsame, rfl⟩ := EStateM.Result.ok.inj honNil
  obtain rfl : onNil = c.onNil := hsame.symm
  obtain ⟨pre₁, t₁, hpre₁, hcode⟩ := ok_of_bind hcode
  obtain ⟨rest₁, t₂, hrest₁, hcode⟩ := ok_of_bind hcode
  obtain ⟨post₁, t₃, hpost₁, hcode⟩ := ok_of_bind hcode
  obtain ⟨pre₂, t₄, hpre₂, hcode⟩ := ok_of_bind hcode
  obtain ⟨rest₂, t₅, hrest₂, hcode⟩ := ok_of_bind hcode
  obtain ⟨post₂, t₆, hpost₂, hcode⟩ := ok_of_bind hcode
  obtain ⟨pre₃, t₇, hpre₃, hcode⟩ := ok_of_bind hcode
  obtain ⟨post₃, t₈, hpost₃, hcode⟩ := ok_of_bind hcode
  obtain ⟨rest₃, t₉, hrest₃, hcode⟩ := ok_of_bind hcode
  cases hcode
  have hall : ∀ {front back middle t codes t₁ more t₂ last t₃} (items : List Value),
      assignEach pre front c t = .ok codes t₁ →
      assignRest rest middle c t₁ = .ok more t₂ →
      assignEach post back c t₂ = .ok last t₃ → Performs (Targets.names ⟨pre, rest, post⟩) t
        (codes ++ more ++ last) t₃ (fun σ I f base =>
          (OfferedEach pre.length front (fun _ => Targets.front items) σ I f base ∧
          Offered middle (fun _ => .items (Targets.middle pre.length post.length items)) σ I f
            base) ∧
          OfferedEach post.length back (fun _ => Targets.back pre.length post.length items) σ I f
            base)
        fun base => Targets.shares (base.itemsOf c.onNil) ⟨pre, rest, post⟩ items :=
    fun items h₁ h₂ h₃ => ((hpre _ _ _ _ h₁ _).append (hrest _ _ _ _ h₂ _) hapart.left).append
      (hpost _ _ _ _ h₃ _) hapart
  have hlarge := fun items => hall items hpre₁ hrest₁ hpost₁
  have hsmall := fun items => (hall items hpre₂ hrest₂ hpost₂).since (hlarge items).nextTemp
  have htemp : (t.addTemp c.scope "array").scopes.nextTemp = t.scopes.nextTemp + 1 :=
    t.scopes.nextTemp_addTemp c.scope "array"
  refine ⟨_, pre₁ ++ rest₁ ++ post₁, pre₂ ++ rest₂ ++ post₂, rfl, ?_,
    fun base items => (hlarge items).shared base, ?_⟩
  · have hnothing : t₆.scopes.nextTemp ≤ t₉.scopes.nextTemp :=
      Nat.le_trans (hpre _ _ _ _ hpre₃ fun _ _ => .nil).nextTemp
        (Nat.le_trans (hpost _ _ _ _ hpost₃ fun _ _ => .nil).nextTemp
          (hrest _ _ _ _ hrest₃ fun _ => []).nextTemp)
    have hle : t.scopes.nextTemp ≤ (t.addTemp c.scope "array").scopes.nextTemp := by
      rw [htemp]
      exact Nat.le_succ _
    exact Nat.le_trans hle (Nat.le_trans (hsmall []).nextTemp hnothing)
  · intro σ base f items hdata id
    refine .spreadTest (fun x hx => ?_) ?_
    · exact (mem_append.mp hx).elim ((hlarge []).firm x) ((hsmall []).firm x)
    -- what is written from here on is not the variable of the array
    have hkeeping : Stage σ.unit base (IsWritten (t.scopes.nextTemp + 1)
        (Targets.names ⟨pre, rest, post⟩))
        (Keeping σ.unit base f (t.scopes.addTemp c.scope "array").1 id items) :=
      ⟨fun s hs => hs.base, fun s r hw hs =>
        hs.writes hw (hapart.not_isWritten_hidden (Nat.lt_succ_self _))⟩
    have hmiddle : ∀ v ∈ Targets.middle pre.length post.length items, base.IsData v :=
      fun v hv => hdata v (mem_of_mem_drop (mem_of_mem_take hv))
    by_cases hle : pre.length + post.length ≤ items.length
    · rw [if_pos hle]
      refine (hlarge items).assigns_of_eq htemp hkeeping ⟨⟨fun i _ => ⟨.getD hdata i,
        Setting.offers_front i⟩, hmiddle, Setting.offers_middle _ _⟩, fun k hk => ⟨?_,
          Setting.offers_back hle hk⟩⟩
      show base.IsData (Targets.back _ _ _ k)
      rw [Targets.back, if_pos hle]
      exact .getD hdata _
    · rw [if_neg hle]
      refine (hsmall items).assigns_of_eq htemp hkeeping ⟨⟨fun i _ => ⟨.getD hdata i,
        Setting.offers_front i⟩, hmiddle, Setting.offers_middle _ _⟩, fun k hk => ?_⟩
      show base.IsData (Targets.back _ _ _ k) ∧ σ.Offers _ f _ (.value (Targets.back _ _ _ k))
      rw [Targets.back, if_neg hle]
      exact ⟨.getD hdata _, Setting.offers_front _⟩

mutual

theorem assign_performs : ∀ (target : Located Target) {value : Code} {c : Context}
    {t t' : LoweringState} {code : Code}, Target.isLocal target = true →
    AreApart (Target.names target) → assign target value c t = .ok code t' →
    ∀ part : Store → Part, Performs (Target.names target) t [code] t' (Offered value part)
      fun base => Target.shares (base.itemsOf c.onNil) target (part base)
  | ⟨_, .localVar name⟩, value, c, t, t', code, _, _, hcode, part => by
    obtain ⟨l, t₁, hl, hcode⟩ := ok_of_bind hcode
    cases hcode
    cases hl
    have hname : (t.scopes.answer c.scope (.assigned name)).1 =
        some (t.scopes.resolveForAssignment c.scope name).1 := rfl
    exact .write (Scopes.name_answer hname) (t.scopes.nextTemp_answer c.scope (.assigned name))
  | ⟨_, .nested ⟨pre, rest, post⟩⟩, value, c, t, t', code, hlocal, hapart, hcode, part => by
    obtain ⟨_, _, _, hspreads⟩ := targets_spread ⟨pre, rest, post⟩ hlocal hapart hcode
    exact hspreads.performs part
  | ⟨_, .instanceVar _⟩, _, _, _, _, _, hlocal, _, _, _
  | ⟨_, .classVar _⟩, _, _, _, _, _, hlocal, _, _, _
  | ⟨_, .globalVar _⟩, _, _, _, _, _, hlocal, _, _, _
  | ⟨_, .index _ _⟩, _, _, _, _, _, hlocal, _, _, _
  | ⟨_, .attribute _ _⟩, _, _, _, _, _, hlocal, _, _, _ => by cases hlocal

theorem targets_spread : ∀ (targets : Targets) {value : Code} {c : Context}
    {t t' : LoweringState} {code : Code}, targets.areLocal = true → AreApart targets.names →
    destructure targets.pre.length targets.post.length (assignEach targets.pre)
      (assignRest targets.rest) (assignEach targets.post) value c t = .ok code t' →
    ∃ nothing large small, Spreads targets value c t code t' nothing large small
  | ⟨pre, rest, post⟩, value, c, t, t', code, hlocal, hapart, hcode => by
    obtain ⟨⟨hpre, hrest⟩, hpost⟩ : (Target.areLocalEach pre = true ∧
        RestTarget.isLocal rest = true) ∧ Target.areLocalEach post = true := by
      simpa [Targets.areLocal] using hlocal
    exact destructure_spreads hapart
      (fun value t codes t' h => assignEach_performs pre hpre hapart.left.left h)
      (fun value t codes t' h => assignRest_performs rest hrest hapart.left.right h)
      (fun value t codes t' h => assignEach_performs post hpost hapart.right h) hcode

theorem assignEach_performs : ∀ (targets : List (Located Target)) {value : Nat → Code}
    {c : Context} {t t' : LoweringState} {codes : List Code},
    Target.areLocalEach targets = true → AreApart (Target.namesEach targets) →
    assignEach targets value c t = .ok codes t' → ∀ values : Store → Nat → Value,
    Performs (Target.namesEach targets) t codes t' (OfferedEach targets.length value values)
      fun base => Target.sharesEach (base.itemsOf c.onNil) targets (values base)
  | [], value, c, t, t', codes, _, _, hcodes, values => by
    cases hcodes
    exact .nil
  | target :: rest, value, c, t, t', codes, hlocal, hapart, hcodes, values => by
    obtain ⟨hfirst, hrest⟩ : Target.isLocal target = true ∧ Target.areLocalEach rest = true := by
      simpa [Target.areLocalEach] using hlocal
    obtain ⟨first, t₁, hcode, hcodes⟩ := ok_of_bind hcodes
    obtain ⟨more, t₂, hmore, hcodes⟩ := ok_of_bind hcodes
    cases hcodes
    have hhere := assign_performs target hfirst hapart.left hcode fun base => .value (values base 0)
    have hthere := assignEach_performs rest hrest hapart.right hmore
      fun base i => values base (i + 1)
    refine (hhere.append hthere hapart).mono fun σ I f base _ hoffers => ⟨?_, fun i hi => ?_⟩
    · exact hoffers 0 (Nat.succ_pos _)
    · exact hoffers (i + 1) (Nat.succ_lt_succ hi)

theorem assignRest_performs : ∀ (rest : Option RestTarget) {value : Code} {c : Context}
    {t t' : LoweringState} {codes : List Code}, RestTarget.isLocal rest = true →
    AreApart (RestTarget.names rest) → assignRest rest value c t = .ok codes t' →
    ∀ items : Store → List Value, Performs (RestTarget.names rest) t codes t'
      (Offered value fun base => .items (items base))
      fun base => RestTarget.shares (base.itemsOf c.onNil) rest (items base)
  | some (.named target), value, c, t, t', codes, hlocal, hapart, hcodes, items => by
    obtain ⟨first, t₁, hcode, hcodes⟩ := ok_of_bind hcodes
    cases hcodes
    exact assign_performs target hlocal hapart hcode _
  | some .anonymous, value, c, t, t', codes, _, _, hcodes, items
  | none, value, c, t, t', codes, _, _, hcodes, items => by
    cases hcodes
    exact .nil

end

end Lower

end BlockLang
