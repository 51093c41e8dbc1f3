import BlockLang.Proofs.Lowering.Passage

/-!
# Code that knows where its arrays are

Items are taken from an array in a hidden variable, and nothing but the code around says that there
is one: the code that spreads a value asks whether the variable is nil, and the binding code of a
block asks whether its only argument can be taken apart. `Code.Careful` says it of the code alone.
`known` are the variables that items may be taken from. They get more where the code has asked, and
where a variable is known it is not written again.

**Everything that lowering puts together is careful** (`Emits.careful`), because the number of a new
hidden variable is one that nothing at hand has. So are the bodies of a program
(`Program.careful_of_lower`).
-/

namespace BlockLang

open List

/-! ## The variables that hold arrays -/

/-- Holds a value that is spread over targets. -/
def Local.IsSpread (l : Local) : Prop := l.level = 0 ∧ ∃ i, l.name = hiddenName "array" i

/-- Holds the only argument of a block. -/
def Local.IsUnpacked (l : Local) : Prop := l.level = 0 ∧ ∃ i, l.name = hiddenName "destructure" i

/-- The name of a variable of one of these kinds. -/
def IsArrayName (name : String) : Prop :=
  ∃ hint ∈ ["array", "destructure"], ∃ i, name = hiddenName hint i

variable {l : Local} {limit limit' : Nat}

theorem Local.IsSpread.isArrayName (h : l.IsSpread) : IsArrayName l.name := by
  obtain ⟨_, i, hname⟩ := h
  exact ⟨"array", by simp, i, hname⟩

theorem Local.IsUnpacked.isArrayName (h : l.IsUnpacked) : IsArrayName l.name := by
  obtain ⟨_, i, hname⟩ := h
  exact ⟨"destructure", by simp, i, hname⟩

theorem Local.IsUnpacked.name_ne (h : l.IsUnpacked) (i : Nat) : l.name ≠ hiddenName "array" i := by
  obtain ⟨_, j, hname⟩ := h
  rw [hname]
  intro heq
  exact absurd (hiddenName_inj heq).1 (by decide)

theorem not_isArrayName
    (h : isHidden name = false ∨ ∃ hint ∈ plainHints, ∃ i, name = hiddenName hint i) :
    ¬ IsArrayName name := by
  rintro ⟨hint, hhint, i, rfl⟩
  rcases h with hplain | ⟨other, hother, j, heq⟩
  · rw [isHidden_hiddenName] at hplain
    cases hplain
  · rw [← (hiddenName_inj heq).1] at hother
    simp only [mem_cons, not_mem_nil, or_false] at hhint
    rcases hhint with rfl | rfl <;> exact absurd hother (by decide)

/-! ## Careful code -/

namespace Code

/-- The only argument of a block is made an array. -/
def unpack (array : Local) : Code :=
  .writeLocal array (.splatCast (.argument 0 .isNil) .arrayWithNil)

/-- **Items are taken only from known arrays.** Values are spread from variables with numbers below
the limit. -/
inductive Careful (limit : Nat) : List Local → Code → Prop
  | node :
      c.isNeutral = true → (∀ part ∈ c.children, Careful limit known part) → Careful limit known c
  | read (l : Local) : Careful limit known (.readLocal l)
  | write {l : Local} :
      ¬ IsArrayName l.name → Careful limit known value → Careful limit known (.writeLocal l value)
  | take {array : Local} : array ∈ known → c.TakesFrom array → Careful limit known c
  /-- A value is made an array, in a variable that nobody relies on. -/
  | coerce {array : Local} (onNil : NilAsArray) :
      array.level = 0 → array.name = hiddenName "array" i → i < limit →
      (∀ l ∈ known, l.name ≠ array.name) → Careful limit known value →
      Careful limit known (.writeLocal array (.splatCast value onNil))
  /-- What is not nil is an array. -/
  | test {array : Local} {items : Code} :
      array.IsSpread → Careful limit known nothing → Careful limit (array :: known) items →
      Careful limit known (.ifElse (.isNil (.readLocal array)) nothing items)
  /-- An only argument that can be taken apart is made an array before it is. -/
  | eitherWay {array : Local} :
      array.IsUnpacked → (∀ c ∈ fromItems, Careful limit (array :: known) c) →
      (∀ c ∈ positional, Careful limit known c) →
      Careful limit known (.ifElse .shouldDestructure (.join (.unpack array :: fromItems))
        (.join positional))

theorem join_writeLocal (l : Local) (value : Code) (pieces : List Code) :
    Code.join (.writeLocal l value :: pieces) =
      ofItems (.writeLocal l value :: elideResults (pieces.flatMap items)) := by
  unfold Code.join
  rw [flatMap_cons]
  show ofItems (elideResults (.writeLocal l value :: pieces.flatMap items)) = _
  cases pieces.flatMap items <;> rfl

namespace Careful

variable {limit : Nat} {known : List Local} {c : Code}

theorem leaf (hc : c.isNeutral = true) (h : c.children = []) : Careful limit known c :=
  node hc (by simp [h])

theorem parts (h : Careful limit known c) (hc : c.isNeutral = true)
    (hbranch : ∀ condition first second, c ≠ .ifElse condition first second) :
    ∀ part ∈ c.children, Careful limit known part := by
  cases h with
  | node _ hparts => exact hparts
  | read | write | coerce => cases hc
  | take _ htakes => cases htakes <;> cases hc
  | test | eitherWay => exact absurd rfl (hbranch _ _ _)

theorem join (h : ∀ c ∈ pieces, Careful limit known c) :
    Careful limit known (Code.join pieces) := by
  refine join_of_forall (fun items hitems => ?_) (fun body result hboth => ?_) (leaf rfl rfl)
    (fun items hitems => node rfl hitems) h
  · exact hitems.parts rfl (by simp)
  · exact hboth.parts rfl (by simp) body mem_cons_self

theorem of_ofItems (h : Careful limit known (.ofItems codes)) :
    ∀ c ∈ codes, Careful limit known c := by
  cases codes with
  | nil => exact forall_mem_nil _
  | cons first rest =>
    cases rest with
    | nil => exact forall_mem_singleton.mpr h
    | cons second rest =>
      have hall : Careful limit known (.sequence (first :: second :: rest)) := h
      exact hall.parts rfl (by simp)

/-- More may be known, as long as it is none of the variables that the code spreads from. -/
theorem mono {limit' : Nat} (h : Careful limit known c) (hlimit : limit ≤ limit')
    (hsub : ∀ l ∈ known, l ∈ known')
    (hfresh : ∀ l ∈ known', l ∈ known ∨ ∀ i < limit, l.name ≠ hiddenName "array" i) :
    Careful limit' known' c := by
  have hcons : ∀ {known known' : List Local} (array : Local), (∀ l ∈ known, l ∈ known') →
      ∀ l ∈ array :: known, l ∈ array :: known' := by
    intro known known' array hsub l hl
    rcases mem_cons.mp hl with rfl | hl
    · exact mem_cons_self
    · exact mem_cons_of_mem _ (hsub l hl)
  have hstill : ∀ {known known' : List Local} (array : Local),
      (∀ l ∈ known', l ∈ known ∨ ∀ i < limit, l.name ≠ hiddenName "array" i) →
      ∀ l ∈ array :: known', l ∈ array :: known ∨ ∀ i < limit, l.name ≠ hiddenName "array" i := by
    intro known known' array hfresh l hl
    rcases mem_cons.mp hl with rfl | hl
    · exact Or.inl mem_cons_self
    · exact (hfresh l hl).imp (mem_cons_of_mem _) id
  induction h generalizing known' with
  | node hc _ ih => exact node hc fun part hpart => ih part hpart hsub hfresh
  | read l => exact read l
  | write hl _ ih => exact write hl (ih hsub hfresh)
  | take harray htakes => exact take (hsub _ harray) htakes
  | coerce onNil hlevel hname hi hnew _ ih =>
    refine coerce onNil hlevel hname (Nat.lt_of_lt_of_le hi hlimit) (fun l hl => ?_)
      (ih hsub hfresh)
    rcases hfresh l hl with hold | hother
    · exact hnew l hold
    · rw [hname]
      exact hother _ hi
  | test harray _ _ ih₁ ih₂ =>
    exact test harray (ih₁ hsub hfresh) (ih₂ (hcons _ hsub) (hstill _ hfresh))
  | eitherWay harray _ _ ih₁ ih₂ =>
    exact eitherWay harray (fun c hc => ih₁ c hc (hcons _ hsub) (hstill _ hfresh))
      fun c hc => ih₂ c hc hsub hfresh

theorem spread {array : Local} {value : Code} {nothing large small : List Code} {i : Nat}
    (onNil : NilAsArray) (size : Nat) (hlevel : array.level = 0)
    (hname : array.name = hiddenName "array" i) (hi : i < limit)
    (hnew : ∀ l ∈ known, l.name ≠ array.name) (hvalue : Careful limit known value)
    (hnothing : ∀ c ∈ nothing, Careful limit known c)
    (hlarge : ∀ c ∈ large, Careful limit (array :: known) c)
    (hsmall : ∀ c ∈ small, Careful limit (array :: known) c) :
    Careful limit known (.spread array value onNil size nothing large small) := by
  refine join fun c hc => ?_
  simp only [mem_cons, not_mem_nil, or_false] at hc
  rcases hc with rfl | rfl
  · exact coerce onNil hlevel hname hi hnew hvalue
  · refine test ⟨hlevel, i, hname⟩ (join hnothing) (node rfl fun part hpart => ?_)
    simp only [children, mem_cons, not_mem_nil, or_false] at hpart
    rcases hpart with rfl | rfl | rfl
    · exact take mem_cons_self (.atLeast size)
    · exact join hlarge
    · exact join hsmall

end Careful

end Code

/-! ## What lowering puts together -/

/-- Code at hand is careful, and variables at hand may be written or hold known arrays. -/
def Supply.Careful (limit : Nat) (known : List Local) : Supply → Prop
  | .code c => c.Careful limit known
  | .reference l => ¬ IsArrayName l.name
  | .readable _ => True
  | .items l => l ∈ known
  | .own name => isHidden name = false

theorem Supply.Careful.mono {known : List Local} {x : Supply} (h : x.Careful limit known)
    (hlimit : limit ≤ limit') (hsub : ∀ l ∈ known, l ∈ known')
    (hfresh : ∀ l ∈ known', l ∈ known ∨ ∀ i < limit, l.name ≠ hiddenName "array" i) :
    x.Careful limit' known' := by
  cases x with
  | code c => exact Code.Careful.mono h hlimit hsub hfresh
  | items l => exact hsub l h
  | reference l | readable l | own name => exact h

theorem Supply.Careful.later {known : List Local} {x : Supply} (h : x.Careful limit known)
    (hlimit : limit ≤ limit') : x.Careful limit' known :=
  h.mono hlimit (fun _ hl => hl) fun _ hl => Or.inl hl

/-- The variable has a number below the limit. -/
def Local.IsBefore (limit : Nat) (l : Local) : Prop :=
  ∃ hint i, i < limit ∧ l.name = hiddenName hint i

theorem Local.IsBefore.later (h : l.IsBefore limit) (hlimit : limit ≤ limit') :
    l.IsBefore limit' := by
  obtain ⟨hint, i, hi, hname⟩ := h
  exact ⟨hint, i, Nat.lt_of_lt_of_le hi hlimit, hname⟩

namespace Emits

variable {ρ : Policy} {N : Names} {k : ScopeId} {E G : List Supply} {s s' : LoweringState}

theorem nextTemp_le (h : Emits ρ N k E s G s') : s.scopes.nextTemp ≤ s'.scopes.nextTemp := by
  let own? : Supply → Option String
    | .own name => some name
    | _ => none
  exact (h.passes fun n hn => mem_filterMap.mpr ⟨_, hn, (rfl : own? (.own n) = some n)⟩).nextTemp_le

/-- **What is put together from careful code is careful**, if hidden variables are not asked for by
name. -/
theorem careful (hnames : ∀ n, ρ.name n → isHidden n = false) (h : Emits ρ N k E s G s') : ∀ known,
    (∀ l ∈ known, l.IsBefore s.scopes.nextTemp) →
    (∀ x ∈ E, x.Careful s.scopes.nextTemp known) →
    ∀ x ∈ G, x.Careful s'.scopes.nextTemp known := by
  induction h with
  | supplied hG => exact fun known _ hE x hx => hE x (hG x hx)
  | step h₁ _ ih₁ ih₂ =>
    intro known hknown hE
    have hle := h₁.nextTemp_le
    refine ih₂ known (fun l hl => (hknown l hl).later hle) fun x hx => ?_
    rcases mem_append.mp hx with hx | hx
    · exact ih₁ known hknown hE x hx
    · exact (hE x hx).later hle
  | node hc hparts =>
    intro known _ hE x hx
    rw [mem_singleton.mp hx]
    exact .node (Bool.and_eq_true_iff.mp hc).1 fun part hpart => hE _ (hparts part hpart)
  | join hpieces =>
    intro known _ hE x hx
    rw [mem_singleton.mp hx]
    exact .join fun c hc => hE _ (hpieces c hc)
  | read =>
    intro known _ _ x hx
    rw [mem_singleton.mp hx]
    exact .read _
  | readable =>
    intro known _ _ x hx
    rw [mem_singleton.mp hx]
    trivial
  | write hl hvalue =>
    intro known _ hE x hx
    rw [mem_singleton.mp hx]
    exact .write (hE _ hl) (hE _ hvalue)
  | take harray htakes =>
    intro known _ hE x hx
    rw [mem_singleton.mp hx]
    exact .take (hE _ harray) htakes
  | @reference E _ k s l r hr hl =>
    intro known _ hE x hx
    rw [mem_singleton.mp hx]
    show ¬ IsArrayName l.name
    rw [Scopes.name_answer hl]
    cases r with
    | known name | assigned name => exact not_isArrayName (Or.inl (hnames name hr))
    | frameGlobal name => exact not_isArrayName (Or.inl (Scopes.isHidden_frameGlobalSlot name))
    | own name => exact not_isArrayName (Or.inl (hE _ hr))
    | temp hint => exact not_isArrayName (Or.inr ⟨hint, hr, _, rfl⟩)
  | @spread E _ k s₁ s₂ s₃ s value large small nothing onNil size hvalue h₁ h₂ h₃ ih₁ ih₂ ih₃ =>
    intro known hknown hE x hx
    rw [mem_singleton.mp hx]
    let array := (s.scopes.addTemp k "array").1
    -- the number of the variable is new, and what is at hand has smaller ones
    have hname : array.name = hiddenName "array" s.scopes.nextTemp := rfl
    have hnew : ∀ l ∈ known, l.name ≠ array.name := by
      intro l hl
      obtain ⟨hint, i, hi, heq⟩ := hknown l hl
      rw [heq, hname]
      exact fun heq => Nat.ne_of_lt hi (hiddenName_inj heq).2
    have hother : ∀ i < s.scopes.nextTemp, array.name ≠ hiddenName "array" i := by
      intro i hi heq
      exact Nat.ne_of_gt hi (hiddenName_inj heq).2
    have htemp : (s.addTemp k "array").scopes.nextTemp = s.scopes.nextTemp + 1 :=
      s.scopes.nextTemp_addTemp k "array"
    have hle₀ : s.scopes.nextTemp ≤ (s.addTemp k "array").scopes.nextTemp := by
      rw [htemp]
      exact Nat.le_succ _
    have hle₁ := h₁.nextTemp_le
    have hle₂ := h₂.nextTemp_le
    have hle₃ := h₃.nextTemp_le
    have hknown₀ : ∀ l ∈ array :: known, l.IsBefore (s.addTemp k "array").scopes.nextTemp := by
      intro l hl
      rcases mem_cons.mp hl with rfl | hl
      · exact ⟨"array", _, by rw [htemp]; exact Nat.lt_succ_self _, hname⟩
      · exact (hknown l hl).later hle₀
    have hE₀ : ∀ x ∈ Supply.items array :: E,
        x.Careful (s.addTemp k "array").scopes.nextTemp (array :: known) := by
      intro x hx
      rcases mem_cons.mp hx with rfl | hx
      · exact mem_cons_self
      · refine (hE x hx).mono hle₀ (fun _ => mem_cons_of_mem _) fun l hl => ?_
        rcases mem_cons.mp hl with rfl | hl
        · exact Or.inr hother
        · exact Or.inl hl
    have hlarge := ih₁ _ hknown₀ hE₀
    have hsmall := ih₂ _ (fun l hl => (hknown₀ l hl).later hle₁) fun x hx => (hE₀ x hx).later hle₁
    have hle : s.scopes.nextTemp ≤ s₂.scopes.nextTemp :=
      Nat.le_trans hle₀ (Nat.le_trans hle₁ hle₂)
    have hnothing := ih₃ known (fun l hl => (hknown l hl).later hle) fun x hx => (hE x hx).later hle
    refine Code.Careful.spread onNil size rfl hname ?_ hnew ?_ ?_ ?_ ?_
    · exact Nat.lt_of_lt_of_le (htemp ▸ Nat.lt_succ_self _)
        (Nat.le_trans hle₁ (Nat.le_trans hle₂ hle₃))
    · exact (hE _ hvalue).later (Nat.le_trans hle hle₃)
    · exact fun c hc => hnothing _ (mem_map.mpr ⟨c, hc, rfl⟩)
    · exact fun c hc => (hlarge _ (mem_map.mpr ⟨c, hc, rfl⟩)).later (Nat.le_trans hle₂ hle₃)
    · exact fun c hc => (hsmall _ (mem_map.mpr ⟨c, hc, rfl⟩)).later hle₃
  | @eitherWay E _ k s' s positional fromItems hpositional h ih =>
    intro known hknown hE x hx
    rw [mem_singleton.mp hx]
    let array := (s.scopes.addTemp k "destructure").1
    have harray : array.IsUnpacked := ⟨rfl, s.scopes.nextTemp, rfl⟩
    have htemp : (s.addTemp k "destructure").scopes.nextTemp = s.scopes.nextTemp + 1 :=
      s.scopes.nextTemp_addTemp k "destructure"
    have hle₀ : s.scopes.nextTemp ≤ (s.addTemp k "destructure").scopes.nextTemp := by
      rw [htemp]
      exact Nat.le_succ _
    have hitems := ih (array :: known) (fun l hl => ?_) fun x hx => ?_
    · refine Code.Careful.eitherWay harray (fun c hc => ?_) fun c hc => ?_
      · exact hitems _ (mem_map.mpr ⟨c, hc, rfl⟩)
      · exact (hE _ (hpositional c hc)).later (Nat.le_trans hle₀ h.nextTemp_le)
    · rcases mem_cons.mp hl with rfl | hl
      · exact ⟨"destructure", _, by rw [htemp]; exact Nat.lt_succ_self _, rfl⟩
      · exact (hknown l hl).later hle₀
    · rcases mem_cons.mp hx with rfl | hx
      · exact mem_cons_self
      · refine (hE x hx).mono hle₀ (fun _ => mem_cons_of_mem _) fun l hl => ?_
        rcases mem_cons.mp hl with rfl | hl
        · exact Or.inr fun i _ => harray.name_ne i
        · exact Or.inl hl
  | loop _ ih => exact ih
  | body => exact fun _ _ _ => forall_mem_nil _

theorem carefulBodies (hnames : ∀ n, ρ.name n → isHidden n = false) (h : Emits ρ N k E s G s')
    (hs : ∀ b body, s.unit.body? b = some body → ∃ limit, body.code.Careful limit []) :
    ∀ b body, s'.unit.body? b = some body → ∃ limit, body.code.Careful limit [] := by
  induction h with
  | supplied | node | join | read | write | take | readable | reference => exact hs
  | step _ _ ih₁ ih₂ => exact ih₂ (ih₁ hs)
  | spread _ _ _ _ _ _ ih₁ ih₂ ih₃ => exact ih₃ (ih₂ (ih₁ hs))
  | eitherWay _ _ ih | loop _ ih => exact ih hs
  | @body s' _ _ _ _ _ _ _ _ _ _ _ _ hown _ hcode ih =>
    refine LoweringState.forall_finish (P := fun c => ∃ limit, c.Careful limit [])
      ⟨0, .leaf rfl rfl⟩ (ih hs) ⟨s'.scopes.nextTemp, ?_⟩
    refine hcode.careful hnames [] (forall_mem_nil _) (fun x hx => ?_) _ mem_cons_self
    obtain ⟨n, hn, rfl⟩ := mem_map.mp hx
    exact hnames n (hown n hn)

end Emits

theorem Program.careful_of_lower {p : Program} {options : LowerOptions} {u : CodeUnit}
    (hp : p.Plain) (h : p.lower options = .ok u) {b : BodyId} {body : Body}
    (hb : u.body? b = some body) : ∃ limit, body.code.Careful limit [] := by
  obtain ⟨hclean, rfl⟩ := lower_ok_iff.mp h
  obtain ⟨codes, s, ⟨hemits, -, -⟩, heq⟩ := p.puts options hclean
  rw [heq] at hb
  have hempty : ∀ b body, (({} : LoweringState).enter 0 .topLevel).unit.body? b = some body →
      ∃ limit, body.code.Careful limit [] := by
    intro b body hbody
    simp [LoweringState.enter, CodeUnit.body?] at hbody
  have hcareful := hemits.careful hp.policy [] (forall_mem_nil _) (forall_mem_nil _)
  refine LoweringState.forall_finish (P := fun c => ∃ limit, c.Careful limit [])
    ⟨0, .leaf rfl rfl⟩ (hemits.carefulBodies hp.policy hempty) ⟨s.scopes.nextTemp, ?_⟩ b body hb
  exact .join fun c hc => hcareful _ (mem_map.mpr ⟨c, hc, rfl⟩)

end BlockLang
