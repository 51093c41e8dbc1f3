import BlockLang.Code.Basic

/-!
# Code by its parts

`Code.fold` spells out every constructor, and `Code.children` spells them out again. `Code.fold_eq`
says that the two agree, once, so that everything defined by a fold (`Code.preorder` first of all)
is the recursion on `Code.children`, and `Code.inductionOnChildren` is its induction. Nothing
after this file goes through the constructors of `Code` without a reason of its own.
-/

namespace BlockLang

open List

namespace Code

variable {α : Type}

theorem foldEach_eq (f : Code → List α → α) :
    ∀ codes : List Code, foldEach f codes = codes.map (fold f)
  | [] => rfl
  | c :: rest => by rw [foldEach, foldEach_eq f rest, map_cons]

theorem foldPairs_eq (f : Code → List α → α) : ∀ pairs : List (Code × Code),
    foldPairs f pairs = (pairs.flatMap fun (key, value) => [key, value]).map (fold f)
  | [] => rfl
  | (key, value) :: rest => by simp [foldPairs, foldPairs_eq f rest]

theorem foldOption_eq (f : Code → List α → α) (c : Option Code) :
    foldOption f c = c.toList.map (fold f) := by
  cases c <;> simp [foldOption]

theorem fold_eq (f : Code → List α → α) (c : Code) : c.fold f = f c (c.children.map (fold f)) := by
  cases c <;> simp [fold, children, foldEach_eq, foldPairs_eq, foldOption_eq]

variable {c part : Code} {P : Code → Prop} {pieces : List Code}

theorem sizeOf_lt_of_mem_children (h : part ∈ c.children) : sizeOf part < sizeOf c := by
  have heach : ∀ {codes : List Code}, part ∈ codes → sizeOf part < sizeOf codes :=
    fun hm => sizeOf_lt_of_mem hm
  have hoption : ∀ {code : Option Code}, part ∈ code.toList → sizeOf part < sizeOf code := by
    intro code hm
    cases code with
    | none => simp at hm
    | some c => simp_all
  cases c
  case array items | sequence items | yield args =>
    simp only [children] at h
    have := heach h
    simp only [array.sizeOf_spec, sequence.sizeOf_spec, yield.sizeOf_spec]
    omega
  case hash pairs =>
    obtain ⟨⟨key, value⟩, hpair, hpart⟩ := mem_flatMap.mp h
    have := sizeOf_lt_of_mem hpair
    simp only [Prod.mk.sizeOf_spec] at this
    simp only [mem_cons, not_mem_nil, or_false] at hpart
    simp only [hash.sizeOf_spec]
    rcases hpart with rfl | rfl <;> omega
  case call receiver method args block =>
    simp only [children, mem_append] at h
    simp only [call.sizeOf_spec]
    rcases h with (h | h) | h
    · have := hoption h
      omega
    · have := heach h
      omega
    · have := hoption h
      omega
  case super args block forwardBlock =>
    simp only [children, mem_append] at h
    simp only [super.sizeOf_spec]
    rcases h with h | h
    · have := heach h
      omega
    · have := hoption h
      omega
  case openClass name superclass isModule body =>
    have := hoption h
    simp only [openClass.sizeOf_spec]
    omega
  all_goals
    simp only [children, mem_cons, not_mem_nil, or_false] at h
  all_goals first
    | exact absurd h id
    | (rcases h with rfl | rfl | rfl <;> simp <;> omega)

theorem inductionOnChildren (h : ∀ c, (∀ part ∈ c.children, P part) → P c) (c : Code) : P c :=
  h c fun part hpart =>
    have := sizeOf_lt_of_mem_children hpart
    inductionOnChildren h part
termination_by sizeOf c

/-! ## Pieces one after the other -/

/-- What holds of pieces of code holds of them joined, if it goes from a sequence to its items and
back, and from code with a result that may be left out to the code without it. -/
theorem join_of_forall (hitems : ∀ items, P (.sequence items) → ∀ c ∈ items, P c)
    (heffect : ∀ body result, P (.elidable body result) → P body) (hnil : P .nil)
    (hsequence : ∀ items, (∀ c ∈ items, P c) → P (.sequence items)) (h : ∀ c ∈ pieces, P c) :
    P (join pieces) := by
  have hopen : ∀ c, P c → ∀ item ∈ c.items, P item := by
    intro c hc item hitem
    cases c with
    | sequence items => exact hitems items hc item hitem
    | _ => exact mem_singleton.mp hitem ▸ hc
  have helide : ∀ codes : List Code, (∀ c ∈ codes, P c) → ∀ c ∈ elideResults codes, P c := by
    intro codes
    induction codes with
    | nil => exact fun hcodes => hcodes
    | cons first rest ih =>
      intro hcodes
      cases rest with
      | nil => exact hcodes
      | cons second rest =>
        intro c hc
        rcases mem_append.mp hc with hc | hc
        · have hfirst := hcodes first mem_cons_self
          cases first with
          | elidable body result => exact hopen body (heffect body result hfirst) c hc
          | _ => exact mem_singleton.mp hc ▸ hfirst
        · exact ih (fun c hc => hcodes c (mem_cons_of_mem _ hc)) c hc
  have hof : ∀ codes : List Code, (∀ c ∈ codes, P c) → P (ofItems codes) := by
    intro codes hcodes
    cases codes with
    | nil => exact hnil
    | cons first rest =>
      cases rest with
      | nil => exact hcodes first mem_cons_self
      | cons second rest => exact hsequence _ hcodes
  refine hof _ (helide _ fun c hc => ?_)
  obtain ⟨piece, hpiece, hc⟩ := mem_flatMap.mp hc
  exact hopen piece (h piece hpiece) c hc

/-! ### Pieces that stay as they are -/

/-- Code that is one item of a sequence and stays as it is. -/
def Solid (c : Code) : Prop := c.items = [c] ∧ c.effectItems = [c]

theorem elideResults_append : ∀ {first : List Code} (rest : List Code), (∀ c ∈ first, c.Solid) →
    elideResults (first ++ rest) = first ++ elideResults rest
  | [], _, _ => rfl
  | [c], [], _ => rfl
  | [c], next :: rest, h => by
    show c.effectItems ++ _ = _
    rw [(h c mem_cons_self).2]
    rfl
  | c :: next :: first, rest, h => by
    have ih : elideResults (next :: first ++ rest) = next :: first ++ elideResults rest :=
      elideResults_append rest fun x hx => h x (mem_cons_of_mem _ hx)
    show c.effectItems ++ elideResults (next :: first ++ rest) = _
    rw [(h c mem_cons_self).2, ih]
    rfl

theorem flatMap_items : ∀ {codes : List Code}, (∀ x ∈ codes, x.Solid) → codes.flatMap items = codes
  | [], _ => rfl
  | x :: codes, h => by
    rw [flatMap_cons, (h x mem_cons_self).1, flatMap_items fun y hy => h y (mem_cons_of_mem _ hy)]
    rfl

/-- Every item of the code stays as it is when the code is joined with other code. -/
def IsFirm (c : Code) : Prop := ∀ x ∈ c.items, x.Solid

theorem Solid.isFirm (h : c.Solid) : c.IsFirm := by
  intro x hx
  rw [h.1] at hx
  exact mem_singleton.mp hx ▸ h

theorem isFirm_writeLocal (l : Local) (value : Code) : (writeLocal l value).IsFirm :=
  Solid.isFirm ⟨rfl, rfl⟩

theorem elideResults_of_solid (h : ∀ c ∈ codes, c.Solid) : elideResults codes = codes := by
  have happend := elideResults_append [] h
  rwa [append_nil, show elideResults [] = [] from rfl, append_nil] at happend

theorem join_of_firm (h : ∀ c ∈ pieces, c.IsFirm) :
    join pieces = ofItems (pieces.flatMap items) := by
  unfold join
  rw [elideResults_of_solid]
  intro x hx
  obtain ⟨c, hc, hx⟩ := mem_flatMap.mp hx
  exact h c hc x hx

def isSolid : Code → Bool
  | .sequence _ | .elidable _ _ => false
  | _ => true

theorem solid_of_isSolid (h : c.isSolid = true) : c.Solid := by
  cases c with
  | sequence | elidable => cases h
  | _ => exact ⟨rfl, rfl⟩

theorem all_isSolid_join (h : ∀ c ∈ pieces, c.items.all isSolid = true) :
    (join pieces).items.all isSolid = true := by
  have hsolid : ∀ x ∈ pieces.flatMap items, x.isSolid = true := by
    intro x hx
    obtain ⟨c, hc, hx⟩ := mem_flatMap.mp hx
    exact all_eq_true.mp (h c hc) x hx
  rw [join_of_firm fun c hc x hx => solid_of_isSolid (all_eq_true.mp (h c hc) x hx)]
  cases hitems : pieces.flatMap items with
  | nil => rfl
  | cons first rest =>
    rw [hitems] at hsolid
    cases rest with
    | nil =>
      show first.items.all isSolid = true
      rw [(solid_of_isSolid (hsolid first mem_cons_self)).1]
      exact all_eq_true.mpr hsolid
    | cons second rest => exact all_eq_true.mpr hsolid

/-! ## All parts -/

theorem preorder_eq (c : Code) : c.preorder = c :: c.children.flatMap preorder := by
  unfold preorder
  rw [fold_eq, flatMap_def]

theorem self_mem_preorder (c : Code) : c ∈ c.preorder := by
  rw [preorder_eq]
  exact mem_cons_self

theorem preorder_of_mem_children {inner : Code} (hpart : part ∈ c.children)
    (hinner : inner ∈ part.preorder) : inner ∈ c.preorder := by
  rw [preorder_eq]
  exact mem_cons_of_mem _ (mem_flatMap.mpr ⟨part, hpart, hinner⟩)

theorem forall_preorder : (∀ p ∈ c.preorder, P p) ↔
    P c ∧ ∀ part ∈ c.children, ∀ p ∈ part.preorder, P p := by
  rw [preorder_eq, forall_mem_cons]
  simp only [mem_flatMap]
  grind

theorem preorder_trans {inner : Code} (hpart : part ∈ c.preorder) (hinner : inner ∈ part.preorder) :
    inner ∈ c.preorder := by
  induction c using inductionOnChildren with
  | h c ih =>
    rw [preorder_eq] at hpart
    rcases mem_cons.mp hpart with rfl | hpart
    · exact hinner
    · obtain ⟨child, hchild, hpart⟩ := mem_flatMap.mp hpart
      exact preorder_of_mem_children hchild (ih child hchild hpart)

end Code

end BlockLang
