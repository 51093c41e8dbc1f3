import BlockLang.Proofs.Machine.Literals
import BlockLang.Proofs.Machine.Arrays
import BlockLang.Proofs.Value.Tidy

/-!
# Spreading a value over variables

The targets of a multiple assignment take the items of a value. `Targets.shares` says what each
variable gets, without a look at code: those before the rest count from the front, those after it
from the end if there is something for all, and a nested target spreads what it gets.
`Setting.Offers` says of code that it gives a part of what is assigned, in every store of a kind,
and `Setting.Assigns` that codes give all variables their shares and write nothing else
(`Store.Writes`). The kind of stores that matters most is `Keeping`: a variable holds an array of
the items.
-/

namespace BlockLang

variable {l : Local} {owner : FrameId} {codes more : List Code}

open List Store Setting

/-! ## What the variables get -/

/-- What is assigned: a value that is there, or a new array of some. -/
inductive Part where
  | value (v : Value)
  | items (vs : List Value)

/-- The items that a value is spread as. -/
def Store.itemsOf (s : Store) (onNil : NilAsArray) : Value → List Value
  | .array id => (s.array id).toList
  | .nil =>
    match onNil with
    | .arrayWithNil => [.nil]
    | .emptyArray => []
  | v => [v]

namespace Part

/-- The items that it is spread as. -/
def spread (read : Value → List Value) : Part → List Value
  | value v => read v
  | items vs => vs

/-- The value is it. -/
def Is (s : Store) : Part → Value → Prop
  | value w, v => v = w
  | items vs, v => ∃ id, v = .array id ∧ s.arrays[id]? = some vs.toArray

theorem Is.retains {s t : Store} {part : Part} {v : Value} (h : part.Is s v) (hst : s.Retains t) :
    part.Is t v := by
  cases part with
  | value w => exact h
  | items vs =>
    obtain ⟨id, hid, hitems⟩ := h
    exact ⟨id, hid, hst.arrays hitems⟩

end Part

namespace Targets

/-- What the target of the number gets that stands before the rest. -/
def front (items : List Value) (i : Nat) : Value := items.getD i .nil

/-- What is left for the rest. -/
def middle (pre post : Nat) (items : List Value) : List Value :=
  (items.drop pre).take (items.length - post - pre)

/-- What the target of the number gets that stands after the rest: it is counted from the end if
there is something for all, and else from the front. -/
def back (pre post : Nat) (items : List Value) (k : Nat) : Value :=
  if pre + post ≤ items.length then items.getD (items.length - post + k) .nil
  else items.getD (pre + k) .nil

end Targets

section

variable (read : Value → List Value)

mutual

/-- What each variable gets when the part is assigned to the target. -/
def Target.shares : Located Target → Part → List (String × Part)
  | ⟨_, .localVar name⟩, part => [(name, part)]
  | ⟨_, .nested targets⟩, part => targets.shares (part.spread read)
  | _, _ => []

/-- What each variable gets when the items are spread over the targets. -/
def Targets.shares : Targets → List Value → List (String × Part)
  | ⟨pre, rest, post⟩, items =>
    Target.sharesEach pre (Targets.front items) ++
      RestTarget.shares rest (Targets.middle pre.length post.length items) ++
      Target.sharesEach post (Targets.back pre.length post.length items)

def RestTarget.shares : Option RestTarget → List Value → List (String × Part)
  | some (.named target), items => Target.shares target (.items items)
  | _, _ => []

def Target.sharesEach : List (Located Target) → (Nat → Value) → List (String × Part)
  | [], _ => []
  | target :: rest, value =>
    Target.shares target (.value (value 0)) ++ Target.sharesEach rest fun i => value (i + 1)

end

end

mutual

/-- Only local variables are assigned. -/
def Target.isLocal : Located Target → Bool
  | ⟨_, .localVar _⟩ => true
  | ⟨_, .nested targets⟩ => targets.areLocal
  | _ => false

def Targets.areLocal : Targets → Bool
  | ⟨pre, rest, post⟩ =>
    Target.areLocalEach pre && RestTarget.isLocal rest && Target.areLocalEach post

def RestTarget.isLocal : Option RestTarget → Bool
  | some (.named target) => Target.isLocal target
  | _ => true

def Target.areLocalEach : List (Located Target) → Bool
  | [] => true
  | target :: rest => Target.isLocal target && Target.areLocalEach rest

end

namespace Targets

variable (pre : List (Located Target)) (target : Located Target)

/-! A single rest takes all the items. -/

end Targets

/-! ## Data -/

/-- There is no object in the value, and the arrays and hashes in it are there. -/
def Store.IsData (s : Store) (v : Value) : Prop :=
  ∀ w, s.Leads v w → w.In s ∧ ∀ id, w ≠ .object id

namespace Store.IsData

variable {s : Store} {v : Value}

theorem leads (h : s.IsData v) (hw : s.Leads v w) : s.IsData w :=
  fun x hx => h x (hw.trans hx)

theorem of_contents (h : s.contents v = []) (hv : v.In s) (hobject : ∀ id, v ≠ .object id) :
    s.IsData v := by
  intro w hw
  obtain rfl := eq_of_leads h hw
  exact ⟨hv, hobject⟩

theorem nil : s.IsData .nil := of_contents rfl trivial (by simp)

theorem array {id : ArrayId} (h : s.IsData (.array id)) : s.arrays[id]? = some (s.array id) := by
  have hlt : id < s.arrays.size := (h _ .refl).1
  rw [Store.array, Array.getD_eq_getD_getElem?, Array.getElem?_eq_getElem hlt]
  rfl

theorem itemsOf (h : s.IsData v) (onNil : NilAsArray) : ∀ w ∈ s.itemsOf onNil v, s.IsData w := by
  intro w hw
  unfold Store.itemsOf at hw
  split at hw
  · exact h.leads (.single hw)
  · split at hw
    · rw [mem_singleton.mp hw]
      exact nil
    · cases hw
  · rw [mem_singleton.mp hw]
    exact h

theorem getD {items : List Value} (h : ∀ w ∈ items, s.IsData w) (i : Nat) :
    s.IsData (items.getD i .nil) := by
  rw [getD_eq_getElem?_getD]
  cases hw : items[i]? with
  | none => exact nil
  | some w => exact h w (mem_of_getElem? hw)

end Store.IsData

/-! ## Variables that are written -/

/-- Only variables with names of the kind are written, and arrays and hashes added. -/
structure Store.Writes (u : CodeUnit) (written : String → Prop) (s t : Store) : Prop
    extends Store.Retains s t where
  rest : t = { s with arrays := t.arrays, hashes := t.hashes, frames := t.frames }
  size : t.frames.size = s.frames.size
  frame : ∀ g, t.frame g = { s.frame g with slots := (t.frame g).slots }
  room : ∀ g, (t.frame g).slots.size = (s.frame g).slots.size
  other : ∀ {g : FrameId} {i : SlotId} {name : String}, s.Named u g i name → ¬ written name →
    t.slot g i = s.slot g i

variable {u : CodeUnit} {s t r : Store} {f : FrameId} {P Q : String → Prop}

namespace Store.Writes

theorem refl : s.Writes u P s := ⟨.refl, rfl, rfl, fun _ => rfl, fun _ => rfl, fun _ _ => rfl⟩

theorem named (h : s.Writes u P t) (hname : s.Named u g i name) : t.Named u g i name := by
  obtain ⟨hg, body, hbody, hslot⟩ := hname
  refine ⟨h.size ▸ hg, body, ?_, hslot⟩
  rw [h.frame]
  exact hbody

theorem trans (h : s.Writes u P t) (h' : t.Writes u P r) : s.Writes u P r where
  toRetains := h.toRetains.trans h'.toRetains
  rest := by rw [h'.rest, h.rest]
  size := h'.size.trans h.size
  frame g := by rw [h'.frame, h.frame]
  room g := (h'.room g).trans (h.room g)
  other hname hother := (h'.other (h.named hname) hother).trans (h.other hname hother)

theorem mono (h : s.Writes u P t) (hPQ : ∀ name, P name → Q name) : s.Writes u Q t :=
  { h with other := fun hname hother => h.other hname fun hP => hother (hPQ _ hP) }

theorem frameAt? (h : s.Writes u P t) : ∀ (level : Nat) (g : FrameId),
    t.frameAt? level g = s.frameAt? level g
  | 0, _ => rfl
  | level + 1, g => by
    rw [Store.frameAt?, Store.frameAt?, h.frame]
    cases (s.frame g).parent with
    | none => rfl
    | some parent => exact h.frameAt? level parent

theorem resolves (h : s.Writes u P t) (hl : Resolves u s f l owner) : Resolves u t f l owner := by
  obtain ⟨body, hbody, hname, hsize⟩ := hl.slot
  refine ⟨(h.frameAt? _ _).trans hl.found, h.size ▸ hl.inRange, ?_, body, ?_, hname, ?_⟩
  · rw [h.frame f, h.frame owner]
    exact hl.ancestor
  · rw [h.frame owner]
    exact hbody
  · rw [h.room owner, hsize]

end Store.Writes

theorem Store.Adds.writes (h : s.Adds t) : s.Writes u P t where
  toRetains := h.toRetains
  rest := by rw [h.rest]
  size := by rw [h.frames]
  frame g := by rw [h.frame]
  room g := by rw [h.frame]
  other _ _ := by rw [slot, h.frame, slot]

theorem Store.frame_of_size_le (h : s.frames.size ≤ g) : s.frame g = default := by
  rw [frame, Array.getD_eq_getD_getElem?, Array.getElem?_eq_none h]
  rfl

theorem Resolves.named (h : Resolves u s f l owner) : s.Named u owner l.slot l.name := by
  obtain ⟨body, hbody, hname, _⟩ := h.slot
  exact ⟨h.inRange, body, hbody, hname⟩

theorem Resolves.writes (h : Resolves u s f l owner) (v : Value) (hl : P l.name) :
    s.Writes u P (s.setSlot owner l.slot v) where
  toRetains := ⟨id, id⟩
  rest := rfl
  size := size_setSlot owner l.slot v
  frame g := by
    by_cases hg : g < s.frames.size
    · rw [frame_setSlot owner g l.slot v hg]
      split <;> rfl
    · have hle := Nat.le_of_not_lt hg
      rw [frame_of_size_le hle, frame_of_size_le (by rwa [size_setSlot])]
  room g := by
    by_cases hg : g < s.frames.size
    · rw [frame_setSlot owner g l.slot v hg]
      split
      · subst g
        exact size_setGrowing h.slot_lt v
      · rfl
    · have hle := Nat.le_of_not_lt hg
      rw [frame_of_size_le hle, frame_of_size_le (by rwa [size_setSlot])]
  other {g i name} hname hother := by
    by_cases hg : owner = g
    · subst hg
      rw [slot_setSlot v h.inRange h.slot_lt, if_neg]
      rintro rfl
      exact hother (h.named.unique hname ▸ hl)
    · exact slot_setSlot_ne hg l.slot i v hname.1

/-! ## Code that gives a part -/

/-- In every store of the kind the code gives the part, and only adds arrays and hashes. -/
def Setting.Offers (σ : Setting) (I : Store → Prop) (f : FrameId) (code : Code) (part : Part) :
    Prop :=
  ∀ s, I s → ∃ t v, σ.Gives f code s t v ∧ s.Adds t ∧ part.Is t v

theorem Resolves.step_write {σ : Setting} (h : Resolves u s f l owner) (v : Value) :
    σ.step (giving s depth (.writeLocal f l :: stack) v) =
      .next (giving (s.setSlot owner l.slot v) depth stack v) := by
  have howner : s.frameOf f l = .ok owner := by rw [frameOf, h.found]
  have hroom : s.hasRoom owner l.slot = true := by simp [hasRoom, h.slot_lt]
  simp only [giving, step, resume, howner, hroom, if_true]

namespace Setting.Gives

variable {σ : Setting} {code : Code} {v : Value}

theorem readLocal (h : Resolves u s f l owner) :
    σ.Gives f (.readLocal l) s s (s.slot owner l.slot) := by
  have howner : s.frameOf f l = .ok owner := by rw [frameOf, h.found]
  refine .now fun depth stack => ?_
  simp only [eval, howner]

theorem writeTo (h : σ.Gives f code s t v) (hl : Resolves u t f l owner) :
    σ.Gives f (.writeLocal l code) s (t.setSlot owner l.slot v) v :=
  fun depth _ => .head rfl ((h depth _).trans (.single (hl.step_write v)))

theorem andThen {part : Code} (hfirst : code.first? f = some (part, k))
    (h : σ.Gives f part s t v)
    (hk : ∀ depth stack, σ.Reaches (σ.resume t depth stack v k) (giving r depth stack w)) :
    σ.Gives f code s r w := by
  intro depth stack
  refine .head (congrArg Step.next (eval_of_first? hfirst σ s depth stack)) ?_
  exact (h depth _).trans (.head rfl (hk depth stack))

end Setting.Gives

/-- The variable, wherever it is found, holds its share. -/
def Store.Received (u : CodeUnit) (s : Store) (f : FrameId) (codes : List Code)
    (share : String × Part) : Prop :=
  ∃ l owner, l.name = share.1 ∧ .variable l ∈ codes.flatMap Code.mentions ∧
    Resolves u s f l owner ∧ share.2.Is s (s.slot owner l.slot)

theorem Store.Received.writes (h : s.Received u f codes share) (hst : s.Writes u P t)
    (hshare : ¬ P share.1)
    (hsub : ∀ x ∈ codes.flatMap Code.mentions, x ∈ more.flatMap Code.mentions) :
    t.Received u f more share := by
  obtain ⟨l, owner, hname, hmention, hl, hpart⟩ := h
  refine ⟨l, owner, hname, hsub _ hmention, hst.resolves hl, ?_⟩
  rw [hst.other hl.named (hname ▸ hshare)]
  exact hpart.retains hst.toRetains

theorem Store.Received.mentioned (h : s.Received u f codes share)
    (hsub : ∀ x ∈ codes.flatMap Code.mentions, x ∈ more.flatMap Code.mentions) :
    s.Received u f more share := by
  obtain ⟨l, owner, hname, hmention, hholds⟩ := h
  exact ⟨l, owner, hname, hsub _ hmention, hholds⟩

/-- All variables that the codes mention are found. -/
def Store.Finds (u : CodeUnit) (s : Store) (f : FrameId) (codes : List Code) : Prop :=
  ∀ l, .variable l ∈ codes.flatMap Code.mentions → ∃ owner, Resolves u s f l owner

theorem Store.Finds.writes (h : s.Finds u f codes) (hst : s.Writes u P t)
    (hsub : ∀ x ∈ more.flatMap Code.mentions, x ∈ codes.flatMap Code.mentions) :
    t.Finds u f more := by
  intro l hl
  obtain ⟨owner, howner⟩ := h l (hsub _ hl)
  exact ⟨owner, hst.resolves howner⟩

theorem Store.Finds.here (h : s.Finds u f codes) (hlevel : l.level = 0)
    (hl : .variable l ∈ codes.flatMap Code.mentions) :
    Resolves u s f l f := by
  obtain ⟨owner, howner⟩ := h l hl
  have hfound := howner.found
  rw [hlevel] at hfound
  exact Option.some.inj hfound ▸ howner

/-- The codes, one after the other in a store of the kind, give all variables their shares. -/
def Setting.Assigns (σ : Setting) (I : Store → Prop) (f : FrameId) (written : String → Prop)
    (codes : List Code) (shares : List (String × Part)) : Prop :=
  ∀ s, I s → s.Finds σ.unit f codes → ∃ t, σ.Runs f codes s t ∧ s.Writes σ.unit written t ∧
    ∀ share ∈ shares, t.Received σ.unit f codes share

section

variable {part : Part} {base : Store}

variable {σ : Setting} {I : Store → Prop} {codes more : List Code}
  {shares shares' : List (String × Part)} {W : String → Prop}

theorem Setting.Assigns.nil : σ.Assigns I f P [] [] := fun s _ _ => ⟨s, .nil s, .refl, by simp⟩

theorem Setting.Assigns.append (h : σ.Assigns I f P codes shares)
    (h' : σ.Assigns I f Q more shares')
    (hI : ∀ s t, s.Writes σ.unit P t → I s → I t) (hP : ∀ name, P name → W name)
    (hQ : ∀ name, Q name → W name) (hshares : ∀ share ∈ shares, ¬ Q share.1) :
    σ.Assigns I f W (codes ++ more) (shares ++ shares') := by
  intro s hs hfinds
  have hleft : ∀ x ∈ codes.flatMap Code.mentions, x ∈ (codes ++ more).flatMap Code.mentions := by
    intro x hx
    rw [flatMap_append]
    exact mem_append_left _ hx
  have hright : ∀ x ∈ more.flatMap Code.mentions, x ∈ (codes ++ more).flatMap Code.mentions := by
    intro x hx
    rw [flatMap_append]
    exact mem_append_right _ hx
  obtain ⟨t, hruns, hwrites, hreceived⟩ := h s hs (hfinds.writes (P := P) .refl hleft)
  obtain ⟨r, hruns', hwrites', hreceived'⟩ :=
    h' t (hI s t hwrites hs) (hfinds.writes hwrites hright)
  refine ⟨r, hruns.append hruns', (hwrites.mono hP).trans (hwrites'.mono hQ), ?_⟩
  intro share hshare
  rcases mem_append.mp hshare with hshare | hshare
  · exact (hreceived share hshare).writes hwrites' (hshares share hshare) hleft
  · exact (hreceived' share hshare).mentioned hright

/-! ## The items of an array -/

/-- Everything in it is data. -/
def Part.IsData (base : Store) : Part → Prop
  | value v => base.IsData v
  | items vs => ∀ v ∈ vs, base.IsData v

theorem Part.IsData.spread (h : part.IsData base) (onNil : NilAsArray) :
    ∀ v ∈ part.spread (base.itemsOf onNil), base.IsData v := by
  cases part with
  | value v => exact IsData.itemsOf h onNil
  | items vs => exact h

theorem Setting.cast_eq {v : Value} (onNil : NilAsArray) (hbase : base.Retains s)
    (hpart : part.Is s v) (hdata : part.IsData base) (depth : Nat) (stack : List Cont) :
    Setting.cast s depth stack f onNil v =
      givingNew depth stack (s.newArray (part.spread (base.itemsOf onNil)).toArray) := by
  cases part with
  | items vs =>
    obtain ⟨id, rfl, hitems⟩ := hpart
    simp only [Setting.cast, array_of_arrays hitems, Part.spread]
  | value w =>
    cases hpart
    cases v with
    | nil => cases onNil <;> rfl
    | array id =>
      have harray := array_of_arrays (hbase.arrays (IsData.array hdata))
      simp only [Setting.cast, harray, Part.spread, itemsOf, Array.toArray_toList]
    | object id => exact absurd rfl ((hdata _ .refl).2 id)
    | _ => rfl

theorem Setting.Offers.splatCast {code : Code} (onNil : NilAsArray) (h : σ.Offers I f code part)
    (hbase : ∀ s, I s → base.Retains s) (hdata : part.IsData base) :
    σ.Offers I f (.splatCast code onNil) (.items (part.spread (base.itemsOf onNil))) := by
  intro s hs
  obtain ⟨t, v, hgives, hadds, hpart⟩ := h s hs
  refine ⟨_, _, hgives.andThen rfl fun depth stack => ?_, hadds.trans (adds_newArray _), _,
    rfl, arrays_newArray _⟩
  have hcast := Setting.cast_eq (f := f) onNil ((hbase s hs).trans hadds.toRetains) hpart hdata
    depth stack
  simp only [resume, hcast]
  exact .refl

/-- The variable of the frame holds the value. -/
structure Holding (u : CodeUnit) (base : Store) (f : FrameId) (l : Local) (v : Value) (s : Store) :
    Prop where
  base : base.Retains s
  found : Resolves u s f l f
  holds : s.slot f l.slot = v

namespace Holding

variable {base : Store} {l : Local} {v : Value}

theorem writes (h : Holding u base f l v s) (hst : s.Writes u P t) (hl : ¬ P l.name) :
    Holding u base f l v t where
  base := h.base.trans hst.toRetains
  found := hst.resolves h.found
  holds := (hst.other h.found.named hl).trans h.holds

theorem read (h : Holding σ.unit base f l v s) : σ.Gives f (.readLocal l) s s v := by
  have hread := Gives.readLocal (σ := σ) h.found
  rwa [h.holds] at hread

end Holding

/-- The variable of the frame holds an array of the items. -/
structure Keeping (u : CodeUnit) (base : Store) (f : FrameId) (array : Local) (id : ArrayId)
    (items : List Value) (s : Store) : Prop extends Holding u base f array (.array id) s where
  items : s.arrays[id]? = some items.toArray

theorem Resolves.holding (h : Resolves u s f l f) (v : Value) (hl : P l.name)
    (hbase : base.Retains s) : Holding u base f l v (s.setSlot f l.slot v) ∧
      s.Writes u P (s.setSlot f l.slot v) := by
  have hwrites := h.writes v hl
  refine ⟨⟨hbase.trans hwrites.toRetains, hwrites.resolves h, ?_⟩, hwrites⟩
  rw [slot_setSlot v h.inRange h.slot_lt, if_pos rfl]

theorem Resolves.keeping {array : Local} {id : ArrayId} {items : List Value}
    (h : Resolves u s f array f) (hbase : base.Retains s)
    (hitems : s.arrays[id]? = some items.toArray) (harray : P array.name) :
    Keeping u base f array id items (s.setSlot f array.slot (.array id)) ∧
      s.Writes u P (s.setSlot f array.slot (.array id)) := by
  obtain ⟨hholding, hwrites⟩ := h.holding (.array id) harray hbase
  exact ⟨⟨hholding, hwrites.arrays hitems⟩, hwrites⟩

namespace Keeping

variable {base : Store} {array : Local} {id : ArrayId} {items : List Value}

theorem writes (h : Keeping u base f array id items s) (hst : s.Writes u P t)
    (harray : ¬ P array.name) : Keeping u base f array id items t :=
  ⟨h.toHolding.writes hst harray, hst.arrays h.items⟩

theorem array_eq (h : Keeping u base f array id items s) : s.array id = items.toArray :=
  array_of_arrays h.items

end Keeping

section

variable {base : Store} {array : Local} {id : ArrayId} {items : List Value}

theorem itemAt_eq {i : Int} {n : Nat} (h : position items.length i = n) :
    itemAt items.toArray i = items.getD n .nil := by
  rw [itemAt, size_toArray, h, if_neg (by omega), Int.toNat_natCast,
    Array.getD_eq_getD_getElem?, List.getElem?_toArray, getD_eq_getElem?_getD]

namespace Setting.Gives

variable {source : Code} (h : σ.Gives f source s t (.array id)) (hid : t.array id = items.toArray)

include h hid

theorem index {i : Int} {n : Nat} (hi : position items.length i = n) :
    σ.Gives f (.index source i) s t (items.getD n .nil) := by
  refine h.andThen rfl fun depth stack => ?_
  simp only [resume, hid, itemAt_eq hi]
  exact .refl

theorem atLeast (n : Nat) :
    σ.Gives f (.atLeast source n) s t (.bool (decide (n ≤ items.length))) := by
  refine h.andThen rfl fun depth stack => ?_
  simp only [resume, hid, size_toArray]
  exact .refl

theorem slice (pre post : Nat) : ∃ r v, σ.Gives f (.slice source pre post) s r v ∧ t.Adds r ∧
    (Part.items (Targets.middle pre post items)).Is r v := by
  refine ⟨_, _, h.andThen rfl fun depth stack => ?_, adds_newArray _, _, rfl, arrays_newArray _⟩
  have hitems : items.toArray.extract pre (items.toArray.size - post) =
      (Targets.middle pre post items).toArray := by
    simp [Targets.middle, extract_eq_take_drop]
  simp only [resume, hid, hitems]
  exact .refl

end Setting.Gives

theorem Setting.Gives.ifElse {condition yes no : Code} {b : Bool}
    (h : σ.Gives f condition s t (.bool b)) (hbranch : σ.Gives f (if b then yes else no) t r v) :
    σ.Gives f (.ifElse condition yes no) s r v := by
  refine h.andThen rfl fun depth stack => ?_
  cases b <;> exact hbranch depth stack

theorem Setting.offers_front (i : Nat) :
    σ.Offers (Keeping σ.unit base f array id items) f (.index (.readLocal array) i)
      (.value (Targets.front items i)) :=
  fun s hs => ⟨s, _, hs.read.index hs.array_eq (if_neg (by omega)), .refl, rfl⟩

theorem Setting.offers_back {pre : Nat} (hsize : pre + post ≤ items.length) (hk : k < post) :
    σ.Offers (Keeping σ.unit base f array id items) f
      (.index (.readLocal array) (-((post - k : Nat) : Int)))
      (.value (Targets.back pre post items k)) := by
  intro s hs
  refine ⟨s, _, hs.read.index hs.array_eq (n := items.length - post + k) ?_, .refl, ?_⟩
  · rw [position, if_pos (by omega)]
    omega
  · rw [Targets.back, if_pos hsize]
    rfl

theorem Setting.offers_middle (pre post : Nat) :
    σ.Offers (Keeping σ.unit base f array id items) f (.slice (.readLocal array) pre post)
      (.items (Targets.middle pre post items)) :=
  fun _ hs => hs.read.slice hs.array_eq pre post

end

end

end BlockLang
