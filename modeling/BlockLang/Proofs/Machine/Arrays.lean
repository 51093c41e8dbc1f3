import BlockLang.Proofs.Lowering.Careful
import BlockLang.Proofs.Machine.Moves
import BlockLang.Proofs.Machine.Reach

/-!
# Variables that hold arrays

Code that takes items (`Code.Careful`) relies on what some variables of its frame hold. `Known` says
which, and `Store.Bears` that they do. What waits on the stack relies on less and less (`Waits`): a
variable that is about to be written again is not relied on below. A machine for which all of that
is so is `Machine.Settled`, and stays so in every step that neither takes items nor writes one of
the variables (`Machine.Poised.moves`, `Machine.Poised.meets`).

The variable of a block is a case of its own. An object is asked whether it has an array, and then
for the array: if it has none the second time the variable is left without one. So the frames for
which an object has no array any more, in a run, are a parameter of all of this (`refused`).
-/

namespace BlockLang

open List

variable {u : CodeUnit} {refused : FrameId → Prop} {s t : Store} {f : FrameId}

/-! ## Variables that hold arrays -/

def Value.IsArray (v : Value) : Prop := ∃ id, v = .array id

/-- The frame has a slot of the name. -/
def Store.Named (u : CodeUnit) (s : Store) (f : FrameId) (slot : SlotId) (name : String) : Prop :=
  f < s.frames.size ∧
    ∃ body, u.body? (s.frame f).body = some body ∧ body.slots[slot]? = some name

/-- The only argument of the frame is an object. -/
def Store.GotObject (s : Store) (f : FrameId) : Prop :=
  f < s.frames.size ∧ ∃ o, (s.frame f).arguments = [.object o]

/-- **Items may be taken from the variable.** The variable of a block holds an array too, unless the
only argument of the block is an object that had none any more. -/
inductive Store.Knows (u : CodeUnit) (refused : FrameId → Prop) (s : Store) (f : FrameId)
    (l : Local) : Prop
  | spread : l.IsSpread → s.Named u f l.slot l.name → (s.slot f l.slot).IsArray →
      Knows u refused s f l
  | unpacked : l.IsUnpacked → s.Named u f l.slot l.name →
      (s.slot f l.slot).IsArray ∨ refused f ∧ s.GotObject f → Knows u refused s f l

/-- The variables that arrays are kept in hold nothing else. -/
def Store.KeepsArrays (u : CodeUnit) (s : Store) : Prop :=
  ∀ f slot name, s.Named u f slot name → IsArrayName name →
    s.slot f slot = .nil ∨ (s.slot f slot).IsArray

/-- What is known of the variables of each frame. -/
abbrev Known := FrameId → List Local

namespace Known

/-- Nothing is known that is not known there. -/
def Within (known known' : Known) : Prop := ∀ f, ∀ l ∈ known f, l ∈ known' f

theorem Within.refl (known : Known) : known.Within known := fun _ _ hl => hl

/-- One more variable is known. -/
def learn (known : Known) (f : FrameId) (l : Local) : Known :=
  fun g => if g = f then l :: known g else known g

theorem learn_self (known : Known) (f : FrameId) (l : Local) :
    known.learn f l f = l :: known f := if_pos rfl

theorem within_learn (known : Known) (f : FrameId) (l : Local) :
    known.Within (known.learn f l) := by
  intro g l' hl'
  unfold learn
  split
  · exact mem_cons_of_mem _ hl'
  · exact hl'

end Known

/-- What is known is so. -/
structure Store.Bears (u : CodeUnit) (refused : FrameId → Prop) (s : Store) (known : Known) :
    Prop where
  keeps : s.KeepsArrays u
  knows : ∀ f, ∀ l ∈ known f, s.Knows u refused f l

namespace Store

variable {slot : SlotId} {name : String} {l : Local}

theorem Named.unique (h : s.Named u f slot name) (h' : s.Named u f slot name') : name = name' := by
  obtain ⟨_, body, hb, hname⟩ := h
  obtain ⟨_, body', hb', hname'⟩ := h'
  cases Option.some.inj (hb.symm.trans hb')
  exact Option.some.inj (hname.symm.trans hname')

theorem Named.grow (h : s.Named u f slot name) (hst : s.Grows t) : t.Named u f slot name := by
  obtain ⟨hf, body, hb, hname⟩ := h
  exact ⟨Nat.lt_of_lt_of_le hf hst.size, body, by rw [hst.body f hf]; exact hb, hname⟩

theorem Named.before (h : t.Named u f slot name) (hst : s.Grows t) (hf : f < s.frames.size) :
    s.Named u f slot name := by
  obtain ⟨_, body, hb, hname⟩ := h
  exact ⟨hf, body, by rw [← hst.body f hf]; exact hb, hname⟩

theorem GotObject.grow (h : s.GotObject f) (hst : s.Grows t) : t.GotObject f := by
  obtain ⟨hf, o, harguments⟩ := h
  exact ⟨Nat.lt_of_lt_of_le hf hst.size, o, by rw [hst.arguments f hf]; exact harguments⟩

theorem Knows.named (h : s.Knows u refused f l) : s.Named u f l.slot l.name := by
  cases h with
  | spread _ hnamed _ | unpacked _ hnamed _ => exact hnamed

theorem Knows.level (h : s.Knows u refused f l) : l.level = 0 := by
  cases h with
  | spread hl _ _ | unpacked hl _ _ => exact hl.1

theorem Knows.isArrayName (h : s.Knows u refused f l) : IsArrayName l.name := by
  cases h with
  | spread hl _ _ | unpacked hl _ _ => exact hl.isArrayName

theorem Knows.grow (h : s.Knows u refused f l) (hst : s.Grows t)
    (hslot : (s.slot f l.slot).IsArray →
      (t.slot f l.slot).IsArray ∨ l.IsUnpacked ∧ refused f ∧ t.GotObject f) :
    t.Knows u refused f l := by
  cases h with
  | spread hl hnamed harray =>
    rcases hslot harray with harray | ⟨hunpacked, _⟩
    · exact .spread hl (hnamed.grow hst) harray
    · obtain ⟨_, i, hname⟩ := hl
      exact absurd hname (hunpacked.name_ne i)
  | unpacked hl hnamed hholds =>
    refine .unpacked hl (hnamed.grow hst) ?_
    rcases hholds with harray | ⟨hrefused, hobject⟩
    · exact (hslot harray).imp id (·.2)
    · exact Or.inr ⟨hrefused, hobject.grow hst⟩

namespace Bears

variable {known : Known} (h : s.Bears u refused known)

include h

theorem within {known' : Known} (hwithin : known'.Within known) : s.Bears u refused known' :=
  ⟨h.keeps, fun g l hl => h.knows g l (hwithin g l hl)⟩

theorem learn (hl : s.Knows u refused f l) : s.Bears u refused (known.learn f l) := by
  refine ⟨h.keeps, fun g l' hl' => ?_⟩
  unfold Known.learn at hl'
  split at hl'
  · subst g
    rcases mem_cons.mp hl' with rfl | hl'
    · exact hl
    · exact h.knows f l' hl'
  · exact h.knows g l' hl'

theorem known_eq_nil (hf : s.frames.size ≤ f) : known f = [] := by
  refine eq_nil_iff_forall_not_mem.mpr fun l hl => ?_
  exact absurd (h.knows f l hl).named.1 (Nat.not_lt.mpr hf)

theorem same (hst : t.frames = s.frames) : t.Bears u refused known := by
  have hgrows : s.Grows t := .of_frames_eq hst
  have hslot : ∀ g slot, t.slot g slot = s.slot g slot := by
    intro g slot
    rw [Store.slot, Store.slot, Store.frame, Store.frame, hst]
  refine ⟨fun g slot name hnamed harray => ?_, fun g l hl => ?_⟩
  · rw [hslot]
    exact h.keeps g slot name (hnamed.before hgrows (hst ▸ hnamed.1)) harray
  · exact (h.knows g l hl).grow hgrows fun harray => Or.inl (by rw [hslot]; exact harray)

theorem newFrame (hslots : new.slots = blankSlots n) :
    (s.newFrame new).2.Bears u refused known := by
  have hgrows := grows_newFrame (s := s) new
  have hslot : ∀ g < s.frames.size, ∀ slot, (s.newFrame new).2.slot g slot = s.slot g slot := by
    intro g hg slot
    rw [Store.slot, Store.slot, frame_newFrame_of_lt hg]
  refine ⟨fun g slot name hnamed harray => ?_, fun g l hl => ?_⟩
  · have hg := hnamed.1
    rw [size_newFrame] at hg
    rcases Nat.lt_or_eq_of_le (Nat.le_of_lt_succ hg) with hg | rfl
    · rw [hslot g hg]
      exact h.keeps g slot name (hnamed.before hgrows hg) harray
    · left
      rw [Store.slot, frame_newFrame_self, hslots, blankSlots]
      simp [Array.getD_eq_getD_getElem?, Array.getElem?_replicate]
      split <;> rfl
  · have hl := h.knows g l hl
    refine hl.grow hgrows fun harray => Or.inl ?_
    rw [hslot g hl.named.1]
    exact harray

/-- A variable is written: one of another kind, or one that nobody relies on, or with an array. -/
theorem setSlot {v : Value} (hnamed : s.Named u f slot name) (hslot : slot < (s.frame f).slots.size)
    (hv : IsArrayName name → v = .nil ∨ v.IsArray)
    (hknown : ∀ l ∈ known f, l.name = name → v.IsArray ∨ l.IsUnpacked ∧ refused f ∧ s.GotObject f) :
    (s.setSlot f slot v).Bears u refused known := by
  have hgrows := grows_setSlot (s := s) f slot v
  refine ⟨fun g other name' hnamed' harray => ?_, fun g l hl => ?_⟩
  · have hg : g < s.frames.size := by
      rw [← size_setSlot (s := s) f slot v]
      exact hnamed'.1
    have hold := hnamed'.before hgrows hg
    by_cases hne : f = g
    · subst hne
      rw [slot_setSlot v hg hslot]
      split
      · subst other
        exact hv (hnamed.unique hold ▸ harray)
      · exact h.keeps f other name' hold harray
    · rw [slot_setSlot_ne hne slot other v hg]
      exact h.keeps g other name' hold harray
  · have hl' := h.knows g l hl
    refine hl'.grow hgrows fun harray => ?_
    by_cases hne : f = g
    · subst hne
      rw [slot_setSlot v hnamed.1 hslot]
      split
      · subst slot
        exact (hknown l hl (hl'.named.unique hnamed)).imp id fun h =>
          ⟨h.1, h.2.1, h.2.2.grow hgrows⟩
      · exact Or.inl harray
    · rw [slot_setSlot_ne hne slot l.slot v hl'.named.1]
      exact Or.inl harray

end Bears

end Store

/-! ## What waits on the stack -/

/-- Items are taken only where there is an array. -/
def Code.IsCareful (known : List Local) (c : Code) : Prop := ∃ limit, c.Careful limit known

/-- It takes nothing from an array, and writes no variable that holds one. -/
def Cont.IsSimple : Cont → Prop
  | .index _ | .slice _ _ | .atLeast _ | .closure _ _ => False
  | .writeLocal _ target => ¬ IsArrayName target.name
  | _ => True

/-- The code that a continuation holds takes items only from what is known in its frame. -/
def Cont.IsCareful (known : Known) (k : Cont) : Prop :=
  ∀ f, k.frame? = some f → ∀ c ∈ k.codes, c.IsCareful (known f)

/-- An object is asked for the array of the variable. -/
def Store.Asks (u : CodeUnit) (s : Store) (f : FrameId) (array : Local) : Prop :=
  s.Named u f array.slot array.name ∧ s.GotObject f

theorem Store.Asks.grow {array : Local} (h : s.Asks u f array) (hst : s.Grows t) :
    t.Asks u f array :=
  ⟨h.1.grow hst, h.2.grow hst⟩

/-- **Further down the stack less is relied on.** A variable that is about to hold another array is
relied on by nobody below. -/
inductive Waits (asks : FrameId → Local → Prop) : Known → List Cont → Prop
  | nil : Waits asks known []
  | simple : known'.Within known →
      k.IsSimple → k.IsCareful known' → Waits asks known' stack → Waits asks known (k :: stack)
  | closure {f : FrameId} :
      known'.Within known → known' f = [] → body.code.IsCareful [] → Waits asks known' stack →
      Waits asks known (.closure f body :: stack)
  /-- A value that is to be spread. -/
  | cast {f : FrameId} : known'.Within known → array.IsSpread →
      (∀ l ∈ known' f, l.name ≠ array.name) → Waits asks known' stack →
      Waits asks known (.splatCast f onNil :: .writeLocal f array :: stack)
  | answer {f : FrameId} : known'.Within known → array.IsSpread →
      (∀ l ∈ known' f, l.name ≠ array.name) → Waits asks known' stack →
      Waits asks known (.castAnswer v :: .writeLocal f array :: stack)
  /-- The only argument of a block, which may have an array. -/
  | guard {f : FrameId} : known'.Within known → array.IsUnpacked →
      asks f array → (∀ c ∈ rest, c.IsCareful (array :: known' f)) →
      positional.IsCareful (known' f) → Waits asks known' stack →
      Waits asks known
        (.guardAnswer v :: .branch f (.ofItems (.unpack array :: rest)) positional :: stack)
  /-- The only argument of a block, which had an array. -/
  | unpacking {f : FrameId} : known'.Within known → array.IsUnpacked →
      asks f array → (∀ c ∈ rest, c.IsCareful (array :: known' f)) → Waits asks known' stack →
      Waits asks known
        (.castAnswer (.object o) :: .writeLocal f array :: Setting.following f rest stack)

namespace Waits

variable {asks : FrameId → Local → Prop} {known known' : Known} {stack : List Cont}

theorem mono (h : Waits asks known stack) (hwithin : known.Within known') :
    Waits asks known' stack := by
  have htrans : ∀ {less : Known}, less.Within known → less.Within known' :=
    fun hless f l hl => hwithin f l (hless f l hl)
  cases h with
  | nil => exact nil
  | simple hless hk hcodes hstack => exact simple (htrans hless) hk hcodes hstack
  | closure hless hf hbody hstack => exact closure (htrans hless) hf hbody hstack
  | cast hless harray hnew hstack => exact cast (htrans hless) harray hnew hstack
  | answer hless harray hnew hstack => exact answer (htrans hless) harray hnew hstack
  | guard hless harray hasks hrest hpositional hstack =>
    exact guard (htrans hless) harray hasks hrest hpositional hstack
  | unpacking hless harray hasks hrest hstack =>
    exact unpacking (htrans hless) harray hasks hrest hstack

theorem grow (h : Waits asks known stack) (hasks : ∀ f array, asks f array → asks' f array) :
    Waits asks' known stack := by
  induction h with
  | nil => exact nil
  | simple hless hk hcodes _ ih => exact simple hless hk hcodes ih
  | closure hless hf hbody _ ih => exact closure hless hf hbody ih
  | cast hless harray hnew _ ih => exact cast hless harray hnew ih
  | answer hless harray hnew _ ih => exact answer hless harray hnew ih
  | guard hless harray hasked hrest hpositional _ ih =>
    exact guard hless harray (hasks _ _ hasked) hrest hpositional ih
  | unpacking hless harray hasked hrest _ ih =>
    exact unpacking hless harray (hasks _ _ hasked) hrest ih

theorem push (h : Waits asks known stack) (hk : k.IsSimple) (hcodes : k.IsCareful known) :
    Waits asks known (k :: stack) :=
  simple (.refl known) hk hcodes h

theorem attend (h : Waits asks known stack)
    (hattendants : ∀ k ∈ attendants, k.isAttendant = true) :
    Waits asks known (attendants ++ stack) := by
  induction attendants with
  | nil => exact h
  | cons k rest ih =>
    obtain ⟨hk, hrest⟩ := forall_mem_cons.mp hattendants
    refine (ih hrest).push ?_ ?_
    · cases k with
      | construct | iterate => trivial
      | _ => cases hk
    · intro f hf
      cases k with
      | construct | iterate => cases hf
      | _ => cases hk

end Waits

/-! ## Machines -/

/-- What is known is so, and nothing else is relied on. -/
structure Machine.Poised (u : CodeUnit) (refused : FrameId → Prop) (known : Known) (m : Machine) :
    Prop where
  bears : m.store.Bears u refused known
  waits : Waits (m.store.Asks u) known m.stack
  control : ∀ f c, m.control = .eval f c → c.IsCareful (known f)

def Machine.Settled (u : CodeUnit) (refused : FrameId → Prop) (m : Machine) : Prop :=
  ∃ known, m.Poised u refused known

/-- What a step starts from takes no items, and its code takes them only from what is known. -/
def Cause.IsCareful (known : Known) : Cause → Prop
  | .code f c => (∀ part k, c.first? f = some (part, k) → k.IsSimple) ∧
      ∀ part ∈ c.children, part.IsCareful (known f)
  | .value k => k.IsSimple ∧ k.IsCareful known
  | .call => True

variable {known : Known} {cause : Cause}

theorem Cause.IsCareful.codes (h : cause.IsCareful known) (hf : cause.frame? = some f) {c : Code}
    (hc : c ∈ cause.codes) : c.IsCareful (known f) := by
  cases cause with
  | code g whole =>
    cases hf
    exact h.2 c hc
  | value k => exact h.2 f hf c hc
  | call => cases hf

theorem Cause.IsCareful.items (h : cause.IsCareful known) {codes : List Code}
    (hitems : cause.items? = some (f, codes)) : ∀ c ∈ codes, c.IsCareful (known f) := by
  unfold Cause.items? at hitems
  split at hitems <;> cases hitems <;> exact fun c hc => h.codes rfl hc

theorem Cause.IsCareful.loop (h : cause.IsCareful known) {condition body : Code}
    (hloop : cause.loop? = some (f, condition, body, catches)) :
    condition.IsCareful (known f) ∧ body.IsCareful (known f) ∧
      ∀ {asks stack}, Waits asks known stack → Waits asks known (catches ++ stack) := by
  obtain ⟨hf, hcondition, hbody⟩ := Cause.parts_of_loop? hloop
  refine ⟨h.codes hf hcondition, h.codes hf hbody, fun hstack => ?_⟩
  unfold Cause.loop? at hloop
  split at hloop <;> cases hloop
  · exact hstack.push trivial nofun
  · exact hstack
  · exact hstack

/-- The variable that is written is there. -/
def Cause.Resolved (u : CodeUnit) (s : Store) (cause : Cause) : Prop :=
  ∀ f target owner, cause = .value (.writeLocal f target) → s.frameOf f target = .ok owner →
    s.Named u owner target.slot target.name ∧ target.slot < (s.frame owner).slots.size

namespace Machine.Poised

variable {known : Known} {stack : List Cont} {depth : Nat} {m : Machine} {v : Value} {e : Exit}
  {c condition body : Code} (hs : s.Bears u refused known) (hstack : Waits (s.Asks u) known stack)

include hs hstack

theorem evaluating (hc : c.IsCareful (known f)) :
    (Setting.evaluating s depth stack f c).Settled u refused := by
  refine ⟨known, hs, hstack, fun g c' h => ?_⟩
  cases h
  exact hc

theorem giving : (Setting.giving s depth stack v).Settled u refused :=
  ⟨known, hs, hstack, nofun⟩

theorem givingNew (hst : made.2.frames = s.frames) :
    (Setting.givingNew depth stack made).Settled u refused :=
  giving (hs.same hst) (hstack.grow fun _ _ hasks => hasks.grow (.of_frames_eq hst))

theorem leaving : (Setting.leaving s depth stack e).Settled u refused :=
  ⟨known, hs, hstack, nofun⟩

theorem loop (hcondition : condition.IsCareful (known f)) (hbody : body.IsCareful (known f)) :
    (Setting.loopTest s depth stack f condition body).Settled u refused ∧
      (Setting.loopBody s depth stack f condition body).Settled u refused := by
  have hparts : ∀ g, some f = some g → ∀ c ∈ [condition, body], c.IsCareful (known g) := by
    rintro g ⟨⟩ c hc
    simp only [mem_cons, not_mem_nil, or_false] at hc
    rcases hc with rfl | rfl
    · exact hcondition
    · exact hbody
  exact ⟨evaluating hs (hstack.push trivial hparts) hcondition,
    evaluating hs (hstack.push trivial hparts) hbody⟩

theorem moves (h : Moves u cause s stack m)
    (hu : ∀ b body, u.body? b = some body → body.code.IsCareful []) (hcause : cause.IsCareful known)
    (hresolved : cause.Resolved u s) : m.Settled u refused := by
  have hold : Waits (m.store.Asks u) known stack :=
    hstack.grow fun _ _ hasks => hasks.grow h.grows
  -- the code of a new frame relies on nothing, and nothing is known of the frame
  have hnew : ∀ {t : Store} {new : Frame} {body : Body}, t.frames = s.frames →
      u.body? new.body = some body → body.code.IsCareful (known t.frames.size) := by
    intro t new body hst hb
    rw [hs.known_eq_nil (Nat.le_of_eq (by rw [hst]))]
    exact hu _ body hb
  cases h with
  | calm hst hcalm =>
    refine ⟨known, hs.same hst, hold, fun f c hc => ?_⟩
    cases hc
    cases hcalm
  | raise hst hattendants => exact ⟨known, hs.same hst, hold.attend hattendants, nofun⟩
  | leave => exact leaving hs hold
  | @write f target owner v _ heq howner =>
    obtain ⟨hnamed, hslot⟩ := hresolved f target owner heq howner
    subst heq
    have hplain : ¬ IsArrayName target.name := hcause.1
    refine giving (hs.setSlot hnamed hslot (fun harray => absurd harray hplain) ?_) hold
    intro l hl hname
    exact absurd (hname ▸ (hs.knows owner l hl).isArrayName) hplain
  | @ask _ k _ _ hk =>
    refine ⟨known, hs, hold.push ?_ ?_, nofun⟩
    · cases k with
      | castAnswer | guardAnswer => trivial
      | _ => cases hk
    · cases k with
      | castAnswer | guardAnswer => exact nofun
      | _ => cases hk
  | tail _ hf hc => exact evaluating hs hold (hcause.codes hf hc)
  | @first f c part k _ heq hfirst =>
    subst heq
    obtain ⟨hpart, hcodes⟩ := Code.mem_children_of_first? hfirst
    refine evaluating hs (hold.push (hcause.1 part k hfirst) fun g hg other hother => ?_)
      (hcause.2 part hpart)
    rw [Code.frame_of_first? hfirst hg]
    exact hcause.2 other (hcodes other hother)
  | @walk f part t _ k hst _ hf hk hkf hcodes hpart =>
    have hsimple : k.IsSimple := by
      cases k with
      | operand | hashKey | hashValue | callBlock | superBlock => trivial
      | _ => cases hk
    refine evaluating (hs.same hst) (hold.push hsimple fun g hg c hc => ?_) ?_
    · cases hkf.symm.trans hg
      exact hcause.codes hf (hcodes c hc)
    · rcases hpart with hpart | hpart
      · exact hcause.codes hf hpart
      · obtain ⟨limit, hsplat⟩ := hcause.codes hf hpart
        exact ⟨limit, hsplat.parts rfl (by simp) part mem_cons_self⟩
  | @item f c rest _ hitems _ =>
    have hall := hcause.items hitems
    refine evaluating hs (hold.push trivial ?_) (hall c mem_cons_self)
    rintro g ⟨⟩ c' hc'
    exact hall c' (mem_cons_of_mem _ hc')
  | test hloop =>
    obtain ⟨hcondition, hbody, hcatches⟩ := hcause.loop hloop
    exact (loop hs (hcatches hold) hcondition hbody).1
  | turn hloop =>
    obtain ⟨hcondition, hbody, hcatches⟩ := hcause.loop hloop
    exact (loop hs (hcatches hold) hcondition hbody).2
  | method hst hb _ hslots hattendants =>
    exact evaluating ((hs.same hst).newFrame hslots)
      ((hold.attend hattendants).push trivial nofun) (hnew hst hb)
  | @closure body attendants _ t new hst hb hslots hattendants =>
    have hnone := hs.known_eq_nil (f := t.frames.size) (Nat.le_of_eq (by rw [hst]))
    exact evaluating ((hs.same hst).newFrame hslots)
      (.closure (.refl known) hnone (hu _ body hb) (hold.attend hattendants)) (hnew hst hb)
  | opening hst hb _ hslots =>
    exact evaluating ((hs.same hst).newFrame hslots) hold (hnew hst hb)

theorem meets (h : e.Meets k s stack m) (hk : k.IsSimple) (hcodes : k.IsCareful known) :
    m.Settled u refused := by
  cases h with
  | pass => exact leaving hs hstack
  | stop => exact giving hs hstack
  | test heq =>
    subst heq
    exact (loop hs hstack (hcodes _ rfl _ mem_cons_self)
      (hcodes _ rfl _ (mem_cons_of_mem _ mem_cons_self))).1
  | turn heq =>
    subst heq
    exact (loop hs hstack (hcodes _ rfl _ mem_cons_self)
      (hcodes _ rfl _ (mem_cons_of_mem _ mem_cons_self))).2
  | restart heq =>
    subst heq
    exact absurd hk id

end Machine.Poised

end BlockLang
