import BlockLang.Proofs.Code.Lexical
import BlockLang.Value.Store

/-!
# Frames stand as their bodies do

A unit says which body stands in which (`CodeUnit.parent?`), and frames are linked to frames. The
invariant of the store is that the two agree as far as anybody looks: **the frame that a frame is
linked to is one of the body around its body** (`Placed`). Only bodies that keep the frame around
them have to be linked, and these are the bodies that a reference walks through; so a walk along
the links arrives at a frame of the body that the reference means (`Store.Lexical.frameAt?`).

Closures carry the same invariant from the frame that they are created in to the frames that they
are run in. A closure that is not in the store is taken for one of the program itself, which stands
in nothing and needs no link.
-/

namespace BlockLang

variable {u : CodeUnit} {s t : Store}

/-! ## The frames that stay -/

/-- Frames are added, and what they run stays. -/
structure Store.Grows (s t : Store) : Prop where
  size : s.frames.size ≤ t.frames.size
  body : ∀ f < s.frames.size, (t.frame f).body = (s.frame f).body
  arguments : ∀ f < s.frames.size, (t.frame f).arguments = (s.frame f).arguments
  invocation : ∀ f < s.frames.size, (t.frame f).invocation = (s.frame f).invocation

theorem Store.Grows.of_frames_eq (h : t.frames = s.frames) : s.Grows t := by
  have hframe : ∀ f, t.frame f = s.frame f := fun f => by rw [frame, frame, h]
  exact ⟨Nat.le_of_eq (by rw [h]), fun f _ => by rw [hframe], fun f _ => by rw [hframe],
    fun f _ => by rw [hframe]⟩

theorem Store.frame_newFrame_of_lt (h : f < s.frames.size) (new : Frame) :
    (s.newFrame new).2.frame f = s.frame f := by
  unfold frame newFrame
  rw [Array.getD_eq_getD_getElem?, Array.getD_eq_getD_getElem?, Array.getElem?_push,
    if_neg (Nat.ne_of_lt h)]

theorem Store.frame_newFrame_self (new : Frame) : (s.newFrame new).2.frame s.frames.size = new := by
  unfold frame newFrame
  rw [Array.getD_eq_getD_getElem?, Array.getElem?_push, if_pos rfl]
  rfl

theorem Store.size_newFrame (new : Frame) : (s.newFrame new).2.frames.size = s.frames.size + 1 := by
  simp [newFrame]

theorem Store.grows_newFrame (new : Frame) : s.Grows (s.newFrame new).2 where
  size := by simp [newFrame]
  body f hf := by rw [frame_newFrame_of_lt hf]
  arguments f hf := by rw [frame_newFrame_of_lt hf]
  invocation f hf := by rw [frame_newFrame_of_lt hf]

theorem Store.frame_setSlot (f g : Nat) (slot : SlotId) (v : Value) (hg : g < s.frames.size) :
    (s.setSlot f slot v).frame g =
      if f = g then { s.frame g with slots := setGrowing (s.frame g).slots slot v }
      else s.frame g := by
  unfold frame setSlot
  rw [Array.getD_eq_getD_getElem?, Array.getD_eq_getD_getElem?, Array.getElem?_modify,
    Array.getElem?_eq_getElem hg]
  split <;> rfl

theorem Store.size_setSlot (f : FrameId) (slot : SlotId) (v : Value) :
    (s.setSlot f slot v).frames.size = s.frames.size := Array.size_modify

theorem Store.grows_setSlot (f : FrameId) (slot : SlotId) (v : Value) :
    s.Grows (s.setSlot f slot v) where
  size := Nat.le_of_eq (size_setSlot f slot v).symm
  body g hg := by
    rw [frame_setSlot f g slot v hg]
    split <;> rfl
  arguments g hg := by
    rw [frame_setSlot f g slot v hg]
    split <;> rfl
  invocation g hg := by
    rw [frame_setSlot f g slot v hg]
    split <;> rfl

theorem size_setGrowing (h : i < items.size) (v : Value) :
    (setGrowing items i v).size = items.size := by
  simp [setGrowing, h]

theorem Store.slot_setSlot {f : FrameId} {slot other : SlotId} (v : Value) (hf : f < s.frames.size)
    (hslot : slot < (s.frame f).slots.size) :
    (s.setSlot f slot v).slot f other = if slot = other then v else s.slot f other := by
  unfold Store.slot
  rw [frame_setSlot f f slot v hf, if_pos rfl]
  unfold setGrowing
  rw [if_pos hslot]
  simp only [Array.set!_eq_setIfInBounds, Array.getD_eq_getD_getElem?,
    Array.getElem?_setIfInBounds, hslot, if_true]
  split <;> rfl

theorem Store.slot_setSlot_ne (hne : f ≠ g) (slot other : SlotId) (v : Value)
    (hg : g < s.frames.size) : (s.setSlot f slot v).slot g other = s.slot g other := by
  unfold Store.slot
  rw [frame_setSlot f g slot v hg, if_neg hne]

/-! ## Classes and their methods -/

theorem Table.get?_insert {κ α : Type} [BEq κ] {table : Table κ α} {k k' : κ} {v w : α}
    (h : (table.insert k v).get? k' = some w) : w = v ∨ table.get? k' = some w := by
  obtain ⟨entries⟩ := table
  induction entries with
  | nil =>
    simp only [insert, put, get?, List.lookup_cons] at h
    split at h
    · exact Or.inl (Option.some.inj h).symm
    · simp at h
  | cons entry rest ih =>
    simp only [insert, put, get?] at h ih ⊢
    split at h
    all_goals
      rw [List.lookup_cons] at h ⊢
      cases hk : k' == entry.1 <;> simp only [hk] at h ⊢
    · exact Or.inr h
    · exact Or.inl (Option.some.inj h).symm
    · exact ih h
    · exact Or.inr h

theorem Store.classInfo_modifyClass (id c : ClassId) (change : ClassInfo → ClassInfo) :
    (s.modifyClass id change).classInfo c = change (s.classInfo c) ∨
      (s.modifyClass id change).classInfo c = s.classInfo c := by
  unfold classInfo modifyClass
  rw [Array.getD_eq_getD_getElem?, Array.getD_eq_getD_getElem?, Array.getElem?_modify]
  split
  · cases s.classes[c]? with
    | none => exact Or.inr rfl
    | some info => exact Or.inl rfl
  · exact Or.inr rfl

theorem Store.classInfo_newClass (c : ClassId) (new : ClassInfo) :
    (s.newClass new).2.classInfo c = new ∨
      (s.newClass new).2.classInfo c = s.classInfo c := by
  unfold classInfo newClass
  simp only
  rw [Array.getD_eq_getD_getElem?, Array.getD_eq_getD_getElem?, Array.getElem?_push]
  split
  · exact Or.inl rfl
  · exact Or.inr rfl

/-! ## The invariant -/

/-- The body is there; where it keeps the frame around it, the link is to a frame of the body
around it; and in a method there is a call that `super` can go up from. -/
structure Placed (u : CodeUnit) (s : Store) (b : BodyId) (link : Option FrameId)
    (invocation : Option Invocation) : Prop where
  known : ∃ body, u.body? b = some body
  link : ∀ {body}, u.body? b = some body → body.captured = true →
    ∃ p, link = some p ∧ p < s.frames.size ∧ u.parent? b = some (s.frame p).body
  invocation : u.UnderMethod b → invocation.isSome = true

theorem Placed.root (hu : u.WellScoped) {b : BodyId} {body : Body} {link : Option FrameId}
    {invocation : Option Invocation} (hb : u.body? b = some body)
    (hkind : body.kind.isClosure = false)
    (hmethod : body.kind = .method → invocation.isSome = true) :
    Placed u s b link invocation where
  known := ⟨body, hb⟩
  link hb' hc := by
    rw [hb, Option.some.injEq] at hb'
    rw [← hb', hu.captured_eq_false hb hkind] at hc
    exact absurd hc (by simp)
  invocation h := hmethod (hu.kind_of_underMethod hb hkind h)

theorem Placed.mono {b : BodyId} {link : Option FrameId} {invocation : Option Invocation}
    (h : Placed u s b link invocation) (hst : s.Grows t) : Placed u t b link invocation where
  known := h.known
  link hb hc := by
    obtain ⟨p, hp, hlt, hparent⟩ := h.link hb hc
    exact ⟨p, hp, Nat.lt_of_lt_of_le hlt hst.size, by rw [hst.body p hlt]; exact hparent⟩
  invocation := h.invocation

/-- The body is that of a method. -/
def CodeUnit.IsMethod (u : CodeUnit) (b : BodyId) : Prop :=
  ∃ body, u.body? b = some body ∧ body.kind = .method

/-- Frames and closures stand as their bodies do, and frames have the slots of their bodies. -/
structure Store.Lexical (u : CodeUnit) (s : Store) : Prop where
  frame : ∀ f < s.frames.size,
    Placed u s (s.frame f).body (s.frame f).parent (s.frame f).invocation
  slots : ∀ f < s.frames.size, ∀ {body}, u.body? (s.frame f).body = some body →
    (s.frame f).slots.size = body.slots.length
  closure : ∀ c, Placed u s (s.closure c).body (s.closure c).frame (s.closure c).invocation
  method : ∀ c {name b}, (s.classInfo c).methods.get? name = some b → u.IsMethod b

namespace Store.Lexical

/-- **Links go outward.** Where all bodies on the way keep the frame around them, the frame
`level` links further is there and is one of the body `level` bodies outward. -/
theorem frameAt? (hs : s.Lexical u) {level : Nat} : ∀ {f : Nat}, f < s.frames.size →
    (∀ d < level, ∃ a between, u.ancestor? d (s.frame f).body = some a ∧
      u.body? a = some between ∧ between.captured = true) →
    ∃ owner, s.frameAt? level f = some owner ∧ owner < s.frames.size ∧
      u.ancestor? level (s.frame f).body = some (s.frame owner).body := by
  induction level with
  | zero => exact fun hf _ => ⟨_, rfl, hf, rfl⟩
  | succ level ih =>
    intro f hf hkept
    obtain ⟨a, own, ha, hown, hc⟩ := hkept 0 (Nat.succ_pos level)
    cases ha
    obtain ⟨p, hp, hlt, hparent⟩ := (hs.frame f hf).link hown hc
    obtain ⟨owner, hat, howner, hanc⟩ := ih hlt fun d hd => by
      obtain ⟨a, between, ha, hrest⟩ := hkept (d + 1) (Nat.succ_lt_succ hd)
      exact ⟨a, between, by rw [← u.ancestor?_succ d hparent]; exact ha, hrest⟩
    refine ⟨owner, ?_, howner, by rw [u.ancestor?_succ level hparent]; exact hanc⟩
    rw [Store.frameAt?, hp]
    exact hat

/-! ## Changes of the store -/

theorem update (hs : s.Lexical u) (hframes : t.frames = s.frames)
    (hclosures : t.closures = s.closures)
    (hmethods : ∀ c {name b}, (t.classInfo c).methods.get? name = some b →
      (s.classInfo c).methods.get? name = some b ∨ u.IsMethod b) : t.Lexical u := by
  have hgrows := Grows.of_frames_eq hframes
  have hframe : ∀ f, t.frame f = s.frame f := fun f => by rw [Store.frame, Store.frame, hframes]
  have hclosure : ∀ c, t.closure c = s.closure c := fun c => by
    rw [Store.closure, Store.closure, hclosures]
  refine ⟨fun f hf => ?_, fun f hf => ?_, fun c => ?_, fun c name b hb => ?_⟩
  · rw [hframe]
    exact (hs.frame f (hframes ▸ hf)).mono hgrows
  · rw [hframe]
    exact hs.slots f (hframes ▸ hf)
  · rw [hclosure]
    exact (hs.closure c).mono hgrows
  · exact (hmethods c hb).elim (hs.method c) id

theorem newFrame (hs : s.Lexical u) (hplaced : Placed u s new.body new.parent new.invocation)
    (hbody : u.body? new.body = some body) (hslots : new.slots = blankSlots body.slots.length) :
    (s.newFrame new).2.Lexical u := by
  have hgrows := grows_newFrame (s := s) new
  have hlast : ∀ f < (s.newFrame new).2.frames.size, f < s.frames.size ∨ f = s.frames.size := by
    intro f hf
    rw [size_newFrame] at hf
    exact Nat.lt_or_eq_of_le (Nat.le_of_lt_succ hf)
  refine ⟨fun f hf => ?_, fun f hf => ?_, fun c => (hs.closure c).mono hgrows, hs.method⟩
  · rcases hlast f hf with hlt | rfl
    · rw [frame_newFrame_of_lt hlt]
      exact (hs.frame f hlt).mono hgrows
    · rw [frame_newFrame_self]
      exact hplaced.mono hgrows
  · rcases hlast f hf with hlt | rfl
    · rw [frame_newFrame_of_lt hlt]
      exact hs.slots f hlt
    · rw [frame_newFrame_self]
      intro body' hbody'
      rw [hbody, Option.some.injEq] at hbody'
      rw [hslots, ← hbody', blankSlots, Array.size_replicate]

theorem newClosure (hs : s.Lexical u) (hplaced : Placed u s new.body new.frame new.invocation) :
    (s.newClosure new).2.Lexical u := by
  have hgrows : s.Grows (s.newClosure new).2 := .of_frames_eq rfl
  refine ⟨fun f hf => (hs.frame f hf).mono hgrows, hs.slots, fun c => ?_, hs.method⟩
  have hclosure : (s.newClosure new).2.closure c = new ∨
      (s.newClosure new).2.closure c = s.closure c := by
    unfold Store.closure Store.newClosure
    rw [Array.getD_eq_getD_getElem?, Array.getD_eq_getD_getElem?, Array.getElem?_push]
    split
    · exact Or.inl rfl
    · exact Or.inr rfl
  rcases hclosure with h | h <;> rw [h]
  · exact hplaced.mono hgrows
  · exact (hs.closure c).mono hgrows

theorem setSlot (hs : s.Lexical u) {f : Nat} {slot : SlotId}
    (hslot : slot < (s.frame f).slots.size) (v : Value) : (s.setSlot f slot v).Lexical u := by
  have hgrows := grows_setSlot (s := s) f slot v
  refine ⟨fun g hg => ?_, fun g hg => ?_, fun c => (hs.closure c).mono hgrows, hs.method⟩
  all_goals
    rw [size_setSlot] at hg
    rw [frame_setSlot f g slot v hg]
    split
  · exact (hs.frame g hg).mono hgrows
  · exact (hs.frame g hg).mono hgrows
  · subst f
    intro body hbody
    rw [size_setGrowing hslot]
    exact hs.slots g hg hbody
  · exact hs.slots g hg

end Store.Lexical

end BlockLang
