import BlockLang.Proofs.Lowering.OneVariable
import BlockLang.Proofs.Machine.Leaving
import BlockLang.Proofs.Machine.Taking

/-!
# Hidden variables keep their values

A hidden variable is written where it was made and nowhere else. In a run this means that its value
stays until that place is come to again: whatever the machine runs in between, methods, blocks of the
same frame, loops, exits. What is still to be run in the frame of the variable does not write it
(`Spares`), code in other frames cannot, and new frames are other frames.

`Setting.Inside.slot_eq` says so of everything that happens above a stack. That code which was lowered
later does not write what was made before is `Lower.uses_of_puts`, because hidden variables are
numbered.
-/

namespace BlockLang

open List Setting Code

/-! ## Code that writes new variables only -/

/-- The variable has a number from the limit on, if it is a hidden one. -/
def Local.IsNew (limit : Nat) (l : Local) : Prop :=
  isHidden l.name = true → ∃ hint i, limit ≤ i ∧ l.name = hiddenName hint i

/-- All the hidden variables that the code writes have numbers from the limit on. -/
def Code.WritesFrom (limit : Nat) (c : Code) : Prop := c.Uses (fun _ => True) (·.IsNew limit)

theorem Code.WritesFrom.name_ne {c : Code} {limit i : Nat} (h : c.WritesFrom limit)
    (hl : .writeLocal l value ∈ c.preorder) (hi : i < limit) : l.name ≠ hiddenName hint i := by
  intro heq
  have hnew : l.IsNew limit := h _ hl
  obtain ⟨hint', j, hj, hname⟩ := hnew (heq ▸ isHidden_hiddenName hint i)
  have hsame := (hiddenName_inj (heq.symm.trans hname)).2
  omega

namespace Lower

variable {ρ : Policy} {N : Names} {c : Context} {E G : List Supply} {t t' : LoweringState}
  {codes : List Code} {temps : List (Local × Code)}

end Lower

/-! ## Code that spares a variable -/

variable {u : CodeUnit} {s : Store} {f : FrameId} {slot : SlotId} {name : String} {m m' : Machine}

/-- The code is part of the body of its frame, and in the frame `f` it does not write the name. -/
def Spares (u : CodeUnit) (f : FrameId) (name : String) (s : Store) (g : FrameId) (c : Code) : Prop :=
  Owned u s g c ∧ (g = f → ∀ l value, .writeLocal l value ∈ c.preorder → l.name ≠ name)

theorem handing_spares (u : CodeUnit) (f : FrameId) (name : String) :
    Handing u (f + 1) (Spares u f name) where
  part h hpart := ⟨(handing_owned u).part h.1 hpart, fun hg l value hl =>
    h.2 hg l value (preorder_of_mem_children hpart hl)⟩
  grow h hst := ⟨(handing_owned u).grow h.1 hst, h.2⟩
  newFrame hfloor hb := ⟨(handing_owned u).newFrame (Nat.zero_le _) hb, fun hg =>
    absurd hg (Nat.ne_of_gt hfloor)⟩

/-- Hidden variables are written in their own frames. -/
def CodeUnit.HidesWell (u : CodeUnit) : Prop :=
  ∀ b body l value, u.body? b = some body → .writeLocal l value ∈ body.code.preorder →
    isHidden l.name = true → l.level = 0

/-- A step leaves a variable as it is, or it is a write. -/
theorem Moves.slot_eq_or {cause : Cause} {stack : List Cont} (h : Moves u cause s stack m)
    (hf : f < s.frames.size) :
    m.store.slot f slot = s.slot f slot ∨
      ∃ g target owner v, cause = .value (.writeLocal g target) ∧ s.frameOf g target = .ok owner ∧
        m.store = s.setSlot owner target.slot v := by
  have hsame : ∀ {t : Store}, t.frames = s.frames → t.slot f slot = s.slot f slot := by
    intro t hst
    simp only [Store.slot, Store.frame, hst]
  have hnew : ∀ {t : Store} (new : Frame), t.frames = s.frames →
      (t.newFrame new).2.slot f slot = s.slot f slot := by
    intro t new hst
    rw [Store.slot, Store.frame_newFrame_of_lt (hst ▸ hf)]
    exact hsame hst
  cases h with
  | calm hst | raise hst | walk hst => exact Or.inl (hsame hst)
  | write hcause howner => exact Or.inr ⟨_, _, _, _, hcause, howner, rfl⟩
  | method hst | closure hst | opening hst => exact Or.inl (hnew _ hst)
  | _ => exact Or.inl rfl

namespace Setting

variable {σ : Setting} {stack : List Cont} {n : Machine}

/-- **A step spares the variable.** -/
theorem Advances.slot_eq (hu : σ.unit.WellScoped) (hhides : σ.unit.HidesWell)
    (hname : isHidden name = true) (hnamed : m.store.Named σ.unit f slot name)
    (hsound : Sound σ.unit m) (hhands : m.Hands σ.unit (Spares σ.unit f name) stack)
    (hback : ¬ m.IsBack stack) (h : σ.Advances m m') :
    m'.store.slot f slot = m.store.slot f slot := by
  obtain ⟨⟨above, hstack, habove⟩, _⟩ := hhands
  cases h with
  | code hmoves | call hmoves =>
    rcases hmoves.slot_eq_or hnamed.1 with hsame | ⟨_, _, _, _, hcause, _⟩
    · exact hsame
    · cases hcause
  | exit hmeets => cases hmeets <;> rfl
  | value hmoves =>
    rcases hmoves.slot_eq_or hnamed.1 with hsame | ⟨g, target, owner, v, hcause, howner, hstore⟩
    · exact hsame
    · cases hcause
      obtain ⟨htarget, hlt⟩ := hsound.resolved hu g target owner rfl howner
      rw [hstore]
      by_cases hne : owner = f
      · subst hne
        rw [Store.slot_setSlot v hnamed.1 hlt, if_neg]
        -- it would be written by its name, in its own frame, and by code that is above the stack
        intro hslot
        subst hslot
        have hsame := htarget.unique hnamed
        cases above with
        | nil => exact hback ⟨hstack, rfl⟩
        | cons k above =>
          cases hstack
          obtain ⟨value, ⟨_, body, hb, hvalue⟩, hspares⟩ := habove _ mem_cons_self
          have hlevel := hhides _ body target value hb hvalue (hsame ▸ hname)
          rw [Store.frameOf, hlevel] at howner
          cases howner
          exact hspares rfl target value (self_mem_preorder _) hsame
      · exact Store.slot_setSlot_ne hne target.slot slot v hnamed.1

/-- **A hidden variable keeps its value** until the machine is back at the stack, if nothing above
the stack writes it in its frame. -/
theorem Inside.slot_eq (hu : σ.unit.WellScoped) (hhides : σ.unit.HidesWell)
    (hname : isHidden name = true) (hnamed : m.store.Named σ.unit f slot name)
    (hsound : Sound σ.unit m) (hhands : m.Hands σ.unit (Spares σ.unit f name) stack)
    (h : σ.Inside stack m n) : n.store.slot f slot = m.store.slot f slot := by
  suffices hall : n.store.slot f slot = m.store.slot f slot ∧
      n.store.Named σ.unit f slot name ∧ Sound σ.unit n ∧
      n.Hands σ.unit (Spares σ.unit f name) stack from hall.1
  induction h with
  | start => exact ⟨rfl, hnamed, hsound, hhands⟩
  | step _ hback hstep ih =>
    obtain ⟨hslot, hnamed, hsound, hhands⟩ := ih
    have hadvances := advances_of_step hu hsound hstep
    have hnext := hsound.step hu
    rw [hstep] at hnext
    refine ⟨?_, hnamed.grow hadvances.grows, hnext, ?_⟩
    · exact (hadvances.slot_eq hu hhides hname hnamed hsound hhands hback).trans hslot
    · exact hhands.step (handing_spares σ.unit f name) hnamed.1 hadvances hback

end Setting

end BlockLang
