import Mathlib
import BlockLang.Proofs.Machine.Tidy

/-!
# Climbing with super

`super` looks for a method above the class that the running method was found in. A class is younger
than the one above it in every tidy store, so the way up ends: the methods and variables of classes
are found as by a loop that nothing cuts short (`Store.Ascending`). **In every machine of a session
`super` calls what the nearest class strictly above defines, on the same object, and a core method
only if no class above defines it** (`Setting.super_climbs`). The class of the method that is called
is strictly above, and the frame of the method remembers it; a closure remembers what the frame that
it was made in does, wherever it is called.
-/

namespace BlockLang

/-! ## The way up -/

namespace Store

/-- The second class is strictly above the first. -/
abbrev Above (s : Store) : ClassId → ClassId → Prop :=
  Relation.TransGen fun c d => (s.classInfo c).superclass = some d

/-- The class is the nearest one strictly above `c` that defines the method, and this is the body. -/
structure Nearest (s : Store) (c : ClassId) (name : String) (owner : ClassId) (b : BodyId) : Prop where
  above : s.Above c owner
  defines : (s.classInfo owner).methods.get? name = some b
  nearest : ∀ d, s.Above c d → s.Above d owner → (s.classInfo d).methods.get? name = none

/-- No class is above itself, each way up ends, and what is looked for on the way is looked for in the
class and then in the one above it. -/
structure Ascending (s : Store) : Prop where
  acyclic : ∀ c, ¬ s.Above c c
  ends : WellFounded fun above c => (s.classInfo c).superclass = some above
  findMethod : ∀ c name, s.findMethod? c name =
    (((s.classInfo c).methods.get? name).map (c, ·)).or
      ((s.classInfo c).superclass.bind (s.findMethod? · name))
  classVar : ∀ c name, s.classVar? c name =
    ((s.classInfo c).classVars.get? name).or ((s.classInfo c).superclass.bind (s.classVar? · name))

namespace Tidy

variable {o : Origin} {s : Store} (hs : s.Tidy o) {c d owner : ClassId} {name : String} {b : BodyId}

include hs

/-- The bound on the way up does not matter if it is large enough. -/
theorem upward_eq {m : Nat} (hn : c < n) (hm : c < m) : s.upward n c = s.upward m c := by
  induction n generalizing m c with
  | zero => cases hn
  | succ n ih =>
    cases m with
    | zero => cases hm
    | succ m =>
      unfold upward
      split
      · rfl
      · rename_i parent hparent
        have hlt := hs.older c parent hparent
        rw [ih (Nat.lt_of_lt_of_le hlt (Nat.le_of_lt_succ hn))
          (Nat.lt_of_lt_of_le hlt (Nat.le_of_lt_succ hm))]

theorem findSome?_ancestors (f : ClassId → Option α) : (s.ancestors c).findSome? f =
      (f c).or ((s.classInfo c).superclass.bind fun parent => (s.ancestors parent).findSome? f) := by
  rw [Store.ancestors, Store.upward, List.findSome?_cons]
  cases hparent : (s.classInfo c).superclass with
  | none => cases f c <;> rfl
  | some parent =>
    have hlt := hs.older c parent hparent
    simp only [hs.upward_eq hlt (Nat.lt_succ_self parent)]
    cases f c <;> rfl

theorem findMethod?_eq : s.findMethod? c name =
    (((s.classInfo c).methods.get? name).map (c, ·)).or (s.findAbove? c name) :=
  hs.findSome?_ancestors _

theorem lt_of_above (h : s.Above c d) : d < c := by
  induction h with
  | single h => exact hs.older _ _ h
  | tail _ h ih => exact Nat.lt_trans (hs.older _ _ h) ih

theorem ascending : s.Ascending where
  acyclic _ h := Nat.lt_irrefl _ (hs.lt_of_above h)
  ends := Subrelation.wf (hs.older _ _) Nat.lt_wfRel.wf
  findMethod _ _ := hs.findMethod?_eq
  classVar _ _ := hs.findSome?_ancestors _

omit hs in
theorem above_iff (h : (s.classInfo c).superclass = some parent) :
    s.Above c d ↔ d = parent ∨ s.Above parent d := by
  refine Relation.TransGen.head'_iff.trans ((Iff.trans ?_) Relation.reflTransGen_iff_eq_or_transGen)
  constructor
  · rintro ⟨e, he, hup⟩
    cases h.symm.trans he
    exact hup
  · exact fun hup => ⟨parent, h, hup⟩

theorem nearest_of_findAbove? (h : s.findAbove? c name = some (owner, b)) :
    s.Nearest c name owner b := by
  induction c using Nat.strong_induction_on with
  | _ c ih =>
    obtain ⟨parent, hparent, hfound⟩ := Option.bind_eq_some_iff.mp h
    rw [hs.findMethod?_eq] at hfound
    cases hown : (s.classInfo parent).methods.get? name with
    | some body =>
      rw [hown] at hfound
      cases hfound
      refine ⟨.single hparent, hown, fun d hd hup => ?_⟩
      have hle : d ≤ owner := by
        rcases (above_iff hparent).mp hd with heq | hd
        · exact Nat.le_of_eq heq
        · exact Nat.le_of_lt (hs.lt_of_above hd)
      exact absurd (hs.lt_of_above hup) (Nat.not_lt.mpr hle)
    | none =>
      rw [hown] at hfound
      have hnearest := ih parent (hs.older c parent hparent) hfound
      refine ⟨.head hparent hnearest.above, hnearest.defines, fun d hd hup => ?_⟩
      rcases (above_iff hparent).mp hd with rfl | hd
      · exact hown
      · exact hnearest.nearest d hd hup

theorem none_of_findAbove? (h : s.findAbove? c name = none) (hd : s.Above c d) :
    (s.classInfo d).methods.get? name = none := by
  induction hd using Relation.TransGen.head_induction_on with
  | single hparent =>
    rw [findAbove?, hparent, Option.bind_some, hs.findMethod?_eq] at h
    simpa using (Option.or_eq_none_iff.mp h).1
  | head hparent _ ih =>
    rw [findAbove?, hparent, Option.bind_some, hs.findMethod?_eq] at h
    exact ih (Option.or_eq_none_iff.mp h).2

end Tidy

end Store

/-! ## Calls with super -/

/-- A call with `super`: the store and the stack that it is made with, and what is passed. -/
structure SuperCall where
  store : Store
  stack : List Cont
  frame : FrameId
  args : List Value
  block : Option ClosureId

/-- `super` with no block is called when it has the last of its operands. -/
def Store.superOperands? (s : Store) (stack : List Cont) (frame : FrameId) (done : List Value) :
    Purpose → List Code → Option SuperCall
  | .super none forwardBlock, [] =>
    some ⟨s, stack, frame, done, if forwardBlock then Setting.ownBlock s frame else none⟩
  | _, _ => none

/-- The call with `super` that the next step makes. -/
def Machine.superCall? : Machine → Option SuperCall
  | ⟨s, _, stack, .eval frame (.super args block forwardBlock)⟩ =>
    s.superOperands? stack frame [] (.super block forwardBlock) args
  | ⟨s, _, .operand frame purpose done false rest :: stack, .give v⟩ =>
    s.superOperands? stack frame (done ++ [v]) purpose rest
  | ⟨s, _, .operand frame purpose done true rest :: stack, .give v⟩ =>
    (s.spread v).2.superOperands? stack frame (done ++ (s.spread v).1) purpose rest
  | ⟨s, _, .superBlock frame args forwardBlock :: stack, .give v⟩ =>
    v.asBlock?.map fun block => ⟨s, stack, frame, args,
      if block.isNone && forwardBlock then Setting.ownBlock s frame else block⟩
  | _ => none

/-- If the machine runs code, then in a frame of its store that has the context. -/
def Machine.RunsIn (m : Machine) (context : Value × Option Invocation) : Prop :=
  ∀ f code, m.control = .eval f code → f < m.store.frames.size ∧ (m.store.frame f).context = context

namespace Setting

variable {σ : Setting} {o : Store.Origin} {m : Machine}

theorem operands_of_superOperands? {s : Store} {depth : Nat} {stack : List Cont} {frame : FrameId}
    {done : List Value} {purpose : Purpose} {rest : List Code} {call : SuperCall}
    (h : s.superOperands? stack frame done purpose rest = some call) : call.store = s ∧
      σ.operands s depth stack frame purpose done rest =
        σ.callSuper call.store depth call.stack call.frame call.args call.block := by
  unfold Store.superOperands? at h
  split at h <;> cases h
  exact ⟨rfl, rfl⟩

theorem step_of_superCall? (hm : m.Tidy o) {call : SuperCall} (h : m.superCall? = some call) :
    call.store.Tidy o ∧ σ.step m =
      .next (σ.callSuper call.store m.depth call.stack call.frame call.args call.block) := by
  unfold Machine.superCall? at h
  split at h
  · obtain ⟨hstore, heq⟩ := operands_of_superOperands? h
    exact ⟨hstore ▸ hm.store, congrArg Step.next heq⟩
  · obtain ⟨hstore, heq⟩ := operands_of_superOperands? h
    exact ⟨hstore ▸ hm.store, congrArg Step.next heq⟩
  · obtain ⟨hstore, heq⟩ := operands_of_superOperands? h
    have hspread := hm.store.spread (AllIn.cons_iff.mp hm.control).1
    exact ⟨hstore ▸ hspread.1, congrArg Step.next heq⟩
  · obtain ⟨block, hblock, rfl⟩ := Option.map_eq_some_iff.mp h
    refine ⟨hm.store, ?_⟩
    simp only [step, resume, hblock]
  · cases h

/-! ## Sessions -/

/-- The machines of a session from one on. The unit is run again and again, with any limits, and what
was written may be taken in between. -/
inductive Later (σ : Setting) (m : Machine) : Setting → Machine → Prop
  | now : Later σ m σ m
  | next {σ₁ : Setting} {m₁ m₂ : Machine} : Later σ m σ₁ m₁ → σ₁.step m₁ = .next m₂ →
      Later σ m σ₁ m₂
  | again {σ₁ : Setting} {m₁ : Machine} {outcome : Outcome} {left session : Session}
      (maxDepth : Nat) : Later σ m σ₁ m₁ → σ₁.step m₁ = .done outcome left →
      session = left ∨ session = left.takeOutput.2 →
      Later σ m { σ₁ with maxDepth } (start { σ₁ with maxDepth } session)

theorem Later.reaches (h : σ.Later m σ₁ m₁) (hreaches : σ₁.Reaches m₁ m₂) : σ.Later m σ₁ m₂ :=
  Reaches.induct (P := fun m' => σ.Later m σ₁ m') h (fun _ _ _ ih hstep => ih.next hstep) hreaches

/-- Machines stay tidy, whatever is put into itself. -/
theorem Later.tidy (h : σ.Later m σ' m') (hm : m.Tidy ⟨origin, False⟩) : m'.Tidy ⟨origin, False⟩ :=
    by
  induction h with
  | now => exact hm
  | next _ hstep ih => exact tidy_step ih (fun h => h.elim) hstep
  | again maxDepth _ hdone hsession ih =>
    refine tidy_start _ ?_
    cases session_of_done hdone
    rcases hsession with rfl | rfl
    · exact ih.store
    · exact ih.store.write _

theorem Later.extends (h : σ.Later m σ' m') (hm : m.Tidy ⟨origin, False⟩) :
    m.store.Extends m'.store :=
  (h.tidy { hm with store := hm.store.rebase }).store.larger

/-! ## Contexts -/

section

variable {s : Store} {depth : Nat} {stack : List Cont} {args : List Value} {block : Option ClosureId}

theorem runsIn_newFrame (new : Frame) (code : Code) :
    (evaluating (s.newFrame new).2 depth stack s.frames.size code).RunsIn new.context := by
  intro f _ h
  cases h
  refine ⟨?_, congrArg Frame.context (Store.frame_newFrame_self new)⟩
  exact Nat.lt_of_lt_of_eq (Nat.lt_succ_self _) (Store.size_newFrame new).symm

theorem runsIn_invokeMethod (receiver : Value) (owner : ClassId) (id : BodyId) (name : String) :
    (σ.invokeMethod s depth stack receiver owner id name args block).RunsIn
      (receiver, some ⟨name, owner, block⟩) := by
  unfold invokeMethod
  split
  · exact fun _ _ h => by cases h
  · split
    · exact fun _ _ h => by cases h
    · exact runsIn_newFrame _ _

theorem runsIn_invokeClosure (id : ClosureId) :
    (σ.invokeClosure s depth stack id args block).RunsIn (s.closure id).context := by
  unfold invokeClosure
  simp only
  split
  · exact fun _ _ h => by cases h
  · split
    · exact fun _ _ h => by cases h
    · exact runsIn_newFrame _ _

theorem context_newClosure {b : BodyId} {id : ClosureId}
    (h : (σ.newClosure s depth stack f b lambda).control = .give (.closure id)) :
    id < (σ.newClosure s depth stack f b lambda).store.closures.size ∧
      ((σ.newClosure s depth stack f b lambda).store.closure id).context = (s.frame f).context := by
  unfold newClosure at h ⊢
  split at h
  · cases h
  · cases h
    simp [givingNew, giving, Store.newClosure, Store.closure, Closure.context, Frame.context]

end

/-! ## Super -/

/-- What `super` goes by in a machine, and where it goes. -/
structure Climbs (σ : Setting) (m : Machine) : Prop where
  ascending : m.store.Ascending
  /-- A class stays under the class that it was created under. -/
  superclass : ∀ {σ' m'}, σ.Later m σ' m' → ∀ c < m.store.classes.size,
    (m'.store.classInfo c).superclass = (m.store.classInfo c).superclass
  /-- A frame stays one of the same method on the same object. -/
  frame : ∀ {σ' m'}, σ.Later m σ' m' → ∀ f < m.store.frames.size,
    (m'.store.frame f).context = (m.store.frame f).context
  /-- So does a closure. -/
  closure : ∀ {σ' m'}, σ.Later m σ' m' → ∀ c < m.store.closures.size,
    (m'.store.closure c).context = (m.store.closure c).context
  /-- A new closure is one of the method that it is made in. -/
  creates : ∀ {f b lambda m' id}, m.control = .eval f (.closure b lambda) → σ.step m = .next m' →
    m'.control = .give (.closure id) →
    id < m'.store.closures.size ∧ (m'.store.closure id).context = (m.store.frame f).context
  /-- Wherever a closure is called from then on, it runs in a frame of its method. -/
  runs : ∀ {id s}, id < m.store.closures.size → m.store.Extends s →
    ∀ (σ' : Setting) depth stack args block,
      (σ'.invokeClosure s depth stack id args block).RunsIn (m.store.closure id).context
  /-- `super` calls the method of the nearest class above that defines it, on the same object, or a
  core method if there is no such class. -/
  climbs : ∀ {call self invocation}, m.superCall? = some call →
    (call.store.frame call.frame).context = (self, some invocation) →
    (∃ owner b m', call.store.Nearest invocation.owner invocation.name owner b ∧
      σ.step m = .next m' ∧ m'.RunsIn (self, some ⟨invocation.name, owner, call.block⟩) ∧
      m' = σ.invokeMethod call.store m.depth call.stack self owner b invocation.name call.args
        call.block) ∨
    (∀ d, call.store.Above invocation.owner d →
      (call.store.classInfo d).methods.get? invocation.name = none) ∧
      σ.step m = .next (σ.callCore call.store m.depth call.stack call.frame self invocation.name
        ("super: " ++ invocation.name) call.args call.block)

/-- **`super` always climbs**: in every machine of a session. -/
theorem super_climbs {σ₀ : Setting} (h : σ₀.Later (σ₀.start {}) σ m) : σ.Climbs m := by
  have hm := h.tidy (tidy_start σ₀ (.initial False))
  refine {
    ascending := hm.store.ascending
    superclass := fun hlater => (hlater.extends hm).classes.2
    frame := fun hlater => (hlater.extends hm).frames.2
    closure := fun hlater => (hlater.extends hm).closures.2
    creates := fun {f b lambda m' id} hcontrol hstep hgive => ?_
    runs := fun {id s} hid hext _ _ _ _ _ => hext.closures.2 id hid ▸ runsIn_invokeClosure id
    climbs := fun {call self invocation} hcall hcontext => ?_ }
  · obtain ⟨s, depth, stack, control⟩ := m
    cases hcontrol
    cases hstep
    exact context_newClosure hgive
  · obtain ⟨hstore, hstep⟩ := step_of_superCall? (σ := σ) hm hcall
    obtain ⟨hself, hinvocation⟩ := Prod.mk.inj hcontext
    simp only [callSuper, hinvocation, hself] at hstep
    cases hfound : call.store.findAbove? invocation.owner invocation.name with
    | some found =>
      rw [hfound] at hstep
      exact .inl ⟨found.1, found.2, _, hstore.nearest_of_findAbove? hfound, hstep,
        runsIn_invokeMethod _ _ _ _, rfl⟩
    | none =>
      rw [hfound] at hstep
      exact .inr ⟨fun d hd => hstore.none_of_findAbove? hfound hd, hstep⟩

end Setting

/-! ## An example -/

/-- A method that calls the one above it from a block. -/
def Program.climbs : Program where
  body := [
    Build.classDef "A" none [Build.define "m" Params.empty [Build.integer 1]],
    Build.classDef "B" (some (Build.constant "A")) [
      Build.define "m" Params.empty [
        Build.callWithBlock (some (Build.integer 1)) "times" [] (Build.block Params.empty
          [Build.super []])]],
    Build.call (Build.call (Build.constant "B") "new" []) "m" []]

def Setting.climber : Setting := .of Program.climbs

/-- The block is run by a method of `B` and calls the one of `A`. -/
theorem Setting.climber_climbs : Program.climbs.lower {} = .ok climber.unit ∧
    ∃ m call self block b m', climber.after 26 (climber.start {}) = some m ∧
      m.superCall? = some call ∧
      (call.store.frame call.frame).context = (self, some ⟨"m", 2, block⟩) ∧
      call.store.Nearest 2 "m" 1 b ∧ climber.step m = .next m' ∧
      m'.RunsIn (self, some ⟨"m", 1, call.block⟩) := by
  constructor
  · exact Program.lower_of_setting rfl (by decide +kernel)
  · have hσ := Eq.refl climber
    conv at hσ => rhs; cbv
    have hm := Eq.refl (climber.after 26 (climber.start {}))
    conv at hm => rhs; rw [hσ]; cbv
    rcases (super_climbs (Later.now.reaches ⟨26, hm⟩)).climbs rfl rfl with
      ⟨owner, b, m', hnearest, hstep, hruns, _⟩ | ⟨hnone, _⟩
    · rcases (Store.Tidy.above_iff rfl).mp hnearest.above with rfl | hup
      · exact ⟨_, _, _, _, b, m', hm, rfl, rfl, hnearest, hstep, hruns⟩
      · cases hnearest.nearest 1 (.single rfl) hup
    · cases hnone 1 (.single rfl)

end BlockLang
