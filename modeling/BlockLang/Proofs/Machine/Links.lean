import BlockLang.Proofs.Machine.Sessions

/-!
# Links that nobody follows

A closure keeps the frame that it was created in only if its body asks for it, and a machine could
as well let every closure keep its frame. **It would make no difference** (`Program.lower_play`).
Pruning the machine that links everything after a step, and a step of the machine that links on
demand after pruning, come to the same machine (`Setting.step_prune`); so the two go side by side
through every run, and what the one leaves is what the other leaves without the additional links.

The only place where it could go wrong is the look-up of a variable, and there the links that are
followed are those that bodies ask for (`Store.Lexical.frameOf_prune`): this is where the machine
has to be sound.
-/

namespace BlockLang

open Store

/-- The bodies that keep the frame around them. -/
def CodeUnit.keeps (u : CodeUnit) (b : BodyId) : Bool := (u.body? b).any (·.captured)

theorem CodeUnit.keeps_eq {u : CodeUnit} {body : Body} (h : u.body? b = some body) :
    u.keeps b = body.captured := by
  rw [keeps, h, Option.any_some]

/-! ## Variables -/

/-- Where every frame on the way keeps its link, pruning does not change what is found. -/
theorem Store.frameAt?_prune {keep : BodyId → Bool} {s : Store} :
    ∀ {f : FrameId}, (∀ d < level, ∀ g, s.frameAt? d f = some g → keep (s.frame g).body = true) →
      (s.prune keep).frameAt? level f = s.frameAt? level f := by
  induction level with
  | zero => exact fun _ => rfl
  | succ level ih =>
    intro f hkeep
    have hown : keep (s.frame f).body = true := hkeep 0 (Nat.succ_pos level) f rfl
    simp only [frameAt?, frame_prune, Frame.prune_parent, hown, if_true]
    cases hp : (s.frame f).parent with
    | none => rfl
    | some p =>
      refine ih fun d hd g hg => hkeep (d + 1) (Nat.succ_lt_succ hd) g ?_
      rw [frameAt?, hp]
      exact hg

theorem Store.Lexical.frameOf_prune {u : CodeUnit} (hu : u.WellScoped) {s : Store}
    (hs : s.Lexical u) {f : FrameId} (h : Holds u s f [.variable l]) :
    (s.prune u.keeps).frameOf f l = s.frameOf f l := by
  obtain ⟨body, hb, hl⟩ := h.mentioned _ List.mem_cons_self
  have hlink := hu.link hb hl
  have hsame : (s.prune u.keeps).frameAt? l.level f = s.frameAt? l.level f := by
    refine frameAt?_prune fun d hd g hg => ?_
    -- the frame on the way is one of the body on the way, which keeps its link
    obtain ⟨owner, hfound, _, hanc⟩ :=
      hs.frameAt? h.inRange fun d' hd' => hlink d' (Nat.lt_trans hd' hd)
    rw [hg, Option.some.injEq] at hfound
    obtain ⟨a, between, ha, hbetween, hc⟩ := hlink d hd
    rw [hanc, Option.some.injEq] at ha
    rw [hfound, ha, CodeUnit.keeps_eq hbetween, hc]
  rw [frameOf, frameOf, hsame]

/-! ## Calls -/

namespace Setting

variable (σ : Setting)

/-- The setting in which closures keep frames on demand. -/
def onDemand : Setting := { σ with capture := .onDemand }

@[simp] theorem onDemand_unit : σ.onDemand.unit = σ.unit := rfl

@[simp] theorem onDemand_maxDepth : σ.onDemand.maxDepth = σ.maxDepth := rfl

@[simp] theorem onDemand_keepsFrame (body : Body) : σ.onDemand.keepsFrame body = body.captured := by
  simp [keepsFrame, onDemand]

/-- The machine with the links that bodies ask for. -/
def prune (m : Machine) : Machine := { m with store := m.store.prune σ.unit.keeps }

variable {s : Store} {depth : Nat} {stack : List Cont} {f : FrameId} {v receiver : Value}
  {args : List Value} {block : Option ClosureId} {name : String} {id : BodyId} {codes : List Code}
  {condition body : Code} {keep : BodyId → Bool}

@[simp] theorem prune_mk {control : Control} : σ.prune ⟨s, depth, stack, control⟩ =
    ⟨s.prune σ.unit.keeps, depth, stack, control⟩ := rfl

@[simp] theorem prune_giving : σ.prune (giving s depth stack v) =
    giving (s.prune σ.unit.keeps) depth stack v := rfl

@[simp] theorem prune_givingNew : σ.prune (givingNew depth stack made) =
    givingNew depth stack (made.1, made.2.prune σ.unit.keeps) := rfl

@[simp] theorem prune_leaving : σ.prune (leaving s depth stack e) =
    leaving (s.prune σ.unit.keeps) depth stack e := rfl

@[simp] theorem prune_raising {f : Fault} : σ.prune (raising s depth stack f) =
    raising (s.prune σ.unit.keeps) depth stack f := rfl

@[simp] theorem prune_halting : σ.prune (halting s depth stack c) =
    halting (s.prune σ.unit.keeps) depth stack c := rfl

@[simp] theorem prune_evaluating : σ.prune (evaluating s depth stack f c) =
    evaluating (s.prune σ.unit.keeps) depth stack f c := rfl

theorem newFrame_prune {f : Frame} (h : f.parent = none) : (s.prune σ.unit.keeps).newFrame f =
      ((s.newFrame f).1, (s.newFrame f).2.prune σ.unit.keeps) := by
  have hsame : f.prune σ.unit.keeps = f := by
    rw [Frame.prune, h, ite_self, ← h]
  rw [← hsame, s.newFrame_prune, hsame]

@[simp] theorem prune_invokeMethod :
    σ.prune (σ.invokeMethod s depth stack receiver owner id name args block) =
      σ.onDemand.invokeMethod (s.prune σ.unit.keeps) depth stack receiver owner id name args
        block := by
  simp only [invokeMethod, onDemand_unit, onDemand_maxDepth]
  cases σ.unit.body? id with
  | none => rfl
  | some body =>
    by_cases hdeep : σ.maxDepth ≤ depth
    · simp [hdeep]
    · simp only [hdeep, if_false]
      rw [σ.newFrame_prune rfl]
      rfl

theorem link_prune {body : Body} (hb : σ.unit.body? id = some body) :
    (if σ.unit.keeps id then if σ.keepsFrame body then link else none else none) =
      if body.captured then link else none := by
  rw [CodeUnit.keeps_eq hb, keepsFrame]
  cases body.captured <;> simp

/-- The frame of a closure is linked if its body asks for it. -/
@[simp] theorem prune_invokeClosure {id : ClosureId} :
    σ.prune (σ.invokeClosure s depth stack id args block) =
      σ.onDemand.invokeClosure (s.prune σ.unit.keeps) depth stack id args block := by
  simp only [invokeClosure, onDemand_unit, onDemand_maxDepth, onDemand_keepsFrame,
    closure_prune, Closure.prune_body]
  cases hb : σ.unit.body? (s.closure id).body with
  | none => rfl
  | some body =>
    by_cases hdeep : σ.maxDepth ≤ depth
    · simp [hdeep]
    · have hlink : (if body.captured then ((s.closure id).prune σ.unit.keeps).frame else none) =
          if body.captured then (s.closure id).frame else none := by
        rw [Closure.prune_frame, CodeUnit.keeps_eq hb]
        cases body.captured <;> rfl
      simp only [hdeep, if_false, hlink]
      rw [← σ.link_prune hb]
      exact congrArg (fun made : FrameId × Store =>
        evaluating made.2 (depth + 1) (.closure made.1 body :: stack) made.1 body.code)
        (s.newFrame_prune _ _).symm

@[simp] theorem prune_invokeBlock : σ.prune (σ.invokeBlock s depth stack block args) =
      σ.onDemand.invokeBlock (s.prune σ.unit.keeps) depth stack block args := by
  cases block with
  | none => rfl
  | some id => exact σ.prune_invokeClosure

@[simp] theorem prune_iterate :
    σ.prune (σ.iterate s depth stack block iteration) =
      σ.onDemand.iterate (s.prune σ.unit.keeps) depth stack block iteration := by
  unfold iterate
  split
  · exact σ.prune_invokeBlock
  · cases iteration <;> rfl

@[simp] theorem prune_construct {id : ClassId} : σ.prune (σ.construct s depth stack id args block) =
      σ.onDemand.construct (s.prune σ.unit.keeps) depth stack id args block := by
  simp only [construct, classInfo_prune, newObject_prune, findMethod?_prune]
  by_cases hmodule : (s.classInfo id).isModule
  · simp [hmodule]
  · simp only [hmodule]
    cases (s.newObject id).2.findMethod? id "initialize" with
    | some found => simp
    | none => by_cases hargs : args.isEmpty <;> simp [hargs]

@[simp] theorem prune_callCore :
    σ.prune (σ.callCore s depth stack f receiver name label args block) =
      σ.onDemand.callCore (s.prune σ.unit.keeps) depth stack f receiver name label args block := by
  have htame : (Core.method (s.frame f) receiver name args block).Tame := inferInstance
  -- a core method sees of the caller's frame only the call
  have hcaller : Core.method ((s.frame f).prune σ.unit.keeps) receiver name args block =
      Core.method (s.frame f) receiver name args block := rfl
  simp only [callCore, frame_prune, hcaller, htame.prune]
  generalize (Core.method (s.frame f) receiver name args block).run.run s = done
  obtain ⟨reply, t⟩ := done
  simp only
  split <;> simp

@[simp] theorem prune_call : σ.prune (σ.call s depth stack f receiver name args block) =
    σ.onDemand.call (s.prune σ.unit.keeps) depth stack f receiver name args block := by
  simp only [call, classOf_prune, findMethod?_prune]
  split <;> simp

@[simp] theorem prune_callSuper : σ.prune (σ.callSuper s depth stack f args block) =
      σ.onDemand.callSuper (s.prune σ.unit.keeps) depth stack f args block := by
  simp only [callSuper, frame_prune, Frame.prune_invocation, Frame.prune_self,
    findAbove?_prune]
  split
  · rfl
  · split <;> simp

@[simp] theorem ownBlock_prune : ownBlock (s.prune keep) f = ownBlock s f := by
  simp only [ownBlock, frame_prune, Frame.prune_invocation]

/-! ## Parts of code -/

@[simp] theorem prune_operands :
    σ.prune (σ.operands s depth stack f purpose done codes) =
      σ.onDemand.operands (s.prune σ.unit.keeps) depth stack f purpose done codes := by
  unfold operands
  split
  · rfl
  · rfl
  · split <;> simp

@[simp] theorem prune_entries :
    σ.prune (entries s depth stack f done pairs) =
      entries (s.prune σ.unit.keeps) depth stack f done pairs := by
  unfold entries
  split <;> rfl

@[simp] theorem prune_items : σ.prune (items s depth stack f codes) =
    items (s.prune σ.unit.keeps) depth stack f codes := by
  unfold items
  split <;> rfl

@[simp] theorem prune_loopTest : σ.prune (loopTest s depth stack f condition body) =
      loopTest (s.prune σ.unit.keeps) depth stack f condition body := rfl

@[simp] theorem prune_loopBody : σ.prune (loopBody s depth stack f condition body) =
      loopBody (s.prune σ.unit.keeps) depth stack f condition body := rfl

@[simp] theorem prune_openClass :
    σ.prune (σ.openClass s depth stack name superclass isModule id) =
      σ.onDemand.openClass (s.prune σ.unit.keeps) depth stack name superclass isModule id := by
  simp only [openClass, onDemand_unit, constants_prune, newClass_prune]
  cases s.constants.get? name with
  | some known =>
    cases σ.unit.body? id with
    | none => rfl
    | some body =>
      simp only
      rw [σ.newFrame_prune rfl]
      rfl
  | none =>
    cases σ.unit.body? id with
    | none => rfl
    | some body =>
      simp only
      rw [σ.newFrame_prune rfl]
      rfl

@[simp] theorem spread_prune : (s.prune keep).spread v = ((s.spread v).1, (s.spread v).2.prune keep) := by
  cases v with
  | hash id => exact s.newPairs_prune keep _
  | _ => rfl

@[simp] theorem prune_notArray : σ.prune (notArray s depth stack v) =
    notArray (s.prune σ.unit.keeps) depth stack v := by
  simp [notArray]

@[simp] theorem prune_notBlock : σ.prune (notBlock s depth stack v) =
    notBlock (s.prune σ.unit.keeps) depth stack v := by
  simp [notBlock]

theorem hasToAry_prune : (s.prune keep).hasToAry v = s.hasToAry v := by
  cases v with
  | object id => simp only [hasToAry, object_prune, findMethod?_prune]
  | _ => rfl

@[simp] theorem prune_cast : σ.prune (cast s depth stack f onNil v) =
      cast (s.prune σ.unit.keeps) depth stack f onNil v := by
  have hanswer : (s.prune σ.unit.keeps).hasToAry v = s.hasToAry v := hasToAry_prune
  cases v with
  | nil | array id => rfl
  | _ =>
    simp only [cast, hanswer]
    split <;> rfl

@[simp] theorem prune_shouldDestructure : σ.prune (shouldDestructure s depth stack f) =
      shouldDestructure (s.prune σ.unit.keeps) depth stack f := by
  simp only [shouldDestructure, frame_prune, Frame.prune_arguments, hasToAry_prune]
  split
  · rfl
  · split <;> rfl
  · rfl

@[simp] theorem prune_newClosure :
    σ.prune (σ.newClosure s depth stack f id lambda) =
      σ.onDemand.newClosure (s.prune σ.unit.keeps) depth stack f id lambda := by
  simp only [newClosure, onDemand_unit, onDemand_keepsFrame, frame_prune, Frame.prune_self,
    Frame.prune_invocation, Frame.prune_definee]
  cases hb : σ.unit.body? id with
  | none => rfl
  | some body =>
    simp only
    rw [← σ.link_prune hb]
    exact congrArg (givingNew depth stack) (s.newClosure_prune _ _).symm

/-! ## Steps -/

theorem eval_prune (hu : σ.unit.WellScoped) (hs : s.Lexical σ.unit)
    (hc : ∀ l, c = .readLocal l → Holds σ.unit s f [.variable l]) :
    σ.prune (σ.eval s depth stack f c) =
      σ.onDemand.eval (s.prune σ.unit.keeps) depth stack f c := by
  cases c with
  | readLocal source =>
    simp only [eval, hs.frameOf_prune hu (hc source rfl)]
    split <;> simp
  | call receiver method args block => cases receiver <;> simp [eval]
  | openClass name superclass isModule body => cases superclass <;> simp [eval]
  | constant name =>
    simp only [eval, constants_prune]
    split <;> rfl
  | checkArity arity =>
    simp only [eval, arityFault?_prune, frame_prune, Frame.prune_arguments]
    split <;> rfl
  | argument i missing =>
    simp only [eval, frame_prune, Frame.prune_arguments]
    split <;> rfl
  | optionalArgument i minimum keywords required default =>
    simp only [eval, frame_prune, Frame.prune_arguments, suppliesOptional_prune]
    split <;> rfl
  | postArgument fromEnd forward minimum keywords required =>
    simp only [eval, frame_prune, Frame.prune_arguments, postArgument_prune]
    split <;> rfl
  | keywordArgument name required default =>
    simp only [eval, frame_prune, Frame.prune_arguments, keywordArgument?_prune]
    split <;> rfl
  | loop condition body bodyFirst id =>
    simp only [eval]
    split <;> rfl
  | _ => simp [eval]

theorem resume_prune (hu : σ.unit.WellScoped) (hs : s.Lexical σ.unit)
    (hk : ∀ f l, k = .writeLocal f l → Holds σ.unit s f [.variable l]) :
    σ.prune (σ.resume s depth stack v k) =
      σ.onDemand.resume (s.prune σ.unit.keeps) depth stack v k := by
  cases k with
  | writeLocal f target =>
    simp only [resume, hs.frameOf_prune hu (hk f target rfl)]
    split
    · simp only [hasRoom_prune]
      split <;> simp
    · simp
  | operand f purpose done spread rest => cases spread <;> simp [resume]
  | atLeast size =>
    simp only [resume]
    split
    · rfl
    · simp
  | hashValue | andThen | orElse | writeInstanceVar | index | slice | castAnswer | guardAnswer
  | callBlock | superBlock | superclass | loopTest =>
    simp only [resume, frame_prune, Frame.prune_self, array_prune, typeName_prune]
    split <;> simp
  | _ => simp [resume]

theorem unwind_prune : σ.prune (unwind s depth stack e k) =
    unwind (s.prune σ.unit.keeps) depth stack e k := by
  cases k with
  | catchBreak id =>
    cases e with
    | breakWith target v =>
      simp only [unwind]
      split <;> rfl
    | _ => rfl
  | loopBody f condition body => cases e <;> rfl
  | method body =>
    cases e with
    | returnWith id v =>
      simp only [unwind]
      split <;> rfl
    | _ => rfl
  | closure f body =>
    cases e with
    | redo => rfl
    | _ =>
      simp only [unwind]
      split <;> rfl
  | _ => rfl

end Setting

def Session.prune (keep : BodyId → Bool) (session : Session) : Session :=
  { session with store := session.store.prune keep }

theorem Session.prune_fresh (keep : BodyId → Bool) : ({} : Session).prune keep = {} := by
  simp [prune, Store.prune, Store.initial, Store.newClass, Store.newObject]

/-- A step, with the links that bodies ask for in what it leads to. -/
def Setting.pruneStep (σ : Setting) : Step → Step
  | .next m => .next (σ.prune m)
  | .done outcome session => .done outcome (session.prune σ.unit.keeps)

namespace Setting

variable {σ : Setting} (hu : σ.unit.WellScoped)

include hu

/-- **Pruning goes along with every step.** -/
theorem step_prune (h : Sound σ.unit m) : σ.onDemand.step (σ.prune m) = σ.pruneStep (σ.step m) := by
  obtain ⟨s, depth, stack, control⟩ := m
  cases control with
  | eval f c =>
    have hc : ∀ l, c = .readLocal l → Holds σ.unit s f [.variable l] := by
      rintro l rfl
      exact h.holds_of_accesses (Or.inl rfl)
    exact congrArg Step.next (σ.eval_prune hu h.lexical hc).symm
  | call f receiver method args block =>
    exact congrArg Step.next σ.prune_call.symm
  | give v =>
    cases stack with
    | nil => rfl
    | cons k stack =>
      have hk : ∀ f l, k = .writeLocal f l → Holds σ.unit s f [.variable l] := by
        rintro f l rfl
        exact h.holds_of_accesses (Or.inr ⟨v, stack, rfl, rfl⟩)
      exact congrArg Step.next (σ.resume_prune hu h.lexical hk).symm
  | leave e =>
    cases stack with
    | nil => rfl
    | cons k stack => exact congrArg Step.next σ.unwind_prune.symm
  | halt c => rfl

theorem runFor_prune {n : Nat} : ∀ {m : Machine}, Sound σ.unit m →
    σ.onDemand.runFor n (σ.prune m) =
      (σ.runFor n m).map fun (outcome, session) => (outcome, session.prune σ.unit.keeps) := by
  induction n with
  | zero => exact fun _ => rfl
  | succ n ih =>
    intro m h
    have hsound := h.step hu
    rw [runFor, runFor, step_prune hu h]
    cases hstep : σ.step m with
    | next m' =>
      rw [hstep] at hsound
      exact ih hsound
    | done outcome session => rfl

omit hu in
theorem start_prune (session : Session) :
    σ.onDemand.start (session.prune σ.unit.keeps) = σ.prune (σ.start session) := by
  unfold start
  simp only [onDemand_unit]
  cases σ.unit.body? σ.unit.main with
  | none => rfl
  | some body =>
    simp only [Session.prune]
    rw [σ.newFrame_prune rfl]
    rfl

end Setting

/-! ## Sessions -/

namespace CodeUnit.WellScoped

variable {u : CodeUnit} (hu : u.WellScoped) (capture : Capture)

include hu

theorem turn_prune (t : Turn) {session : Session} (hs : session.store.Lexical u) :
    u.turn .onDemand (session.prune u.keeps) t =
      (u.turn capture session t).map fun (event, left) => (event, left.prune u.keeps) := by
  cases t with
  | run maxDepth steps =>
    have hstart := Sound.start (σ := ⟨u, maxDepth, capture⟩) hu hs
    have hrun := Setting.runFor_prune (n := steps) hu hstart
    rw [← Setting.start_prune] at hrun
    have hshown := congrArg (Option.map fun (outcome, left) => (Event.outcome outcome, left)) hrun
    rw [Option.map_map] at hshown
    refine hshown.trans ?_
    show _ = Option.map _ (Option.map _ _)
    rw [Option.map_map]
    rfl
  | takeOutput => rfl

/-- Turn by turn the machine that links on demand shows what the other shows. -/
theorem play_prune {turns : List Turn} : ∀ {session : Session}, session.store.Lexical u →
    u.play .onDemand (session.prune u.keeps) turns =
      (u.play capture session turns).map fun (events, left) => (events, left.prune u.keeps) := by
  induction turns with
  | nil => exact fun _ => rfl
  | cons t rest ih =>
    intro session hs
    rw [CodeUnit.play, CodeUnit.play, hu.turn_prune capture t hs]
    cases hturn : u.turn capture session t with
    | none => rfl
    | some shown =>
      obtain ⟨event, next⟩ := shown
      simp only [Option.map_some, Option.bind_eq_bind, Option.bind_some, ih (hu.turn hs hturn)]
      cases u.play capture next rest <;> rfl

end CodeUnit.WellScoped

/-- **Closures need not keep what they do not use.** A lowered program, run turn by turn with any
limits on the machine that links frames on demand and on the one that links all of them: the runs
that end are the same, with the same outcomes and the same output, and they leave the same globals
and constants. What they leave differs in nothing but links that no body asks for. -/
theorem Program.lower_play {p : Program} {options : LowerOptions} {u : CodeUnit}
    (h : p.lower options = .ok u) (turns : List Turn) :
    (u.play .onDemand {} turns = none ↔ u.play .always {} turns = none) ∧
    ∀ events session, u.play .always {} turns = some (events, session) →
      ∃ left, u.play .onDemand {} turns = some (events, left) ∧ left = session.prune u.keeps ∧
        left.store.output = session.store.output ∧ left.store.globals = session.store.globals ∧
        left.store.constants = session.store.constants := by
  have hu := lower_wellScoped h
  have hs : ({} : Session).store.Lexical u := lexical_initial hu
  have hplay : u.play .onDemand (({} : Session).prune u.keeps) turns = _ :=
    hu.play_prune .always hs
  rw [Session.prune_fresh] at hplay
  rw [hplay]
  refine ⟨Option.map_eq_none_iff, fun events session hsession => ?_⟩
  rw [hsession]
  exact ⟨_, rfl, rfl, rfl, rfl, rfl⟩

/-- `x = 1; puts((-> { 2 }).call + (-> { x }).call)`: one lambda needs its frame, the other does
not. -/
def Program.twoLambdas : Program where
  body := [Build.assign "x" (Build.integer 1), Build.selfCall "puts" [Build.call
    (Build.call (Build.lambda Params.empty [Build.integer 2]) "call" []) "+"
    [Build.call (Build.lambda Params.empty [Build.localVar "x"]) "call" []]]]

/-- The machines do different things in two runs of `twoLambdas`, and show the same: `3`, and then
that the calls are nested too deep. -/
theorem Program.twoLambdas_play :
    ∃ u events session left, twoLambdas.lower {} = .ok u ∧
      u.play .always {} [.run 16 100, .takeOutput, .run 0 100] = some (events, session) ∧
      u.play .onDemand {} [.run 16 100, .takeOutput, .run 0 100] = some (events, left) ∧
      left.store.output = session.store.output ∧ left.store.globals = session.store.globals ∧
      left.store.constants = session.store.constants ∧
      (session.store.closure 0).frame = some 0 ∧ (left.store.closure 0).frame = none := by
  have hlower : twoLambdas.lower {} = .ok (twoLambdas.lowering {}).unit :=
    lower_of_isEmpty (by decide +kernel)
  have hplayed : ((twoLambdas.lowering {}).unit.play .always {}
      [.run 16 100, .takeOutput, .run 0 100]).any (fun played =>
        (played.2.store.closure 0).frame == some 0 &&
          !(twoLambdas.lowering {}).unit.keeps (played.2.store.closure 0).body) = true := by
    decide +kernel
  obtain ⟨⟨events, session⟩, hplay, hlinked⟩ := (Option.any_eq_true _ _).mp hplayed
  simp only [Bool.and_eq_true, beq_iff_eq, Bool.not_eq_true'] at hlinked
  obtain ⟨left, hleft, hprune, hsame⟩ := (lower_play hlower _).2 events session hplay
  refine ⟨_, events, session, left, hlower, hplay, hleft, hsame.1, hsame.2.1, hsame.2.2,
    hlinked.1, ?_⟩
  rw [hprune]
  simp [Session.prune, hlinked.2]

end BlockLang
