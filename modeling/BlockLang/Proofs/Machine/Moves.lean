import BlockLang.Proofs.Machine.Sessions

/-!
# What a step can do

A step evaluates some of the code in hand, or starts a body in a new frame, or evaluates nothing;
and what it puts on the stack holds other code in hand, or is the end of the body that it starts.
`Moves` says this once and for all, with one constructor for each thing that can happen: an
invariant of the machine follows from it without another look at the functions of the machine.
`Exit.Meets` says the same of an exit that comes to a continuation, and `Setting.Advances` of any step.
-/

namespace BlockLang

open List Setting

/-! ## Code in hand -/

/-- The code that is evaluated after the operands. -/
def Purpose.codes : Purpose → List Code
  | .call _ _ block | .super block _ => block.toList
  | .array | .yield => []

namespace Cont

/-- The code that the continuation holds. -/
def codes : Cont → List Code
  | .operand _ purpose _ _ rest => purpose.codes ++ rest
  | .hashKey _ _ value rest => value :: Code.ofPairs rest
  | .hashValue _ _ _ rest => Code.ofPairs rest
  | .sequence _ rest => rest
  | .branch _ thenBranch elseBranch => [thenBranch, elseBranch]
  | .andThen _ right | .orElse _ right => [right]
  | .receiver _ _ args block => args ++ block.toList
  | .loopTest _ condition body | .loopBody _ condition body => [condition, body]
  | _ => []

/-- The frame that it goes on in. -/
def frame? : Cont → Option FrameId
  | .operand f _ _ _ _ | .hashKey f _ _ _ | .hashValue f _ _ _ | .sequence f _ | .branch f _ _
  | .andThen f _ | .orElse f _ | .receiver f _ _ _ | .loopTest f _ _ | .loopBody f _ _
  | .writeLocal f _ | .writeInstanceVar f _ | .writeClassVar f _ | .splatCast f _
  | .callBlock f _ _ _ | .superBlock f _ _ => some f
  | _ => none

/-- It waits for one of the operands of a call, or of the pairs of a hash. -/
def isWalk : Cont → Bool
  | .operand _ _ _ _ _ | .hashKey _ _ _ _ | .hashValue _ _ _ _ | .callBlock _ _ _ _
  | .superBlock _ _ _ => true
  | _ => false

/-- It waits for what `to_ary` answers. -/
def isAnswer : Cont → Bool
  | .castAnswer _ | .guardAnswer _ => true
  | _ => false

/-- It takes something from the array that it waits for. -/
def takes : Cont → Bool
  | .index _ | .slice _ _ | .atLeast _ => true
  | _ => false

/-- It waits for the end of a body that was not called by a piece of code. -/
def isAttendant : Cont → Bool
  | .construct _ | .iterate _ _ => true
  | _ => false

end Cont

/-- What a piece of code starts with, if that is all that it does: a part, and what waits for the
value of the part. -/
def Code.first? (f : FrameId) : Code → Option (Code × Cont)
  | .splat inner => some (inner, .spreadArray)
  | .ifElse condition thenBranch elseBranch => some (condition, .branch f thenBranch elseBranch)
  | .and left right => some (left, .andThen f right)
  | .or left right => some (left, .orElse f right)
  | .not inner => some (inner, .negate)
  | .elidable body result => some (body, .sequence f [result])
  | .writeLocal target value => some (value, .writeLocal f target)
  | .writeInstanceVar name value => some (value, .writeInstanceVar f name)
  | .writeClassVar name value => some (value, .writeClassVar f name)
  | .writeGlobal name value => some (value, .writeGlobal name)
  | .index source position => some (source, .index position)
  | .slice source start endOffset => some (source, .slice start endOffset)
  | .atLeast source size => some (source, .atLeast size)
  | .splatCast value onNil => some (value, .splatCast f onNil)
  | .isNil inner => some (inner, .isNil)
  | .call (some receiver) method args block => some (receiver, .receiver f method args block)
  | .catchBreak id body => some (body, .catchBreak id)
  | .openClass name (some superclass) isModule body =>
    some (superclass, .superclass name isModule body)
  | .breakWith id value => some (value, .breakWith id)
  | .nextWith value => some (value, .nextWith)
  | .returnWith id value => some (value, .returnWith id)
  | _ => none

section

variable {f : FrameId} {c part : Code} {k : Cont} {s : Store}

theorem Setting.eval_of_first? (h : c.first? f = some (part, k)) (σ : Setting) (s : Store)
    (depth : Nat) (stack : List Cont) :
    σ.eval s depth stack f c = evaluating s depth (k :: stack) f part := by
  unfold Code.first? at h
  split at h <;> cases h <;> rfl

theorem Code.mem_children_of_first? (h : c.first? f = some (part, k)) :
    part ∈ c.children ∧ ∀ other ∈ k.codes, other ∈ c.children := by
  unfold first? at h
  split at h <;> cases h <;> simp +contextual [children, Cont.codes]

theorem Code.frame_of_first? (h : c.first? f = some (part, k)) (hg : k.frame? = some g) :
    g = f := by
  unfold first? at h
  split at h <;> cases h <;> cases hg <;> rfl

/-- What a step starts from: a piece of code, a continuation that gets a value, or a call. -/
inductive Cause where
  | code (f : FrameId) (c : Code)
  | value (k : Cont)
  | call

namespace Cause

/-- The code in hand. -/
def codes : Cause → List Code
  | .code _ c => c.children
  | .value k => k.codes
  | .call => []

/-- The frame that it is run in. -/
def frame? : Cause → Option FrameId
  | .code f _ => some f
  | .value k => k.frame?
  | .call => none

/-- The items of a sequence that are to be run. -/
def items? : Cause → Option (FrameId × List Code)
  | .code f (.sequence codes) => some (f, codes)
  | .value (.sequence f rest) => some (f, rest)
  | _ => none

/-- A loop that goes on: its condition and body, and what catches its `break` at the start. -/
def loop? : Cause → Option (FrameId × Code × Code × List Cont)
  | .code f (.loop condition body _ id) => some (f, condition, body, [.catchBreak id])
  | .value (.loopTest f condition body) | .value (.loopBody f condition body) =>
    some (f, condition, body, [])
  | _ => none

theorem parts_of_loop? {cause : Cause} (h : cause.loop? = some (f, condition, body, catches)) :
    cause.frame? = some f ∧ condition ∈ cause.codes ∧ body ∈ cause.codes := by
  unfold loop? at h
  split at h <;> cases h <;> exact ⟨rfl, mem_cons_self, mem_cons_of_mem _ mem_cons_self⟩

/-- The body of a class or module that is opened. -/
def opens? : Cause → Option BodyId
  | .code _ (.openClass _ _ _ b) | .value (.superclass _ _ b) => some b
  | _ => none

/-- Whether the fault can be raised here. That of an exit is raised only at the end of a run, and that
of a value which is no array only where items are taken from it. -/
def raises (cause : Cause) (fault : Fault) : Bool :=
  !fault.isEscape && (!fault.isNotArray || match cause with
    | .value k => k.takes
    | _ => false)

theorem raises_of_isForeign (h : fault.isForeign = false) (cause : Cause) :
    cause.raises fault = true := by
  simp [raises, fault.isEscape_of_isForeign h, fault.isNotArray_of_isForeign h]

theorem isEscape_of_raises {cause : Cause} (h : cause.raises fault = true) :
    fault.isEscape = false := by
  simpa using (Bool.and_eq_true_iff.mp h).1

/-- The exit is what this stands for. -/
def Leaves : Cause → Exit → Prop
  | .code _ .redo, .redo | .code _ .retry, .retry | .value .nextWith, .nextWith _ => True
  | .value (.breakWith id), .breakWith id' _ => id' = id
  | .value (.returnWith id), .returnWith id' _ => id' = id
  | _, _ => False

end Cause

/-! ## Steps -/

theorem Store.Works.frames {t : Store} (h : s.Works t) : t.frames = s.frames := by
  obtain ⟨_, _, _, rfl⟩ := h
  rfl

theorem Cause.raises_of_frameOf (h : s.frameOf f l = .error fault) (cause : Cause) :
    cause.raises fault = true := by
  unfold Store.frameOf at h
  split at h <;> cases h
  rfl

theorem Cause.raises_of_argument {args : List Value}
    (h : Store.argument args i missing = .error (.fault fault)) (cause : Cause) :
    cause.raises fault = true := by
  unfold Store.argument at h
  split at h <;> try cases h
  split at h <;> cases h
  rfl

theorem Store.Grows.refl (s : Store) : s.Grows s := .of_frames_eq rfl

theorem Store.Grows.trans {t : Store} (h : s.Grows t) (h' : t.Grows r) : s.Grows r where
  size := Nat.le_trans h.size h'.size
  body f hf := (h'.body f (Nat.lt_of_lt_of_le hf h.size)).trans (h.body f hf)
  arguments f hf := (h'.arguments f (Nat.lt_of_lt_of_le hf h.size)).trans (h.arguments f hf)
  invocation f hf := (h'.invocation f (Nat.lt_of_lt_of_le hf h.size)).trans (h.invocation f hf)

end

/-- The body is one that a class or module is opened with. -/
def CodeUnit.IsOpened (u : CodeUnit) (b : BodyId) : Prop :=
  ∃ body, u.body? b = some body ∧ body.kind.isClosure = false

/-- Nothing is evaluated and nothing left. -/
def Control.isCalm : Control → Bool
  | .call _ _ _ _ _ | .give _ | .halt _ => true
  | _ => false

/-- What a step from the store and stack can lead to. -/
inductive Moves (u : CodeUnit) (cause : Cause) (s : Store) (stack : List Cont) : Machine → Prop
  /-- A value, a call or a crash. -/
  | calm {control : Control} :
      t.frames = s.frames → control.isCalm = true → Moves u cause s stack ⟨t, depth, stack, control⟩
  | raise : t.frames = s.frames → (∀ k ∈ attendants, k.isAttendant = true) → cause.raises fault →
      Moves u cause s stack (Setting.raising t depth (attendants ++ stack) fault)
  | leave : cause.Leaves e → Moves u cause s stack (Setting.leaving s depth stack e)
  /-- A variable is written. -/
  | write : cause = .value (.writeLocal f target) → s.frameOf f target = .ok owner →
      Moves u cause s stack (Setting.giving (s.setSlot owner target.slot v) depth stack v)
  /-- An object is asked for an array. -/
  | ask : k.isAnswer = true →
      Moves u cause s stack ⟨s, depth, k :: stack, .call f v "to_ary" [] none⟩
  /-- One of several pieces of code is all that is left. -/
  | tail : cause.loop? = none → cause.frame? = some f → c ∈ cause.codes →
      Moves u cause s stack (Setting.evaluating s depth stack f c)
  /-- The part that the code starts with. -/
  | first : cause = .code f c → c.first? f = some (part, k) →
      Moves u cause s stack (Setting.evaluating s depth (k :: stack) f part)
  /-- An operand, and others to come. -/
  | walk : t.frames = s.frames → cause.loop? = none → cause.frame? = some f →
      k.isWalk = true → k.frame? = some f → (∀ c ∈ k.codes, c ∈ cause.codes) →
      part ∈ cause.codes ∨ .splat part ∈ cause.codes →
      Moves u cause s stack (Setting.evaluating t depth (k :: stack) f part)
  /-- An item of a sequence, and others to come. -/
  | item : cause.items? = some (f, c :: rest) → rest ≠ [] →
      Moves u cause s stack (Setting.evaluating s depth (.sequence f rest :: stack) f c)
  /-- The condition of a loop. -/
  | test : cause.loop? = some (f, condition, body, catches) →
      Moves u cause s stack (Setting.loopTest s depth (catches ++ stack) f condition body)
  /-- The body of a loop. -/
  | turn : cause.loop? = some (f, condition, body, catches) →
      Moves u cause s stack (Setting.loopBody s depth (catches ++ stack) f condition body)
  /-- A method, in a new frame. -/
  | method {t : Store} {new : Frame} : t.frames = s.frames →
      u.body? new.body = some body → body.kind = .method →
      new.slots = Store.blankSlots body.slots.length → (∀ k ∈ attendants, k.isAttendant = true) →
      Moves u cause s stack (Setting.evaluating (t.newFrame new).2 depth
        (.method body :: (attendants ++ stack)) t.frames.size body.code)
  /-- A closure, in a new frame. -/
  | closure {t : Store} {new : Frame} : t.frames = s.frames →
      u.body? new.body = some body →
      new.slots = Store.blankSlots body.slots.length → (∀ k ∈ attendants, k.isAttendant = true) →
      Moves u cause s stack (Setting.evaluating (t.newFrame new).2 depth
        (.closure t.frames.size body :: (attendants ++ stack)) t.frames.size body.code)
  /-- A class or module, in a new frame. -/
  | opening {t : Store} {new : Frame} : t.frames = s.frames →
      u.body? new.body = some body → body.kind.isClosure = false →
      new.slots = Store.blankSlots body.slots.length →
      Moves u cause s stack
        (Setting.evaluating (t.newFrame new).2 depth stack t.frames.size body.code)

namespace Moves

variable {u : CodeUnit} {cause : Cause} {s t : Store} {depth : Nat} {stack : List Cont}
  {f : FrameId} {v receiver : Value} {name label : String} {args : List Value}
  {block : Option ClosureId}

theorem giving (hst : t.frames = s.frames) :
    Moves u cause s stack (giving t depth stack v) :=
  calm hst rfl

theorem givingNew (hst : made.2.frames = s.frames) :
    Moves u cause s stack (givingNew depth stack made) :=
  calm hst rfl

theorem raising (hst : t.frames = s.frames) (hfault : cause.raises fault) :
    Moves u cause s stack (raising t depth stack fault) :=
  raise hst (forall_mem_nil _) hfault

theorem halting {c : Crash} (hst : t.frames = s.frames) :
    Moves u cause s stack (halting t depth stack c) :=
  calm hst rfl

/-! ## Code and pairs one after the other -/

theorem entries (hloop : cause.loop? = none) (hframe : cause.frame? = some f)
    (hcodes : ∀ c ∈ Code.ofPairs pairs, c ∈ cause.codes) :
    Moves u cause s stack (entries s depth stack f done pairs) := by
  cases pairs with
  | nil => exact givingNew rfl
  | cons pair rest =>
    obtain ⟨key, value⟩ := pair
    have hpair : ∀ c ∈ key :: value :: Code.ofPairs rest, c ∈ cause.codes := hcodes
    exact walk rfl hloop hframe rfl rfl (fun c hc => hpair c (mem_cons_of_mem _ hc))
      (Or.inl (hpair key mem_cons_self))

theorem items (hitems : cause.items? = some (f, codes)) (hloop : cause.loop? = none)
    (hframe : cause.frame? = some f) (hcodes : ∀ c ∈ codes, c ∈ cause.codes) :
    Moves u cause s stack (items s depth stack f codes) := by
  cases codes with
  | nil => exact giving rfl
  | cons c rest =>
    cases rest with
    | nil => exact tail hloop hframe (hcodes c mem_cons_self)
    | cons => exact item hitems (by simp)

theorem cast : Moves u cause s stack (Setting.cast s depth stack f onNil v) := by
  unfold Setting.cast
  split
  · exact givingNew rfl
  · exact givingNew rfl
  · split
    · exact ask rfl
    · exact givingNew rfl

theorem shouldDestructure : Moves u cause s stack (Setting.shouldDestructure s depth stack f) := by
  unfold Setting.shouldDestructure
  split
  · exact giving rfl
  · split
    · exact ask rfl
    · exact giving rfl
  · exact giving rfl

section

variable {σ : Setting}

theorem newClosure {b : BodyId} :
    Moves σ.unit cause s stack (σ.newClosure s depth stack f b lambda) := by
  unfold Setting.newClosure
  split
  · exact raising rfl rfl
  · exact givingNew rfl

theorem openClass {b : BodyId} (hb : σ.unit.IsOpened b) :
    Moves σ.unit cause s stack (σ.openClass s depth stack name superclass isModule b) := by
  obtain ⟨body, hb, hkind⟩ := hb
  unfold Setting.openClass
  split
  rename_i classId t hopened
  have hst : t.frames = s.frames := by
    split at hopened <;> cases hopened <;> rfl
  rw [hb]
  exact opening hst hb hkind rfl

/-! ## Calls -/

section

variable (hst : t.frames = s.frames) {attendants : List Cont}
  (hattendants : ∀ k ∈ attendants, k.isAttendant = true)

include hst hattendants

theorem invokeMethod {id : BodyId} (hm : σ.unit.IsMethod id) :
    Moves σ.unit cause s stack
      (σ.invokeMethod t depth (attendants ++ stack) receiver owner id name args block) := by
  obtain ⟨body, hb, hkind⟩ := hm
  unfold Setting.invokeMethod
  rw [hb]
  simp only
  split
  · exact raise hst hattendants rfl
  · exact method hst hb hkind rfl hattendants

theorem invokeClosure {id : ClosureId} : Moves σ.unit cause s stack
    (σ.invokeClosure t depth (attendants ++ stack) id args block) := by
  unfold Setting.invokeClosure
  simp only
  split
  · exact raise hst hattendants rfl
  · rename_i body hb
    split
    · exact raise hst hattendants rfl
    · exact closure hst hb rfl hattendants

theorem invokeBlock :
    Moves σ.unit cause s stack (σ.invokeBlock t depth (attendants ++ stack) block args) := by
  cases block with
  | none => exact raise hst hattendants rfl
  | some id => exact invokeClosure hst hattendants

end

variable (hst : t.frames = s.frames)

include hst

theorem iterate : Moves σ.unit cause s stack (σ.iterate t depth stack block iteration) := by
  unfold Setting.iterate
  split
  · exact invokeBlock hst (forall_mem_singleton.mpr rfl)
  · exact givingNew ((Store.Works.result iteration t).frames.trans hst)

variable (ht : t.Lexical σ.unit)

include ht

theorem construct {id : ClassId} :
    Moves σ.unit cause s stack (σ.construct t depth stack id args block) := by
  have hnew : Ready σ.unit (t.newObject id).2 [] := (Ready.mk ht (by simp)).same rfl rfl rfl
  have hframes : (t.newObject id).2.frames = s.frames := hst
  have hattendant : ∀ k ∈ [Cont.construct (t.newObject id).1], k.isAttendant = true :=
    forall_mem_singleton.mpr rfl
  unfold Setting.construct
  simp only
  split
  · exact raising hst rfl
  · split
    · rename_i hfound
      exact invokeMethod hframes hattendant (hnew.lexical.findMethod? hfound)
    · split
      · exact giving hframes
      · exact raising hframes rfl

theorem callCore :
    Moves σ.unit cause s stack (σ.callCore t depth stack f receiver name label args block) := by
  have htame : (Core.method (t.frame f) receiver name args block).Tame := inferInstance
  have hworks := htame.works t
  have hfault := htame.fault t
  unfold Setting.callCore
  generalize (Core.method (t.frame f) receiver name args block).run.run t = done at hworks hfault ⊢
  obtain ⟨reply, r⟩ := done
  have hr : r.Lexical σ.unit := (Ready.works ⟨ht, by simp⟩ hworks : Ready σ.unit r []).lexical
  have hsr : r.frames = s.frames := hworks.frames.trans hst
  simp only
  split
  · exact raising hsr (Cause.raises_of_isForeign (hfault _ rfl) cause)
  · exact halting hsr
  · exact raising hsr rfl
  · exact giving hsr
  · exact iterate hsr
  · exact invokeClosure hsr (forall_mem_nil _)
  · exact construct hsr hr
  · exact calm hsr rfl

theorem call : Moves σ.unit cause s stack (σ.call t depth stack f receiver name args block) := by
  unfold Setting.call
  split
  · rename_i hfound
    exact invokeMethod hst (forall_mem_nil _) (ht.findMethod? hfound)
  · exact callCore hst ht

theorem callSuper : Moves σ.unit cause s stack (σ.callSuper t depth stack f args block) := by
  unfold Setting.callSuper
  simp only
  split
  · exact raising hst rfl
  · split
    · rename_i hfound
      exact invokeMethod hst (forall_mem_nil _) (ht.findAbove? hfound)
    · exact callCore hst ht

theorem operands (hloop : cause.loop? = none) (hframe : cause.frame? = some f)
    (hcodes : ∀ c ∈ purpose.codes ++ codes, c ∈ cause.codes) :
    Moves σ.unit cause s stack (σ.operands t depth stack f purpose done codes) := by
  have hafter : ∀ {first rest}, codes = first :: rest →
      ∀ c ∈ purpose.codes ++ rest, c ∈ cause.codes := by
    rintro first rest rfl c hc
    refine hcodes c (mem_append.mpr ((mem_append.mp hc).imp id ?_))
    exact mem_cons_of_mem _
  have hhere : ∀ {first rest}, codes = first :: rest → first ∈ cause.codes := by
    rintro first rest rfl
    exact hcodes first (mem_append_right _ mem_cons_self)
  unfold Setting.operands
  split
  · exact walk hst hloop hframe rfl rfl (hafter rfl) (Or.inr (hhere rfl))
  · exact walk hst hloop hframe rfl rfl (hafter rfl) (Or.inl (hhere rfl))
  · split
    · exact givingNew hst
    · exact calm hst rfl
    · exact walk hst hloop hframe rfl rfl (forall_mem_nil _) (Or.inl (hcodes _ mem_cons_self))
    · exact callSuper hst ht
    · exact walk hst hloop hframe rfl rfl (forall_mem_nil _) (Or.inl (hcodes _ mem_cons_self))
    · exact invokeBlock hst (forall_mem_nil _)

end

/-! ## Code, values and exits -/

section

variable {σ : Setting} (hs : s.Lexical σ.unit)

include hs

theorem eval (hopened : ∀ b, (Cause.code f c).opens? = some b → σ.unit.IsOpened b) :
    Moves σ.unit (.code f c) s stack (σ.eval s depth stack f c) := by
  cases hfirst : c.first? f with
  | some found =>
    obtain ⟨part, k⟩ := found
    rw [Setting.eval_of_first? hfirst]
    exact first rfl hfirst
  | none =>
    cases c with
    | nil | bool | integer | float | text | symbol | self | readInstanceVar | readClassVar
    | readGlobal | blockArgument => exact giving rfl
    | array | yield => exact operands rfl hs rfl rfl fun _ hc => hc
    | hash pairs =>
      have hcodes : ∀ c ∈ Code.ofPairs pairs, c ∈ (Cause.code f (.hash pairs)).codes := fun _ hc => hc
      exact entries rfl rfl hcodes
    | sequence codes => exact items rfl rfl rfl fun _ hc => hc
    | readLocal source =>
      simp only [Setting.eval, Store.frameOf]
      cases s.frameAt? source.level f with
      | none => exact raising rfl rfl
      | some owner => exact giving rfl
    | constant name =>
      simp only [Setting.eval]
      split
      · exact giving rfl
      · exact raising rfl rfl
    | checkArity arity =>
      simp only [Setting.eval]
      split
      · exact giving rfl
      · exact raising rfl (Cause.raises_of_isForeign (Store.isForeign_of_arityFault? ‹_›) _)
    | argument i missing =>
      simp only [Setting.eval]
      split
      · exact giving rfl
      · exact raising rfl (Cause.raises_of_argument ‹_› _)
      · exact halting rfl
    | optionalArgument i minimum keywords required default
    | keywordArgument name required default =>
      simp only [Setting.eval]
      split
      · exact giving rfl
      · exact tail rfl rfl mem_cons_self
    | restArgument | keywordRestArgument => exact givingNew rfl
    | postArgument =>
      simp only [Setting.eval]
      split
      · exact giving rfl
      · exact halting rfl
    | missingKeyword => exact raising rfl rfl
    | shouldDestructure => exact shouldDestructure
    | call receiver method args block =>
      cases receiver with
      | none =>
        refine operands rfl hs rfl rfl fun c hc => ?_
        simpa [Cause.codes, Code.children, Purpose.codes, or_comm] using hc
      | some receiver => cases hfirst
    | super args block forwardBlock =>
      refine operands rfl hs rfl rfl fun c hc => ?_
      simpa [Cause.codes, Code.children, Purpose.codes, or_comm] using hc
    | closure body lambda => exact newClosure
    | define name body =>
      have hst : (s.define (s.frame f).definee name body).frames = s.frames := rfl
      exact giving hst
    | openClass name superclass isModule body =>
      cases superclass with
      | none => exact openClass (hopened body rfl)
      | some superclass => cases hfirst
    | loop condition body bodyFirst id =>
      have hloop : (Cause.code f (.loop condition body bodyFirst id)).loop? =
          some (f, condition, body, [.catchBreak id]) := rfl
      simp only [Setting.eval]
      split
      · exact turn hloop
      · exact test hloop
    | redo | retry => exact leave trivial
    | _ => cases hfirst

theorem resume (hopened : ∀ b, (Cause.value k).opens? = some b → σ.unit.IsOpened b) :
    Moves σ.unit (.value k) s stack (σ.resume s depth stack v k) := by
  cases k with
  | operand f purpose done spread rest =>
    cases spread with
    | false => exact operands rfl hs rfl rfl fun _ hc => hc
    | true =>
      have hworks : s.Works (s.spread v).2 := .spread v s
      have ht : Ready σ.unit (s.spread v).2 [] := Ready.works ⟨hs, by simp⟩ hworks
      exact operands hworks.frames ht.lexical rfl rfl fun _ hc => hc
  | spreadArray => exact givingNew (Store.Works.spread v s).frames
  | hashKey f done value rest =>
    exact walk rfl rfl rfl rfl rfl (fun _ => mem_cons_of_mem _) (Or.inl mem_cons_self)
  | hashValue f done key rest =>
    simp only [Setting.resume]
    split
    · have hcodes : ∀ c ∈ Code.ofPairs rest, c ∈ (Cause.value (.hashValue f done key rest)).codes :=
        fun _ hc => hc
      exact entries rfl rfl hcodes
    · exact raising rfl rfl
  | sequence f rest => exact items rfl rfl rfl fun _ hc => hc
  | branch f thenBranch elseBranch =>
    simp only [Setting.resume]
    split
    · exact tail rfl rfl mem_cons_self
    · exact tail rfl rfl (mem_cons_of_mem _ mem_cons_self)
  | andThen f right =>
    simp only [Setting.resume]
    split
    · exact tail rfl rfl mem_cons_self
    · exact giving rfl
  | orElse f right =>
    simp only [Setting.resume]
    split
    · exact giving rfl
    · exact tail rfl rfl mem_cons_self
  | writeLocal f target =>
    simp only [Setting.resume]
    cases howner : s.frameOf f target with
    | ok owner =>
      simp only
      split
      · exact write rfl howner
      · exact halting rfl
    | error fault => exact raising rfl (Cause.raises_of_frameOf howner _)
  | writeInstanceVar f name =>
    have hset : ∀ self, (s.setInstanceVar self name v).frames = s.frames := by
      intro self
      cases self <;> rfl
    simp only [Setting.resume]
    split
    · exact giving (hset _)
    · exact raising rfl rfl
  | writeClassVar f name =>
    have hst : (s.setClassVar (s.frame f).definee name v).frames = s.frames := rfl
    exact giving hst
  | writeGlobal name =>
    have hst : (s.setGlobal name v).frames = s.frames := rfl
    exact giving hst
  | index | atLeast =>
    simp only [Setting.resume]
    split
    · exact giving rfl
    · exact raising rfl rfl
  | slice start endOffset =>
    simp only [Setting.resume]
    split
    · exact givingNew rfl
    · exact raising rfl rfl
  | splatCast f onNil => exact cast
  | castAnswer | guardAnswer =>
    simp only [Setting.resume]
    split
    · exact giving rfl
    · exact giving rfl
    · exact raising rfl rfl
  | receiver f method args block =>
    refine operands rfl hs rfl rfl fun c hc => ?_
    simpa [Cause.codes, Cont.codes, Purpose.codes, or_comm] using hc
  | callBlock f receiver method args =>
    simp only [Setting.resume]
    split
    · exact calm rfl rfl
    · exact raising rfl rfl
  | superBlock f args forwardBlock =>
    simp only [Setting.resume]
    split
    · exact callSuper rfl hs
    · exact raising rfl rfl
  | superclass name isModule body =>
    simp only [Setting.resume]
    split
    · exact openClass (hopened body rfl)
    · exact raising rfl rfl
  | loopTest f condition body =>
    have hloop : (Cause.value (.loopTest f condition body)).loop? = some (f, condition, body, []) :=
      rfl
    simp only [Setting.resume]
    split
    · exact turn hloop
    · exact giving rfl
  | loopBody f condition body =>
    have hloop : (Cause.value (.loopBody f condition body)).loop? = some (f, condition, body, []) :=
      rfl
    exact test hloop
  | negate | isNil | catchBreak | method | closure | construct => exact giving rfl
  | breakWith | nextWith | returnWith => exact leave (by trivial)
  | iterate block iteration => exact iterate rfl

end

theorem grows {m : Machine} (h : Moves u cause s stack m) : s.Grows m.store := by
  cases h with
  | calm hst | raise hst | walk hst => exact .of_frames_eq hst
  | write => exact Store.grows_setSlot _ _ _
  | method hst | closure hst | opening hst =>
    exact (Store.Grows.of_frames_eq hst).trans (Store.grows_newFrame _)
  | _ => exact .refl s

theorem raises {m : Machine} (h : Moves u cause s stack m)
    (hm : m.control = .leave (.raise fault)) : cause.raises fault = true := by
  cases h with
  | raise _ _ hraises =>
    cases hm
    exact hraises
  | leave hleaves =>
    cases hm
    unfold Cause.Leaves at hleaves
    split at hleaves <;> first | exact absurd hleaves id | contradiction
  | calm _ hcalm =>
    cases hm
    cases hcalm
  | _ => cases hm

end Moves

/-! ## Exits -/

/-- The exits that go on with a loop or a closure, and end neither. -/
def Exit.goesOn : Exit → Bool
  | .nextWith _ | .redo => true
  | _ => false

/-- The frame of a loop or closure that such an exit goes on with. -/
def Cont.turns? : Cont → Option FrameId
  | .loopBody f _ _ | .closure f _ => some f
  | _ => none

/-- What an exit that comes to a continuation can lead to. -/
inductive Exit.Meets (e : Exit) (k : Cont) (s : Store) (stack : List Cont) : Machine → Prop
  | pass : (e.goesOn = true → k.turns? = none) →
      Meets e k s stack (Setting.leaving s depth stack e)
  | stop : Meets e k s stack (Setting.giving s depth stack v)
  /-- The next turn of a loop. -/
  | test : k = .loopBody f condition body →
      Meets e k s stack (Setting.loopTest s depth stack f condition body)
  /-- The same turn of a loop. -/
  | turn : k = .loopBody f condition body →
      Meets e k s stack (Setting.loopBody s depth stack f condition body)
  /-- A closure from its start, in the same frame. -/
  | restart : k = .closure f body →
      Meets e k s stack (Setting.evaluating s depth (k :: stack) f body.code)

theorem Exit.Meets.unwind (e : Exit) (k : Cont) (s : Store) (depth : Nat) (stack : List Cont) :
    e.Meets k s stack (Setting.unwind s depth stack e k) := by
  cases k with
  | catchBreak id =>
    cases e with
    | breakWith target v =>
      simp only [Setting.unwind]
      split
      · exact stop
      · exact pass fun _ => rfl
    | _ => exact pass fun _ => rfl
  | loopBody f condition body =>
    cases e with
    | nextWith v => exact test rfl
    | redo => exact turn rfl
    | _ => exact pass (by simp [Exit.goesOn])
  | method body =>
    cases e with
    | returnWith id v =>
      simp only [Setting.unwind]
      split
      · exact stop
      · exact pass fun _ => rfl
    | _ => exact pass fun _ => rfl
  | closure f body =>
    cases e with
    | redo => exact restart rfl
    | nextWith v => exact stop
    | _ =>
      simp only [Setting.unwind]
      split
      · exact stop
      · exact pass (by simp [Exit.goesOn])
  | _ => exact pass fun _ => rfl

theorem Exit.Meets.grows {e : Exit} {stack : List Cont} {m : Machine} (h : e.Meets k s stack m) :
    s.Grows m.store := by
  cases h <;> exact .refl s

/-! ## Any step -/

namespace Sound

variable {u : CodeUnit} (hu : u.WellScoped) {s : Store} {depth : Nat} {stack : List Cont}
  {f : FrameId} {b : BodyId}

include hu

theorem isOpened_of_mentions {outer : Body} {p : BodyId} {isModule : Bool}
    (houter : u.body? p = some outer)
    (hm : .body (if isModule then .moduleBody else .classBody) b ∈ outer.code.mentions) :
    u.IsOpened b := by
  obtain ⟨body, hb, hkind⟩ := hu.body houter hm
  refine ⟨body, hb, ?_⟩
  rw [hkind]
  cases isModule <;> rfl

theorem isOpened_of_code (h : Sound u ⟨s, depth, stack, .eval f c⟩)
    (hopens : (Cause.code f c).opens? = some b) : u.IsOpened b := by
  cases c with
  | openClass name superclass isModule b' =>
    cases hopens
    cases h with
    | steady h hc =>
      obtain ⟨outer, houter, hm⟩ := (Holds.own hc).mentioned _ mem_cons_self
      exact isOpened_of_mentions hu houter hm
  | _ => cases hopens

theorem isOpened_of_value {v : Value} (h : Sound u ⟨s, depth, k :: stack, .give v⟩)
    (hopens : (Cause.value k).opens? = some b) : u.IsOpened b := by
  cases k with
  | superclass name isModule b' =>
    cases hopens
    cases h with
    | steady h hc =>
      obtain ⟨outer, ⟨p, houter⟩, hm⟩ := h.top
      exact isOpened_of_mentions hu houter hm
  | _ => cases hopens

end Sound

/-- What one step leads to, by what the machine was to do. -/
inductive Setting.Advances (σ : Setting) : Machine → Machine → Prop
  | code : Moves σ.unit (.code f c) s stack m → Advances σ ⟨s, depth, stack, .eval f c⟩ m
  | value : Moves σ.unit (.value k) s stack m → Advances σ ⟨s, depth, k :: stack, .give v⟩ m
  | call : Moves σ.unit .call s stack m →
      Advances σ ⟨s, depth, stack, .call f receiver method args block⟩ m
  | exit : e.Meets k s stack m → Advances σ ⟨s, depth, k :: stack, .leave e⟩ m

namespace Setting

variable {σ : Setting} {m m' : Machine}

theorem Advances.grows (h : σ.Advances m m') : m.store.Grows m'.store := by
  cases h with
  | code h | value h | call h | exit h => exact h.grows

theorem advances_of_step (hu : σ.unit.WellScoped) (hsound : Sound σ.unit m)
    (h : σ.step m = .next m') : σ.Advances m m' := by
  have hs := hsound.lexical
  obtain ⟨s, depth, stack, control⟩ := m
  cases control with
  | eval f c =>
    cases Step.next.inj h
    exact .code (Moves.eval hs fun b hb => hsound.isOpened_of_code hu hb)
  | call f receiver method args block =>
    cases Step.next.inj h
    exact .call (Moves.call rfl hs)
  | give v =>
    cases stack with
    | nil => cases h
    | cons k stack =>
      cases Step.next.inj h
      exact .value (Moves.resume hs fun b hb => hsound.isOpened_of_value hu hb)
  | leave e =>
    cases stack with
    | nil => cases h
    | cons k stack =>
      cases Step.next.inj h
      exact .exit (Exit.Meets.unwind e k s depth stack)
  | halt c => cases h

theorem keeps_after (hu : σ.unit.WellScoped) {P : Machine → Prop}
    (hstep : ∀ m m', P m → σ.Advances m m' → P m') {n : Nat}
    (hm : P m) (hsound : Sound σ.unit m) (hafter : σ.after n m = some m') : P m' := by
  induction n generalizing m with
  | zero =>
    cases hafter
    exact hm
  | succ n ih =>
    have hnext := hsound.step hu
    unfold Setting.after at hafter
    split at hafter
    · rename_i next hstep'
      rw [hstep'] at hnext
      exact ih (hstep _ _ hm (advances_of_step hu hsound hstep')) hnext hafter
    · cases hafter

end Setting

end BlockLang
