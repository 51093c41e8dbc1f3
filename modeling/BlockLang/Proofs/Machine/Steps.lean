import BlockLang.Proofs.Machine.Sound

/-!
# A sound machine stays sound

One step at a time: the start of a piece of code (`Sound.eval`), the value that a continuation gets
(`Sound.resume`), the exit that comes to one (`Sound.unwind`), and all of them together:
**a step of a sound machine leads to a sound machine, or ends the run without an internal fault and
with a store that the next run can start from** (`Sound.step`).
-/

namespace BlockLang

variable {args : List Value}

open List

/-! ## Arguments -/

theorem Store.positionalCount_le (s : Store) (args : List Value) (keywords : Bool)
    (required : Nat) : s.positionalCount args keywords required ≤ args.length := by
  unfold positionalCount
  split <;> omega

theorem Store.pre_le_of_arityFault? {s : Store} (h : s.arityFault? arity args = none) :
    arity.pre ≤ args.length := by
  have haccepts : arity.accepts
      (s.positionalCount args arity.takesKeywords arity.required) = true := by
    unfold arityFault? at h
    cases ha : arity.accepts (s.positionalCount args arity.takesKeywords arity.required) with
    | true => rfl
    | false => simp [ha] at h
  have hrequired : arity.required ≤ s.positionalCount args arity.takesKeywords arity.required := by
    unfold Arity.accepts at haccepts
    simp only [Bool.and_eq_true, decide_eq_true_eq] at haccepts
    exact haccepts.1
  have hcount := s.positionalCount_le args arity.takesKeywords arity.required
  calc arity.pre ≤ arity.required := Nat.le_add_right _ _
    _ ≤ s.positionalCount args arity.takesKeywords arity.required := hrequired
    _ ≤ args.length := hcount

theorem Store.isForeign_of_arityFault? {s : Store} (h : s.arityFault? arity args = some f) :
    f.isForeign = false := by
  unfold arityFault? at h
  simp only at h
  split at h
  · cases h
    rfl
  · split at h
    · obtain ⟨carrier, _, h⟩ := Option.bind_eq_some_iff.mp h
      obtain ⟨unknown, _, h⟩ := Option.bind_eq_some_iff.mp h
      cases h
      rfl
    · cases h

theorem Store.argument_eq_ok (h : missing = .isError → i < args.length) :
    ∃ v, argument args i missing = .ok v := by
  cases hi : args[i]? with
  | some v => exact ⟨v, by simp [argument, hi]⟩
  | none =>
    cases missing with
    | isNil => exact ⟨.nil, by simp [argument, hi]⟩
    | isError =>
      have hle := List.getElem?_eq_none_iff.mp hi
      exact absurd (h rfl) (Nat.not_lt_of_le hle)

namespace Sound

variable {σ : Setting} (hu : σ.unit.WellScoped) {s : Store} {depth : Nat} {stack : List Cont}
  (h : Ready σ.unit s stack)

include hu h

theorem eval (hc : Holds σ.unit s f c.mentions) : Sound σ.unit (σ.eval s depth stack f c) := by
  cases c with
  | nil | bool | integer | float | text | symbol | self | readInstanceVar | readClassVar
  | readGlobal | blockArgument => exact .giving h
  | array items | yield args => exact .operands hu h (hc.parts fun _ => id)
  | hash pairs => exact .entries h (hc.parts fun _ => id)
  | sequence codes => exact .items h (hc.parts fun _ => id)
  | splat | not | index | slice | atLeast | splatCast | isNil | writeInstanceVar | writeClassVar
  | writeGlobal | catchBreak | breakWith | nextWith | returnWith =>
    exact .part h (hc.part mem_cons_self) trivial
  | ifElse condition thenBranch elseBranch | elidable body result =>
    exact .part h (hc.part mem_cons_self) (hc.parts fun _ => mem_cons_of_mem _)
  | and left right | or left right =>
    exact .part h (hc.part mem_cons_self) (hc.part (mem_cons_of_mem _ mem_cons_self))
  | readLocal source =>
    obtain ⟨owner, howner⟩ := hc.own.resolves hu h.lexical
    simp only [Setting.eval, Store.frameOf, howner.found]
    exact .giving h
  | writeLocal target value => exact .part h (hc.part mem_cons_self) hc.own
  | constant name =>
    simp only [Setting.eval]
    split
    · exact .giving h
    · exact .raising h rfl
  | checkArity arity =>
    simp only [Setting.eval]
    split
    · exact .giving h
    · exact .raising h (Fault.isInternal_of_isForeign (Store.isForeign_of_arityFault? ‹_›))
  | argument i missing =>
    -- an argument that has to be there is there
    have hsupplied : missing = .isError → i < (s.frame f).arguments.length := by
      rintro rfl
      exact hc.own.supplied i mem_cons_self
    obtain ⟨v, hv⟩ := Store.argument_eq_ok hsupplied
    simp only [Setting.eval, hv]
    exact .giving h
  | optionalArgument i minimum keywords required default | keywordArgument name required default =>
    simp only [Setting.eval]
    split
    · exact .giving h
    · exact .evaluating h (hc.part mem_cons_self)
  | restArgument | keywordRestArgument => exact .givingNew h ⟨_, _, _, rfl⟩
  | postArgument =>
    simp only [Setting.eval]
    split
    · exact .giving h
    · exact .halting h
  | missingKeyword => exact .raising h rfl
  | shouldDestructure => exact .shouldDestructure h
  | call receiver method args block =>
    cases receiver with
    | none =>
      refine .operands hu h (.append ?_ ?_)
      · exact hc.parts fun _ => mem_append_right _
      · exact hc.parts fun _ => mem_append_left _
    | some receiver =>
      refine .part h (hc.part mem_cons_self) ?_
      exact hc.parts fun _ => mem_cons_of_mem _
  | super args block forwardBlock =>
    refine .operands hu h (.append (.append hc.own ?_) ?_)
    · exact hc.parts fun _ => mem_append_right _
    · exact hc.parts fun _ => mem_append_left _
  | closure body lambda => exact .newClosure hu h hc
  | define name body =>
    obtain ⟨outer, houter, hm⟩ := hc.own.mentioned _ mem_cons_self
    exact .giving (h.define _ name (hu.body houter hm))
  | openClass name superclass isModule body =>
    obtain ⟨outer, houter, hm⟩ := hc.own.mentioned _ mem_cons_self
    cases superclass with
    | none => exact .openClass hu h houter hm
    | some superclass => exact .part h (hc.part mem_cons_self) ⟨outer, ⟨_, houter⟩, hm⟩
  | loop condition body bodyFirst id =>
    have hparts : Holds σ.unit s f ([condition, body].flatMap Code.mentions) :=
      hc.parts fun _ hx => hx
    simp only [Setting.eval]
    split
    · exact .loopBody (h.push (by trivial)) hparts
    · exact .loopTest (h.push (by trivial)) hparts
  | redo | retry => exact .leaving h rfl

theorem resume (hk : k.Fits σ.unit s) : Sound σ.unit (σ.resume s depth stack v k) := by
  cases k with
  | operand f purpose done spread rest =>
    cases spread with
    | false => exact .operands hu h hk
    | true =>
      have hworks : s.Works (s.spread v).2 := .spread v s
      exact .operands hu (h.works hworks) (hk.grow hworks.grows)
  | spreadArray =>
    have hworks : s.Works (s.spread v).2 := .spread v s
    exact .givingNew (h.works hworks) ⟨_, _, _, rfl⟩
  | hashKey f done value rest =>
    have hrest : (Cont.hashValue f done v rest).Fits σ.unit s :=
      hk.codes fun _ => mem_cons_of_mem _
    exact .part h (hk.mem mem_cons_self) hrest
  | hashValue f done key rest =>
    simp only [Setting.resume]
    split
    · exact .entries h hk
    · exact .raising h rfl
  | sequence f rest => exact .items h hk
  | branch f thenBranch elseBranch =>
    simp only [Setting.resume]
    split
    · exact .evaluating h (hk.mem mem_cons_self)
    · exact .evaluating h (hk.mem (mem_cons_of_mem _ mem_cons_self))
  | andThen f right =>
    simp only [Setting.resume]
    split
    · exact .evaluating h hk
    · exact .giving h
  | orElse f right =>
    simp only [Setting.resume]
    split
    · exact .giving h
    · exact .evaluating h hk
  | writeLocal f target =>
    obtain ⟨owner, howner⟩ := hk.resolves hu h.lexical
    simp only [Setting.resume, Store.frameOf, howner.found]
    split
    · exact .giving (h.move (h.lexical.setSlot howner.slot_lt v) (Store.grows_setSlot _ _ v))
    · exact .halting h
  | writeInstanceVar f name =>
    simp only [Setting.resume]
    split
    · exact .giving (h.setInstanceVar _ name v)
    · exact .raising h rfl
  | writeClassVar f name =>
    have hnew : Ready σ.unit (s.setClassVar (s.frame f).definee name v) stack :=
      h.modifyClass _ fun _ => rfl
    exact .giving hnew
  | writeGlobal name =>
    have hnew : Ready σ.unit (s.setGlobal name v) stack := h.same rfl rfl rfl
    exact .giving hnew
  | index | atLeast =>
    simp only [Setting.resume]
    split
    · exact .giving h
    · exact .raising h rfl
  | slice start endOffset =>
    simp only [Setting.resume]
    split
    · exact .givingNew h ⟨_, _, _, rfl⟩
    · exact .raising h rfl
  | splatCast f onNil => exact .cast h
  | castAnswer value | guardAnswer value =>
    simp only [Setting.resume]
    split
    · exact .giving h
    · exact .giving h
    · exact .raising h rfl
  | receiver f method args block =>
    refine .operands hu h (.append ?_ ?_)
    · exact hk.codes fun _ => mem_append_right _
    · exact hk.codes fun _ => mem_append_left _
  | callBlock f receiver method args =>
    simp only [Setting.resume]
    split
    · exact .steady h trivial
    · exact .raising h rfl
  | superBlock f args forwardBlock =>
    simp only [Setting.resume]
    split
    · exact .callSuper hu h hk
    · exact .raising h rfl
  | superclass name isModule body =>
    obtain ⟨outer, ⟨p, houter⟩, hm⟩ := hk
    simp only [Setting.resume]
    split
    · exact .openClass hu h houter hm
    · exact .raising h rfl
  | loopTest f condition body =>
    simp only [Setting.resume]
    split
    · exact .loopBody h hk
    · exact .giving h
  | loopBody f condition body => exact .loopTest h hk
  | negate | isNil | catchBreak | method | closure | construct => exact .giving h
  | breakWith | nextWith | returnWith => exact .leaving h rfl
  | iterate block iteration => exact .iterate hu h

theorem unwind (hk : k.Fits σ.unit s) (he : e.fault.isInternal = false) :
    Sound σ.unit (Setting.unwind s depth stack e k) := by
  cases k with
  | catchBreak id =>
    cases e with
    | breakWith target v =>
      simp only [Setting.unwind]
      split
      · exact .giving h
      · exact .leaving h he
    | _ => exact .leaving h he
  | loopBody f condition body =>
    cases e with
    | nextWith v => exact .loopTest h hk
    | redo => exact .loopBody h hk
    | _ => exact .leaving h he
  | method body =>
    cases e with
    | returnWith id v =>
      simp only [Setting.unwind]
      split
      · exact .giving h
      · exact .leaving h he
    | _ => exact .leaving h he
  | closure f body =>
    cases e with
    | redo => exact .enter hu (h.push hk) hk.1 hk.2
    | _ =>
      simp only [Setting.unwind]
      split
      · exact .giving h
      · exact .leaving h he
  | _ => exact .leaving h he

end Sound

/-! ## Steps -/

/-- An outcome that is no internal fault. -/
def Outcome.Plain (o : Outcome) : Prop := ∀ f, o = .fault f → f.isInternal = false

theorem Setting.conclude_plain (σ : Setting) (he : e.fault.isInternal = false) :
    (σ.conclude e).Plain := by
  intro f hf
  cases e with
  | returnWith id v =>
    simp only [conclude] at hf
    split at hf
    · cases hf
    · cases hf
      rfl
  | _ =>
    cases hf
    exact he

/-- What a step of a sound machine leads to. -/
def Step.Sound (u : CodeUnit) : Step → Prop
  | .next m => BlockLang.Sound u m
  | .done outcome session => outcome.Plain ∧ session.store.Lexical u

/-- **A sound machine stays sound**, and ends without an internal fault. -/
theorem Sound.step {σ : Setting} (hu : σ.unit.WellScoped) (h : Sound σ.unit m) :
    (σ.step m).Sound σ.unit := by
  cases h with
  | @steady s depth stack control h hc =>
    cases control with
    | eval f c => exact Sound.eval hu h hc
    | call f receiver method args block => exact Sound.call hu h
    | give v =>
      cases stack with
      | nil => exact ⟨fun _ hf => by (cases hf), h.lexical⟩
      | cons k stack => exact Sound.resume hu h.pop h.top
    | leave e =>
      cases stack with
      | nil => exact ⟨σ.conclude_plain hc, h.lexical⟩
      | cons k stack => exact Sound.unwind hu h.pop h.top hc
    | halt c => exact ⟨fun _ hf => by (cases hf), h.lexical⟩
  | @entering s depth stack f arity rest h hg =>
    cases rest with
    | nil => exact Sound.evaluating h (hg.holds_check)
    | cons c rest => exact Sound.checking h hg
  | @checking s depth stack f arity rest h hg =>
    show Sound _ (σ.eval _ _ _ _ _)
    simp only [Setting.eval]
    split
    · have hrest : (Cont.sequence f rest).Fits σ.unit s :=
        hg.holds_rest (Store.pre_le_of_arityFault? ‹_›)
      exact Sound.giving (h.push hrest)
    · exact Sound.refused h (Fault.isInternal_of_isForeign (Store.isForeign_of_arityFault? ‹_›))
  | refused h hf => exact Sound.leaving h hf

end BlockLang
