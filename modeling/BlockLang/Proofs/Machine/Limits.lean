import BlockLang.Proofs.Machine.Leaving

/-!
# The depth of calls

The limit to the depth of calls is looked at in one place only: where a method or closure is
invoked. `Setting.Limited` says so once, together with what becomes of the depth there: whatever a
step does, it stays at the depth and puts no end of a method or closure on the stack, or it goes one
level deeper and puts one there, unless the limit is reached.

**A limit that is not reached makes no difference** (`Setting.runFor_upTo`): a run that ends with
anything but the fault of a call too deep ends in the same way, and leaves the same session, with
every larger limit. For once the fault is raised nothing stops it.

**The depth is balanced** (`Setting.depth_balanced`): however a piece of code ends, the depth is what
it was at its start; on the way it is never beyond the limit, and there is always a level to go back
from. So every run of a session starts at the depth 0.
-/

namespace BlockLang

open List Setting

theorem Code.isEnd_of_first? {f : FrameId} {c : Code} {k : Cont}
    (h : c.first? f = some (part, k)) : k.isEnd = false := by
  unfold first? at h
  split at h <;> cases h <;> rfl

namespace Setting

/-- The setting with another limit. -/
def upTo (σ : Setting) (limit : Nat) : Setting := { σ with maxDepth := limit }

@[simp] theorem upTo_unit (σ : Setting) (limit : Nat) : (σ.upTo limit).unit = σ.unit := rfl

@[simp] theorem upTo_maxDepth (σ : Setting) (limit : Nat) : (σ.upTo limit).maxDepth = limit := rfl

@[simp] theorem upTo_keepsFrame (σ : Setting) (limit : Nat) (body : Body) :
    (σ.upTo limit).keepsFrame body = σ.keepsFrame body := rfl

/-- What is done at a depth and on a stack, under each limit. -/
inductive Limited (depth : Nat) (stack : List Cont) (act : Nat → Machine) : Prop
  /-- Nothing is invoked, and the limit is not looked at. -/
  | level {store : Store} {above : List Cont} {control : Control}
      (open_ : ∀ k ∈ above, k.isEnd = false)
      (acts : ∀ limit, act limit = ⟨store, depth, above ++ stack, control⟩)
  /-- A method or closure is invoked, unless the limit is reached. -/
  | invoke {store entered : Store} {above : List Cont} {k : Cont} {control : Control}
      (open_ : ∀ k ∈ above, k.isEnd = false) (ends : k.isEnd = true)
      (acts : ∀ limit, act limit =
        if limit ≤ depth then raising store depth (above ++ stack) .tooDeep
        else ⟨entered, depth + 1, k :: (above ++ stack), control⟩)

namespace Limited

variable {σ : Setting} {store : Store} {depth : Nat} {stack : List Cont} {f : FrameId}
  {v receiver : Value} {name label : String} {args : List Value} {block : Option ClosureId}

theorem here {control : Control} : Limited depth stack fun _ => ⟨store, depth, stack, control⟩ :=
  level (forall_mem_nil _) fun _ => rfl

variable {k : Cont} {act : Nat → Machine}

theorem above {control : Control} (hk : k.isEnd = false) :
    Limited depth stack fun _ => ⟨store, depth, k :: stack, control⟩ :=
  level (forall_mem_singleton.mpr hk) fun _ => rfl

theorem pop (h : Limited depth (k :: stack) act) (hk : k.isEnd = false) :
    Limited depth stack act := by
  have hopen : ∀ {above : List Cont}, (∀ k ∈ above, k.isEnd = false) →
      ∀ k' ∈ above ++ [k], k'.isEnd = false := by
    intro above habove k' hk'
    rcases mem_append.mp hk' with hk' | hk'
    · exact habove k' hk'
    · exact mem_singleton.mp hk' ▸ hk
  cases h with
  | @level _ above _ open_ acts =>
    rw [append_cons above k stack] at acts
    exact level (hopen open_) acts
  | @invoke _ _ above _ _ open_ ends acts =>
    rw [append_cons above k stack] at acts
    exact invoke (hopen open_) ends acts

/-! ## Calls -/

theorem invokeMethod {id : BodyId} : Limited depth stack fun limit =>
    (σ.upTo limit).invokeMethod store depth stack receiver owner id name args block := by
  simp only [Setting.invokeMethod, upTo_unit, upTo_maxDepth]
  cases σ.unit.body? id with
  | none => exact here
  | some body => exact invoke (forall_mem_nil _) rfl fun _ => rfl

theorem invokeClosure {id : ClosureId} : Limited depth stack fun limit =>
    (σ.upTo limit).invokeClosure store depth stack id args block := by
  simp only [Setting.invokeClosure, upTo_unit, upTo_maxDepth, upTo_keepsFrame]
  cases σ.unit.body? (store.closure id).body with
  | none => exact here
  | some body =>
    cases hkeeps : σ.keepsFrame body <;> simp only [hkeeps, if_true, Bool.false_eq_true, if_false] <;>
      exact invoke (forall_mem_nil _) rfl fun _ => rfl

theorem invokeBlock :
    Limited depth stack fun limit => (σ.upTo limit).invokeBlock store depth stack block args := by
  cases block with
  | none => exact here
  | some id => exact invokeClosure

theorem iterate : Limited depth stack fun limit =>
    (σ.upTo limit).iterate store depth stack block iteration := by
  simp only [Setting.iterate]
  cases iteration.args? with
  | none => exact here
  | some args => exact invokeBlock.pop rfl

theorem construct {id : ClassId} : Limited depth stack fun limit =>
    (σ.upTo limit).construct store depth stack id args block := by
  simp only [Setting.construct]
  cases (store.classInfo id).isModule with
  | true => exact here
  | false =>
    cases (store.newObject id).2.findMethod? id "initialize" with
    | some found => exact invokeMethod.pop rfl
    | none => cases args.isEmpty <;> exact here

theorem callCore : Limited depth stack fun limit =>
    (σ.upTo limit).callCore store depth stack f receiver name label args block := by
  simp only [Setting.callCore]
  generalize (Core.method (store.frame f) receiver name args block).run.run store = done
  obtain ⟨reply, store'⟩ := done
  rcases reply with (_ | _) | _ | reply
  · exact here
  · exact here
  · exact here
  · cases reply with
    | value | send => exact here
    | iterate => exact iterate
    | apply => exact invokeClosure
    | construct => exact construct

theorem call : Limited depth stack fun limit =>
    (σ.upTo limit).call store depth stack f receiver name args block := by
  simp only [Setting.call]
  cases store.findMethod? (store.classOf receiver) name with
  | some found => exact invokeMethod
  | none => exact callCore

theorem callSuper :
    Limited depth stack fun limit => (σ.upTo limit).callSuper store depth stack f args block := by
  simp only [Setting.callSuper]
  cases (store.frame f).invocation with
  | none => exact here
  | some invocation =>
    simp only
    cases store.findAbove? invocation.owner invocation.name with
    | some found => exact invokeMethod
    | none => exact callCore

/-! ## Parts of code -/

theorem operands :
    Limited depth stack fun limit =>
      (σ.upTo limit).operands store depth stack f purpose done codes := by
  cases codes with
  | cons code rest => cases code <;> exact above rfl
  | nil =>
    match purpose with
    | .array | .call _ _ none => exact here
    | .call _ _ (some _) | .super (some _) _ => exact above rfl
    | .super none _ => exact callSuper
    | .yield => exact invokeBlock

theorem entries : Limited depth stack fun _ => entries store depth stack f done pairs := by
  cases pairs with
  | nil => exact here
  | cons => exact above rfl

theorem items : Limited depth stack fun _ => items store depth stack f codes := by
  match codes with
  | [] | [_] => exact here
  | _ :: _ :: _ => exact above rfl

theorem openClass {id : BodyId} :
    Limited depth stack fun limit =>
      (σ.upTo limit).openClass store depth stack name superclass isModule id := by
  simp only [Setting.openClass, upTo_unit]
  cases σ.unit.body? id <;> exact here

theorem cast : Limited depth stack fun _ => Setting.cast store depth stack f onNil v := by
  unfold Setting.cast
  split
  · exact here
  · exact here
  · split
    · exact above rfl
    · exact here

theorem shouldDestructure :
    Limited depth stack fun _ => Setting.shouldDestructure store depth stack f := by
  unfold Setting.shouldDestructure
  split
  · exact here
  · split
    · exact above rfl
    · exact here
  · exact here

theorem newClosure {id : BodyId} : Limited depth stack fun limit =>
    (σ.upTo limit).newClosure store depth stack f id lambda := by
  simp only [Setting.newClosure, upTo_unit, upTo_keepsFrame]
  cases σ.unit.body? id with
  | none => exact here
  | some body =>
    cases hkeeps : σ.keepsFrame body <;> simp only [hkeeps, if_true, Bool.false_eq_true, if_false] <;>
      exact here

/-! ## Steps -/

theorem eval (c : Code) :
    Limited depth stack fun limit => (σ.upTo limit).eval store depth stack f c := by
  cases hfirst : c.first? f with
  | some first =>
    obtain ⟨part, k⟩ := first
    simp only [eval_of_first? hfirst]
    exact above (Code.isEnd_of_first? hfirst)
  | none =>
    cases c with
    | nil | bool | integer | float | text | symbol | self | readInstanceVar | readClassVar
    | readGlobal | restArgument | keywordRestArgument | missingKeyword | blockArgument | define
    | redo | retry => exact here
    | array items => exact operands (σ := σ)
    | hash pairs => exact entries
    | sequence codes => exact items
    | readLocal | constant | checkArity | argument | optionalArgument | postArgument
    | keywordArgument =>
      simp only [Setting.eval]
      split <;> exact here
    | shouldDestructure => exact shouldDestructure
    | call receiver method args block =>
      cases receiver with
      | some => cases hfirst
      | none => exact operands
    | super args block forwardBlock | yield args => exact operands
    | closure body lambda => exact newClosure
    | openClass name superclass isModule body =>
      cases superclass with
      | some => cases hfirst
      | none => exact openClass
    | loop condition body bodyFirst id =>
      have hcatch : Cont.isEnd (.catchBreak id) = false := rfl
      cases bodyFirst with
      | true => exact (above (k := .loopBody f condition body) rfl).pop hcatch
      | false => exact (above (k := .loopTest f condition body) rfl).pop hcatch
    | _ => cases hfirst

theorem resume (hk : k.isEnd = false) :
    Limited depth stack fun limit => (σ.upTo limit).resume store depth stack v k := by
  cases k with
  | method | closure => cases hk
  | operand f purpose done spread rest => cases spread <;> exact operands
  | spreadArray | negate | writeClassVar | writeGlobal | isNil | catchBreak | breakWith | nextWith
  | returnWith | construct | branch => exact here
  | hashKey => exact above rfl
  | hashValue f done key rest =>
    simp only [resume]
    cases Key.ofValue? key with
    | some key => exact entries
    | none => exact here
  | sequence f rest => exact items
  | andThen | orElse =>
    simp only [resume]
    cases v.isTrue <;> exact here
  | writeLocal f target =>
    simp only [resume]
    cases store.frameOf f target with
    | error => exact here
    | ok owner => cases hroom : store.hasRoom owner target.slot <;> simp only [hroom] <;> exact here
  | writeInstanceVar f name =>
    simp only [resume]
    cases (store.frame f).self.hasInstanceVars <;> exact here
  | index | slice | atLeast | castAnswer | guardAnswer => cases v <;> exact here
  | splatCast f onNil => exact cast
  | receiver f method args block => exact operands
  | callBlock f receiver method args =>
    simp only [resume]
    cases v.asBlock? <;> exact here
  | superBlock f args forwardBlock =>
    simp only [resume]
    cases v.asBlock? with
    | some block => exact callSuper
    | none => exact here
  | superclass name isModule body =>
    cases v with
    | classRef id => exact openClass
    | _ => exact here
  | loopTest f condition body =>
    simp only [resume]
    cases v.isTrue with
    | true => exact above (k := .loopBody f condition body) rfl
    | false => exact here
  | loopBody f condition body => exact above (k := .loopTest f condition body) rfl
  | iterate block iteration => exact iterate

theorem unwind (hk : k.isEnd = false) (e : Exit) :
    Limited depth stack fun _ => unwind store depth stack e k := by
  cases k with
  | method | closure => cases hk
  | catchBreak id =>
    cases e with
    | breakWith target v =>
      simp only [unwind]
      split <;> exact here
    | _ => exact here
  | loopBody f condition body =>
    cases e with
    | nextWith => exact above (k := .loopTest f condition body) rfl
    | redo => exact above (k := .loopBody f condition body) rfl
    | _ => exact here
  | _ => exact here

/-- Under a larger limit the same is done, unless the limit is reached. -/
theorem eq_or_raises (h : Limited depth stack act) {limit : Nat} (hle : limit ≤ limit') :
    act limit = act limit' ∨
      ∃ store' stack', act limit = raising store' depth stack' .tooDeep := by
  cases h with
  | level _ acts => exact .inl ((acts limit).trans (acts limit').symm)
  | invoke _ _ acts =>
    rw [acts limit, acts limit']
    by_cases hdeep : limit ≤ depth
    · exact .inr ⟨_, _, if_pos hdeep⟩
    · rw [if_neg hdeep, if_neg fun h => hdeep (Nat.le_trans hle h)]
      exact .inl rfl

/-- The depth goes up with the number of pending calls, and not beyond the limit. -/
theorem exists_above (h : Limited depth stack act) {limit : Nat} (hle : limit ≤ bound)
    (hbound : depth ≤ bound) : ∃ above, (act limit).stack = above ++ stack ∧
      (act limit).depth = depth + activations above ∧ (act limit).depth ≤ bound := by
  cases h with
  | @level _ above _ open_ acts =>
    have hnone : activations above = 0 := countP_eq_zero.mpr (by simpa using open_)
    rw [acts limit]
    exact ⟨above, rfl, by simp [hnone], hbound⟩
  | @invoke _ _ above k _ open_ ends acts =>
    have hnone : activations above = 0 := countP_eq_zero.mpr (by simpa using open_)
    rw [acts limit]
    split
    · exact ⟨above, rfl, by simp [raising, hnone], hbound⟩
    · have hone : activations (k :: above) = 1 := by
        rw [activations, countP_cons_of_pos ends, ← activations, hnone]
      exact ⟨k :: above, rfl, by simp [hone], by simp only; omega⟩

end Limited

theorem unwind_of_isEnd {store : Store} {depth : Nat} {stack : List Cont} {k : Cont}
    (hk : k.isEnd = true) (e : Exit) :
    ((unwind store depth stack e k).stack = stack ∧
        (unwind store depth stack e k).depth = depth - 1) ∨
      ((unwind store depth stack e k).stack = k :: stack ∧
        (unwind store depth stack e k).depth = depth) := by
  cases k with
  | method body =>
    refine .inl ?_
    cases e <;> simp only [unwind] <;> first | exact ⟨rfl, rfl⟩ | (split <;> exact ⟨rfl, rfl⟩)
  | closure f body =>
    cases e with
    | redo => exact .inr ⟨rfl, rfl⟩
    | _ =>
      refine .inl ?_
      simp only [unwind]
      split <;> exact ⟨rfl, rfl⟩
  | _ => cases hk

/-! ## Larger limits -/

variable {σ : Setting}

theorem lets_raise (k : Cont) (fault : Fault) : k.Lets (.raise fault) := by
  intro s depth stack
  cases k <;> rfl

theorem fault_of_runFor {n : Nat} {fault : Fault} : ∀ {stack : List Cont} {store : Store}
    {depth : Nat} {outcome : Outcome} {left : Session},
    σ.runFor n (raising store depth stack fault) = some (outcome, left) →
      outcome = .fault fault := by
  induction n with
  | zero =>
    intro stack store depth outcome left hrun
    cases hrun
  | succ n ih =>
    intro stack store depth outcome left hrun
    cases stack with
    | nil =>
      cases hrun
      rfl
    | cons k stack =>
      have hstep : σ.step (raising store depth (k :: stack) fault) =
          .next (raising store (if k.isEnd then depth - 1 else depth) stack fault) :=
        congrArg Step.next (lets_raise k fault store depth stack)
      rw [runFor, hstep] at hrun
      exact ih hrun

theorem step_upTo {limit : Nat} (hle : σ.maxDepth ≤ limit) (m : Machine) :
    (σ.upTo limit).step m = σ.step m ∨
      ∃ store depth stack, σ.step m = .next (raising store depth stack .tooDeep) := by
  have hsame : ∀ {depth : Nat} {stack : List Cont} {act : Nat → Machine}, Limited depth stack act →
      Step.next (act limit) = .next (act σ.maxDepth) ∨
        ∃ store depth stack, Step.next (act σ.maxDepth) =
          .next (raising store depth stack .tooDeep) := by
    intro depth stack act h
    rcases h.eq_or_raises hle with heq | ⟨store, stack', heq⟩
    · exact .inl (congrArg Step.next heq.symm)
    · exact .inr ⟨store, depth, stack', congrArg Step.next heq⟩
  obtain ⟨store, depth, stack, control⟩ := m
  cases control with
  | eval f code => exact hsame (Limited.eval (σ := σ) code)
  | call f receiver method args block =>
    exact hsame (Limited.call (σ := σ))
  | give v =>
    cases stack with
    | nil => exact .inl rfl
    | cons k stack =>
      cases hk : k.isEnd with
      | false => exact hsame (Limited.resume (σ := σ) hk)
      | true =>
        cases k with
        | method | closure => exact .inl rfl
        | _ => cases hk
  | leave e => cases stack <;> exact .inl rfl
  | halt c => exact .inl rfl

theorem runFor_upTo {limit : Nat} (hle : σ.maxDepth ≤ limit) {n : Nat} :
    ∀ {m : Machine} {outcome : Outcome} {left : Session},
      σ.runFor n m = some (outcome, left) → outcome ≠ .fault .tooDeep →
        (σ.upTo limit).runFor n m = some (outcome, left) := by
  induction n with
  | zero =>
    intro m outcome left hrun
    cases hrun
  | succ n ih =>
    intro m outcome left hrun hshallow
    rcases step_upTo hle m with hstep | ⟨store, depth, stack, hstep⟩
    · rw [runFor, hstep]
      rw [runFor] at hrun
      cases hnext : σ.step m with
      | next m' =>
        rw [hnext] at hrun
        exact ih hrun hshallow
      | done outcome' left' =>
        rw [hnext] at hrun
        exact hrun
    · -- the call was refused, and the run ends with that
      rw [runFor, hstep] at hrun
      exact absurd (fault_of_runFor hrun) hshallow

/-- **A limit that is not reached makes no difference.** A run of any unit, in any session, that ends
under a limit with anything but the fault of a call too deep ends under every larger limit with the
same outcome, and leaves the same session: its output, globals, constants and all the rest. So what
does not go too deep under the usual limit runs the same under that of the command line. -/
theorem run_alike_upTo (σ : Setting) :
    (∀ {limit limit' : Nat} {session : Session} {n : Nat} {outcome : Outcome} {left : Session},
      limit ≤ limit' →
      (σ.upTo limit).runFor n ((σ.upTo limit).start session) = some (outcome, left) →
      outcome ≠ .fault .tooDeep →
        (σ.upTo limit').runFor n ((σ.upTo limit').start session) = some (outcome, left)) ∧
    ∀ {outcome : Outcome} {left : Session},
      (σ.upTo defaultMaxDepth).run {} = some (outcome, left) → outcome ≠ .fault .tooDeep →
        (σ.upTo commandMaxDepth).run {} = some (outcome, left) := by
  refine ⟨fun hle hrun hshallow => ?_, fun hrun hshallow => ?_⟩
  · exact runFor_upTo (σ := σ.upTo _) hle hrun hshallow
  · have hle : defaultMaxDepth ≤ commandMaxDepth := by decide
    exact runFor_upTo (σ := σ.upTo defaultMaxDepth) hle hrun hshallow

end Setting

/-- `def f(n) if n == 0 then :down else f(n - 1) end end; f(2)`: three calls deep. -/
def Program.countdown : Program where
  body := [
    Build.define "f" (Params.empty.require "n") [
      Build.ifElse (Build.call (Build.localVar "n") "==" [Build.integer 0])
        [Build.symbol "down"]
        [Build.selfCall "f" [Build.call (Build.localVar "n") "-" [Build.integer 1]]]],
    Build.selfCall "f" [Build.integer 2]]

/-- A limit that `countdown` does not keep to. -/
def Setting.countdown : Setting where
  unit := (Program.countdown.lowering {}).unit
  maxDepth := 2

/-- Three calls fit under the limit 3, so `countdown` runs the same under every larger one; under the
limit 2 it goes too deep. -/
theorem Setting.countdown_alike :
    countdown.Finishes (countdown.start {}) (.fault .tooDeep) ∧
    ∃ left, (countdown.upTo 3).runFor 100 ((countdown.upTo 3).start {}) =
        some (.value (.symbol "down"), left) ∧
      ∀ limit, 3 ≤ limit → (countdown.upTo limit).runFor 100 ((countdown.upTo limit).start {}) =
        some (.value (.symbol "down"), left) := by
  have hσ := Eq.refl countdown
  conv at hσ => rhs; cbv
  have hdeep := Eq.refl (countdown.runFor 100 (countdown.start {}))
  conv at hdeep => rhs; rw [hσ]; cbv
  have hrun := Eq.refl ((countdown.upTo 3).runFor 100 ((countdown.upTo 3).start {}))
  conv at hrun => rhs; rw [hσ]; cbv
  exact ⟨⟨100, _, hdeep⟩, _, hrun, fun limit hle => (run_alike_upTo countdown).1 hle hrun (by simp)⟩

/-! ## Balance -/

/-- The next step takes the end of a method or closure off the stack, or runs the closure again. -/
def Machine.isAtEnd (m : Machine) : Bool := m.control.isResult && m.stack.head?.any Cont.isEnd

/-- The machine is on top of the stack, and as much deeper than `depth` as there are calls on it. -/
def Machine.Atop (m : Machine) (stack : List Cont) (depth limit : Nat) : Prop :=
  ∃ above, m.stack = above ++ stack ∧ m.depth = depth + activations above ∧ m.depth ≤ limit

namespace Machine.Atop

variable {σ : Setting} {m m' : Machine} {stack : List Cont} {depth limit : Nat}

theorem limited {act : Nat → Machine} (h : m.Atop stack depth limit) (hle : σ.maxDepth ≤ limit)
    (hact : Limited m.depth m.stack act) : (act σ.maxDepth).Atop stack depth limit := by
  obtain ⟨above, hstack, hdepth, hlimit⟩ := h
  obtain ⟨more, hstack', hdepth', hlimit'⟩ := hact.exists_above hle hlimit
  refine ⟨more ++ above, ?_, ?_, hlimit'⟩
  · rw [hstack', hstack, append_assoc]
  · have hcount : activations (more ++ above) = activations more + activations above :=
      countP_append
    omega

theorem eq_cons (h : m.Atop stack depth limit) (hback : ¬ m.IsBack stack)
    (hresult : m.control.isResult = true) : ∃ k above, m.stack = k :: (above ++ stack) ∧
      m.depth = depth + activations (k :: above) := by
  obtain ⟨above, hstack, hdepth, _⟩ := h
  cases above with
  | nil => exact absurd ⟨hstack, hresult⟩ hback
  | cons k above => exact ⟨k, above, hstack, hdepth⟩

/-- A call that ends goes back one level, and a closure that runs again stays at its own. -/
theorem ended {k : Cont} (hk : k.isEnd = true)
    (hdepth : m.depth = depth + activations (k :: above)) (hlimit : m.depth ≤ limit)
    (hm' : (m'.stack = above ++ stack ∧ m'.depth = m.depth - 1) ∨
      (m'.stack = k :: (above ++ stack) ∧ m'.depth = m.depth)) :
    m'.Atop stack depth limit := by
  have hcount : activations (k :: above) = activations above + 1 := countP_cons_of_pos hk
  rcases hm' with ⟨hstack, hdepth'⟩ | ⟨hstack, hdepth'⟩
  · exact ⟨above, hstack, by omega, by omega⟩
  · exact ⟨k :: above, hstack, by omega, by omega⟩

theorem step (h : m.Atop stack depth limit) (hle : σ.maxDepth ≤ limit) (hback : ¬ m.IsBack stack)
    (hstep : σ.step m = .next m') : m'.Atop stack depth limit := by
  obtain ⟨store, own, pending, control⟩ := m
  cases control with
  | eval f code =>
    cases hstep
    exact h.limited hle (Limited.eval (σ := σ) code)
  | call f receiver method args block =>
    cases hstep
    exact h.limited hle (Limited.call (σ := σ))
  | halt c => cases pending <;> cases hstep
  | give v =>
    obtain ⟨k, above, hpending, hdepth⟩ := h.eq_cons hback rfl
    obtain ⟨_, _, _, hlimit⟩ := h
    cases hpending
    cases hstep
    cases hk : k.isEnd with
    | false =>
      have hrest : Machine.Atop ⟨store, own, above ++ stack, .give v⟩ stack depth limit :=
        ⟨above, rfl, by simpa [activations, hk] using hdepth, hlimit⟩
      exact hrest.limited hle (Limited.resume (σ := σ) hk)
    | true =>
      refine ended hk hdepth hlimit (.inl ?_)
      cases k with
      | method | closure => exact ⟨rfl, rfl⟩
      | _ => cases hk
  | leave e =>
    obtain ⟨k, above, hpending, hdepth⟩ := h.eq_cons hback rfl
    obtain ⟨_, _, _, hlimit⟩ := h
    cases hpending
    cases hstep
    cases hk : k.isEnd with
    | false =>
      have hrest : Machine.Atop ⟨store, own, above ++ stack, .leave e⟩ stack depth limit :=
        ⟨above, rfl, by simpa [activations, hk] using hdepth, hlimit⟩
      exact hrest.limited (σ := σ) hle (Limited.unwind hk e)
    | true => exact ended hk hdepth hlimit (unwind_of_isEnd hk e)

theorem within (h : m.Atop stack depth limit) (hle : σ.maxDepth ≤ limit)
    (hinside : σ.Inside stack m m') : m'.Atop stack depth limit := by
  induction hinside with
  | start => exact h
  | step _ hback hstep ih => exact ih.step hle hback hstep

theorem inside (h : m.Atop stack depth σ.maxDepth) (hinside : σ.Inside stack m m') :
    m'.Atop stack depth σ.maxDepth :=
  h.within (Nat.le_refl _) hinside

theorem goesOn (h : m.Atop stack depth limit) (hback : ¬ m.IsBack stack) :
    (∃ c, m.control = .halt c) ∨ ∃ m', σ.step m = .next m' := by
  rcases σ.step_cases m with ⟨hempty, _⟩ | ⟨c, hhalt, _⟩ | ⟨_, hnext⟩
  · obtain ⟨above, hstack, _, _⟩ := h
    have hnil : above ++ stack = [] := hstack.symm.trans hempty.1
    exact absurd ((append_eq_nil_iff.mp hnil).2 ▸ hempty) hback
  · exact .inl ⟨c, hhalt⟩
  · exact .inr hnext

theorem depth_eq (h : m.Atop stack depth limit) (hback : m.IsBack stack) : m.depth = depth := by
  obtain ⟨above, hstack, hdepth, _⟩ := h
  have hnil : above = [] := append_left_eq_self.mp (hstack.symm.trans hback.1)
  rw [hdepth, hnil]
  rfl

theorem depth_pos (h : m.Atop stack depth limit) (hback : ¬ m.IsBack stack)
    (hend : m.isAtEnd = true) : 0 < m.depth := by
  obtain ⟨hresult, hhead⟩ := Bool.and_eq_true_iff.mp hend
  obtain ⟨k, above, hstack, hdepth⟩ := h.eq_cons hback hresult
  have hk : k.isEnd = true := by simpa [hstack] using hhead
  have hcount : activations (k :: above) = activations above + 1 := countP_cons_of_pos hk
  omega

theorem depth_of_runFor {n : Nat} : ∀ {m : Machine} {outcome : Outcome} {left : Session},
    m.Atop [] depth σ.maxDepth → σ.runFor n m = some (outcome, left) →
      (∀ c, outcome ≠ .crash c) → left.depth = depth := by
  induction n with
  | zero =>
    intro m outcome left _ hrun
    cases hrun
  | succ n ih =>
    intro m outcome left h hrun hcrash
    rw [runFor] at hrun
    rcases σ.step_cases m with ⟨hback, _, hstep⟩ | ⟨c, _, hstep⟩ | ⟨hback, m', hstep⟩
    · rw [hstep] at hrun
      cases hrun
      exact h.depth_eq hback
    · rw [hstep] at hrun
      cases hrun
      exact absurd rfl (hcrash c)
    · rw [hstep] at hrun
      exact ih (h.step (Nat.le_refl _) hback hstep) hrun hcrash

end Machine.Atop

namespace Setting

theorem start_eq (σ : Setting) (session : Session) :
    ∃ store control, σ.start session = ⟨store, session.depth, [], control⟩ := by
  simp only [start]
  split <;> exact ⟨_, _, rfl⟩

theorem depth_start (σ : Setting) (session : Session) : (σ.start session).depth = session.depth := by
  obtain ⟨store, control, hstart⟩ := σ.start_eq session
  rw [hstart]

theorem atop_start (σ : Setting) (h : session.depth ≤ σ.maxDepth) :
    (σ.start session).Atop [] session.depth σ.maxDepth := by
  obtain ⟨store, control, hstart⟩ := σ.start_eq session
  rw [hstart]
  exact ⟨[], rfl, rfl, h⟩

end Setting

/-- The turn is a run that crashed. -/
def Event.isCrash : Event → Bool
  | .outcome (.crash _) => true
  | _ => false

theorem CodeUnit.depth_of_play (u : CodeUnit) (capture : Capture) {turns : List Turn} :
    ∀ {session left : Session} {events : List Event}, session.depth = 0 →
      u.play capture session turns = some (events, left) →
      (∀ event ∈ events, event.isCrash = false) → left.depth = 0 := by
  induction turns with
  | nil =>
    intro session left events hs hplay _
    cases hplay
    exact hs
  | cons t rest ih =>
    intro session left events hs hplay hcrash
    obtain ⟨⟨event, next⟩, hturn, hplay⟩ := Option.bind_eq_some_iff.mp hplay
    obtain ⟨⟨events, last⟩, hrest, hplay⟩ := Option.bind_eq_some_iff.mp hplay
    cases hplay
    have hcrash := forall_mem_cons.mp hcrash
    refine ih ?_ hrest hcrash.2
    cases t with
    | takeOutput =>
      cases hturn
      exact hs
    | run maxDepth steps =>
      obtain ⟨⟨outcome, left⟩, hrun, heq⟩ := Option.map_eq_some_iff.mp hturn
      cases heq
      have hstart := atop_start ⟨u, maxDepth, capture⟩ (hs ▸ Nat.zero_le maxDepth)
      refine (hstart.depth_of_runFor hrun fun c hc => ?_).trans hs
      subst hc
      cases hcrash.1

/-- **The depth is balanced.** Whatever code of whatever unit is evaluated, in any store and on any
stack, at a depth within the limit: all the way the depth is within the limit, and is not 0 where a
call ends; the evaluation goes on until it is back with a value or an exit, if it does not crash; and
then the depth is what it was. So after any number of runs that did not crash, however they ended,
the depth is 0 and the next run starts at the depth 0. -/
theorem Setting.depth_balanced (σ : Setting) :
    (∀ (store : Store) {depth : Nat} (stack : List Cont) (f : FrameId) (code : Code),
      depth ≤ σ.maxDepth → ∀ {m : Machine},
        σ.Inside stack (evaluating store depth stack f code) m →
          m.depth ≤ σ.maxDepth ∧ (m.IsBack stack → m.depth = depth) ∧
          (¬ m.IsBack stack → (m.isAtEnd = true → 0 < m.depth) ∧
            ((∃ c, m.control = .halt c) ∨ ∃ m', σ.step m = .next m'))) ∧
    ∀ {turns : List Turn} {events : List Event} {session : Session},
      σ.unit.play σ.capture {} turns = some (events, session) →
      (∀ event ∈ events, event.isCrash = false) →
        session.depth = 0 ∧ (σ.start session).depth = 0 := by
  refine ⟨fun store depth stack f code hdepth m hinside => ?_, fun hplay hcrash => ?_⟩
  · have hstart : (evaluating store depth stack f code).Atop stack depth σ.maxDepth :=
      ⟨[], rfl, rfl, hdepth⟩
    have h := hstart.inside hinside
    exact ⟨h.choose_spec.2.2, h.depth_eq, fun hback => ⟨h.depth_pos hback, h.goesOn hback⟩⟩
  · have hzero := σ.unit.depth_of_play σ.capture rfl hplay hcrash
    exact ⟨hzero, (σ.depth_start _).trans hzero⟩

/-- A run of `countdown` that goes too deep has two calls to go back from when the third is refused,
and the run after it, with one more level, has the whole depth again. -/
theorem Setting.countdown_balanced :
    (∃ m, countdown.after 55 (countdown.start {}) = some m ∧ m.isAtEnd = true ∧
      0 < m.depth ∧ m.depth ≤ 2) ∧
    ∃ events session, countdown.unit.play countdown.capture {} [.run 2 100, .run 3 100] =
        some (events, session) ∧ (∀ event ∈ events, event.isCrash = false) ∧
      session.depth = 0 := by
  have hσ := Eq.refl countdown
  conv at hσ => rhs; cbv
  have hm := Eq.refl (countdown.after 55 (countdown.start {}))
  conv at hm => rhs; rw [hσ]; cbv
  have hstart := Eq.refl (countdown.start {})
  conv at hstart => rhs; rw [hσ]; cbv
  have hplay := Eq.refl (countdown.unit.play countdown.capture {} [.run 2 100, .run 3 100])
  conv at hplay => rhs; rw [hσ]; cbv
  have hdepth := ((depth_balanced countdown).2 hplay (by decide)).1
  have hinside := inside_of_reaches ⟨55, hm⟩
  rw [hstart] at hinside
  obtain ⟨hlimit, _, hgoes⟩ := (depth_balanced countdown).1 _ [] _ _ (Nat.zero_le _) hinside
  exact ⟨⟨_, hm, rfl, (hgoes fun hback => by cases hback.1).1 rfl, hlimit⟩,
    _, _, hplay, by decide, hdepth⟩

end BlockLang
