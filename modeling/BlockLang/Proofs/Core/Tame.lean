import BlockLang.Core.Method
import BlockLang.Proofs.Value.Prune

/-!
# What core methods can do

A core method gets the whole store, and its answer makes the machine go on. **A core method works
on arrays, hashes and the output, goes along no link between frames, and raises none of the faults
that come of a wrong reference or of an exit** (`Core.Tame`). The rules for `pure`, `bind` and the primitives are
instances, so that a method that is put together from them is tame by instance search, and only
the tables of methods are gone through by hand.
-/

namespace BlockLang

/-- Faults that code can only have by a reference to something that is not there: a variable, a
body, a method to go up from, an argument. -/
def Fault.isInternal : Fault → Bool
  | noFrame _ | unknownBody _ | superOutsideMethod | noArgument _ _ => true
  | _ => false

/-- Faults of an exit that nothing stopped. -/
def Fault.isEscape : Fault → Bool
  | breakEscaped | nextEscaped | redoEscaped | retryEscaped | returnEscaped => true
  | _ => false

/-- The fault of a value that items are to be taken from. -/
def Fault.isNotArray : Fault → Bool
  | notArray _ => true
  | _ => false

/-- Faults that no operation on values has. -/
def Fault.isForeign (f : Fault) : Bool := f.isInternal || (f.isEscape || f.isNotArray)

theorem Fault.isInternal_of_isForeign {f : Fault} (h : f.isForeign = false) :
    f.isInternal = false :=
  (Bool.or_eq_false_iff.mp h).1

theorem Fault.isEscape_of_isForeign {f : Fault} (h : f.isForeign = false) : f.isEscape = false :=
  (Bool.or_eq_false_iff.mp (Bool.or_eq_false_iff.mp h).2).1

theorem Fault.isNotArray_of_isForeign {f : Fault} (h : f.isForeign = false) :
    f.isNotArray = false :=
  (Bool.or_eq_false_iff.mp (Bool.or_eq_false_iff.mp h).2).2

/-- The fault of an operation, if it has one, is one that operations can have. -/
def Plain {α : Type} (a : Except Fault α) : Prop := ∀ f, a = .error f → f.isForeign = false

namespace Plain

variable {α β : Type}

theorem ok (a : α) : Plain (.ok a) := fun _ h => by cases h

theorem error (h : f.isForeign = false) : Plain (.error f : Except Fault α) :=
  fun g hg => by
    cases hg
    exact h

theorem map (g : α → β) (h : Plain a) : Plain (g <$> a) := by
  cases a with
  | ok a => exact .ok _
  | error f => exact .error (h f rfl)

theorem fitInt (x : Int) : Plain (BlockLang.fitInt x) := by
  unfold BlockLang.fitInt
  split
  · exact .ok _
  · exact .error rfl

theorem divided (a b result : Int64) : Plain (BlockLang.divided a b result) := by
  unfold BlockLang.divided
  split
  · exact .error rfl
  · split
    · exact .error rfl
    · exact .ok _

theorem power (a : Int64) (b : Nat) : Plain (BlockLang.power a b) := by
  unfold BlockLang.power
  split
  · exact .error rfl
  · split
    · exact .fitInt _
    · split
      · exact .error rfl
      · exact .fitInt _

theorem onIntegers (a b : Int64) (op : Operator) : Plain (op.onIntegers a b) := by
  cases op with
  | add | sub | mul => exact (Plain.fitInt _).map _
  | div | mod => exact (Plain.divided a b _).map _
  | pow =>
    simp only [Operator.onIntegers]
    split
    · exact (Plain.power _ _).map _
    · exact .ok _
  | lt | gt | le | ge | compare => exact .ok _

theorem writePosition (size : Nat) (i : Int64) : Plain (BlockLang.writePosition size i) := by
  unfold BlockLang.writePosition
  simp only
  split
  · exact .error rfl
  · split
    · exact .error rfl
    · exact .ok _

theorem addValues (h : addValues? a b = some (.error f)) : f.isForeign = false := by
  unfold addValues? at h
  split at h
  · exact Plain.onIntegers _ _ _ f (Option.some.inj h)
  · simp only [Option.bind_eq_bind, Option.bind_eq_some_iff, Option.some.injEq, reduceCtorEq,
      and_false, exists_false] at h

theorem sumOnto (h : BlockLang.sumOnto total items = .error (.inl f)) : f.isForeign = false := by
  induction items generalizing total with
  | nil => cases h
  | cons item rest ih =>
    rw [BlockLang.sumOnto] at h
    split at h
    · cases h
    · cases h
      exact addValues ‹_›
    · exact ih h

end Plain

/-- The same store up to arrays, hashes and the output. -/
def Store.Works (s t : Store) : Prop :=
  ∃ arrays hashes output, t = { s with arrays, hashes, output }

namespace Store.Works

theorem refl (s : Store) : s.Works s := ⟨_, _, _, rfl⟩

theorem trans {s : Store} (hst : s.Works t) (htr : t.Works r) : s.Works r := by
  obtain ⟨_, _, _, rfl⟩ := hst
  obtain ⟨arrays, hashes, output, rfl⟩ := htr
  exact ⟨arrays, hashes, output, rfl⟩

theorem newPairs (pairs : List (Key × Value)) (s : Store) : s.Works (s.newPairs pairs).2 := by
  induction pairs generalizing s with
  | nil => exact .refl s
  | cons pair rest ih => exact .trans ⟨_, _, _, rfl⟩ (ih (s.newArray _).2)

theorem result (iteration : Iteration) (s : Store) : s.Works (iteration.result s).2 := by
  cases iteration with
  | collect | keep => exact ⟨_, _, _, rfl⟩
  | _ => exact .refl s

end Store.Works

/-- Work on the store that does not see what it has no business with. -/
class Core.Tame {α : Type} (m : Core α) : Prop where
  works : ∀ s : Store, s.Works (m.run.run s).2
  prune : ∀ keep (s : Store), m.run.run (s.prune keep) = ((m.run.run s).1, (m.run.run s).2.prune keep)
  fault : ∀ s f, (m.run.run s).1 = .error (.fault f) → f.isForeign = false

namespace Core

variable {α β : Type}

theorem run_bind (m : Core α) (k : α → Core β) (s : Store) :
    (m >>= k).run.run s = match m.run.run s with
      | (.ok a, t) => (k a).run.run t
      | (.error e, t) => (.error e, t) := by
  rw [ExceptT.run_bind, StateT.run_bind]
  generalize m.run.run s = done
  rcases done with ⟨_ | a, t⟩ <;> rfl

namespace Tame

/-! ## Rules -/

instance pure (a : α) : Tame (Pure.pure a : Core α) :=
  ⟨fun s => .refl s, fun _ _ => rfl, fun _ _ h => by cases h⟩

instance bind (m : Core α) (k : α → Core β) [hm : Tame m] [hk : ∀ a, Tame (k a)] :
    Tame (m >>= k) where
  works s := by
    rw [run_bind]
    have hw := hm.works s
    rcases hrun : m.run.run s with ⟨e | a, t⟩ <;> rw [hrun] at hw
    · exact hw
    · exact hw.trans ((hk a).works t)
  prune keep s := by
    rw [run_bind, run_bind, hm.prune]
    rcases m.run.run s with ⟨e | a, t⟩
    · rfl
    · exact (hk a).prune keep t
  fault s f h := by
    rw [run_bind] at h
    have hf := hm.fault s f
    rcases hrun : m.run.run s with ⟨e | a, t⟩ <;> rw [hrun] at h hf
    · cases h
      exact hf rfl
    · exact (hk a).fault t f h

theorem after [Tame m] (hk : ∀ a, Tame (k a)) : Tame (m >>= k) :=
  Tame.bind m k

instance ite (p : Prop) [Decidable p] (m k : Core α) [Tame m] [Tame k] :
    Tame (if p then m else k) := by
  split <;> assumption

/-- A look at the store that does not depend on links. -/
theorem get (hprune : ∀ keep s, k (s.prune keep) = k s) (hk : ∀ s, Tame (k s)) :
    Tame (MonadState.get >>= k) where
  works s := (hk s).works s
  prune keep s := by
    show (k (s.prune keep)).run.run (s.prune keep) = _
    rw [hprune, (hk s).prune]
    rfl
  fault s f h := (hk s).fault s f h

theorem modifyGet (hworks : ∀ s : Store, s.Works (f s).2)
    (hprune : ∀ keep s, f (s.prune keep) = ((f s).1, (f s).2.prune keep)) :
    Tame (MonadState.modifyGet f : Core α) where
  works s := hworks s
  prune keep s := by
    show (Except.ok (f (s.prune keep)).1, (f (s.prune keep)).2) = _
    rw [hprune]
    rfl
  fault _ _ h := by cases h

theorem raise (h : f.isForeign = false) : Tame (Core.raise f : Core α) where
  works s := .refl s
  prune _ _ := rfl
  fault s g hg := by
    cases hg
    exact h

instance crash (c : Crash) : Tame (Core.crash c : Core α) :=
  ⟨fun s => .refl s, fun _ _ => rfl, fun _ _ h => by cases h⟩

instance forM (f : β → Core Unit) [∀ b, Tame (f b)] : ∀ items : List β, Tame (items.forM f)
  | [] => Tame.pure ()
  | item :: rest =>
    have := Tame.forM f rest
    Tame.bind (f item) fun _ => rest.forM f

instance mapM (f : β → Core α) [∀ b, Tame (f b)] (items : List β) : Tame (items.mapM f) := by
  induction items with
  | nil => exact Tame.pure []
  | cons item rest ih =>
    rw [List.mapM_cons]
    infer_instance

/-! ## Primitives -/

instance ofEndless (a : Option α) : Tame (Core.ofEndless a) := by
  cases a <;> unfold Core.ofEndless <;> infer_instance

instance typeName (v : Value) : Tame (Core.typeName v) :=
  .get (fun _ _ => by simp only [Store.typeName_prune]) fun _ => inferInstance

instance inspect (v : Value) : Tame (Core.inspect v) :=
  .get (fun _ _ => by simp only [Store.inspect?_prune]) fun _ => inferInstance

instance display (v : Value) : Tame (Core.display v) :=
  .get (fun _ _ => by simp only [Store.display?_prune]) fun _ => inferInstance

instance equal (a b : Value) : Tame (Core.equal a b) :=
  .get (fun _ _ => by simp only [Store.equal?_prune]) fun _ => inferInstance

instance newArray (items : Array Value) : Tame (Core.newArray items) :=
  .modifyGet (fun _ => ⟨_, _, _, rfl⟩) fun _ _ => rfl

instance newHash (entries : Table Key Value) : Tame (Core.newHash entries) :=
  .modifyGet (fun _ => ⟨_, _, _, rfl⟩) fun _ _ => rfl

instance answer (v : Value) : Tame (Core.answer v) := Tame.pure _

instance answerBool (b : Bool) : Tame (Core.answerBool b) := Tame.pure _

instance answerInt (n : Nat) : Tame (Core.answerInt n) := Tame.pure _

instance answerText (t : String) : Tame (Core.answerText t) := Tame.pure _

instance answerArray (items : Array Value) : Tame (Core.answerArray items) :=
  Tame.bind (Core.newArray items) Core.answer

instance expectArgs (name : String) (args : List Value) (count : Nat) :
    Tame (Core.expectArgs name args count) := by
  unfold Core.expectArgs
  split
  · infer_instance
  · exact .raise rfl

instance onlyArg (name : String) (args : List Value) : Tame (Core.onlyArg name args) := by
  unfold Core.onlyArg
  split
  · infer_instance
  · exact .raise rfl

instance intArg (args : List Value) (position : Nat) : Tame (Core.intArg args position) := by
  unfold Core.intArg
  split
  · infer_instance
  · exact .after fun _ => .raise rfl
  · exact .raise rfl

instance keyOf (v : Value) : Tame (Core.keyOf v) := by
  unfold Core.keyOf
  split
  · infer_instance
  · exact .after fun _ => .raise rfl

/-! ## Numbers -/

theorem ofFault (h : Plain a) : Tame (Core.ofFault a) := by
  cases a with
  | ok a => exact Tame.pure a
  | error f => exact .raise (h f rfl)

instance binary (left right : Value) (op : Operator) : Tame (Core.binary left right op) := by
  unfold Core.binary
  split
  · have (a b : Int64) := ofFault (Plain.onIntegers a b op)
    infer_instance
  · split
    · infer_instance
    · split
      · infer_instance
      · exact .after fun _ => .after fun _ => .raise rfl

instance intMethod (i : Int64) (name : String) (args : List Value) :
    Tame (Core.intMethod i name args) := by
  have hfit (x : Int) := ofFault (Plain.fitInt x)
  unfold Core.intMethod
  split <;> infer_instance

instance floatMethod (x : Float) (name : String) : Tame (Core.floatMethod x name) := by
  unfold Core.floatMethod
  split <;> infer_instance

instance numberMethod (receiver : Value) (name : String) (args : List Value) :
    Tame (Core.numberMethod receiver name args) := by
  unfold Core.numberMethod
  cases receiver
  all_goals
    simp only
    split
    · split
      · -- an operator that does not apply leaves the name to the type's own methods
        exact .after fun reply => by split <;> infer_instance
      · infer_instance
    · infer_instance

/-! ## Texts -/

instance textMethod (text name : String) (args : List Value) :
    Tame (Core.textMethod text name args) := by
  unfold Core.textMethod
  split
  all_goals try infer_instance
  -- left are `+`, `*` and `include?`, which refuse some of their arguments
  · refine .after fun other => ?_
    split
    · infer_instance
    · exact .after fun _ => .raise rfl
  · refine .after fun count => ?_
    have : Tame (Core.raise .negativeCount : Core Unit) := .raise rfl
    cases Text.repeat? text count.toInt.toNat <;> simp only <;> infer_instance
  · split
    · infer_instance
    · exact .raise rfl

instance symbolMethod (symbol name : String) : Tame (Core.symbolMethod symbol name) := by
  unfold Core.symbolMethod
  split <;> infer_instance

instance nilMethod (name : String) : Tame (Core.nilMethod name) := by
  unfold Core.nilMethod
  split <;> infer_instance

/-! ## Arrays and hashes -/

instance items (id : ArrayId) : Tame (Core.items id) := .get (fun _ _ => rfl) fun _ => inferInstance

instance itemList (id : ArrayId) : Tame (Core.itemList id) := by
  unfold Core.itemList
  infer_instance

/-- A change of one array. -/
instance modifyArray (id : ArrayId) (f : Array Value → Array Value) :
    Tame (modify (·.modifyArray id f) : Core Unit) :=
  .modifyGet (fun _ => ⟨_, _, _, rfl⟩) fun _ _ => rfl

instance modifyHash (id : HashId) (f : Table Key Value → Table Key Value) :
    Tame (modify (·.modifyHash id f) : Core Unit) :=
  .modifyGet (fun _ => ⟨_, _, _, rfl⟩) fun _ _ => rfl

instance write (text : String) : Tame (modify (·.write text) : Core Unit) :=
  .modifyGet (fun _ => ⟨_, _, _, rfl⟩) fun _ _ => rfl

instance readItems (items : Array Value) (args : List Value) :
    Tame (Core.readItems items args) := by
  unfold Core.readItems
  refine .after fun start => ?_
  split
  · infer_instance
  · refine .after fun count => ?_
    split <;> infer_instance
  · exact .raise rfl

instance writeItem (id : ArrayId) (args : List Value) : Tame (Core.writeItem id args) := by
  have hposition (size : Nat) (i : Int64) := ofFault (Plain.writePosition size i)
  unfold Core.writeItem
  infer_instance

instance joinItems (id : ArrayId) (args : List Value) : Tame (Core.joinItems id args) := by
  unfold Core.joinItems
  cases args <;> infer_instance

instance sumItems (id : ArrayId) : Tame (Core.sumItems id) := by
  unfold Core.sumItems
  refine .after fun all => ?_
  split
  · infer_instance
  · exact .raise (Plain.sumOnto ‹_›)
  · exact .after fun _ => .raise rfl

instance arrayMethod (id : ArrayId) (name : String) (args : List Value) :
    Tame (Core.arrayMethod id name args) := by
  unfold Core.arrayMethod
  split
  all_goals try infer_instance
  -- left are `include?`, which compares with what is in the store, `+`, `inject` and `reduce`
  · refine .after fun v => .after fun all => ?_
    exact .get (fun _ _ => by simp only [Store.anyEqual?_prune]) fun _ => inferInstance
  · split
    · infer_instance
    · exact .raise rfl
  · cases args <;> infer_instance
  · cases args <;> infer_instance

instance pairs (entries : Table Key Value) : Tame (Core.pairs entries) :=
  .modifyGet (Store.Works.newPairs _) fun keep s => s.newPairs_prune keep _

instance hashMethod (id : HashId) (name : String) (args : List Value) :
    Tame (Core.hashMethod id name args) := by
  unfold Core.hashMethod
  refine .get (fun _ _ => rfl) fun s => ?_
  split
  all_goals try infer_instance
  -- `merge` looks at the store a second time, for the other hash
  split
  · exact .get (fun _ _ => rfl) fun _ => inferInstance
  · exact .raise rfl

/-! ## Every value -/

instance closureMethod (id : ClosureId) (name : String) (args : List Value) :
    Tame (Core.closureMethod id name args) := by
  unfold Core.closureMethod
  split
  all_goals try infer_instance
  exact .get (fun _ _ => by simp) fun _ => inferInstance

instance classMethod (id : ClassId) (name : String) (args : List Value) :
    Tame (Core.classMethod id name args) := by
  unfold Core.classMethod
  refine .get (fun _ _ => rfl) fun s => ?_
  split
  all_goals try infer_instance
  exact .after fun _ => .after fun _ => .get (fun _ _ => by simp) fun _ => inferInstance

instance typedMethod (receiver : Value) (name : String) (args : List Value) :
    Tame (Core.typedMethod receiver name args) := by
  cases receiver <;> simp only [Core.typedMethod] <;> infer_instance

theorem writeEach {show? : Store → Value → Option String}
    (h : ∀ keep s v, show? (s.prune keep) v = show? s v) (after : String) (args : List Value) :
    Tame (Core.writeEach show? after args) := by
  have (v : Value) : Tame (do
      let text ← Core.ofEndless (show? (← MonadState.get) v)
      modify (·.write (text ++ after)) : Core Unit) :=
    .get (fun _ _ => by simp only [h]) fun _ => inferInstance
  unfold Core.writeEach
  infer_instance

instance commonMethod (caller : Frame) (receiver : Value) (name : String) (args : List Value)
    (block : Option ClosureId) : Tame (Core.commonMethod caller receiver name args block) := by
  have hlines := writeEach Store.lines?_prune "" args
  have hdisplay := writeEach Store.display?_prune "" args
  have hinspect := writeEach Store.inspect?_prune "\n" args
  unfold Core.commonMethod
  split
  all_goals try infer_instance
  -- left are `p`, `proc`, `send` under its two names, `respond_to?` and `class`
  · refine .after fun _ => ?_
    split <;> infer_instance
  · split
    · infer_instance
    · exact .raise rfl
  · split
    · infer_instance
    · infer_instance
    · exact .raise rfl
  · split
    · infer_instance
    · infer_instance
    · exact .raise rfl
  · refine .after fun v => .after fun text => ?_
    split
    · exact .get (fun _ _ => by simp) fun _ => inferInstance
    · infer_instance
  · split
    · exact .get (fun _ _ => rfl) fun _ => inferInstance
    · infer_instance

instance method (caller : Frame) (receiver : Value) (name : String) (args : List Value)
    (block : Option ClosureId) : Tame (Core.method caller receiver name args block) := by
  unfold Core.method
  exact .after fun reply => by split <;> infer_instance

end Tame

end Core

end BlockLang
