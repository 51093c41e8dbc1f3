import BlockLang.Proofs.Core.Tidy
import BlockLang.Proofs.Machine.Reach

/-!
# Tidy machines

A machine is tidy if its store is, and all the values that it works on are of the store
(`Machine.Tidy`). **A step of a tidy machine leads to a tidy machine** (`Setting.tidy_step`), with a
lemma for each part of a step. If the store is to stay untied, no core method may be called that puts
something into its receiver that leads to the receiver (`CoreCall.Ties`); what a step can call is read
off the machine before it (`Machine.coreCall?`).
-/

namespace BlockLang

open List AllIn Store

/-! ## The values in a machine -/

def Exit.values : Exit → List Value
  | breakWith _ v | nextWith v | returnWith _ v => [v]
  | redo | retry | raise _ => []

def Purpose.isSuper : Purpose → Bool
  | super _ _ => true
  | array | call _ _ _ | yield => false

def Purpose.values : Purpose → List Value
  | call receiver _ _ => [receiver]
  | array | super _ _ | yield => []

/-- The values in a continuation. -/
def Cont.values : Cont → List Value
  | operand _ purpose done _ _ => purpose.values ++ done
  | hashKey _ done _ _ => done.values
  | hashValue _ done key _ => key :: done.values
  | castAnswer v | guardAnswer v | construct v => [v]
  | callBlock _ target _ args => target :: args
  | superBlock _ args _ => args
  | iterate _ iteration => iteration.values
  | _ => []

/-- Something is shown or compared that has no end. -/
def Control.isEndless : Control → Bool
  | halt c => c == .endlessValue
  | eval _ _ | call _ _ _ _ _ | give _ | leave _ => false

def Control.values : Control → List Value
  | call _ receiver _ args _ => receiver :: args
  | give v => [v]
  | leave e => e.values
  | eval _ _ | halt _ => []

/-- All the values on the stack are of the store. -/
def AllOn (s : Store) (stack : List Cont) : Prop := ∀ k ∈ stack, AllIn s k.values

/-- The store is tidy, and the machine works on values of it. If the store is untied, nothing is shown
or compared without end. -/
structure Machine.Tidy (m : Machine) (o : Store.Origin) : Prop where
  store : m.store.Tidy o
  stack : AllOn m.store m.stack
  control : AllIn m.store m.control.values
  ends : o.untied → m.control.isEndless = false

theorem AllOn.push {s : Store} {stack : List Cont} {k : Cont} (h : AllOn s stack)
    (hk : AllIn s k.values) : AllOn s (k :: stack) :=
  forall_mem_cons.mpr ⟨hk, h⟩

theorem Store.Extends.allOn {s : Store} {stack : List Cont} (h : s.Extends t)
    (hs : AllOn s stack) : AllOn t stack :=
  fun k hk => h.allIn (hs k hk)

/-! ## Calls of core methods -/

/-- A call of a core method. -/
structure CoreCall where
  store : Store
  receiver : Value
  name : String
  args : List Value

/-- The method puts something into its receiver that leads to the receiver. -/
def CoreCall.Ties (call : CoreCall) : Prop :=
  call.store.Ties call.receiver call.name call.args

/-- The call, if there is one, puts nothing into itself. -/
def NoTie (call? : Option CoreCall) : Prop := ∀ call, call? = some call → ¬ call.Ties

namespace Store

variable (s : Store)

/-- A call is of a core method if the program does not define the method. -/
def coreCall? (receiver : Value) (name : String) (args : List Value) : Option CoreCall :=
  match s.findMethod? (s.classOf receiver) name with
  | some _ => none
  | none => some ⟨s, receiver, name, args⟩

/-- `super` is of a core method if the program does not define the method further up. -/
def coreSuper? (frame : FrameId) (args : List Value) : Option CoreCall :=
  (s.frame frame).invocation.bind fun invocation =>
    match s.findAbove? invocation.owner invocation.name with
    | some _ => none
    | none => some ⟨s, (s.frame frame).self, invocation.name, args⟩

/-- `super` with no block is called when it has the last of its operands. -/
def coreOperands? (frame : FrameId) (done : List Value) : Purpose → List Code → Option CoreCall
  | .super none _, [] => s.coreSuper? frame done
  | _, _ => none

end Store

/-- The core method that the next step calls. -/
def Machine.coreCall? : Machine → Option CoreCall
  | ⟨s, _, _, .call _ receiver name args _⟩ => s.coreCall? receiver name args
  | ⟨s, _, _, .eval frame (.super args block forwardBlock)⟩ =>
    s.coreOperands? frame [] (.super block forwardBlock) args
  | ⟨s, _, .operand frame purpose done false rest :: _, .give v⟩ =>
    s.coreOperands? frame (done ++ [v]) purpose rest
  | ⟨s, _, .operand frame purpose done true rest :: _, .give v⟩ =>
    (s.spread v).2.coreOperands? frame (done ++ (s.spread v).1) purpose rest
  | ⟨s, _, .superBlock frame args _ :: _, .give v⟩ => v.asBlock?.bind fun _ => s.coreSuper? frame args
  | _ => none

/-! ## Reading variables and arguments -/

namespace Store.Tidy

variable {o : Origin} {s : Store}

theorem instanceVar (h : s.Tidy o) (self : Value) (name : String) : (s.instanceVar self name).In s := by
  cases self with
  | object id => exact (cons_iff.mp (h.objects id)).2.get? name
  | classRef id => exact (append_iff.mp (h.classes id)).2.get? name
  | _ => trivial

theorem classVar (h : s.Tidy o) (id : ClassId) (name : String) :
    ((s.classVar? id name).getD .nil).In s := by
  cases hv : s.classVar? id name with
  | none => trivial
  | some v =>
    obtain ⟨owner, _, hget⟩ := exists_of_findSome?_eq_some hv
    exact (append_iff.mp (h.classes owner)).1 v (Table.mem_values_of_get? hget)

theorem carrier (h : s.Tidy o) {args : List Value}
    (hcarrier : s.carrier? args required = some entries) : AllIn s entries.values := by
  unfold carrier? at hcarrier
  split at hcarrier
  · cases hcarrier
  · split at hcarrier <;> cases hcarrier
    exact h.hash _

theorem keywordArgument (h : s.Tidy o) {args : List Value} {name : String} {v : Value}
    (hv : s.keywordArgument? args name required = some v) : v.In s := by
  obtain ⟨entries, hcarrier, hget⟩ := Option.bind_eq_some_iff.mp hv
  exact h.carrier hcarrier v (Table.mem_values_of_get? hget)

theorem keywordRest (h : s.Tidy o) (args : List Value) (required : Nat) (excluded : List String) :
    AllIn s (s.keywordRest args required excluded).values := by
  unfold Store.keywordRest
  split
  · exact .nil
  · rename_i hcarrier
    exact (h.carrier hcarrier).subset (map_subset _ (filter_subset_self _))

theorem spread (h : s.Tidy o) {v : Value} (hv : v.In s) :
    (s.spread v).2.Tidy o ∧ s.Extends (s.spread v).2 ∧ AllIn (s.spread v).2 (s.spread v).1 := by
  cases v with
  | nil => exact ⟨h, .refl s, .nil⟩
  | array id => exact ⟨h, .refl s, h.array id⟩
  | hash id => exact h.newPairs (h.hash id)
  | _ => exact ⟨h, .refl s, cons_iff.mpr ⟨hv, .nil⟩⟩

end Store.Tidy

namespace AllIn

variable {s : Store} {args : List Value}

theorem argument (h : AllIn s args) (i : Nat) (missing : MissingArgument) :
    (∀ v, Store.argument args i missing = .ok v → v.In s) ∧
      Store.argument args i missing ≠ .error (.crash .endlessValue) := by
  unfold Store.argument
  split
  · rename_i v hv
    refine ⟨fun w hw => ?_, by simp⟩
    cases hw
    exact h v (mem_of_getElem? hv)
  · exact ⟨fun w hw => by cases hw; trivial, by simp⟩
  · refine ⟨by simp, fun hcrash => ?_⟩
    split at hcrash <;> cases hcrash

theorem postArgument (h : AllIn s args) (fromEnd forward minimum : Nat) (keywords : Bool)
    (required : Nat) :
    (∀ v, s.postArgument args fromEnd forward minimum keywords required = .ok v → v.In s) ∧
      s.postArgument args fromEnd forward minimum keywords required ≠ .error .endlessValue := by
  have hpositional (n : Nat) : AllIn s (args.take n) := h.subset (take_subset _ _)
  unfold Store.postArgument
  simp only
  split
  · exact ⟨fun v hv => by cases hv; exact (hpositional _).getD _, by simp⟩
  · split
    · exact ⟨by simp, by simp⟩
    · exact ⟨fun v hv => by cases hv; exact (hpositional _).getD _, by simp⟩

end AllIn

/-! ## Iterations -/

namespace Iteration

variable {o : Origin} {s : Store} {iteration : Iteration} (h : AllIn s iteration.values)

include h

theorem allIn_args {args : List Value} (hargs : iteration.args? = some args) : AllIn s args := by
  cases iteration with
  | count next last result =>
    simp only [args?] at hargs
    split at hargs <;> cases hargs
    exact cons_iff.mpr ⟨trivial, .nil⟩
  | each rest result =>
    refine (cons_iff.mp h).2.subset fun v hv => ?_
    exact mem_flatten.mpr ⟨args, mem_of_head? hargs, hv⟩
  | collect rest | keep rest =>
    obtain ⟨item, hitem, rfl⟩ := Option.map_eq_some_iff.mp hargs
    exact cons_iff.mpr ⟨(append_iff.mp h).1 item (mem_of_head? hitem), .nil⟩
  | fold answer rest =>
    obtain ⟨item, hitem, rfl⟩ := Option.map_eq_some_iff.mp hargs
    have h := cons_iff.mp h
    exact cons_iff.mpr ⟨h.1, cons_iff.mpr ⟨h.2 item (mem_of_head? hitem), .nil⟩⟩
  | forever =>
    cases hargs
    exact .nil

theorem allIn_absorb (hanswer : answer.In s) : AllIn s (iteration.absorb answer).values := by
  cases iteration with
  | count next last result => exact h
  | each rest result =>
    refine h.subset (cons_subset_cons _ ?_)
    cases rest with
    | nil => exact List.Subset.refl _
    | cons => exact subset_append_right _ _
  | collect rest answers =>
    have h := append_iff.mp h
    refine append_iff.mpr ⟨h.1.subset (tail_subset _), ?_⟩
    rw [Array.toList_push]
    exact append_iff.mpr ⟨h.2, cons_iff.mpr ⟨hanswer, .nil⟩⟩
  | keep rest kept =>
    cases rest with
    | nil => exact h
    | cons item rest =>
      have h := append_iff.mp h
      have hitem := cons_iff.mp h.1
      refine append_iff.mpr ⟨hitem.2, ?_⟩
      split
      · rw [Array.toList_push]
        exact append_iff.mpr ⟨h.2, cons_iff.mpr ⟨hitem.1, .nil⟩⟩
      · exact h.2
  | fold _ rest =>
    exact cons_iff.mpr ⟨hanswer, (cons_iff.mp h).2.subset (tail_subset _)⟩
  | forever => exact .nil

theorem tidy_result (hs : s.Tidy o) : (iteration.result s).2.Tidy o ∧ s.Extends (iteration.result s).2 ∧
    (iteration.result s).1.In (iteration.result s).2 := by
  cases iteration with
  | count next last result | each rest result | fold answer rest =>
    exact ⟨hs, .refl s, (cons_iff.mp h).1⟩
  | collect rest items | keep rest items =>
    exact ⟨hs.newArray (append_iff.mp h).2, extends_newArray _, in_newArray _⟩
  | forever => exact ⟨hs, .refl s, trivial⟩

end Iteration

namespace Setting

section

variable {σ : Setting} {o : Origin} {s : Store} {depth : Nat} {stack : List Cont} {e : Exit}
  {f : Fault} {v receiver : Value} {args done : List Value} {name : String} {frame : FrameId}
  {id : BodyId} {block : Option ClosureId} {k : Cont} {code : Code} {purpose : Purpose}
  {codes : List Code} (h : s.Tidy o) (hs : AllOn s stack)

include h hs

theorem tidy_giving (hv : v.In s) : (giving s depth stack v).Tidy o :=
  ⟨h, hs, cons_iff.mpr ⟨hv, .nil⟩, fun _ => rfl⟩

theorem tidy_leaving (he : AllIn s e.values) : (leaving s depth stack e).Tidy o :=
  ⟨h, hs, he, fun _ => rfl⟩

theorem tidy_raising : (raising s depth stack f).Tidy o :=
  ⟨h, hs, .nil, fun _ => rfl⟩

theorem tidy_halting (hc : o.untied → c ≠ .endlessValue) : (halting s depth stack c).Tidy o :=
  ⟨h, hs, .nil, fun hu => beq_eq_false_iff_ne.mpr (hc hu)⟩

theorem tidy_evaluating : (evaluating s depth stack frame code).Tidy o :=
  ⟨h, hs, .nil, fun _ => rfl⟩

theorem tidy_next (hk : AllIn s k.values) : (evaluating s depth (k :: stack) frame code).Tidy o :=
  tidy_evaluating h (hs.push hk)

omit h in
theorem tidy_givingNew (hmade : made.2.Tidy o) (hext : s.Extends made.2) (hv : made.1.In made.2) :
    (givingNew depth stack made).Tidy o :=
  tidy_giving hmade (hext.allOn hs) hv

theorem tidy_newArray {items : Array Value} (hitems : AllIn s items.toList) :
    (givingNew depth stack (s.newArray items)).Tidy o :=
  tidy_givingNew hs (h.newArray hitems) (extends_newArray _) (in_newArray _)

theorem tidy_newHash {entries : Table Key Value} (hentries : AllIn s entries.values) :
    (givingNew depth stack (s.newHash entries)).Tidy o :=
  tidy_givingNew hs (h.newHash hentries) (extends_newHash _) (in_newHash _)

/-! ## Calls -/

theorem tidy_enter {frame : Frame} (hself : frame.self.In s)
    (harguments : AllIn s frame.arguments) (hslots : frame.slots = blankSlots n) :
    (evaluating (s.newFrame frame).2 depth stack (s.newFrame frame).1 code).Tidy o := by
  have hblank : AllIn s frame.slots.toList := by
    rw [hslots, blankSlots, Array.toList_replicate]
    intro v hv
    rw [eq_of_mem_replicate hv]
    trivial
  refine tidy_evaluating (h.newFrame ?_) hs
  exact cons_iff.mpr ⟨hself, append_iff.mpr ⟨harguments, hblank⟩⟩

theorem tidy_invokeMethod (hreceiver : receiver.In s) (hargs : AllIn s args) :
    (σ.invokeMethod s depth stack receiver owner id name args block).Tidy o := by
  unfold invokeMethod
  split
  · exact tidy_raising h hs
  · split
    · exact tidy_raising h hs
    · exact tidy_enter h (hs.push .nil) hreceiver hargs rfl

theorem tidy_invokeClosure {id : ClosureId} (hargs : AllIn s args) :
    (σ.invokeClosure s depth stack id args block).Tidy o := by
  unfold invokeClosure
  simp only
  split
  · exact tidy_raising h hs
  · split
    · exact tidy_raising h hs
    · exact tidy_enter h (hs.push .nil) (h.closures id) hargs rfl

theorem tidy_invokeBlock (hargs : AllIn s args) : (σ.invokeBlock s depth stack block args).Tidy o := by
  cases block with
  | none => exact tidy_raising h hs
  | some id => exact tidy_invokeClosure h hs hargs

theorem tidy_iterate {iteration : Iteration} (hvalues : AllIn s iteration.values) :
    (σ.iterate s depth stack block iteration).Tidy o := by
  unfold iterate
  split
  · rename_i hargs
    exact tidy_invokeBlock h (hs.push (k := .iterate block iteration) hvalues)
      (Iteration.allIn_args hvalues hargs)
  · obtain ⟨hmade, hext, hv⟩ := Iteration.tidy_result hvalues h
    exact tidy_givingNew hs hmade hext hv

theorem tidy_construct {id : ClassId} (hid : (Value.classRef id).In s) (hargs : AllIn s args) :
    (σ.construct s depth stack id args block).Tidy o := by
  have hnew := h.newObject hid
  unfold construct
  simp only
  split
  · exact tidy_raising h hs
  · split
    · have hobject : (s.newObject id).1.In (s.newObject id).2 := trivial
      exact tidy_invokeMethod hnew
        (AllOn.push (k := .construct _) hs (cons_iff.mpr ⟨hobject, .nil⟩)) hobject hargs
    · split
      · exact tidy_giving hnew hs trivial
      · exact tidy_raising hnew hs

theorem tidy_callCore (hreceiver : receiver.In s) (hargs : AllIn s args)
    (hno : o.untied → ¬ s.Ties receiver name args) :
    (σ.callCore s depth stack frame receiver name label args block).Tidy o := by
  obtain ⟨htidy, hext, hresult, hends⟩ :=
    Core.Keeps.method h (s.frame frame) hreceiver hargs block hno
  have hstack := hext.allOn hs
  unfold callCore
  generalize (Core.method (s.frame frame) receiver name args block).run.run s = done at *
  obtain ⟨result, t⟩ := done
  rcases result with (f | c) | _ | reply
  · exact tidy_raising htidy hstack
  · exact tidy_halting htidy hstack fun hu heq => hends hu (heq ▸ rfl)
  · exact tidy_raising htidy hstack
  · have hvalues : AllIn t reply.values := hresult _ rfl reply rfl
    cases reply with
    | value v => exact tidy_giving htidy hstack (cons_iff.mp hvalues).1
    | iterate iteration => exact tidy_iterate htidy hstack hvalues
    | apply id args => exact tidy_invokeClosure htidy hstack hvalues
    | construct id args =>
      obtain ⟨hid, hargs⟩ := cons_iff.mp hvalues
      exact tidy_construct htidy hstack hid hargs
    | send method args =>
      exact ⟨htidy, hstack, cons_iff.mpr ⟨hext.in hreceiver, hvalues⟩, fun _ => rfl⟩

theorem tidy_call (hreceiver : receiver.In s) (hargs : AllIn s args)
    (hno : o.untied → NoTie (s.coreCall? receiver name args)) :
    (σ.call s depth stack frame receiver name args block).Tidy o := by
  unfold call
  split
  · exact tidy_invokeMethod h hs hreceiver hargs
  · rename_i hnone
    have hcall : s.coreCall? receiver name args = some ⟨s, receiver, name, args⟩ := by
      rw [coreCall?, hnone]
    exact tidy_callCore h hs hreceiver hargs fun hu => hno hu _ hcall

theorem tidy_callSuper (hargs : AllIn s args) (hno : o.untied → NoTie (s.coreSuper? frame args)) :
    (σ.callSuper s depth stack frame args block).Tidy o := by
  unfold callSuper
  simp only
  split
  · exact tidy_raising h hs
  · rename_i invocation hinvocation
    split
    · exact tidy_invokeMethod h hs (h.self frame) hargs
    · rename_i hnone
      have hcall : s.coreSuper? frame args = some ⟨s, (s.frame frame).self, invocation.name, args⟩ := by
        simp [coreSuper?, hinvocation, hnone]
      exact tidy_callCore h hs (h.self frame) hargs fun hu => hno hu _ hcall

/-! ## Parts of code -/

theorem tidy_operands (hpurpose : AllIn s purpose.values) (hdone : AllIn s done)
    (hno : o.untied → NoTie (s.coreOperands? frame done purpose codes)) :
    (σ.operands s depth stack frame purpose done codes).Tidy o := by
  have hnext (spread : Bool) (rest : List Code) :
      AllIn s (Cont.operand frame purpose done spread rest).values :=
    append_iff.mpr ⟨hpurpose, hdone⟩
  unfold operands
  split
  · exact tidy_next h hs (hnext _ _)
  · exact tidy_next h hs (hnext _ _)
  · split
    · exact tidy_newArray h hs hdone
    · exact ⟨h, hs, cons_iff.mpr ⟨(cons_iff.mp hpurpose).1, hdone⟩, fun _ => rfl⟩
    · exact tidy_next h hs (k := .callBlock ..) (cons_iff.mpr ⟨(cons_iff.mp hpurpose).1, hdone⟩)
    · exact tidy_callSuper h hs hdone hno
    · exact tidy_next h hs (k := .superBlock ..) hdone
    · exact tidy_invokeBlock h hs hdone

theorem tidy_operands_of_ne (hpurpose : AllIn s purpose.values) (hne : purpose.isSuper = false)
    (hdone : AllIn s done) : (σ.operands s depth stack frame purpose done codes).Tidy o := by
  refine tidy_operands h hs hpurpose hdone fun _ call hcall => ?_
  cases purpose with
  | super => cases hne
  | array | call | yield => cases hcall

theorem tidy_entries {done : Table Key Value} (hdone : AllIn s done.values) :
    (entries s depth stack frame done rest).Tidy o := by
  unfold entries
  split
  · exact tidy_newHash h hs hdone
  · exact tidy_next h hs (k := .hashKey ..) hdone

theorem tidy_items : (items s depth stack frame codes).Tidy o := by
  unfold items
  split
  · exact tidy_giving h hs trivial
  · exact tidy_evaluating h hs
  · exact tidy_next h hs .nil

theorem tidy_runClass (hclass : (Value.classRef classId).In s) :
    Machine.Tidy (match σ.unit.body? id with
      | none => raising s depth stack (.unknownBody id)
      | some body =>
        let (frame, s) := s.newFrame {
          body := id, self := .classRef classId, definee := classId,
          slots := blankSlots body.slots.length }
        evaluating s depth stack frame body.code) o := by
  split
  · exact tidy_raising h hs
  · exact tidy_enter h hs hclass .nil rfl

theorem tidy_openClass (hsuper : ∀ above, superclass = some above → above < s.classes.size) :
    (σ.openClass s depth stack name superclass isModule id).Tidy o := by
  unfold openClass
  cases hknown : s.constants.get? name with
  | some known =>
    exact tidy_runClass h hs (h.constants known (Table.mem_values_of_get? hknown))
  | none =>
    have habove : ∀ above, (if isModule then none else some (superclass.getD objectClass)) =
        some above → above < s.classes.size := by
      intro above heq
      cases isModule with
      | true => cases heq
      | false =>
        cases heq
        cases superclass with
        | none => exact h.root
        | some above => exact hsuper above rfl
    refine tidy_runClass (h.newClass .nil habove) ((extends_newClass _).allOn hs) ?_
    simp [Value.In, newClass]

theorem tidy_cast (hv : v.In s) : (cast s depth stack frame onNil v).Tidy o := by
  have hone : AllIn s [v] := cons_iff.mpr ⟨hv, .nil⟩
  unfold cast
  split
  · cases onNil with
    | arrayWithNil => exact tidy_newArray h hs hone
    | emptyArray => exact tidy_newArray h hs .nil
  · exact tidy_newArray h hs (h.array _)
  · split
    · exact ⟨h, hs.push (k := .castAnswer v) hone, hone, fun _ => rfl⟩
    · exact tidy_newArray h hs hone

theorem tidy_shouldDestructure : (shouldDestructure s depth stack frame).Tidy o := by
  unfold shouldDestructure
  split
  · exact tidy_giving h hs trivial
  · rename_i v _ hargs
    have hone : AllIn s [v] := hargs ▸ h.arguments frame
    split
    · exact ⟨h, hs.push (k := .guardAnswer v) hone, hone, fun _ => rfl⟩
    · exact tidy_giving h hs trivial
  · exact tidy_giving h hs trivial

theorem tidy_newClosure : (σ.newClosure s depth stack frame id lambda).Tidy o := by
  unfold newClosure
  split
  · exact tidy_raising h hs
  · exact tidy_givingNew hs (h.newClosure (h.self frame)) (extends_newClosure _) trivial

/-! ## Steps -/

theorem tidy_eval (hno : o.untied → NoTie (evaluating s depth stack frame code).coreCall?) :
    (σ.eval s depth stack frame code).Tidy o := by
  have hargs := h.arguments frame
  cases code with
  | nil | bool | integer | float | text | symbol => exact tidy_giving h hs trivial
  | self => exact tidy_giving h hs (h.self frame)
  | array items =>
    rw [eval]
    exact tidy_operands_of_ne h hs .nil rfl .nil
  | hash pairs => exact tidy_entries h hs .nil
  | splat | ifElse | and | or | not | elidable | writeLocal | writeInstanceVar | writeClassVar
  | writeGlobal | index | slice | atLeast | splatCast | isNil | catchBreak | breakWith | nextWith
  | returnWith =>
    exact tidy_next h hs .nil
  | sequence codes => exact tidy_items h hs
  | readLocal source =>
    simp only [eval]
    split
    · exact tidy_giving h hs (h.slot _ _)
    · exact tidy_raising h hs
  | readInstanceVar name => exact tidy_giving h hs (h.instanceVar _ name)
  | readClassVar name => exact tidy_giving h hs (h.classVar _ name)
  | readGlobal name => exact tidy_giving h hs (h.globals.get? name)
  | constant name =>
    simp only [eval]
    split
    · rename_i id hid
      exact tidy_giving h hs (h.constants id (Table.mem_values_of_get? hid))
    · exact tidy_raising h hs
  | checkArity arity =>
    simp only [eval]
    split
    · exact tidy_giving h hs trivial
    · exact tidy_raising h hs
  | argument i missing =>
    have hargument := hargs.argument i missing
    simp only [eval]
    split
    · rename_i hv
      exact tidy_giving h hs (hargument.1 _ hv)
    · exact tidy_raising h hs
    · rename_i hcrash
      exact tidy_halting h hs fun _ heq => hargument.2 (heq ▸ hcrash)
  | optionalArgument i minimum keywords required default =>
    simp only [eval]
    split
    · exact tidy_giving h hs (hargs.getD i)
    · exact tidy_evaluating h hs
  | restArgument start post keywords required =>
    refine (tidy_newArray h hs (hargs.subset ?_))
    exact List.Subset.trans (drop_subset _ _) (take_subset _ _)
  | postArgument fromEnd forward minimum keywords required =>
    have hargument := hargs.postArgument fromEnd forward minimum keywords required
    simp only [eval]
    split
    · rename_i hv
      exact tidy_giving h hs (hargument.1 _ hv)
    · rename_i hcrash
      exact tidy_halting h hs fun _ heq => hargument.2 (heq ▸ hcrash)
  | keywordArgument name required default =>
    simp only [eval]
    split
    · rename_i hv
      exact tidy_giving h hs (h.keywordArgument hv)
    · exact tidy_evaluating h hs
  | keywordRestArgument required excluded =>
    exact tidy_newHash h hs (h.keywordRest _ required excluded)
  | missingKeyword name => exact tidy_raising h hs
  | blockArgument =>
    have hblock (block : Option ClosureId) : ((block.map Value.closure).getD .nil).In s := by
      cases block <;> trivial
    exact tidy_giving h hs (hblock _)
  | shouldDestructure => exact tidy_shouldDestructure h hs
  | call receiver method args block =>
    cases receiver with
    | none =>
      have hself : AllIn s (Purpose.call (s.frame frame).self method block).values :=
        cons_iff.mpr ⟨h.self frame, .nil⟩
      exact tidy_operands_of_ne h hs hself rfl .nil
    | some receiver => exact tidy_next h hs .nil
  | super args block forwardBlock => exact tidy_operands h hs .nil .nil hno
  | yield args => exact tidy_operands_of_ne h hs .nil rfl .nil
  | closure body lambda => exact tidy_newClosure h hs
  | define name body =>
    have hext : s.Extends (s.define (s.frame frame).definee name body) :=
      extends_modifyClass _ fun _ => rfl
    exact tidy_giving (h.define _ name body) (hext.allOn hs) trivial
  | openClass name superclass isModule body =>
    cases superclass with
    | none => exact tidy_openClass h hs (by simp)
    | some superclass => exact tidy_next h hs .nil
  | loop condition body bodyFirst id =>
    have hcatch : AllOn s (.catchBreak id :: stack) := hs.push .nil
    simp only [eval]
    split
    · exact tidy_next h hcatch .nil
    · exact tidy_next h hcatch .nil
  | redo | retry => exact tidy_leaving h hs .nil

theorem tidy_resume (hv : v.In s) (hk : AllIn s k.values)
    (hno : o.untied → NoTie (giving s depth (k :: stack) v).coreCall?) :
    (σ.resume s depth stack v k).Tidy o := by
  have hone : AllIn s [v] := cons_iff.mpr ⟨hv, .nil⟩
  have hgive : (giving s depth stack v).Tidy o := tidy_giving h hs hv
  have hraise (f : Fault) : (raising s depth stack f).Tidy o := tidy_raising h hs
  cases k with
  | operand frame purpose done spread rest =>
    obtain ⟨hpurpose, hdone⟩ := append_iff.mp hk
    cases spread with
    | false => exact tidy_operands h hs hpurpose (append_iff.mpr ⟨hdone, hone⟩) hno
    | true =>
      obtain ⟨ht, hext, hall⟩ := h.spread hv
      exact tidy_operands ht (hext.allOn hs) (hext.allIn hpurpose)
        (append_iff.mpr ⟨hext.allIn hdone, hall⟩) hno
  | spreadArray =>
    obtain ⟨ht, hext, hall⟩ := h.spread hv
    exact tidy_newArray ht (hext.allOn hs) hall
  | hashKey frame done value rest =>
    exact tidy_next h hs (k := .hashValue ..) (cons_iff.mpr ⟨hv, hk⟩)
  | hashValue frame done key rest =>
    simp only [resume]
    split
    · rename_i key' _
      exact tidy_entries h hs ((cons_iff.mp hk).2.insert key' hv)
    · exact hraise _
  | sequence frame rest => exact tidy_items h hs
  | branch frame thenBranch elseBranch => exact tidy_evaluating h hs
  | andThen frame right =>
    simp only [resume]
    split
    · exact tidy_evaluating h hs
    · exact hgive
  | orElse frame right =>
    simp only [resume]
    split
    · exact hgive
    · exact tidy_evaluating h hs
  | negate | isNil => exact tidy_giving h hs trivial
  | writeLocal frame target =>
    simp only [resume]
    split
    · split
      · exact tidy_giving (h.setSlot _ _ hv) hs hv
      · exact tidy_halting h hs fun _ => by decide
    · exact hraise _
  | writeInstanceVar frame name =>
    have hext := extends_setInstanceVar (s := s) (s.frame frame).self name v
    simp only [resume]
    split
    · exact tidy_giving (h.setInstanceVar _ name hv) (hext.allOn hs) (hext.in hv)
    · exact hraise _
  | writeClassVar frame name =>
    have hext : s.Extends (s.setClassVar (s.frame frame).definee name v) :=
      extends_modifyClass _ fun _ => rfl
    exact tidy_giving (h.setClassVar _ name hv) (hext.allOn hs) (hext.in hv)
  | writeGlobal name => exact tidy_giving (h.setGlobal name hv) hs hv
  | index position =>
    simp only [resume]
    split
    · exact tidy_giving h hs (in_itemAt (h.array _) position)
    · exact hraise _
  | slice start endOffset =>
    simp only [resume]
    split
    · exact tidy_newArray h hs ((h.array _).extract _ _)
    · exact hraise _
  | atLeast size =>
    simp only [resume]
    split
    · exact tidy_giving h hs trivial
    · exact hraise _
  | splatCast frame onNil => exact tidy_cast h hs hv
  | castAnswer value =>
    simp only [resume]
    split
    · exact hgive
    · exact hgive
    · exact hraise _
  | guardAnswer value =>
    simp only [resume]
    split
    · exact tidy_giving h hs trivial
    · exact tidy_giving h hs trivial
    · exact hraise _
  | receiver frame method args block =>
    have hreceiver : AllIn s (Purpose.call v method block).values := hone
    exact tidy_operands_of_ne h hs hreceiver rfl .nil
  | callBlock frame receiver method args =>
    simp only [resume]
    split
    · exact ⟨h, hs, hk, fun _ => rfl⟩
    · exact hraise _
  | superBlock frame args forwardBlock =>
    simp only [resume]
    split
    · rename_i hblock
      exact tidy_callSuper h hs hk fun hu call hcall => hno hu call (by
        rw [giving, Machine.coreCall?, hblock]
        exact hcall)
    · exact hraise _
  | superclass name isModule body =>
    simp only [resume]
    split
    · refine tidy_openClass h hs fun above habove => ?_
      cases habove
      exact hv
    · exact hraise _
  | catchBreak | method | closure => exact tidy_giving h hs hv
  | loopTest frame condition body =>
    simp only [resume]
    split
    · exact tidy_next h hs .nil
    · exact tidy_giving h hs trivial
  | loopBody frame condition body => exact tidy_next h hs .nil
  | breakWith | nextWith | returnWith => exact tidy_leaving h hs hone
  | construct object => exact tidy_giving h hs (cons_iff.mp hk).1
  | iterate block iteration =>
    exact tidy_iterate h hs (Iteration.allIn_absorb hk hv)

omit h hs in
theorem in_closureResult? (he : AllIn s e.values) (hv : closureResult? body e = some v) :
    v.In s := by
  unfold closureResult? at hv
  split at hv
  · cases hv
    exact (cons_iff.mp he).1
  · split at hv <;> cases hv
    exact (cons_iff.mp he).1
  · split at hv <;> cases hv
    exact (cons_iff.mp he).1
  · cases hv

theorem tidy_unwind (he : AllIn s e.values) : (unwind s depth stack e k).Tidy o := by
  have hleave (depth : Nat) : (leaving s depth stack e).Tidy o := tidy_leaving h hs he
  unfold unwind
  split
  · split
    · split
      · exact tidy_giving h hs (cons_iff.mp he).1
      · exact hleave _
    · exact hleave _
  · split
    · exact tidy_next h hs .nil
    · exact tidy_next h hs .nil
    · exact hleave _
  · split
    · split
      · exact tidy_giving h hs (cons_iff.mp he).1
      · exact hleave _
    · exact hleave _
  · split
    · exact tidy_next h hs .nil
    · split
      · rename_i hv
        exact tidy_giving h hs (in_closureResult? he hv)
      · exact hleave _
  · exact hleave _

end

/-- **A step of a tidy machine leads to a tidy machine.** To stay untied, it may not call a core method
that puts something into itself. -/
theorem tidy_step {σ : Setting} {o : Origin} (hm : m.Tidy o)
    (hno : o.untied → NoTie m.coreCall?) (hstep : σ.step m = .next m') : m'.Tidy o := by
  obtain ⟨s, depth, stack, control⟩ := m
  obtain ⟨hstore, hstack, hcontrol, _⟩ := hm
  cases control with
  | eval frame code =>
    cases hstep
    exact tidy_eval hstore hstack hno
  | call frame receiver method args block =>
    cases hstep
    obtain ⟨hreceiver, hargs⟩ := cons_iff.mp hcontrol
    exact tidy_call hstore hstack hreceiver hargs hno
  | give v =>
    cases stack with
    | nil => cases hstep
    | cons k stack =>
      cases hstep
      have hstack := forall_mem_cons.mp hstack
      exact tidy_resume hstore hstack.2 (cons_iff.mp hcontrol).1 hstack.1 hno
  | leave e =>
    cases stack with
    | nil => cases hstep
    | cons k stack =>
      cases hstep
      exact tidy_unwind hstore (forall_mem_cons.mp hstack).2 hcontrol
  | halt c => cases hstep

theorem tidy_start (σ : Setting) {o : Origin} (h : session.store.Tidy o) :
    (σ.start session).Tidy o := by
  obtain ⟨store, depth⟩ := session
  have hempty : AllOn store [] := forall_mem_nil _
  unfold start
  simp only
  split
  · exact tidy_raising h hempty
  · exact tidy_enter h hempty (show mainObject.In store from trivial) .nil rfl

end Setting

end BlockLang
