import BlockLang.Machine.Arguments
import BlockLang.Value.Equality
import Mathlib.Tactic.Simps.Basic

/-!
# Links between frames

A closure may keep the frame that it was created in, and a frame of the closure's body is then
linked to it. `Store.prune` takes the links away that bodies do not ask for and leaves everything
else as it is.

**Nothing but the look-up of a variable goes along the links.** Every other question to the store
has the same answer after pruning, which is what the lemmas of this file say, one for each reader
and one for each writer. They are simplification lemmas: a reader of the pruned store becomes one
of the store, and pruning moves to the outside of a writer.
-/

namespace BlockLang

variable (keep : BodyId → Bool)

/-- The closure without its frame, unless its body keeps it. -/
@[simps]
def Closure.prune (c : Closure) : Closure :=
  { c with frame := if keep c.body then c.frame else none }

/-- The frame without its parent, unless its body keeps it. -/
@[simps]
def Frame.prune (f : Frame) : Frame :=
  { f with parent := if keep f.body then f.parent else none }

/-- The store without the links that `keep` does not ask for. -/
def Store.prune (s : Store) : Store :=
  { s with closures := s.closures.map (·.prune keep), frames := s.frames.map (·.prune keep) }

namespace Store

variable (s : Store)

/-! ## Readers -/

@[simp] theorem closure_prune (id : ClosureId) :
    (s.prune keep).closure id = (s.closure id).prune keep := by
  unfold closure prune
  rw [Array.getD_eq_getD_getElem?, Array.getD_eq_getD_getElem?, Array.getElem?_map]
  cases s.closures[id]? with
  | some c => rfl
  | none =>
    -- a closure that is not there keeps no frame
    show default = Closure.prune keep default
    rw [Closure.prune, show (default : Closure).frame = none from rfl, ite_self]
    rfl

@[simp] theorem frame_prune (id : FrameId) : (s.prune keep).frame id = (s.frame id).prune keep := by
  unfold frame prune
  rw [Array.getD_eq_getD_getElem?, Array.getD_eq_getD_getElem?, Array.getElem?_map]
  cases s.frames[id]? with
  | some f => rfl
  | none =>
    show default = Frame.prune keep default
    rw [Frame.prune, show (default : Frame).parent = none from rfl, ite_self]
    rfl

@[simp] theorem array_prune (id : ArrayId) : (s.prune keep).array id = s.array id := rfl

@[simp] theorem hash_prune (id : HashId) : (s.prune keep).hash id = s.hash id := rfl

@[simp] theorem object_prune (id : ObjectId) : (s.prune keep).object id = s.object id := rfl

@[simp] theorem classInfo_prune (id : ClassId) : (s.prune keep).classInfo id = s.classInfo id := rfl

@[simp] theorem globals_prune : (s.prune keep).globals = s.globals := rfl

@[simp] theorem constants_prune : (s.prune keep).constants = s.constants := rfl

@[simp] theorem classOf_prune (v : Value) : (s.prune keep).classOf v = s.classOf v := by
  cases v <;> rfl

@[simp] theorem typeName_prune (v : Value) : (s.prune keep).typeName v = s.typeName v := by
  cases v with
  | bool b => cases b <;> rfl
  | _ => rfl

theorem upward_prune (n : Nat) (id : ClassId) : (s.prune keep).upward n id = s.upward n id := by
  induction n generalizing id with
  | zero => rfl
  | succ n ih => simp only [upward, classInfo_prune, ih]

@[simp] theorem findMethod?_prune (id : ClassId) (name : String) :
    (s.prune keep).findMethod? id name = s.findMethod? id name := by
  simp only [findMethod?, ancestors, upward_prune, classInfo_prune]

@[simp] theorem findAbove?_prune (id : ClassId) (name : String) :
    (s.prune keep).findAbove? id name = s.findAbove? id name := by
  simp only [findAbove?, classInfo_prune, findMethod?_prune]

@[simp] theorem classVar?_prune (id : ClassId) (name : String) :
    (s.prune keep).classVar? id name = s.classVar? id name := by
  simp only [classVar?, ancestors, upward_prune, classInfo_prune]

@[simp] theorem instanceVar_prune (self : Value) (name : String) :
    (s.prune keep).instanceVar self name = s.instanceVar self name := by
  cases self <;> rfl

@[simp] theorem slot_prune (id : FrameId) (slot : SlotId) :
    (s.prune keep).slot id slot = s.slot id slot := by
  simp only [Store.slot, frame_prune, Frame.prune_slots]

@[simp] theorem hasRoom_prune (id : FrameId) (slot : SlotId) :
    (s.prune keep).hasRoom id slot = s.hasRoom id slot := by
  simp only [hasRoom, frame_prune, Frame.prune_slots]

/-! ## Texts and equality -/

theorem inspectWithin_prune (n : Nat) (v : Value) :
    (s.prune keep).inspectWithin n v = s.inspectWithin n v := by
  induction n generalizing v with
  | zero =>
    cases v with
    | closure id =>
      simp only [inspectWithin, closure_prune]
      rfl
    | bool b => cases b <;> rfl
    | _ => rfl
  | succ n ih =>
    have hvalue : (s.prune keep).inspectWithin n = s.inspectWithin n := funext ih
    cases v with
    | closure id =>
      simp only [inspectWithin, closure_prune]
      rfl
    | array id => simp only [inspectWithin, array_prune, hvalue]
    | hash id => simp only [inspectWithin, hash_prune, hvalue]
    | bool b => cases b <;> rfl
    | _ => rfl

@[simp] theorem inspect?_prune (v : Value) : (s.prune keep).inspect? v = s.inspect? v :=
  inspectWithin_prune keep s _ v

@[simp] theorem display?_prune (v : Value) : (s.prune keep).display? v = s.display? v := by
  cases v with
  | nil | text | symbol => rfl
  | _ => exact inspect?_prune keep s _

theorem linesWithin_prune (n : Nat) (v : Value) :
    (s.prune keep).linesWithin n v = s.linesWithin n v := by
  induction n generalizing v with
  | zero =>
    cases v with
    | array id => rfl
    | _ => simp only [linesWithin, display?_prune]
  | succ n ih =>
    have hvalue : (s.prune keep).linesWithin n = s.linesWithin n := funext ih
    cases v with
    | array id => simp only [linesWithin, array_prune, hvalue]
    | _ => simp only [linesWithin, display?_prune]

@[simp] theorem lines?_prune (v : Value) : (s.prune keep).lines? v = s.lines? v :=
  linesWithin_prune keep s _ v

theorem equalWithin_prune (n : Nat) (a b : Value) :
    (s.prune keep).equalWithin n a b = s.equalWithin n a b := by
  induction n generalizing a b with
  | zero => cases a <;> cases b <;> rfl
  | succ n ih =>
    have hvalues : (s.prune keep).equalWithin n = s.equalWithin n := by
      funext a b
      exact ih a b
    cases a <;> cases b <;> simp only [equalWithin, array_prune, hash_prune, hvalues]

@[simp] theorem equal?_prune (a b : Value) : (s.prune keep).equal? a b = s.equal? a b :=
  equalWithin_prune keep s _ a b

@[simp] theorem anyEqual?_prune (v : Value) (items : List Value) :
    (s.prune keep).anyEqual? v items = s.anyEqual? v items := by
  induction items with
  | nil => rfl
  | cons item rest ih => simp only [anyEqual?, equal?_prune, ih]

/-! ## Arguments -/

@[simp] theorem arityFault?_prune (arity : Arity) (args : List Value) :
    (s.prune keep).arityFault? arity args = s.arityFault? arity args := rfl

@[simp] theorem suppliesOptional_prune (args : List Value) (minimum : Nat) (keywords : Bool)
    (required : Nat) : (s.prune keep).suppliesOptional args minimum keywords required =
      s.suppliesOptional args minimum keywords required := rfl

@[simp] theorem restArgument_prune (args : List Value) (start post : Nat) (keywords : Bool)
    (required : Nat) : (s.prune keep).restArgument args start post keywords required =
      s.restArgument args start post keywords required := rfl

@[simp] theorem postArgument_prune (args : List Value) (fromEnd forward minimum : Nat)
    (keywords : Bool) (required : Nat) :
    (s.prune keep).postArgument args fromEnd forward minimum keywords required =
      s.postArgument args fromEnd forward minimum keywords required := rfl

@[simp] theorem keywordArgument?_prune (args : List Value) (name : String) (required : Nat) :
    (s.prune keep).keywordArgument? args name required =
      s.keywordArgument? args name required := rfl

@[simp] theorem keywordRest_prune (args : List Value) (required : Nat) (excluded : List String) :
    (s.prune keep).keywordRest args required excluded = s.keywordRest args required excluded := rfl

/-! ## Writers -/

@[simp] theorem newArray_prune (items : Array Value) : (s.prune keep).newArray items =
    ((s.newArray items).1, (s.newArray items).2.prune keep) := rfl

@[simp] theorem newHash_prune (entries : Table Key Value) : (s.prune keep).newHash entries =
    ((s.newHash entries).1, (s.newHash entries).2.prune keep) := rfl

@[simp] theorem newObject_prune (id : ClassId) : (s.prune keep).newObject id =
    ((s.newObject id).1, (s.newObject id).2.prune keep) := rfl

@[simp] theorem newClass_prune (c : ClassInfo) : (s.prune keep).newClass c =
    ((s.newClass c).1, (s.newClass c).2.prune keep) := rfl

theorem newPairs_prune (pairs : List (Key × Value)) : (s.prune keep).newPairs pairs =
    ((s.newPairs pairs).1, (s.newPairs pairs).2.prune keep) := by
  induction pairs generalizing s with
  | nil => rfl
  | cons pair rest ih => simp only [newPairs, newArray_prune, ih]

theorem newClosure_prune (c : Closure) : (s.prune keep).newClosure (c.prune keep) =
    ((s.newClosure c).1, (s.newClosure c).2.prune keep) := by
  simp [newClosure, prune, Array.map_push]

theorem newFrame_prune (f : Frame) : (s.prune keep).newFrame (f.prune keep) =
    ((s.newFrame f).1, (s.newFrame f).2.prune keep) := by
  simp [newFrame, prune, Array.map_push]

@[simp] theorem define_prune (id : ClassId) (name : String) (body : BodyId) :
    (s.prune keep).define id name body = (s.define id name body).prune keep := rfl

@[simp] theorem setClassVar_prune (id : ClassId) (name : String) (v : Value) :
    (s.prune keep).setClassVar id name v = (s.setClassVar id name v).prune keep := rfl

@[simp] theorem setGlobal_prune (name : String) (v : Value) :
    (s.prune keep).setGlobal name v = (s.setGlobal name v).prune keep := rfl

@[simp] theorem setInstanceVar_prune (self : Value) (name : String) (v : Value) :
    (s.prune keep).setInstanceVar self name v = (s.setInstanceVar self name v).prune keep := by
  cases self <;> rfl

@[simp] theorem setSlot_prune (id : FrameId) (slot : SlotId) (v : Value) :
    (s.prune keep).setSlot id slot v = (s.setSlot id slot v).prune keep := by
  have hframes : ∀ set : Frame → Frame, (∀ f, set (f.prune keep) = (set f).prune keep) →
      (s.frames.map (·.prune keep)).modify id set =
        (s.frames.modify id set).map (·.prune keep) := by
    intro set hset
    apply Array.ext_getElem?
    intro i
    rw [Array.getElem?_modify, Array.getElem?_map, Array.getElem?_map, Array.getElem?_modify]
    split
    · cases s.frames[i]? with
      | none => rfl
      | some f => simp [hset]
    · rfl
  unfold setSlot prune
  simp only
  rw [hframes]
  intro f
  rfl

end Store

end BlockLang
