import BlockLang.Proofs.Core.Tame
import BlockLang.Proofs.Value.Tidy

/-!
# Core methods on tidy stores

**A core method leaves a tidy store and answers with values of it** (`Core.Keeps.method`). In an
untied store everything can be shown and compared, and the store stays untied unless something is put
into a container that leads to the container. Only `push`, `<<` and `[]=` put something into a
container that is there (`stored`).
-/

namespace BlockLang

open List AllIn Store

/-- The values in an iteration. -/
def Iteration.values : Iteration → List Value
  | count _ _ result => [result]
  | each rest result => result :: rest.flatten
  | collect rest answers => rest ++ answers.toList
  | keep rest kept => rest ++ kept.toList
  | fold answer rest => answer :: rest
  | forever => []

/-- The values in a reply. -/
def Reply.values : Reply → List Value
  | value v => [v]
  | iterate iteration => iteration.values
  | apply _ args => args
  | construct id args => .classRef id :: args
  | send _ args => args

/-- What a core method puts into its receiver. -/
def stored : Value → String → List Value → List Value
  | .array _, "push", args => args
  | .array _, "<<", args => args
  | .array _, "[]=", [_, v] => [v]
  | .hash _, "[]=", [_, v] => [v]
  | _, _, _ => []

theorem stored_of_isContainer {receiver : Value} (h : receiver.isContainer = false) (name : String)
    (args : List Value) : stored receiver name args = [] := by
  cases receiver with
  | array | hash => cases h
  | _ => simp [stored]

/-- The core method puts something into its receiver that leads to the receiver. -/
def Store.Ties (s : Store) (receiver : Value) (name : String) (args : List Value) : Prop :=
  ∃ v ∈ stored receiver name args, s.Leads v receiver

section

variable {s : Store} {v : Value}

theorem in_onIntegers {op : Operator} (h : op.onIntegers a b = .ok v) : v.In s := by
  have hint : ∀ {e : Except Fault Int64}, Value.int <$> e = .ok v → v.In s := by
    intro e he
    cases e <;> cases he
    trivial
  cases op with
  | add | sub | mul | div | mod => exact hint h
  | pow =>
    simp only [Operator.onIntegers] at h
    split at h
    · exact hint h
    · cases h
      trivial
  | lt | gt | le | ge | compare =>
    cases h
    trivial

theorem in_onFloats? {op : Operator} (h : op.onFloats? a b = some v) : v.In s := by
  cases op <;> cases h <;> trivial

theorem in_addValues? (h : addValues? a b = some (.ok v)) : v.In s := by
  unfold addValues? at h
  split at h
  · exact in_onIntegers (Option.some.inj h)
  · simp only [Option.bind_eq_bind, Option.bind_eq_some_iff, Option.some.injEq, Except.ok.injEq] at h
    obtain ⟨_, _, _, _, rfl⟩ := h
    trivial

theorem in_sumOnto (htotal : total.In s) (h : sumOnto total items = .ok v) : v.In s := by
  induction items generalizing total with
  | nil =>
    cases h
    exact htotal
  | cons item rest ih =>
    rw [sumOnto] at h
    split at h
    · cases h
    · cases h
    · exact ih (in_addValues? ‹_›) h

theorem in_itemAt (h : AllIn s items.toList) (i : Int) : (itemAt items i).In s := by
  unfold itemAt
  simp only
  split
  · trivial
  · rw [Array.getD_eq_getD_getElem?, ← Array.getElem?_toList, ← getD_eq_getElem?_getD]
    exact h.getD _

theorem isSome_anyEqual? (h : ∀ item ∈ items, (s.equal? item v).isSome = true) :
    (s.anyEqual? v items).isSome = true := by
  induction items with
  | nil => rfl
  | cons item rest ih =>
    have hitems := forall_mem_cons.mp h
    obtain ⟨answer, heq⟩ := Option.isSome_iff_exists.mp hitems.1
    rw [Store.anyEqual?, heq]
    cases answer with
    | true => rfl
    | false => exact ih hitems.2

theorem AllIn.singles (h : AllIn s items) : AllIn s (items.map ([·])).flatten := by
  refine .flatten fun call hcall => ?_
  obtain ⟨item, hmem, rfl⟩ := mem_map.mp hcall
  exact cons_iff.mpr ⟨h item hmem, .nil⟩

theorem AllIn.mapIdx (h : AllIn s items) (number : Nat → Int64) :
    AllIn s (items.mapIdx fun i item => [item, .int (number i)]).flatten := by
  refine .flatten fun call hcall => ?_
  obtain ⟨i, hi, rfl⟩ := mem_mapIdx.mp hcall
  exact cons_iff.mpr ⟨h _ (getElem_mem hi), cons_iff.mpr ⟨trivial, .nil⟩⟩

theorem AllIn.get? [BEq κ] {table : Table κ Value} (h : AllIn s table.values) (key : κ) :
    ((table.get? key).getD .nil).In s := by
  cases hv : table.get? key with
  | none => trivial
  | some v => exact h v (Table.mem_values_of_get? hv)

theorem AllIn.merge {table : Table Key Value} (h : AllIn s table.values)
    (hother : AllIn s other.values) : AllIn s (table.merge other).values := by
  obtain ⟨entries⟩ := other
  change AllIn s (entries.map Prod.snd) at hother
  show AllIn s (entries.foldl (fun t p => t.insert p.1 p.2) table).values
  induction entries generalizing table with
  | nil => exact h
  | cons entry rest ih =>
    rw [map_cons, cons_iff] at hother
    exact ih (h.insert entry.1 hother.1) hother.2

theorem AllIn.itemsFrom {items part : Array Value} {start count : Int64} (h : AllIn s items.toList)
    (hpart : BlockLang.itemsFrom items start count = .ok (some part)) : AllIn s part.toList := by
  unfold BlockLang.itemsFrom at hpart
  simp only at hpart
  split at hpart
  · cases hpart
  · split at hpart
    · cases hpart
    · cases hpart
      exact h.extract _ _

theorem ne_of_itemsFrom {items : Array Value} {start count : Int64} {c : Crash}
    (h : itemsFrom items start count = .error c) : c ≠ .endlessValue := by
  unfold itemsFrom at h
  simp only at h
  split at h
  · cases h
  · split at h
    · cases h
      decide
    · cases h

end

namespace Core

variable {α β : Type} {o : Store.Origin} {s t : Store}

/-- From the store the work leaves a tidy store and an answer as said. In an untied store it does not
show or compare without end. -/
structure Keeps (o : Store.Origin) (s : Store) (m : Core α) (Q : α → Store → Prop) : Prop where
  tidy : (m.run.run s).2.Tidy o
  larger : s.Extends (m.run.run s).2
  result : ∀ a, (m.run.run s).1 = .ok a → Q a (m.run.run s).2
  ends : o.untied → (m.run.run s).1 ≠ .error (.crash .endlessValue)

/-- The work leaves the store as it is. -/
def Reads (o : Store.Origin) (s : Store) (m : Core α) (P : α → Prop) : Prop :=
  Keeps o s m fun a t => t = s ∧ P a

/-- The values of the reply, if there is one, are of the store. -/
def Replies (reply : Option Reply) (t : Store) : Prop := ∀ r, reply = some r → AllIn t r.values

theorem replies_none : Replies none s := fun _ h => by cases h

theorem replies_some (h : AllIn s reply.values) : Replies (some reply) s := by
  intro r hr
  cases hr
  exact h

namespace Keeps

variable {m : Core α} {k : α → Core β} {P : α → Prop} {Q : α → Store → Prop} {R : β → Store → Prop}

/-! ## Rules -/

theorem pure (h : s.Tidy o) (ha : Q a s) : Keeps o s (Pure.pure a : Core α) Q where
  tidy := h
  larger := .refl s
  result _ hb := by
    cases hb
    exact ha
  ends _ h := by cases h

theorem bind (hm : Keeps o s m Q)
    (hk : ∀ a t, t.Tidy o → s.Extends t → Q a t → Keeps o t (k a) R) : Keeps o s (m >>= k) R := by
  obtain ⟨htidy, hext, hresult, hends⟩ := hm
  have hrun := run_bind m k s
  rcases hdone : m.run.run s with ⟨e | a, t⟩
  · rw [hdone] at htidy hext hends hrun
    refine ⟨?_, ?_, ?_, ?_⟩ <;> rw [hrun]
    · exact htidy
    · exact hext
    · exact fun _ hb => by cases hb
    · exact fun hu herror => hends hu (congrArg Except.error (Except.error.inj herror))
  · rw [hdone] at htidy hext hresult hrun
    obtain ⟨htidy', hext', hresult', hends'⟩ := hk a t htidy hext (hresult a rfl)
    refine ⟨?_, ?_, ?_, ?_⟩ <;> rw [hrun]
    · exact htidy'
    · exact hext.trans hext'
    · exact hresult'
    · exact hends'

theorem get {k : Store → Core α} (h : Keeps o s (k s) Q) : Keeps o s (MonadState.get >>= k) Q :=
  ⟨h.tidy, h.larger, h.result, h.ends⟩

theorem modifyGet (htidy : (f s).2.Tidy o) (hext : s.Extends (f s).2) (hf : Q (f s).1 (f s).2) :
    Keeps o s (MonadState.modifyGet f : Core α) Q where
  tidy := htidy
  larger := hext
  result _ hb := by
    cases hb
    exact hf
  ends _ h := by cases h

theorem raise (h : s.Tidy o) : Keeps o s (Core.raise f : Core α) Q where
  tidy := h
  larger := .refl s
  result _ hb := by cases hb
  ends _ h := by cases h

theorem crash (h : s.Tidy o) (hc : o.untied → c ≠ .endlessValue) :
    Keeps o s (Core.crash c : Core α) Q where
  tidy := h
  larger := .refl s
  result _ hb := by cases hb
  ends hu herror := hc hu (Trouble.crash.inj (Except.error.inj herror))

theorem refuse (h : s.Tidy o) : Keeps o s (Core.raise f >>= k) R :=
  .bind (Q := fun _ _ => False) (.raise h) fun _ _ _ _ hnone => hnone.elim

theorem after (hm : Reads o s m P) (hk : ∀ a, P a → Keeps o s (k a) R) : Keeps o s (m >>= k) R :=
  hm.bind fun a t _ _ ht => by
    obtain ⟨rfl, ha⟩ := ht
    exact hk a ha

theorem forM (h : s.Tidy o) {f : α → Core Unit} {items : List α}
    (hf : ∀ t, t.Tidy o → ∀ item ∈ items, Keeps o t (f item) fun _ _ => True) :
    Keeps o s (items.forM f) fun _ _ => True := by
  induction items generalizing s with
  | nil => exact .pure h trivial
  | cons item rest ih =>
    refine .bind (hf s h item mem_cons_self) fun _ t ht _ _ => ?_
    exact ih ht fun t ht item hmem => hf t ht item (mem_cons_of_mem _ hmem)

theorem mapM (h : s.Tidy o) (hf : ∀ a, Reads o s (f a) fun _ => True) (items : List α) :
    Reads o s (items.mapM f) fun _ => True := by
  induction items with
  | nil => exact .pure h ⟨rfl, trivial⟩
  | cons item rest ih =>
    rw [mapM_cons]
    exact .after (hf item) fun _ _ => .after ih fun _ _ => .pure h ⟨rfl, trivial⟩

/-! ## Primitives -/

section

variable {name text : String} {id : ArrayId} {v w receiver : Value} {args : List Value}
  (h : s.Tidy o)

include h

theorem ofEndless (ha : o.untied → a.isSome = true) :
    Reads o s (Core.ofEndless a) fun _ => True := by
  cases a with
  | some a => exact .pure h ⟨rfl, trivial⟩
  | none => exact .crash h fun hu => by cases ha hu

theorem typeName : Reads o s (Core.typeName v) fun _ => True :=
  .get (.pure h ⟨rfl, trivial⟩)

theorem inspect (v : Value) : Reads o s (Core.inspect v) fun _ => True :=
  .get (ofEndless h fun hu => isSome_inspect?_iff.mpr ((h.acyclic hu).not_knotted v))

theorem display (v : Value) : Reads o s (Core.display v) fun _ => True :=
  .get (ofEndless h fun hu => isSome_display?_iff.mpr ((h.acyclic hu).not_knotted v))

theorem equal : Reads o s (Core.equal v w) fun _ => True :=
  .get (ofEndless h fun hu => isSome_equal? (.inl ((h.acyclic hu).not_knotted v)))

theorem newArray {items : Array Value} (hitems : AllIn s items.toList) :
    Keeps o s (Core.newArray items) fun v t => v.In t :=
  .modifyGet (h.newArray hitems) (extends_newArray items) (in_newArray items)

theorem newHash (hentries : AllIn s entries.values) :
    Keeps o s (Core.newHash entries) fun v t => v.In t :=
  .modifyGet (h.newHash hentries) (extends_newHash entries) (in_newHash entries)

theorem reply (hr : AllIn s r.values) :
    Keeps o s (Pure.pure (some r) : Core (Option Reply)) Replies :=
  .pure h (replies_some hr)

theorem noReply : Keeps o s (Pure.pure none : Core (Option Reply)) Replies :=
  .pure h replies_none

theorem answer (hv : v.In s) : Keeps o s (Core.answer v) Replies :=
  reply h (cons_iff.mpr ⟨hv, .nil⟩)

theorem answerBool : Keeps o s (Core.answerBool b) Replies := answer h trivial

theorem answerInt : Keeps o s (Core.answerInt n) Replies := answer h trivial

theorem answerText : Keeps o s (Core.answerText text) Replies := answer h trivial

theorem answerArray {items : Array Value} (hitems : AllIn s items.toList) :
    Keeps o s (Core.answerArray items) Replies :=
  .bind (newArray h hitems) fun _ _ ht _ hv => answer ht hv

theorem expectArgs {count : Nat} :
    Reads o s (Core.expectArgs name args count) fun _ => args.length = count := by
  unfold Core.expectArgs
  split
  · rename_i hcount
    exact .pure h ⟨rfl, by simpa using hcount⟩
  · exact .raise h

theorem onlyArg : Reads o s (Core.onlyArg name args) fun v => args = [v] := by
  unfold Core.onlyArg
  split
  · exact .pure h ⟨rfl, rfl⟩
  · exact .raise h

theorem intArg {position : Nat} : Reads o s (Core.intArg args position) fun _ => True := by
  unfold Core.intArg
  split
  · exact .pure h ⟨rfl, trivial⟩
  · exact .after (typeName h) fun _ _ => .raise h
  · exact .raise h

theorem keyOf : Reads o s (Core.keyOf v) fun _ => True := by
  unfold Core.keyOf
  split
  · exact .pure h ⟨rfl, trivial⟩
  · exact .after (typeName h) fun _ _ => .raise h

theorem ofFault : Reads o s (Core.ofFault a) fun b => a = .ok b := by
  cases a with
  | ok a => exact .pure h ⟨rfl, rfl⟩
  | error f => exact .raise h

omit h in
theorem items {k : Array Value → Core α} (hk : Keeps o s (k (s.array id)) Q) :
    Keeps o s (Core.items id >>= k) Q :=
  ⟨hk.tidy, hk.larger, hk.result, hk.ends⟩

omit h in
theorem itemList {k : List Value → Core α} (hk : Keeps o s (k (s.array id).toList) Q) :
    Keeps o s (Core.itemList id >>= k) Q :=
  ⟨hk.tidy, hk.larger, hk.result, hk.ends⟩

theorem pairs (hentries : AllIn s entries.values) :
    Keeps o s (Core.pairs entries) fun pairs t => AllIn t pairs := by
  obtain ⟨htidy, hext, hall⟩ := h.newPairs hentries
  exact .modifyGet htidy hext hall

/-! ## Numbers and texts -/

theorem binary : Keeps o s (Core.binary v w op) Replies := by
  unfold Core.binary
  split
  · exact .after (ofFault h) fun v hv => answer h (in_onIntegers hv)
  · split
    · rename_i a b _ _
      cases hv : op.onFloats? a b with
      | none => exact noReply h
      | some v => exact answer h (in_onFloats? hv)
    · split
      · exact noReply h
      · exact .after (typeName h) fun _ _ => .after (typeName h) fun _ _ => .raise h

theorem intMethod : Keeps o s (Core.intMethod i name args) Replies := by
  have hfit (x : Int) : Keeps o s (do Core.answer (.int (← Core.ofFault (fitInt x)))) Replies :=
    .after (ofFault h) fun _ _ => answer h trivial
  unfold Core.intMethod
  split
  · exact hfit _
  · exact answerBool h
  · exact answerBool h
  · exact answerBool h
  · exact hfit _
  · exact hfit _
  · exact hfit _
  · exact answer h trivial
  · exact answer h trivial
  · exact reply h (cons_iff.mpr ⟨trivial, .nil⟩)
  · exact .after (intArg h) fun _ _ => reply h (cons_iff.mpr ⟨trivial, .nil⟩)
  · exact noReply h

theorem floatMethod : Keeps o s (Core.floatMethod x name) Replies := by
  unfold Core.floatMethod
  split
  · exact answer h trivial
  · exact answerBool h
  · exact answer h trivial
  · exact answer h trivial
  · exact answer h trivial
  · exact noReply h

theorem ownMethod : Keeps o s (match receiver with
      | .int i => Core.intMethod i name args
      | .float x => Core.floatMethod x name
      | _ => Pure.pure none) Replies := by
  split
  · exact intMethod h
  · exact floatMethod h
  · exact noReply h

theorem numberMethod : Keeps o s (Core.numberMethod receiver name args) Replies := by
  unfold Core.numberMethod
  simp only
  split
  · split
    · -- an operator that does not apply leaves the name to the type's own methods
      refine .bind (binary h) fun found t ht _ hfound => ?_
      cases found with
      | none => exact ownMethod ht
      | some r => exact reply ht (hfound r rfl)
    · exact ownMethod h
  · exact ownMethod h

theorem answerRepeated {count : Nat} : Keeps o s (match Text.repeat? text count with
      | some repeated => Core.answerText repeated
      | none => Core.crash .textTooLong) Replies := by
  split
  · exact answerText h
  · exact .crash h fun _ => by decide

theorem textMethod : Keeps o s (Core.textMethod text name args) Replies := by
  unfold Core.textMethod
  split
  · exact answerInt h
  · exact answerInt h
  · exact answerBool h
  · exact answerText h
  · exact answerText h
  · exact answerText h
  · exact answer h trivial
  · exact answer h trivial
  · refine .after (onlyArg h) fun other _ => ?_
    split
    · exact answerText h
    · exact .after (typeName h) fun _ _ => .raise h
  · refine .after (intArg h) fun count _ => ?_
    simp only
    split
    · exact .refuse h
    · exact answerRepeated h
  · split
    · exact answerBool h
    · exact .raise h
  · exact noReply h

theorem symbolMethod : Keeps o s (Core.symbolMethod symbol name) Replies := by
  unfold Core.symbolMethod
  split
  · exact answerText h
  · exact answerText h
  · exact answer h trivial
  · exact noReply h

theorem nilMethod : Keeps o s (Core.nilMethod name) Replies := by
  unfold Core.nilMethod
  split
  · exact answerArray h .nil
  · exact answerText h
  · exact answer h trivial
  · exact noReply h

/-! ## Arrays and hashes -/

omit h in
theorem update (htidy : (f s).Tidy o) (hext : s.Extends (f s)) (hv : v.In s) :
    Keeps o s (do
      modify f
      Core.answer v) Replies :=
  .bind (Q := fun _ t => v.In t) (.modifyGet htidy hext (hext.in hv)) fun _ _ ht _ hv => answer ht hv

theorem readItems {items : Array Value} (hitems : AllIn s items.toList) :
    Keeps o s (Core.readItems items args) Replies := by
  unfold Core.readItems
  refine .after (intArg h) fun start _ => ?_
  split
  · exact answer h (in_itemAt hitems _)
  · refine .after (intArg h) fun count _ => ?_
    split
    · rename_i hcrash
      exact .crash h fun _ => ne_of_itemsFrom hcrash
    · exact answer h trivial
    · rename_i hpart
      exact answerArray h (hitems.itemsFrom hpart)
  · exact .raise h

theorem writeItem (hargs : AllIn s args) (hloose : o.untied → ¬ s.Ties (.array id) "[]=" args) :
    Keeps o s (Core.writeItem id args) Replies := by
  unfold Core.writeItem
  refine .after (expectArgs h) fun _ hcount => .after (intArg h) fun i _ =>
    .items <| .after (ofFault h) fun p _ => ?_
  obtain ⟨place, v, rfl⟩ := length_eq_two.mp hcount
  have hv : v.In s := hargs v (by simp)
  have hlead : o.untied → ¬ s.Leads v (.array id) :=
    fun hu hlead => hloose hu ⟨v, by simp [stored], hlead⟩
  refine update (h.modifyArray fun w hw => ?_) (extends_modifyArray ..) hv
  rcases mem_setGrowing hw with hold | rfl | rfl
  · exact .inl hold
  · exact .inr ⟨hv, hlead⟩
  · exact .inr ⟨trivial, fun _ hlead => by cases eq_of_leads rfl hlead⟩

theorem joinItems : Keeps o s (Core.joinItems id args) Replies := by
  have hjoin (separator : String) : Keeps o s (do
      let parts ← (← Core.itemList id).mapM Core.display
      Core.answerText (separator.intercalate parts)) Replies :=
    .itemList <| .after (mapM h (display h) _) fun _ _ => answerText h
  unfold Core.joinItems
  cases args with
  | nil => exact hjoin ""
  | cons v _ => exact .after (display h v) fun separator _ => hjoin separator

theorem sumItems : Keeps o s (Core.sumItems id) Replies := by
  unfold Core.sumItems
  refine .itemList ?_
  split
  · rename_i total hsum
    exact answer h (in_sumOnto (show (Value.int 0).In s from trivial) hsum)
  · exact .raise h
  · exact .after (typeName h) fun _ _ => .raise h

theorem push (hid : (Value.array id).In s) (hargs : AllIn s args)
    (hloose : ∀ v ∈ args, o.untied → ¬ s.Leads v (.array id)) : Keeps o s (do
      modify (·.modifyArray id (· ++ args.toArray))
      Core.answer (.array id)) Replies := by
  refine update (h.modifyArray fun w hw => ?_) (extends_modifyArray ..) hid
  rw [Array.toList_append, mem_append] at hw
  exact hw.imp_right fun hmem => ⟨hargs w hmem, hloose w hmem⟩

theorem pop (hv : v.In s) : Keeps o s (do
    modify (·.modifyArray id (·.pop))
    Core.answer v) Replies := by
  refine update (h.modifyArray fun w hw => .inl ?_) (extends_modifyArray ..) hv
  rw [Array.toList_pop] at hw
  exact dropLast_subset _ hw

theorem arrayMethod (hid : (Value.array id).In s) (hargs : AllIn s args)
    (hloose : o.untied → ¬ s.Ties (.array id) name args) :
    Keeps o s (Core.arrayMethod id name args) Replies := by
  have hall := h.array id
  have heach {calls : List (List Value)} (hcalls : AllIn s calls.flatten) :
      Keeps o s (Pure.pure (some (.iterate (.each calls (.array id)))) : Core _) Replies :=
    reply h (cons_iff.mpr ⟨hid, hcalls⟩)
  have hpush (hstored : stored (.array id) name args = args) :
      ∀ v ∈ args, o.untied → ¬ s.Leads v (.array id) :=
    fun v hv hu hlead => hloose hu ⟨v, hstored.symm ▸ hv, hlead⟩
  have hfold {first : Value} {rest : List Value} (hfirst : first.In s) (hrest : AllIn s rest) :
      Keeps o s (Pure.pure (some (.iterate (.fold first rest))) : Core _) Replies :=
    reply h (cons_iff.mpr ⟨hfirst, hrest⟩)
  unfold Core.arrayMethod
  split
  · exact .items (answerInt h)
  · exact .items (answerInt h)
  · exact .items (answerBool h)
  · exact .items (answer h (hall.getElem? 0))
  · exact .items (answer h hall.back?)
  · exact .items (readItems h hall)
  · exact writeItem h hargs hloose
  · exact push h hid hargs (hpush rfl)
  · exact push h hid hargs (hpush rfl)
  · exact .items (pop h hall.back?)
  · refine .after (onlyArg h) fun v _ => .itemList (.get ?_)
    exact .after (ofEndless h fun hu => isSome_anyEqual? fun item _ =>
      isSome_equal? (.inl ((h.acyclic hu).not_knotted item))) fun _ _ => answerBool h
  · exact joinItems h
  · exact .items (answerArray h (hall.subset (by simp)))
  · split
    · exact .items (.items (answerArray h (by simp [hall, h.array])))
    · exact .raise h
  · exact answer h hid
  · exact answer h hid
  · exact .itemList (heach hall.singles)
  · exact .itemList (heach (hall.mapIdx _))
  · exact .itemList (reply h (by simpa [Reply.values, Iteration.values] using hall))
  · exact .itemList (reply h (by simpa [Reply.values, Iteration.values] using hall))
  · exact .itemList (reply h (by simpa [Reply.values, Iteration.values] using hall))
  · exact .itemList (reply h (by simpa [Reply.values, Iteration.values] using hall))
  · refine .itemList ?_
    split
    · exact hfold (hargs _ mem_cons_self) hall
    · exact hfold hall.head?_getD (hall.subset (tail_subset _))
  · refine .itemList ?_
    split
    · exact hfold (hargs _ mem_cons_self) hall
    · exact hfold hall.head?_getD (hall.subset (tail_subset _))
  · exact sumItems h
  · exact noReply h

theorem writeEntry {id : HashId} (hargs : AllIn s args)
    (hloose : o.untied → ¬ s.Ties (.hash id) "[]=" args) : Keeps o s (do
      Core.expectArgs "[]=" args 2
      let key ← Core.keyOf (args.getD 0 .nil)
      let v := args.getD 1 .nil
      modify (·.modifyHash id (·.insert key v))
      Core.answer v) Replies := by
  refine .after (expectArgs h) fun _ hcount => .after (keyOf h) fun key _ => ?_
  obtain ⟨place, v, rfl⟩ := length_eq_two.mp hcount
  have hv : v.In s := hargs v (by simp)
  have hlead : o.untied → ¬ s.Leads v (.hash id) :=
    fun hu hlead => hloose hu ⟨v, by simp [stored], hlead⟩
  refine update (h.modifyHash fun w hw => ?_) (extends_modifyHash ..) hv
  rcases mem_cons.mp (Table.values_insert_subset _ key v hw) with rfl | hold
  · exact .inr ⟨hv, hlead⟩
  · exact .inl hold

theorem hashMethod {id : HashId} (hid : (Value.hash id).In s) (hargs : AllIn s args)
    (hloose : o.untied → ¬ s.Ties (.hash id) name args) :
    Keeps o s (Core.hashMethod id name args) Replies := by
  have hall := h.hash id
  have hkeys : AllIn s ((s.hash id).keys.map Key.toValue) := fun v hv => by
    obtain ⟨key, _, rfl⟩ := mem_map.mp hv
    exact Store.Tidy.key_in key
  unfold Core.hashMethod
  refine .get ?_
  split
  · exact answerInt h
  · exact answerInt h
  · exact answerBool h
  · exact .after (onlyArg h) fun _ _ => .after (keyOf h) fun key _ => answer h (hall.get? key)
  · exact writeEntry h hargs hloose
  · exact .after (onlyArg h) fun _ _ => .after (keyOf h) fun _ _ => answerBool h
  · exact .after (onlyArg h) fun _ _ => .after (keyOf h) fun _ _ => answerBool h
  · exact .after (onlyArg h) fun _ _ => .after (keyOf h) fun _ _ => answerBool h
  · exact answerArray h hkeys
  · exact answerArray h hall
  · exact .bind (pairs h hall) fun _ t ht _ hpairs => answerArray ht hpairs
  · exact .bind (pairs h hall) fun _ t ht hext hpairs =>
      reply ht (cons_iff.mpr ⟨hext.in hid, hpairs.singles⟩)
  · exact .bind (pairs h hall) fun _ t ht hext hpairs =>
      reply ht (cons_iff.mpr ⟨hext.in hid, hpairs.singles⟩)
  · exact .bind (pairs h hall) fun _ t ht _ hpairs => reply ht (append_iff.mpr ⟨hpairs, .nil⟩)
  · exact .bind (pairs h hall) fun _ t ht _ hpairs => reply ht (append_iff.mpr ⟨hpairs, .nil⟩)
  · split
    · rename_i other
      exact .get (.bind (newHash h (hall.merge (h.hash other))) fun _ t ht _ hv => answer ht hv)
    · exact .raise h
  · exact noReply h

/-! ## Every value -/

theorem closureMethod {id : ClosureId} (hargs : AllIn s args) :
    Keeps o s (Core.closureMethod id name args) Replies := by
  unfold Core.closureMethod
  split
  · exact reply h hargs
  · exact reply h hargs
  · exact reply h hargs
  · exact reply h hargs
  · exact .get (answerBool h)
  · exact answer h trivial
  · exact noReply h

theorem classMethod {id : ClassId} (hid : (Value.classRef id).In s) (hargs : AllIn s args) :
    Keeps o s (Core.classMethod id name args) Replies := by
  have hsuper : (((s.classInfo id).superclass.map Value.classRef).getD .nil).In s := by
    cases habove : (s.classInfo id).superclass with
    | none => trivial
    | some above => exact Nat.lt_trans (h.older id above habove) hid
  unfold Core.classMethod
  refine .get ?_
  split
  · exact reply h (cons_iff.mpr ⟨hid, hargs⟩)
  · exact answerText h
  · exact answerText h
  · exact answer h hsuper
  · exact .after (onlyArg h) fun v _ => .after (display h v) fun _ _ => .get (answerBool h)
  · exact noReply h

theorem typedMethod (hreceiver : receiver.In s) (hargs : AllIn s args)
    (hloose : o.untied → ¬ s.Ties receiver name args) :
    Keeps o s (Core.typedMethod receiver name args) Replies := by
  cases receiver with
  | nil => exact nilMethod h
  | bool | object => exact noReply h
  | int | float => exact numberMethod h
  | text => exact textMethod h
  | symbol => exact symbolMethod h
  | array => exact arrayMethod h hreceiver hargs hloose
  | hash => exact hashMethod h hreceiver hargs hloose
  | closure => exact closureMethod h hargs
  | classRef => exact classMethod h hreceiver hargs

theorem writeEach {show? : Store → Value → Option String}
    (hshow : ∀ t : Store, t.Acyclic → ∀ v, (show? t v).isSome = true) :
    Keeps o s (Core.writeEach show? text args) fun _ _ => True :=
  .forM h fun t ht v _ => .get (.after (ofEndless ht fun hu => hshow t (ht.acyclic hu) v) fun _ _ =>
    .modifyGet (ht.write _) (.of_eq rfl rfl rfl rfl rfl) trivial)

theorem commonMethod (hreceiver : receiver.In s) (hargs : AllIn s args) :
    Keeps o s (Core.commonMethod caller receiver name args block) Replies := by
  have hlines (t : Store) (ht : t.Acyclic) (v : Value) : (t.lines? v).isSome = true :=
    isSome_lines?_iff.mpr (ht.not_knotted v)
  have hdisplay (t : Store) (ht : t.Acyclic) (v : Value) : (t.display? v).isSome = true :=
    isSome_display?_iff.mpr (ht.not_knotted v)
  have hinspect (t : Store) (ht : t.Acyclic) (v : Value) : (t.inspect? v).isSome = true :=
    isSome_inspect?_iff.mpr (ht.not_knotted v)
  have hputs {t : Store} (ht : t.Tidy o) : Keeps o t (do
      Core.writeEach Store.lines? "" args
      Core.answer .nil) Replies :=
    .bind (writeEach ht hlines) fun _ _ ht _ _ => answer ht trivial
  unfold Core.commonMethod
  split
  · simp only
    split
    · exact .bind (Q := fun _ _ => True)
        (.modifyGet (h.write _) (.of_eq rfl rfl rfl rfl rfl) trivial) fun _ _ ht _ _ => hputs ht
    · exact hputs h
  · exact .bind (writeEach h hdisplay) fun _ _ ht _ _ => answer ht trivial
  · refine .bind (writeEach h hinspect) fun _ t ht hext _ => ?_
    split
    · exact answer ht trivial
    · exact answer ht (hext.in (hargs _ mem_cons_self))
    · exact answerArray ht (hext.allIn hargs)
  · exact answerBool h
  · exact reply h .nil
  · split
    · exact answer h trivial
    · exact .raise h
  · exact reply h (by simpa [Reply.values, Iteration.values] using hreceiver)
  · split
    · exact reply h (cons_iff.mp hargs).2
    · exact reply h (cons_iff.mp hargs).2
    · exact .raise h
  · split
    · exact reply h (cons_iff.mp hargs).2
    · exact reply h (cons_iff.mp hargs).2
    · exact .raise h
  · refine .after (onlyArg h) fun v _ => .after (display h v) fun _ _ => ?_
    split
    · exact .get (answerBool h)
    · exact answerBool h
  · split
    · exact .get (answer h (cons_iff.mp (h.objects _)).1)
    · exact noReply h
  · exact answerBool h
  · exact .after (onlyArg h) fun v _ => .after (equal h) fun _ _ => answerBool h
  · exact .after (onlyArg h) fun v _ => .after (equal h) fun _ _ => answerBool h
  · exact .after (onlyArg h) fun v _ => .after (equal h) fun _ _ => answerBool h
  · exact answerBool h
  · exact .after (display h receiver) fun _ _ => answerText h
  · exact .after (inspect h receiver) fun _ _ => answerText h
  · exact noReply h

end

theorem method (h : s.Tidy o) (caller : Frame) {receiver : Value} (hreceiver : receiver.In s)
    {name : String} {args : List Value} (hargs : AllIn s args) (block : Option ClosureId)
    (hloose : o.untied → ¬ s.Ties receiver name args) :
    Keeps o s (Core.method caller receiver name args block) Replies := by
  unfold Core.method
  refine .bind (typedMethod h hreceiver hargs hloose) fun found t ht hext hfound => ?_
  cases found with
  | none => exact commonMethod ht (hext.in hreceiver) (hext.allIn hargs)
  | some r => exact reply ht (hfound r rfl)

end Keeps

end Core

end BlockLang
