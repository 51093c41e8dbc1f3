import BlockLang.Proofs.Value.Containment

/-!
# Tidy stores

A store is tidy if whatever is in it refers only to arrays, hashes and classes that are there, and a
class is younger than the one above it (`Store.Tidy`). A new container then is one that nothing refers
to, so whatever it contains does not lead to it. This file has a rule for each change of a store. A
tidy store may be asked to be `untied` as well, so that nothing contains itself: only what puts
something into a container that is there (`Store.Tidy.modifyArray`, `Store.Tidy.modifyHash`) has to
see to that.
-/

namespace BlockLang

open List Store

/-- The array, hash or class that the value refers to is there. -/
def Value.In (s : Store) : Value → Prop
  | .array id => id < s.arrays.size
  | .hash id => id < s.hashes.size
  | .classRef id => id < s.classes.size
  | _ => True

/-- All the values are of the store. -/
def AllIn (s : Store) (vs : List Value) : Prop := ∀ v ∈ vs, v.In s

namespace AllIn

variable {items : Array Value}

variable {s : Store} {v : Value} {vs ws : List Value}

@[simp] theorem nil : AllIn s [] := forall_mem_nil _

@[simp] theorem cons_iff : AllIn s (v :: vs) ↔ v.In s ∧ AllIn s vs := forall_mem_cons

@[simp] theorem append_iff : AllIn s (vs ++ ws) ↔ AllIn s vs ∧ AllIn s ws := forall_mem_append

theorem subset (h : AllIn s vs) (hsub : ws ⊆ vs) : AllIn s ws := fun v hv => h v (hsub hv)

theorem flatten {lists : List (List Value)} (h : ∀ vs ∈ lists, AllIn s vs) :
    AllIn s lists.flatten := by
  intro v hv
  obtain ⟨vs, hvs, hmem⟩ := mem_flatten.mp hv
  exact h vs hvs v hmem

theorem getD (h : AllIn s vs) (i : Nat) : (vs.getD i .nil).In s := by
  rw [getD_eq_getElem?_getD]
  cases hv : vs[i]? with
  | none => trivial
  | some v => exact h v (mem_of_getElem? hv)

theorem head?_getD (h : AllIn s vs) : (vs.head?.getD .nil).In s := by
  cases vs with
  | nil => trivial
  | cons v vs => exact h v mem_cons_self

theorem extract (h : AllIn s items.toList) (start stop : Nat) :
    AllIn s (items.extract start stop).toList := by
  rw [Array.toList_extract]
  exact h.subset (List.Subset.trans (take_subset _ _) (drop_subset _ _))

theorem getElem? (h : AllIn s items.toList) (i : Nat) : (items[i]?.getD .nil).In s := by
  rw [← Array.getElem?_toList, ← getD_eq_getElem?_getD]
  exact h.getD i

theorem back? (h : AllIn s items.toList) : (items.back?.getD .nil).In s := by
  rw [Array.back?_eq_getElem?]
  exact h.getElem? _

end AllIn

/-! ## Values in frames, classes and tables -/

/-- The values in a frame. -/
def Frame.values (f : Frame) : List Value := f.self :: (f.arguments ++ f.slots.toList)

/-- The values in an object, and its class. -/
def Instance.values (o : Instance) : List Value := .classRef o.classId :: o.fields.values

/-- The values of the variables of a class. -/
def ClassInfo.values (c : ClassInfo) : List Value := c.classVars.values ++ c.fields.values

theorem Table.values_insert_subset {α : Type} [BEq κ] (table : Table κ α) (k : κ) (v : α) :
    (table.insert k v).values ⊆ v :: table.values := by
  obtain ⟨entries⟩ := table
  show (put k v entries).map Prod.snd ⊆ v :: entries.map Prod.snd
  induction entries with
  | nil => exact List.Subset.refl _
  | cons entry entries ih =>
    rw [put]
    split
    · simp only [map_cons]
      exact cons_subset_cons _ (subset_cons_self _ _)
    · simp only [map_cons]
      refine cons_subset.mpr ⟨by simp, fun w hw => ?_⟩
      have := ih hw
      simp only [mem_cons] at this ⊢
      tauto

theorem AllIn.insert {s : Store} [BEq κ] {table : Table κ Value} {v : Value}
    (h : AllIn s table.values) (k : κ) (hv : v.In s) : AllIn s (table.insert k v).values :=
  (AllIn.cons_iff.mpr ⟨hv, h⟩).subset (table.values_insert_subset k v)

theorem mem_setGrowing {items : Array Value} {v w : Value}
    (h : w ∈ (setGrowing items i v).toList) : w ∈ items.toList ∨ w = v ∨ w = .nil := by
  unfold setGrowing at h
  split at h
  · rw [Array.set!_eq_setIfInBounds, Array.toList_setIfInBounds] at h
    rcases mem_or_eq_of_mem_set h with h | h
    · exact .inl h
    · exact .inr (.inl h)
  · simp only [Array.toList_push, Array.toList_append, Array.toList_replicate, mem_append,
      mem_replicate, mem_singleton] at h
    tauto

section

variable {α : Type} {xs : Array α} {d : α} {P : α → Prop}

theorem forall_getD_push (h : ∀ i, P (xs.getD i d)) (hx : P x) (i : Nat) :
    P ((xs.push x).getD i d) := by
  have hi := h i
  simp only [Array.getD_eq_getD_getElem?, Array.getElem?_push] at hi ⊢
  split
  · exact hx
  · exact hi

theorem forall_getD_modify (h : ∀ i, P (xs.getD i d)) (hf : ∀ x, P x → P (f x)) (id i : Nat) :
    P ((xs.modify id f).getD i d) := by
  have hi := h i
  simp only [Array.getD_eq_getD_getElem?, Array.getElem?_modify] at hi ⊢
  split
  · cases hx : xs[i]? with
    | none => simpa [hx] using hi
    | some x =>
      rw [hx] at hi
      exact hf x hi
  · exact hi

theorem mem_view_push {β : Type} {g : α → List β} {x : α} {i : Nat} {b : β}
    (h : b ∈ g ((xs.push x).getD i d)) : b ∈ g (xs.getD i d) ∨ i = xs.size ∧ b ∈ g x := by
  rw [Array.getD_eq_getD_getElem?, Array.getElem?_push] at h
  split at h
  · exact .inr ⟨‹_›, h⟩
  · rw [← Array.getD_eq_getD_getElem?] at h
    exact .inl h

theorem mem_view_modify {β : Type} {g : α → List β} {f : α → α} {id i : Nat} {b : β}
    (h : b ∈ g ((xs.modify id f).getD i d)) :
    b ∈ g (xs.getD i d) ∨ id = i ∧ b ∈ g (f (xs.getD id d)) := by
  simp only [Array.getD_eq_getD_getElem?, Array.getElem?_modify] at h ⊢
  split at h
  · rename_i hid
    subst hid
    cases hx : xs[id]? with
    | none => exact .inl (by simpa [hx] using h)
    | some x => exact .inr ⟨rfl, by simpa [hx] using h⟩
  · exact .inl h

end

/-- Items are added, and of those that were there `view` stays. -/
def Lasting {α β : Type} [Inhabited α] (view : α → β) (xs ys : Array α) : Prop :=
  xs.size ≤ ys.size ∧ ∀ i < xs.size, view (ys.getD i default) = view (xs.getD i default)

namespace Lasting

variable {α β : Type} [Inhabited α] {view : α → β} {xs ys zs : Array α}

theorem refl : Lasting view xs xs := ⟨Nat.le_refl _, fun _ _ => rfl⟩

theorem trans (h : Lasting view xs ys) (h' : Lasting view ys zs) : Lasting view xs zs :=
  ⟨Nat.le_trans h.1 h'.1, fun i hi => (h'.2 i (Nat.lt_of_lt_of_le hi h.1)).trans (h.2 i hi)⟩

theorem push (x : α) : Lasting view xs (xs.push x) := by
  refine ⟨by simp, fun i hi => ?_⟩
  rw [Array.getD_eq_getD_getElem?, Array.getElem?_push, if_neg (Nat.ne_of_lt hi),
    ← Array.getD_eq_getD_getElem?]

theorem modify (id : Nat) (hf : ∀ x, view (f x) = view x) : Lasting view xs (xs.modify id f) := by
  refine ⟨by simp, fun i hi => ?_⟩
  simp only [Array.getD_eq_getD_getElem?, Array.getElem?_modify, Array.getElem?_eq_getElem hi]
  split
  · exact hf _
  · rfl

end Lasting

/-- What `self` and `super` mean in a frame. -/
def Frame.context (f : Frame) : Value × Option Invocation := (f.self, f.invocation)

def Closure.context (c : Closure) : Value × Option Invocation := (c.self, c.invocation)

namespace Store

/-- Nothing is gone, what was above a class still is, and closures and frames keep their contexts. -/
structure Extends (s t : Store) : Prop where
  arrays : s.arrays.size ≤ t.arrays.size
  hashes : s.hashes.size ≤ t.hashes.size
  classes : Lasting ClassInfo.superclass s.classes t.classes
  closures : Lasting Closure.context s.closures t.closures
  frames : Lasting Frame.context s.frames t.frames

/-- Where a tidy store comes from, and whether nothing in it contains itself. -/
structure Origin where
  store : Store
  untied : Prop

/-- Whatever is in the store refers to arrays, hashes and classes that are there, and a class is
younger than the one above it. If the store is to be untied, nothing contains itself. -/
structure Tidy (s : Store) (o : Origin) : Prop where
  larger : o.store.Extends s
  contents : ∀ v, AllIn s (s.contents v)
  closures : ∀ c, (s.closure c).self.In s
  objects : ∀ o, AllIn s (s.object o).values
  classes : ∀ c, AllIn s (s.classInfo c).values
  frames : ∀ f, AllIn s (s.frame f).values
  globals : AllIn s s.globals.values
  constants : ∀ c ∈ s.constants.values, c < s.classes.size
  root : objectClass < s.classes.size
  older : ∀ c above, (s.classInfo c).superclass = some above → above < c
  acyclic : o.untied → s.Acyclic

variable {s t r : Store} {v w : Value} {vs : List Value} {o : Origin}

theorem Extends.of_eq (harrays : t.arrays = s.arrays) (hhashes : t.hashes = s.hashes)
    (hclasses : t.classes = s.classes) (hclosures : t.closures = s.closures)
    (hframes : t.frames = s.frames) : s.Extends t :=
  ⟨harrays ▸ Nat.le_refl _, hhashes ▸ Nat.le_refl _, hclasses ▸ .refl, hclosures ▸ .refl,
    hframes ▸ .refl⟩

theorem Extends.refl (s : Store) : s.Extends s := .of_eq rfl rfl rfl rfl rfl

theorem Extends.trans (h : s.Extends t) (h' : t.Extends r) : s.Extends r :=
  ⟨Nat.le_trans h.arrays h'.arrays, Nat.le_trans h.hashes h'.hashes, h.classes.trans h'.classes,
    h.closures.trans h'.closures, h.frames.trans h'.frames⟩

theorem extends_newArray (items : Array Value) : s.Extends (s.newArray items).2 :=
  { Extends.refl s with arrays := by simp [newArray] }

theorem extends_newHash (entries : Table Key Value) : s.Extends (s.newHash entries).2 :=
  { Extends.refl s with hashes := by simp [newHash] }

theorem extends_modifyArray (id : ArrayId) (f : Array Value → Array Value) :
    s.Extends (s.modifyArray id f) :=
  { Extends.refl s with arrays := by simp [modifyArray] }

theorem extends_modifyHash (id : HashId) (f : Table Key Value → Table Key Value) :
    s.Extends (s.modifyHash id f) :=
  { Extends.refl s with hashes := by simp [modifyHash] }

theorem extends_newClosure (c : Closure) : s.Extends (s.newClosure c).2 :=
  { Extends.refl s with closures := .push c }

theorem extends_newFrame (f : Frame) : s.Extends (s.newFrame f).2 :=
  { Extends.refl s with frames := .push f }

theorem extends_setSlot (id : FrameId) (slot : SlotId) (v : Value) : s.Extends (s.setSlot id slot v) :=
  { Extends.refl s with frames := .modify id fun _ => rfl }

theorem superclass_modifyClass (id : ClassId) (hf : ∀ c, (f c).superclass = c.superclass)
    (c : ClassId) : ((s.modifyClass id f).classInfo c).superclass = (s.classInfo c).superclass := by
  simp only [classInfo, modifyClass, Array.getD_eq_getD_getElem?, Array.getElem?_modify]
  split
  · cases s.classes[c]? with
    | none => rfl
    | some info => exact hf info
  · rfl

theorem extends_modifyClass (id : ClassId) (hf : ∀ c, (f c).superclass = c.superclass) :
    s.Extends (s.modifyClass id f) :=
  { Extends.refl s with classes := .modify id hf }

theorem extends_newClass (c : ClassInfo) : s.Extends (s.newClass c).2 :=
  { Extends.refl s with classes := .push c }

theorem extends_setInstanceVar (self : Value) (name : String) (v : Value) :
    s.Extends (s.setInstanceVar self name v) := by
  cases self with
  | classRef id => exact extends_modifyClass id fun _ => rfl
  | _ => exact .of_eq rfl rfl rfl rfl rfl

theorem in_newArray (items : Array Value) : (s.newArray items).1.In (s.newArray items).2 := by
  simp [newArray, Value.In]

theorem in_newHash (entries : Table Key Value) : (s.newHash entries).1.In (s.newHash entries).2 := by
  simp [newHash, Value.In]

theorem Extends.in (h : s.Extends t) (hv : v.In s) : v.In t := by
  cases v with
  | array => exact Nat.lt_of_lt_of_le hv h.arrays
  | hash => exact Nat.lt_of_lt_of_le hv h.hashes
  | classRef => exact Nat.lt_of_lt_of_le hv h.classes.1
  | _ => trivial

theorem Extends.allIn (h : s.Extends t) (hvs : AllIn s vs) : AllIn t vs :=
  fun v hv => h.in (hvs v hv)

/-- Only containers lead on. -/
theorem eq_of_leads (h : s.contents v = []) (hlead : s.Leads v w) : v = w := by
  rcases hlead.cases_head with heq | ⟨x, hx, _⟩
  · exact heq
  · rw [Contains, h] at hx
    cases hx

namespace Tidy

open AllIn

theorem key_in (key : Key) : key.toValue.In s := by cases key <;> trivial

section

variable {arrays : Array (Array Value)} {hashes : Array (Table Key Value)} (h : s.Tidy o)

include h

/-! ### What is in the store -/

theorem array (id : ArrayId) : AllIn s (s.array id).toList := h.contents (.array id)

theorem hash (id : HashId) : AllIn s (s.hash id).values := h.contents (.hash id)

theorem self (f : FrameId) : (s.frame f).self.In s := (cons_iff.mp (h.frames f)).1

theorem arguments (f : FrameId) : AllIn s (s.frame f).arguments :=
  (append_iff.mp (cons_iff.mp (h.frames f)).2).1

theorem slot (f : FrameId) (i : SlotId) : (s.slot f i).In s := by
  have hslots := (append_iff.mp (cons_iff.mp (h.frames f)).2).2
  have := hslots.getD i
  rwa [Store.slot, Array.getD_eq_getD_getElem?, ← Array.getElem?_toList, ← getD_eq_getElem?_getD]

theorem leads (hv : v.In s) (hlead : s.Leads v w) : w.In s := by
  induction hlead with
  | refl => exact hv
  | tail _ hmem _ => exact h.contents _ _ hmem

/-! ### New containers, and changes of one -/

theorem withContainers (hext : s.Extends { s with arrays, hashes })
    (hcontents : ∀ v w, w ∈ ({ s with arrays, hashes } : Store).contents v →
      w.In { s with arrays, hashes })
    (hacyclic : o.untied → ({ s with arrays, hashes } : Store).Acyclic) :
    ({ s with arrays, hashes } : Store).Tidy o where
  larger := h.larger.trans hext
  contents := hcontents
  closures c := hext.in (h.closures c)
  objects o := hext.allIn (h.objects o)
  classes c := hext.allIn (h.classes c)
  frames f := hext.allIn (h.frames f)
  globals := hext.allIn h.globals
  constants := h.constants
  root := h.root
  older := h.older
  acyclic := hacyclic

theorem withClasses {classes : Array ClassInfo} {constants : Table String ClassId}
    (hext : s.Extends { s with classes, constants })
    (hclasses : ∀ c, AllIn s (({ s with classes, constants } : Store).classInfo c).values)
    (hconstants : ∀ c ∈ constants.values, c < classes.size)
    (holder : ∀ c above, (({ s with classes, constants } : Store).classInfo c).superclass = some above →
      above < c) : ({ s with classes, constants } : Store).Tidy o where
  larger := h.larger.trans hext
  contents v := hext.allIn (h.contents v)
  closures c := hext.in (h.closures c)
  objects o := hext.allIn (h.objects o)
  classes c := hext.allIn (hclasses c)
  frames f := hext.allIn (h.frames f)
  globals := hext.allIn h.globals
  constants := hconstants
  root := Nat.lt_of_lt_of_le h.root hext.classes.1
  older := holder
  acyclic := h.acyclic

/-- One container gets contents of the store, and none of the new ones leads to it. -/
theorem put (hext : s.Extends { s with arrays, hashes }) (c : Value)
    (hput : ∀ v w, w ∈ ({ s with arrays, hashes } : Store).contents v →
      w ∈ s.contents v ∨ v = c ∧ w.In s ∧ (o.untied → ¬ s.Leads w c)) :
    ({ s with arrays, hashes } : Store).Tidy o := by
  refine h.withContainers hext (fun v w hw => hext.in ?_) fun hq => (h.acyclic hq).add c
    fun v w hw => (hput v w hw).imp_right fun hnew => ⟨hnew.1, hnew.2.2 hq⟩
  rcases hput v w hw with hold | ⟨_, hin, _⟩
  · exact h.contents v w hold
  · exact hin

theorem newArray {items : Array Value} (hitems : AllIn s items.toList) :
    (s.newArray items).2.Tidy o := by
  refine h.put (extends_newArray items) (.array s.arrays.size) fun v w hw => ?_
  cases v with
  | array id =>
    rcases mem_view_push (g := Array.toList) hw with hold | ⟨rfl, hmem⟩
    · exact .inl hold
    · have hin := hitems w hmem
      exact .inr ⟨rfl, hin, fun _ hlead => absurd (h.leads hin hlead) (Nat.lt_irrefl _)⟩
  | _ => exact .inl hw

theorem newHash {entries : Table Key Value} (hentries : AllIn s entries.values) :
    (s.newHash entries).2.Tidy o := by
  refine h.put (extends_newHash entries) (.hash s.hashes.size) fun v w hw => ?_
  cases v with
  | hash id =>
    rcases mem_view_push (g := Table.values) hw with hold | ⟨rfl, hmem⟩
    · exact .inl hold
    · have hin := hentries w hmem
      exact .inr ⟨rfl, hin, fun _ hlead => absurd (h.leads hin hlead) (Nat.lt_irrefl _)⟩
  | _ => exact .inl hw

theorem modifyArray {id : ArrayId} {f : Array Value → Array Value}
    (hf : ∀ w ∈ (f (s.array id)).toList,
      w ∈ (s.array id).toList ∨ w.In s ∧ (o.untied → ¬ s.Leads w (.array id))) :
    (s.modifyArray id f).Tidy o := by
  refine h.put (extends_modifyArray id f) (.array id) fun v w hw => ?_
  cases v with
  | array i =>
    rcases mem_view_modify (g := Array.toList) hw with hold | ⟨rfl, hmem⟩
    · exact .inl hold
    · exact (hf w hmem).imp_right fun hnew => ⟨rfl, hnew⟩
  | _ => exact .inl hw

theorem modifyHash {id : HashId} {f : Table Key Value → Table Key Value}
    (hf : ∀ w ∈ (f (s.hash id)).values,
      w ∈ (s.hash id).values ∨ w.In s ∧ (o.untied → ¬ s.Leads w (.hash id))) :
    (s.modifyHash id f).Tidy o := by
  refine h.put (extends_modifyHash id f) (.hash id) fun v w hw => ?_
  cases v with
  | hash i =>
    rcases mem_view_modify (g := Table.values) hw with hold | ⟨rfl, hmem⟩
    · exact .inl hold
    · exact (hf w hmem).imp_right fun hnew => ⟨rfl, hnew⟩
  | _ => exact .inl hw

theorem newPairs (hpairs : AllIn s (pairs.map Prod.snd)) :
    (s.newPairs pairs).2.Tidy o ∧ s.Extends (s.newPairs pairs).2 ∧
      AllIn (s.newPairs pairs).2 (s.newPairs pairs).1 := by
  induction pairs generalizing s with
  | nil => exact ⟨h, .refl s, .nil⟩
  | cons pair rest ih =>
    obtain ⟨key, value⟩ := pair
    rw [map_cons, cons_iff] at hpairs
    have hitems : AllIn s #[key.toValue, value].toList := by simp [key_in, hpairs.1]
    have hext : s.Extends (s.newArray #[key.toValue, value]).2 := extends_newArray _
    obtain ⟨htidy, hext', hall⟩ := ih (h.newArray hitems) (hext.allIn hpairs.2)
    exact ⟨htidy, hext.trans hext', cons_iff.mpr ⟨hext'.in (in_newArray _), hall⟩⟩

/-! ### Everything else -/

theorem newClosure (hself : c.self.In s) : (s.newClosure c).2.Tidy o :=
  { h with
    larger := h.larger.trans (extends_newClosure c)
    closures := forall_getD_push (P := fun c : Closure => c.self.In s) h.closures hself }

theorem newObject (hclass : (Value.classRef classId).In s) : (s.newObject classId).2.Tidy o :=
  { h with
    larger := h.larger.trans (.of_eq rfl rfl rfl rfl rfl)
    objects := forall_getD_push (P := fun o : Instance => AllIn s o.values) h.objects
      (cons_iff.mpr ⟨hclass, .nil⟩) }

theorem newFrame (hf : AllIn s f.values) : (s.newFrame f).2.Tidy o :=
  { h with
    larger := h.larger.trans (extends_newFrame f)
    frames := forall_getD_push (P := fun f : Frame => AllIn s f.values) h.frames hf }

theorem newClass {c : ClassInfo} (hc : AllIn s c.values)
    (habove : ∀ above, c.superclass = some above → above < s.classes.size) :
    (s.newClass c).2.Tidy o := by
  refine h.withClasses (extends_newClass c)
    (forall_getD_push (P := fun c : ClassInfo => AllIn s c.values) h.classes hc) (fun id hid => ?_)
    fun id above hid => ?_
  · rw [Array.size_push]
    rcases mem_cons.mp (Table.values_insert_subset _ _ _ hid) with rfl | hid
    · exact Nat.lt_succ_self _
    · exact Nat.lt_succ_of_lt (h.constants id hid)
  · simp only [classInfo, Array.getD_eq_getD_getElem?, Array.getElem?_push] at hid
    split at hid
    · rename_i hnew
      exact hnew ▸ habove above hid
    · rw [← Array.getD_eq_getD_getElem?] at hid
      exact h.older id above hid

theorem modifyClass (id : ClassId) {f : ClassInfo → ClassInfo}
    (hf : ∀ c : ClassInfo, AllIn s c.values → AllIn s (f c).values)
    (habove : ∀ c, (f c).superclass = c.superclass) : (s.modifyClass id f).Tidy o := by
  refine h.withClasses (extends_modifyClass id habove) (forall_getD_modify h.classes hf id)
    (fun c hc => ?_) fun c above hc => ?_
  · rw [Array.size_modify]
    exact h.constants c hc
  · exact h.older c above ((superclass_modifyClass id habove c).symm.trans hc)

theorem define (id : ClassId) (name : String) (body : BodyId) : (s.define id name body).Tidy o :=
  h.modifyClass id (fun _ hc => hc) fun _ => rfl

theorem setClassVar (id : ClassId) (name : String) (hv : v.In s) :
    (s.setClassVar id name v).Tidy o := by
  refine h.modifyClass id (fun c hc => ?_) fun _ => rfl
  have hc := append_iff.mp hc
  exact append_iff.mpr ⟨hc.1.insert name hv, hc.2⟩

theorem setGlobal (name : String) (hv : v.In s) : (s.setGlobal name v).Tidy o :=
  { h with
    larger := h.larger.trans (.of_eq rfl rfl rfl rfl rfl)
    globals := h.globals.insert name hv }

theorem write (output : String) : ({ s with output } : Store).Tidy o :=
  { h with larger := h.larger.trans (.of_eq rfl rfl rfl rfl rfl) }

theorem setInstanceVar (self : Value) (name : String) (hv : v.In s) :
    (s.setInstanceVar self name v).Tidy o := by
  cases self with
  | object id =>
    refine { h with
      larger := h.larger.trans (.of_eq rfl rfl rfl rfl rfl)
      objects := forall_getD_modify (P := fun o : Instance => AllIn s o.values) h.objects
        (fun object hobject => ?_) id }
    obtain ⟨hclass, hfields⟩ := cons_iff.mp hobject
    exact cons_iff.mpr ⟨hclass, hfields.insert name hv⟩
  | classRef id =>
    refine h.modifyClass id (fun c hc => ?_) fun _ => rfl
    have hc := append_iff.mp hc
    exact append_iff.mpr ⟨hc.1, hc.2.insert name hv⟩
  | _ => exact h

theorem setSlot (id : FrameId) (slot : SlotId) (hv : v.In s) : (s.setSlot id slot v).Tidy o := by
  refine { h with
    larger := h.larger.trans (extends_setSlot id slot v)
    frames := forall_getD_modify (P := fun f : Frame => AllIn s f.values) h.frames (fun f hf => ?_) id }
  simp only [Frame.values, cons_iff, append_iff] at hf ⊢
  refine ⟨hf.1, hf.2.1, fun w hw => ?_⟩
  rcases mem_setGrowing hw with hold | rfl | rfl
  · exact hf.2.2 w hold
  · exact hv
  · trivial

theorem rebase : s.Tidy { o with store := s } := { h with larger := .refl s }

end

theorem initial (untied : Prop) : Store.initial.Tidy ⟨.initial, untied⟩ := by
  have hempty : ∀ v, Store.initial.contents v = [] := by
    intro v
    cases v <;> rfl
  have hclass : ∀ c, (Store.initial.classInfo c).values = [] ∧
      (Store.initial.classInfo c).superclass = none := by
    intro c
    cases c <;> exact ⟨rfl, rfl⟩
  have hobject : ∀ o, (Store.initial.object o).values = [.classRef objectClass] := by
    intro o
    cases o <;> rfl
  have hroot : (Value.classRef objectClass).In Store.initial := Nat.zero_lt_one
  exact {
    larger := .refl _
    contents := fun v => by simp [hempty]
    closures := fun _ => trivial
    objects := fun o => by simp [hobject, hroot]
    classes := fun c => by simp [(hclass c).1]
    frames := fun f => cons_iff.mpr ⟨trivial, .nil⟩
    globals := .nil
    constants := forall_mem_singleton.mpr hroot
    root := hroot
    older := fun c above habove => by rw [(hclass c).2] at habove; cases habove
    acyclic := fun _ v hloop => (ends_of_contents (hempty v)).not_loops hloop }

end Tidy

end Store

end BlockLang
