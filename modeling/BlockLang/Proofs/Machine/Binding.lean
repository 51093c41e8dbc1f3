import BlockLang.Proofs.Lowering.Acceptance
import BlockLang.Proofs.Lowering.Binding
import BlockLang.Proofs.Machine.Literals

/-!
# Arguments of methods and lambdas

A method or lambda refuses a wrong number of arguments and otherwise moves each of them into one
parameter. What the parameters are to hold is said of the argument list alone: how many of the
arguments are positional (`Params.given`), how many optional parameters they reach
(`Params.supplied`), and that the values in the parameters, in order, are just the positional
arguments (`Params.Bound`).

Every write of the binding code is a promise about one variable (`Promise`): its value comes from
the arguments or is a literal, it has nothing to do with the variables that were written before, and
it stays good while other variables are written. So a list of promises can be kept one after the
other (`Setting.runs_promises`). **The binding code of a method or lambda keeps them, or refuses the
arguments before it has written anything** (`Program.lower_binds`).
-/

namespace BlockLang

variable {store : Store} {σ : Setting} {f : FrameId}

open List Store Params Setting Lower

/-! ## Counting arguments -/

def endsInHash (args : List Value) : Bool :=
  match args.getLast? with
  | some (.hash _) => true
  | _ => false

namespace Params

variable (p : Params)

/-- Whether keywords are taken from the last argument. -/
def takesKeywords : Bool := p.hasKeywords || p.keywordRest.isSome

/-- How many of the arguments are positional: a hash at the end carries the keywords, unless it is
one of the required arguments. -/
def given (args : List Value) : Nat :=
  if p.takesKeywords && p.pre.length + p.post.length < args.length && endsInHash args then
    args.length - 1
  else args.length

/-- So many positional arguments can be bound. -/
def Fits (n : Nat) : Prop :=
  p.pre.length + p.post.length ≤ n ∧
    (p.rest = none → n ≤ p.pre.length + p.optional.length + p.post.length)

/-- How many optional parameters get an argument. -/
def supplied (n : Nat) : Nat := min p.optional.length (n - p.pre.length - p.post.length)

/-- The argument of a required parameter at the end: it is counted from the front when there are too
few. -/
def postIndex (args : List Value) (i : Nat) : Nat :=
  if p.given args < p.pre.length + p.post.length then p.pre.length + i
  else p.given args - p.post.length + i

theorem arity_takesKeywords : p.arity.takesKeywords = p.takesKeywords := by
  have hempty : (addNames [] (p.keywords.map (·.value.name))).isEmpty = p.keywords.isEmpty := by
    rw [Bool.eq_iff_iff, List.isEmpty_iff, List.isEmpty_iff]
    constructor
    · intro h
      have hnone : ∀ name, name ∉ p.keywords.map (·.value.name) := fun name hname =>
        absurd (mem_addNames.mpr (Or.inr hname)) (h ▸ not_mem_nil)
      exact map_eq_nil_iff.mp (eq_nil_iff_forall_not_mem.mpr hnone)
    · intro h
      rw [h]
      rfl
  show (!(addNames [] (p.keywords.map (·.value.name))).isEmpty || p.keywordRest.isSome) = _
  rw [hempty]
  rfl

theorem accepts_iff (n : Nat) : p.arity.accepts n = true ↔ p.Fits n := by
  unfold Arity.accepts Arity.maximum? Arity.required Fits arity
  cases p.rest <;> simp

theorem given_le (args : List Value) : p.given args ≤ args.length := by
  unfold given
  split
  · exact Nat.sub_le _ _
  · exact Nat.le_refl _

end Params

namespace Store

variable {i : Nat}

variable (s : Store) (p : Params) (args : List Value)

theorem carrier?_isSome (required : Nat) :
    (s.carrier? args required).isSome = (decide (required < args.length) && endsInHash args) := by
  unfold carrier? endsInHash
  by_cases h : args.length ≤ required
  · rw [if_pos h, decide_eq_false (Nat.not_lt.mpr h)]
    rfl
  · rw [if_neg h, decide_eq_true (Nat.lt_of_not_le h)]
    cases args.getLast? with
    | none => rfl
    | some v => cases v <;> rfl

theorem positionalCount_eq :
    s.positionalCount args p.arity.takesKeywords p.arity.required = p.given args := by
  unfold positionalCount given
  rw [carrier?_isSome, p.arity_takesKeywords, Bool.and_assoc]
  rfl

/-- The last argument carries keywords. -/
def Carries (required : Nat) (table : Table Key Value) : Prop :=
  ∃ id, args.getLast? = some (.hash id) ∧ required < args.length ∧ s.hash id = table

theorem carrier?_eq_some :
    s.carrier? args required = some table ↔ s.Carries args required table := by
  unfold carrier? Carries
  by_cases h : args.length ≤ required
  · rw [if_pos h]
    constructor
    · intro hnone
      cases hnone
    · rintro ⟨id, _, hlt, _⟩
      exact absurd h (Nat.not_le.mpr hlt)
  · rw [if_neg h]
    constructor
    · intro hcarrier
      split at hcarrier
      · rename_i id hlast
        exact ⟨id, hlast, Nat.lt_of_not_le h, Option.some.inj hcarrier⟩
      · cases hcarrier
    · rintro ⟨id, hlast, _, htable⟩
      rw [hlast, ← htable]

/-- Every keyword that is passed is a parameter, or goes to the rest of them. -/
def KnowsKeywords : Prop :=
  p.hasKeywords = true → p.keywordRest = none →
    ∀ table, s.Carries args (p.pre.length + p.post.length) table →
      ∀ key ∈ table.keys, ∃ k ∈ p.keywords, key = .symbol k.value.name

variable {s p args}

theorem arityFault?_of_not_fits (h : ¬p.Fits (p.given args)) :
    s.arityFault? p.arity args = some (.wrongCount (p.given args) p.arity) := by
  have haccepts : p.arity.accepts (p.given args) = false := by
    rw [← Bool.not_eq_true, p.accepts_iff]
    exact h
  simp only [arityFault?, positionalCount_eq, haccepts, Bool.not_false, if_true]

theorem arityFault?_of_fits (h : p.Fits (p.given args)) (hknows : s.KnowsKeywords p args) :
    s.arityFault? p.arity args = none := by
  simp only [arityFault?, positionalCount_eq, (p.accepts_iff _).mpr h, Bool.not_true,
    Bool.false_eq_true, if_false]
  rw [p.arity_takesKeywords]
  cases hrest : p.keywordRest with
  | some r =>
    have hkeywordRest : p.arity.hasKeywordRest = true := by simp [arity, hrest]
    simp [hkeywordRest]
  | none =>
    cases hkeywords : p.hasKeywords with
    | false => simp [takesKeywords, hkeywords, hrest]
    | true =>
      cases hcarrier : s.carrier? args p.arity.required with
      | none => simp
      | some table =>
        have hnamed : ∀ key ∈ table.keys, isNamed p.arity.keywords key = true := by
          intro key hkey
          obtain ⟨k, hk, rfl⟩ := hknows hkeywords hrest table
            ((s.carrier?_eq_some args).mp hcarrier) key hkey
          have hmem : k.value.name ∈ p.arity.keywords :=
            mem_addNames.mpr (Or.inr (mem_map_of_mem hk))
          exact contains_iff_mem.mpr hmem
        have hfind : table.keys.find? (fun key => !isNamed p.arity.keywords key) = none := by
          rw [List.find?_eq_none]
          intro key hkey
          rw [hnamed key hkey]
          simp
        simp [hfind]

theorem suppliesOptional_eq (s : Store) (args : List Value) (hi : i < p.optional.length) :
    s.suppliesOptional args (p.arity.optionalMinimum (p.arity.pre + i)) p.arity.takesKeywords
      p.arity.required = decide (i < p.supplied (p.given args)) := by
  have hcarrier := s.carrier?_isSome args p.arity.required
  have hreq : p.arity.required = p.pre.length + p.post.length := rfl
  have hpre : p.arity.pre = p.pre.length := rfl
  have hpost : p.arity.post = p.post.length := rfl
  unfold suppliesOptional Arity.optionalMinimum supplied
  rw [p.arity_takesKeywords, ← Option.not_isSome, hcarrier, hreq, hpre, hpost]
  unfold given
  rw [Bool.eq_iff_iff, decide_eq_true_iff, decide_eq_true_iff]
  cases p.takesKeywords with
  | false =>
    simp only [Bool.false_and, Bool.false_eq_true, if_false]
    omega
  | true =>
    simp only [Bool.true_and, if_true]
    cases hends : decide (p.pre.length + p.post.length < args.length) && endsInHash args with
    | false =>
      simp only [Bool.false_eq_true, if_false, Bool.not_false, if_true]
      omega
    | true =>
      simp only [Bool.not_true, Bool.false_eq_true, if_false, if_true]
      omega

/-- An argument that is not there is nil, unless it has to be there. -/
theorem argument_eq {missing : MissingArgument} (h : missing = .isError → i < args.length) :
    argument args i missing = .ok (args.getD i .nil) := by
  unfold argument
  rw [getD_eq_getElem?_getD]
  cases hi : args[i]? with
  | some v => rfl
  | none =>
    cases missing with
    | isNil => rfl
    | isError => exact absurd (h rfl) (Nat.not_lt.mpr (List.getElem?_eq_none_iff.mp hi))

theorem restArgument_eq :
    s.restArgument args (p.arity.pre + p.arity.optional) p.arity.post p.arity.takesKeywords
      p.arity.required =
        (args.take (p.given args - p.post.length)).drop (p.pre.length + p.optional.length) := by
  unfold restArgument
  rw [positionalCount_eq]
  rfl

theorem postArgument_eq (s : Store) (args : List Value) (hi : i < p.post.length) :
    s.postArgument args (p.arity.post - i) (p.arity.pre + i) p.arity.required p.arity.takesKeywords
      p.arity.required = .ok (args.getD (p.postIndex args i) .nil) := by
  have hreq : p.arity.required = p.pre.length + p.post.length := rfl
  have hpre : p.arity.pre = p.pre.length := rfl
  have hpost : p.arity.post = p.post.length := rfl
  have hle := p.given_le args
  have hread : ∀ j, j < p.given args ∨ p.given args = args.length →
      (args.take (p.given args)).getD j .nil = args.getD j .nil := by
    rintro j (hlt | hall)
    · rw [getD_eq_getElem?_getD, getD_eq_getElem?_getD, List.getElem?_take, if_pos hlt]
    · rw [hall, take_length]
  simp only [postArgument, positionalCount_eq, postIndex]
  rw [hreq, hpre, hpost]
  by_cases hfew : p.given args < p.pre.length + p.post.length
  · -- so no argument carries keywords
    have hall : p.given args = args.length := by
      unfold given at hfew ⊢
      split at hfew
      · rename_i hcarries
        simp only [Bool.and_eq_true, decide_eq_true_eq] at hcarries
        omega
      · rw [if_neg ‹_›]
    rw [if_pos hfew, if_pos hfew, hread _ (.inr hall)]
  · rw [if_neg hfew, if_neg hfew, if_neg (by omega), hread _ (.inl (by omega))]
    congr 2
    omega

end Store

/-! ## Writing variables of one frame -/

/-- Arrays and hashes are added, and in the frame only variables change. -/
structure Store.Keeps (f : FrameId) (s t : Store) : Prop extends Store.Retains s t where
  rest : t = { s with arrays := t.arrays, hashes := t.hashes, frames := t.frames }
  present : f < s.frames.size → f < t.frames.size
  frame : t.frame f = { s.frame f with slots := (t.frame f).slots }
  room : (t.frame f).slots.size = (s.frame f).slots.size

namespace Store

variable {s t u : Store} {f : FrameId}

theorem Keeps.refl : s.Keeps f s := ⟨.refl, rfl, id, rfl, rfl⟩

theorem Keeps.trans (h : s.Keeps f t) (h' : t.Keeps f u) : s.Keeps f u := by
  refine ⟨h.toRetains.trans h'.toRetains, ?_, fun hf => h'.present (h.present hf), ?_,
    h'.room.trans h.room⟩
  · rw [h'.rest, h.rest]
  · rw [h'.frame, h.frame]

theorem Keeps.arguments (h : s.Keeps f t) : (t.frame f).arguments = (s.frame f).arguments := by
  rw [h.frame]

theorem Adds.keeps (h : s.Adds t) : s.Keeps f t := by
  refine ⟨h.toRetains, ?_, ?_, ?_, ?_⟩
  · rw [h.rest]
  · rw [h.frames]
    exact id
  · rw [h.frame]
  · rw [h.frame]

theorem keeps_setSlot {slot : SlotId} (v : Value) (hf : f < s.frames.size)
    (hslot : slot < (s.frame f).slots.size) : s.Keeps f (s.setSlot f slot v) := by
  have hframe := frame_setSlot f f slot v hf
  rw [if_pos rfl] at hframe
  refine ⟨⟨id, id⟩, rfl, ?_, ?_, ?_⟩
  · rw [size_setSlot]
    exact id
  · rw [hframe]
  · rw [hframe]
    exact size_setGrowing hslot v

end Store

/-- What a variable is to hold, and the code that it is bound to for that. -/
structure Promise where
  name : String
  code : Code
  holds : Store → Value → Prop

namespace Promise

/-- What is promised stays good when data is added. -/
def Lasts (p : Promise) : Prop := ∀ {s t : Store} {v : Value}, s.Retains t → p.holds s v →
  p.holds t v

/-- The code gives a value as promised, whatever variables were written before. -/
def Settled (p : Promise) (σ : Setting) (f : FrameId) (s : Store) : Prop :=
  ∀ t, s.Keeps f t → ∃ t' v, σ.Gives f p.code t t' v ∧ t.Adds t' ∧ p.holds t' v

def binding (p : Promise) : String × Code := (p.name, p.code)

end Promise

/-- **Promises are kept one after the other**, and other variables stay as they are. -/
theorem Setting.runs_promises {σ : Setting} {f : FrameId} {s : Store} (hf : f < s.frames.size)
    (hroom : (s.frame f).slots.size = slots.length) :
    ∀ (promises : List Promise) {t : Store}, s.Keeps f t → (promises.map (·.name)).Nodup →
    (∀ p ∈ promises, p.name ∈ slots) → (∀ p ∈ promises, p.Lasts) →
    (∀ p ∈ promises, p.Settled σ f s) →
    ∃ t', σ.Runs f (Code.writes slots (promises.map (·.binding))) t t' ∧ t.Keeps f t' ∧
      (∀ p ∈ promises, p.holds t' (t'.slot f (slots.idxOf p.name))) ∧
      ∀ name ∈ slots, name ∉ promises.map (·.name) →
        t'.slot f (slots.idxOf name) = t.slot f (slots.idxOf name)
  | [], t, _, _, _, _, _ => ⟨t, .nil t, .refl, by simp, fun _ _ _ => rfl⟩
  | p :: rest, t, hkeeps, hnodup, hslots, hlasts, hsettled => by
    obtain ⟨hnew, hnodup⟩ := nodup_cons.mp hnodup
    have hp := hslots p mem_cons_self
    obtain ⟨t₁, v, hgives, hadds, hv⟩ := hsettled p mem_cons_self t hkeeps
    have hslot : slots.idxOf p.name < (t₁.frame f).slots.size := by
      rw [hadds.frame, hkeeps.room, hroom]
      exact idxOf_lt_length_iff.mpr hp
    have hf₁ : f < t₁.frames.size := by
      rw [hadds.frames]
      exact hkeeps.present hf
    have hwrite := keeps_setSlot v hf₁ hslot
    have hread : ∀ slot, (t₁.setSlot f (slots.idxOf p.name) v).slot f slot =
        if slots.idxOf p.name = slot then v else t.slot f slot := by
      intro slot
      rw [slot_setSlot v hf₁ hslot]
      exact congrArg (fun frame : Frame => ite _ v (frame.slots.getD slot .nil)) (hadds.frame f)
    have hstep : t.Keeps f (t₁.setSlot f (slots.idxOf p.name) v) := hadds.keeps.trans hwrite
    obtain ⟨t', hruns, hkeeps', hholds, hothers⟩ := runs_promises hf hroom rest
      (hkeeps.trans hstep) hnodup (fun q hq => hslots q (mem_cons_of_mem _ hq))
      (fun q hq => hlasts q (mem_cons_of_mem _ hq))
      (fun q hq => hsettled q (mem_cons_of_mem _ hq))
    refine ⟨t', .cons (hgives.writeLocal rfl hslot) hruns, hstep.trans hkeeps', ?_, ?_⟩
    · intro q hq
      rcases mem_cons.mp hq with rfl | hq
      · -- no later write is to this variable
        rw [hothers q.name hp hnew, hread, if_pos rfl]
        exact hlasts q mem_cons_self (hwrite.toRetains.trans hkeeps'.toRetains) hv
      · exact hholds q hq
    · intro name hname hnot
      rw [map_cons, mem_cons, not_or] at hnot
      have hat : ∀ {n}, n ∈ slots → slots[slots.idxOf n]? = some n := fun hn => by
        rw [List.getElem?_eq_getElem (idxOf_lt_length_iff.mpr hn), getElem_idxOf]
      have hne : slots.idxOf p.name ≠ slots.idxOf name := fun heq => by
        have hp := hat hp
        rw [heq, hat hname] at hp
        exact hnot.1 (Option.some.inj hp)
      rw [hothers name hname hnot.2, hread, if_neg hne]

/-! ## What the parameters are to hold -/

namespace Params

variable {defaults : List Code} {missing : MissingArgument} {source : ArgumentSource}

/-- The items of the rest parameter. -/
def restItems (p : Params) (args : List Value) : List Value :=
  (args.take (p.given args - p.post.length)).drop (p.pre.length + p.optional.length)

/-- The positional parameters hold the positional arguments, each of them once, and those that are
left of the optional parameters hold their defaults. -/
structure Bound (p : Params) (body : Body) (f : FrameId) (args : List Value) (s : Store) : Prop where
  declared : ∀ name ∈ p.names, name ∈ body.slots
  arguments : ∃ items : List Value,
    (patternNames p.pre ++ (p.optional.take (p.supplied (p.given args))).map (·.value.name)).map
        (fun name => s.slot f (body.slots.idxOf name)) ++ items ++
      (patternNames p.post).map (fun name => s.slot f (body.slots.idxOf name)) =
        args.take (p.given args) ∧
    (∀ r ∈ p.rest, ∃ id, s.slot f (body.slots.idxOf r.value.slotName) = .array id ∧
      s.arrays[id]? = some items.toArray) ∧
    (p.rest = none → items = [])
  defaults : ∀ o ∈ p.optional.drop (p.supplied (p.given args)),
    s.Shows o.value.default.value (s.slot f (body.slots.idxOf o.value.name))

/-- One promise for every positional parameter. -/
def promises (p : Params) (source : ArgumentSource) (args : List Value) (defaults : List Code) :
    List Promise :=
  (patternNames p.pre).mapIdx (fun i name =>
      ⟨name, source.atPosition i, fun _ v => v = args.getD i .nil⟩) ++
    (p.optional.zip defaults).mapIdx (fun i (o, default) =>
      ⟨o.value.name, source.optional p.arity (p.arity.pre + i) default,
        fun s v => if i < p.supplied (p.given args) then v = args.getD (p.pre.length + i) .nil
          else s.Shows o.value.default.value v⟩) ++
    p.rest.toList.map (fun r =>
      ⟨r.value.slotName, source.rest p.arity,
        fun s v => ∃ id, v = .array id ∧ s.arrays[id]? = some (p.restItems args).toArray⟩) ++
    (patternNames p.post).mapIdx (fun i name =>
      ⟨name, source.post p.arity i,
        fun _ v => v = args.getD (p.postIndex args i) .nil⟩)

theorem binding_promises (p : Params) (source : ArgumentSource) (args : List Value)
    (defaults : List Code) : (p.promises source args defaults).map (·.binding) =
      p.positional source defaults := by
  have hmap : ∀ {α : Type} (as : List α) (promise : Nat → α → Promise),
      (as.mapIdx promise).map (·.binding) = as.mapIdx fun i a => (promise i a).binding := by
    intro α as promise
    refine ext_getElem? fun i => ?_
    simp only [List.getElem?_map, List.getElem?_mapIdx, Option.map_map]
    rfl
  unfold promises positional
  simp only [map_append, hmap, map_map]
  rfl

theorem lasts_promises {p : Params} {args : List Value} :
    ∀ q ∈ p.promises source args defaults, q.Lasts := by
  intro q hq s t v hretains hholds
  simp only [promises, mem_append, mem_mapIdx, mem_map] at hq
  rcases hq with ((⟨i, hi, rfl⟩ | ⟨i, hi, rfl⟩) | ⟨r, hr, rfl⟩) | ⟨i, hi, rfl⟩
  · exact hholds
  · dsimp only at hholds ⊢
    split at hholds
    · rename_i hlt
      rw [if_pos hlt]
      exact hholds
    · rename_i hlt
      rw [if_neg hlt]
      exact hholds.mono hretains
  · obtain ⟨id, hv, hid⟩ := hholds
    exact ⟨id, hv, hretains.arrays hid⟩
  · exact hholds

variable {p : Params} {args : List Value} {σ : Setting} {f : FrameId} {s : Store}

theorem length_patternNames : ∀ {patterns : List (Located Pattern)},
    patterns.all (·.value.isPlain) = true → (patternNames patterns).length = patterns.length
  | [], _ => rfl
  | ⟨_, .destructure _⟩ :: _, h => by simp [Pattern.isPlain] at h
  | ⟨_, .required name⟩ :: rest, h => by
    have ih := length_patternNames (Bool.and_eq_true_iff.mp h).2
    show (name :: patternNames rest).length = rest.length + 1
    rw [length_cons, ih]

theorem settled_optional {o : Located OptionalParam} {default : Code} {i : Nat}
    (hargs : (s.frame f).arguments = args) (hi : i < p.optional.length)
    (hdefault : p.supplied (p.given args) ≤ i → o.value.default.value.isLiteral = true ∧ ∃ t t',
      expr o.value.default c t = .ok default t') :
    Promise.Settled ⟨o.value.name,
      ArgumentSource.optional (.arguments missing) p.arity (p.arity.pre + i) default,
      fun s v => if i < p.supplied (p.given args) then v = args.getD (p.pre.length + i) .nil
        else s.Shows o.value.default.value v⟩ σ f s := by
  intro store hkeeps
  have hstore : (store.frame f).arguments = args := hkeeps.arguments.trans hargs
  have hsupplies := store.suppliesOptional_eq args hi
  by_cases hlt : i < p.supplied (p.given args)
  · refine ⟨store, args.getD (p.pre.length + i) .nil, .now fun depth stack => ?_, .refl, ?_⟩
    · simp only [ArgumentSource.optional, eval, hstore, hsupplies, hlt, decide_true,
        if_true]
      rfl
    · simp only [hlt, if_true]
  · obtain ⟨hliteral, t, t', hdefault⟩ := hdefault (Nat.le_of_not_lt hlt)
    obtain ⟨store', v, hgives, hadds, hshows⟩ := (Expr.literal_gives hliteral hdefault).2 σ f store
    refine ⟨store', v, fun depth stack => .head ?_ (hgives depth stack), hadds, ?_⟩
    · simp only [step, evaluating, ArgumentSource.optional, eval, hstore,
        hsupplies, hlt, decide_false, Bool.false_eq_true, if_false]
    · simp only [hlt, if_false]
      exact hshows

theorem settled_promises {c : Context} (hargs : (s.frame f).arguments = args)
    (hmissing : missing = .isError → p.pre.length ≤ args.length) (hplain : p.isPlain = true)
    (hdefaults : ∀ i x, (p.optional.zip defaults)[i]? = some x → p.supplied (p.given args) ≤ i →
      x.1.value.default.value.isLiteral = true ∧
        ∃ t t', expr x.1.value.default c t = .ok x.2 t') :
    ∀ q ∈ p.promises (.arguments missing) args defaults, q.Settled σ f s := by
  have hpre := length_patternNames (Bool.and_eq_true_iff.mp hplain).1
  have hpost := length_patternNames (Bool.and_eq_true_iff.mp hplain).2
  intro q hq
  simp only [promises, mem_append, mem_mapIdx, mem_map] at hq
  rcases hq with ((⟨i, hi, rfl⟩ | ⟨i, hi, rfl⟩) | ⟨r, hr, rfl⟩) | ⟨i, hi, rfl⟩
  · intro store hkeeps
    refine ⟨store, _, .now fun depth stack => ?_, .refl, rfl⟩
    have hi : missing = .isError → i < args.length := fun herror =>
      Nat.lt_of_lt_of_le (hpre ▸ hi) (hmissing herror)
    simp only [ArgumentSource.atPosition, eval, hkeeps.arguments.trans hargs,
      argument_eq hi]
  · have hdefault := hdefaults i _ (List.getElem?_eq_getElem hi)
    have hi : i < p.optional.length := by
      rw [length_zip] at hi
      omega
    exact settled_optional hargs hi hdefault
  · intro store hkeeps
    refine ⟨_, _, .now fun depth stack => ?_, adds_newArray (p.restItems args).toArray, _,
      rfl, arrays_newArray _⟩
    simp only [ArgumentSource.rest, eval, hkeeps.arguments.trans hargs, restArgument_eq]
    rfl
  · intro store hkeeps
    refine ⟨store, _, .now fun depth stack => ?_, .refl, rfl⟩
    simp only [ArgumentSource.post, eval, hkeeps.arguments.trans hargs,
      store.postArgument_eq args (hpost ▸ hi)]

theorem map_eq_stretch {α : Type} {read : α → Value} {as : List α} (start : Nat)
    (h : ∀ i a, as[i]? = some a → args[start + i]? = some (read a)) :
    as.map read = (args.drop start).take as.length := by
  refine ext_getElem? fun i => ?_
  rw [List.getElem?_map, List.getElem?_take, List.getElem?_drop]
  split
  · rename_i hi
    rw [List.getElem?_eq_getElem hi, h i _ (List.getElem?_eq_getElem hi)]
    rfl
  · rename_i hi
    rw [List.getElem?_eq_none (Nat.le_of_not_lt hi)]
    rfl

/-- The stretches that the parameters take follow each other without a gap. -/
theorem stretches_eq (hfits : p.Fits (p.given args)) :
    (args.drop 0).take p.pre.length ++ (args.drop p.pre.length).take (p.supplied (p.given args)) ++
        p.restItems args ++ (args.drop (p.given args - p.post.length)).take p.post.length =
      args.take (p.given args) := by
  obtain ⟨hrequired, _⟩ := hfits
  let n := p.given args
  let k := p.supplied n
  let m := n - p.post.length - (p.pre.length + k)
  have hk : p.pre.length + k ≤ n - p.post.length := by
    show p.pre.length + p.supplied (p.given args) ≤ p.given args - p.post.length
    unfold supplied
    omega
  have hrest : p.restItems args = (args.drop (p.pre.length + k)).take m := by
    unfold restItems
    rw [drop_take]
    by_cases hall : k = p.optional.length
    · rw [← hall]
    · -- not all optional parameters are supplied, so nothing is left for the rest
      have hexact : n - p.post.length = p.pre.length + k := by
        have hmin : k = min p.optional.length (n - p.pre.length - p.post.length) := rfl
        omega
      have hfew : p.given args - p.post.length - (p.pre.length + p.optional.length) = 0 := by
        have hmin : k = min p.optional.length (n - p.pre.length - p.post.length) := rfl
        show n - p.post.length - (p.pre.length + p.optional.length) = 0
        omega
      have hnone : m = 0 := by
        show n - p.post.length - (p.pre.length + k) = 0
        omega
      rw [hfew, hnone, take_zero, take_zero]
  have htotal : p.given args = p.pre.length + k + m + p.post.length := by
    show n = p.pre.length + k + (n - p.post.length - (p.pre.length + k)) + p.post.length
    omega
  have hstart : p.given args - p.post.length = p.pre.length + k + m := by omega
  rw [hrest, hstart]
  have htake : args.take (p.given args) = args.take (p.pre.length + k + m + p.post.length) :=
    congrArg (args.take ·) htotal
  rw [htake, take_add, take_add, take_add]
  rfl

theorem kept_of_promises (read : String → Value) (hlength : p.optional.length = defaults.length)
    (h : ∀ q ∈ p.promises source args defaults, q.holds s (read q.name)) :
    (∀ i name, (patternNames p.pre)[i]? = some name → read name = args.getD i .nil) ∧
      (∀ i o, p.optional[i]? = some o → if i < p.supplied (p.given args) then
        read o.value.name = args.getD (p.pre.length + i) .nil
        else s.Shows o.value.default.value (read o.value.name)) ∧
      (∀ r ∈ p.rest, ∃ id, read r.value.slotName = .array id ∧
        s.arrays[id]? = some (p.restItems args).toArray) ∧
      ∀ i name, (patternNames p.post)[i]? = some name →
        read name = args.getD (p.postIndex args i) .nil := by
  simp only [promises, mem_append, or_imp, forall_and, mem_mapIdx, mem_map] at h
  obtain ⟨⟨⟨hpre, hoptional⟩, hrest⟩, hpost⟩ := h
  refine ⟨?_, ?_, ?_, ?_⟩
  · intro i name hi
    obtain ⟨hlt, rfl⟩ := List.getElem?_eq_some_iff.mp hi
    exact hpre _ ⟨i, hlt, rfl⟩
  · intro i o hi
    obtain ⟨hlt, rfl⟩ := List.getElem?_eq_some_iff.mp hi
    have hzip : i < (p.optional.zip defaults).length := by
      rw [length_zip, ← hlength, Nat.min_self]
      exact hlt
    have hheld := hoptional _ ⟨i, hzip, rfl⟩
    rw [getElem_zip] at hheld
    exact hheld
  · intro r hr
    exact hrest _ ⟨r, Option.mem_toList.mpr hr, rfl⟩
  · intro i name hi
    obtain ⟨hlt, rfl⟩ := List.getElem?_eq_some_iff.mp hi
    exact hpost _ ⟨i, hlt, rfl⟩

/-- With enough arguments for the required parameters each kind of parameter holds a stretch of
them. -/
theorem stretches_of_promises (read : String → Value) (hplain : p.isPlain = true)
    (hlength : p.optional.length = defaults.length)
    (hrequired : p.pre.length + p.post.length ≤ p.given args)
    (h : ∀ q ∈ p.promises source args defaults, q.holds s (read q.name)) :
    (patternNames p.pre).map read = (args.drop 0).take p.pre.length ∧
      (p.optional.take (p.supplied (p.given args))).map (fun o => read o.value.name) =
        (args.drop p.pre.length).take (p.supplied (p.given args)) ∧
      (∀ o ∈ p.optional.drop (p.supplied (p.given args)),
        s.Shows o.value.default.value (read o.value.name)) ∧
      (patternNames p.post).map read =
        (args.drop (p.given args - p.post.length)).take p.post.length := by
  have hpreLength := length_patternNames (Bool.and_eq_true_iff.mp hplain).1
  have hpostLength := length_patternNames (Bool.and_eq_true_iff.mp hplain).2
  have hle := p.given_le args
  obtain ⟨hpre, hoptional, _, hpost⟩ := kept_of_promises read hlength h
  -- all arguments that are promised are there
  have hthere : ∀ {i v}, i < args.length → v = args.getD i .nil → args[i]? = some v := by
    intro i v hi hv
    rw [hv, getD_eq_getElem?_getD, List.getElem?_eq_getElem hi]
    rfl
  refine ⟨?_, ?_, ?_, ?_⟩
  · rw [← hpreLength]
    refine map_eq_stretch 0 fun i name hi => ?_
    have hlt := (List.getElem?_eq_some_iff.mp hi).1
    exact hthere (by omega) (by rw [Nat.zero_add]; exact hpre i name hi)
  · have hcount : (p.optional.take (p.supplied (p.given args))).length =
        p.supplied (p.given args) := by
      rw [length_take]
      exact Nat.min_eq_left (Nat.min_le_left _ _)
    refine (map_eq_stretch p.pre.length fun i o hi => ?_).trans (by rw [hcount])
    rw [List.getElem?_take] at hi
    split at hi
    · rename_i hlt
      have hheld := hoptional i o hi
      rw [if_pos hlt] at hheld
      exact hthere (by unfold supplied at hlt; omega) hheld
    · cases hi
  · intro o ho
    obtain ⟨i, hi⟩ := List.getElem?_of_mem ho
    rw [List.getElem?_drop] at hi
    have hheld := hoptional _ o hi
    rwa [if_neg (by omega)] at hheld
  · rw [← hpostLength]
    refine map_eq_stretch _ fun i name hi => ?_
    have hlt := (List.getElem?_eq_some_iff.mp hi).1
    have hheld := hpost i name hi
    rw [postIndex, if_neg (by omega), ← hpostLength] at hheld
    exact hthere (by omega) hheld

theorem bound_of_promises {body : Body} (hdeclared : ∀ name ∈ p.names, name ∈ body.slots)
    (hplain : p.isPlain = true) (hlength : p.optional.length = defaults.length)
    (hfits : p.Fits (p.given args))
    (h : ∀ q ∈ p.promises source args defaults, q.holds s (s.slot f (body.slots.idxOf q.name))) :
    p.Bound body f args s := by
  let read := fun name => s.slot f (body.slots.idxOf name)
  obtain ⟨_, _, hrest, _⟩ := kept_of_promises read hlength h
  obtain ⟨hpre, hoptional, hdefaults, hpost⟩ := stretches_of_promises read hplain hlength hfits.1 h
  refine ⟨hdeclared, ⟨p.restItems args, ?_, hrest, ?_⟩, hdefaults⟩
  · rw [map_append, map_map]
    exact Eq.trans (by rw [hpre, hpost]; exact congrArg (_ ++ · ++ _ ++ _) hoptional)
      (stretches_eq hfits)
  · intro hnone
    have hmost := hfits.2 hnone
    rw [restItems, drop_eq_nil_iff, length_take]
    omega

end Params

/-! ## The other parameters -/

/-- The keyword is passed. -/
def Store.Passes (s : Store) (args : List Value) (required : Nat) (name : String) : Prop :=
  ∃ table v, s.Carries args required table ∧ table.get? (.symbol name) = some v

/-- Every keyword is passed or has a literal for its default. -/
def Store.SuppliesKeywords (s : Store) (p : Params) (args : List Value) : Prop :=
  ∀ k ∈ p.keywords, match k.value.default with
    | none => s.Passes args (p.pre.length + p.post.length) k.value.name
    | some e => e.value.isLiteral = true

theorem Store.Passes.keywordArgument? {s t : Store} {args : List Value}
    (h : s.Passes args required name) (hretains : s.Retains t) :
    ∃ v, t.keywordArgument? args name required = some v := by
  obtain ⟨table, v, ⟨id, hlast, hlt, htable⟩, hv⟩ := h
  -- a hash that is not there has no keywords
  have hid : s.hashes[id]? = some table := by
    unfold Store.hash at htable
    rw [Array.getD_eq_getD_getElem?] at htable
    cases hhash : s.hashes[id]? with
    | none =>
      rw [hhash] at htable
      subst htable
      simp [Table.get?] at hv
    | some entries =>
      rw [hhash] at htable
      exact congrArg some htable
  have hcarries : t.Carries args required table := by
    refine ⟨id, hlast, hlt, ?_⟩
    rw [Store.hash, Array.getD_eq_getD_getElem?, hretains.hashes hid]
    rfl
  refine ⟨v, ?_⟩
  unfold Store.keywordArgument?
  rw [(t.carrier?_eq_some args).mpr hcarries]
  exact hv

namespace Params

variable {keywords : List Code}

variable {p : Params} {args : List Value} {σ : Setting} {f : FrameId} {s : Store}

def otherPromises (p : Params) (keywords : List Code) : List Promise :=
  (p.named keywords ++ p.locals).map fun b => ⟨b.1, b.2, fun _ _ => True⟩

theorem binding_otherPromises (p : Params) (keywords : List Code) :
    (p.otherPromises keywords).map (·.binding) = p.named keywords ++ p.locals := by
  rw [otherPromises, map_map]
  exact map_id _

theorem name_otherPromises (h : p.keywords.length = keywords.length) :
    (p.otherPromises keywords).map (·.name) = p.otherNames := by
  have hkeywords := map_zip_fst (fun k : Located KeywordParam => k.value.name) h
  unfold otherPromises named locals otherNames
  simp only [map_append, map_map, ← hkeywords]
  rfl

theorem lasts_others : ∀ q ∈ p.otherPromises keywords, q.Lasts := by
  intro q hq
  obtain ⟨b, _, rfl⟩ := mem_map.mp hq
  exact fun _ _ => trivial

theorem isRead_of_isLiteral (h : e.isLiteral = true) : isRead name e = false := by
  cases e <;> simp [isRead, Expr.isLiteral] at h ⊢

/-- A keyword gets what is passed for it, or else its default. -/
theorem gives_keyword (hargs : (s.frame f).arguments = args)
    (hlook : s.keywordArgument? args x.1.value.name required = passed)
    (hdefault : KeywordDefault c x)
    (hmissing : passed = none → ∃ e ∈ x.1.value.default, e.value.isLiteral = true) :
    ∃ t v, σ.Gives f (.keywordArgument x.1.value.name required x.2) s t v ∧ s.Adds t ∧
      (passed = some v ∨ passed = none ∧ ∃ e ∈ x.1.value.default, t.Shows e.value v) := by
  cases passed with
  | some v =>
    refine ⟨s, v, .now fun depth stack => ?_, .refl, .inl rfl⟩
    simp only [eval, hargs, hlook]
  | none =>
    obtain ⟨e, he, hliteral⟩ := hmissing rfl
    rw [KeywordDefault, show x.1.value.default = some e from he] at hdefault
    obtain ⟨_, _, hrun⟩ := hdefault (isRead_of_isLiteral hliteral)
    obtain ⟨t, v, hgives, hadds, hshows⟩ := (Expr.literal_gives hliteral hrun).2 σ f s
    refine ⟨t, v, fun depth stack => .head ?_ (hgives depth stack), hadds,
      .inr ⟨rfl, e, he, hshows⟩⟩
    simp only [step, evaluating, eval, hargs, hlook]

theorem settled_keyword (hargs : (s.frame f).arguments = args) (hx : x.1 ∈ p.keywords)
    (hsupplies : s.SuppliesKeywords p args) (hdefault : KeywordDefault c x) :
    Promise.Settled ⟨x.1.value.name, .keywordArgument x.1.value.name p.arity.required x.2,
      fun _ _ => True⟩ σ f s := by
  intro store hkeeps
  have hsupplied := hsupplies x.1 hx
  obtain ⟨t, v, hgives, hadds, _⟩ :=
    gives_keyword (hkeeps.arguments.trans hargs) rfl hdefault fun hnone => by
      cases he : x.1.value.default with
      | none =>
        rw [he] at hsupplied
        obtain ⟨v, hsome⟩ := hsupplied.keywordArgument? hkeeps.toRetains
        exact absurd (hnone.symm.trans hsome) (by simp)
      | some e => exact ⟨e, rfl, by rwa [he] at hsupplied⟩
  exact ⟨t, v, hgives, hadds, trivial⟩

theorem settled_others (hargs : (s.frame f).arguments = args)
    (hsupplies : s.SuppliesKeywords p args)
    (hdefaults : ∀ x ∈ p.keywords.zip keywords, KeywordDefault c x) :
    ∀ q ∈ p.otherPromises keywords, q.Settled σ f s := by
  intro q hq
  simp only [otherPromises, named, locals, mem_map, mem_append] at hq
  obtain ⟨b, ((⟨x, hx, rfl⟩ | ⟨r, _, rfl⟩) | ⟨b, _, rfl⟩) | ⟨b, _, rfl⟩, rfl⟩ := hq
  · exact settled_keyword hargs (of_mem_zip hx).1 hsupplies (hdefaults x hx)
  · exact fun store _ => ⟨_, _, .now fun _ _ => rfl, adds_newHash _, trivial⟩
  · exact fun store _ => ⟨store, _, .now fun _ _ => rfl, .refl, trivial⟩
  · exact fun store _ => ⟨store, _, .now fun _ _ => rfl, .refl, trivial⟩

end Params

/-! ## The code of a method or lambda -/

theorem Setting.items_raising {first : Code} {rest : List Code} {fault : Fault} (h : ∀ depth stack,
      σ.Reaches (evaluating store depth stack f first) (raising store depth stack fault))
    (depth : Nat) (stack : List Cont) :
    σ.Reaches (items store depth stack f (first :: rest)) (raising store depth stack fault) := by
  rw [items_cons]
  refine (h depth _).trans ?_
  cases rest with
  | nil => exact .refl
  | cons next rest => exact .single rfl

theorem Setting.Passes.raises {store' : Store} {code failing : Code} {count : Nat}
    {rest : List Code} {fault : Fault} (h : σ.Passes f code count store store')
    (hitems : code.items.drop count = failing :: rest) (hfails : ∀ depth stack,
      σ.Reaches (evaluating store' depth stack f failing) (raising store' depth stack fault))
    (depth : Nat) (stack : List Cont) :
    σ.Reaches (evaluating store depth stack f code) (raising store' depth stack fault) := by
  obtain ⟨v, hv⟩ := h
  refine (hv depth stack).trans ?_
  rw [hitems]
  exact .head rfl (items_raising hfails depth stack)

/-- A frame in which the body is about to be run with the arguments. -/
structure Store.HasFrame (s : Store) (f : FrameId) (body : Body) (args : List Value) : Prop where
  present : f < s.frames.size
  arguments : (s.frame f).arguments = args
  room : (s.frame f).slots.size = body.slots.length

theorem Store.hasFrame_newFrame (s : Store) {body : Body}
    (h : new.slots = blankSlots body.slots.length) :
    (s.newFrame new).2.HasFrame s.frames.size body new.arguments := by
  refine ⟨?_, ?_, ?_⟩
  · rw [size_newFrame]
    exact Nat.lt_succ_self _
  · rw [frame_newFrame_self]
  · rw [frame_newFrame_self, h]
    exact Array.size_replicate

theorem Params.literal_of_drop {p : Params} {span : Span} {optional : List Code}
    (hoptional : optionalDefaults span pending p.optional c t = .ok optional t')
    (hdefaults : ∀ o ∈ p.optional.drop n, o.value.default.value.isLiteral = true) :
    ∀ i x, (p.optional.zip optional)[i]? = some x → n ≤ i →
      x.1.value.default.value.isLiteral = true ∧
        ∃ t t', expr x.1.value.default c t = .ok x.2 t' := by
  intro i x hx hi
  have hfst : p.optional[i]? = some x.1 := (List.getElem?_zip_eq_some.mp hx).1
  have hl := hdefaults x.1 (mem_of_getElem? (i := i - n) (by
    rw [List.getElem?_drop, Nat.add_sub_cancel' hi]
    exact hfst))
  exact ⟨hl, optionalDefaults_ok hoptional x (mem_of_getElem? hx) (isRead_of_isLiteral hl)⟩

/-- **The writes of plain parameters keep what is promised**, to the positional parameters and to as
many of the others as something is promised to. -/
theorem Setting.runs_bindings {p : Params} {body : Body} {args : List Value}
    {source : ArgumentSource} {optional keywords : List Code}
    {others : List Promise} (hframe : store.HasFrame f body values) (hnames : p.names.Nodup)
    (hdeclared : ∀ name ∈ p.names, name ∈ body.slots)
    (hlength : p.optional.length = optional.length) (hlength' : p.keywords.length = keywords.length)
    (hpositional : ∀ q ∈ p.promises source args optional, q.Settled σ f store)
    (hothers : others.map (·.binding) <+: p.named keywords ++ p.locals)
    (hlasts : ∀ q ∈ others, q.Lasts) (hsettled : ∀ q ∈ others, q.Settled σ f store) :
    ∃ store', σ.Runs f (Code.writes body.slots
        (p.positional source optional ++ others.map (·.binding))) store store' ∧
      store.Keeps f store' ∧
      (∀ q ∈ p.promises source args optional,
        q.holds store' (store'.slot f (body.slots.idxOf q.name))) ∧
      ∀ q ∈ others, q.holds store' (store'.slot f (body.slots.idxOf q.name)) := by
  let promises := p.promises source args optional ++ others
  have hbinding : promises.map (·.binding) =
      p.positional source optional ++ others.map (·.binding) := by
    rw [map_append, binding_promises]
  -- what is promised is bound to different variables
  have hbegins : promises.map (·.name) <+: p.names := by
    have hnamed : promises.map (·.name) = (promises.map (·.binding)).map Prod.fst := by
      rw [map_map]
      rfl
    rw [hnamed, hbinding, ← map_fst_bindings hlength hlength', append_assoc]
    exact ((prefix_append_right_inj _).mpr hothers).map _
  obtain ⟨store', hruns, hkeeps, hholds, _⟩ := runs_promises (σ := σ) hframe.present
    hframe.room promises .refl (hbegins.sublist.nodup hnames)
    (fun q hq => hdeclared _ (hbegins.subset (mem_map_of_mem hq)))
    (forall_mem_append.mpr ⟨lasts_promises, hlasts⟩)
    (forall_mem_append.mpr ⟨hpositional, hsettled⟩)
  rw [hbinding] at hruns
  obtain ⟨hpositionals, hholds⟩ := forall_mem_append.mp hholds
  exact ⟨store', hruns, hkeeps, hpositionals, hholds⟩

namespace Callable.CompiledTo

variable {k : Callable} {body : Body} {σ : Setting} {store : Store} {f : FrameId}
  {args : List Value}

theorem raises (h : k.CompiledTo body) (hstrict : k.kind.isStrict = true)
    (hplain : k.params.isPlain = true) (hframe : store.HasFrame f body args)
    (hfault : store.arityFault? k.params.arity args = some fault) (depth : Nat)
    (stack : List Cont) :
    σ.Reaches (evaluating store depth stack f body.code)
      (raising store depth stack fault) := by
  obtain ⟨c, s, s', h⟩ := h
  obtain ⟨_, optional, keywords, rest, _, hitems⟩ := h.items_eq hstrict hplain
  refine (reaches_items _ depth stack).trans ?_
  rw [hitems]
  refine items_raising (fun depth stack => .single (congrArg Step.next ?_)) depth stack
  simp only [eval, hframe.arguments, hfault]

/-- Arguments that fit are bound to the positional parameters, and to as many of the others as can
be promised. -/
theorem runs (h : k.CompiledTo body) (hstrict : k.kind.isStrict = true)
    (hplain : k.params.isPlain = true) (hnames : k.params.names.Nodup)
    (hframe : store.HasFrame f body args) (hfits : k.params.Fits (k.params.given args))
    (hdefaults : ∀ o ∈ k.params.optional.drop (k.params.supplied (k.params.given args)),
      o.value.default.value.isLiteral = true)
    (hcheck : store.arityFault? k.params.arity args = none) :
    ∃ c keywords rest, k.params.keywords.length = keywords.length ∧
      (∀ x ∈ k.params.keywords.zip keywords, KeywordDefault c x) ∧
      body.code.items.drop (k.params.positionalNames.length + 1) =
        Code.writes body.slots (k.params.named keywords ++ k.params.locals) ++ rest ∧
      ∀ (σ : Setting) (others : List Promise),
        others.map (·.binding) <+: k.params.named keywords ++ k.params.locals →
        (∀ q ∈ others, q.Lasts) → (∀ q ∈ others, q.Settled σ f store) →
        ∃ store', σ.Passes f body.code (k.params.positionalNames.length + others.length + 1) store
            store' ∧ store.Keeps f store' ∧ k.params.Bound body f args store' ∧
          ∀ q ∈ others, q.holds store' (store'.slot f (body.slots.idxOf q.name)) := by
  obtain ⟨c, s, s', h⟩ := h
  obtain ⟨hdeclared, optional, keywords, rest, ⟨_, _, _, hoptional, hkeywords, hlength, hlength'⟩,
    hitems⟩ := h.items_eq hstrict hplain
  have hpositional := k.params.map_fst_positional (.arguments .isError) hlength
  refine ⟨c, keywords, rest, hlength', keywordDefaults_ok hkeywords, ?_, ?_⟩
  · rw [hitems, ← hpositional, ← Code.length_writes body.slots,
      append_assoc (k.params.positional _ _), Code.writes_append, cons_append,
      append_assoc]
    exact drop_left
  · intro σ others hothers hlasts hsettled
    have hcheck : σ.Gives f (.checkArity k.params.arity) store store .nil :=
      .now fun depth stack => by simp only [eval, hframe.arguments, hcheck]
    have hpre : k.params.pre.length ≤ args.length :=
      Nat.le_trans (Nat.le_add_right _ _) (Nat.le_trans hfits.1 (k.params.given_le args))
    obtain ⟨store', hruns, hkeeps, hpositionals, hholds⟩ := runs_bindings hframe hnames
      hdeclared hlength hlength'
      (settled_promises hframe.arguments (fun _ => hpre) hplain
        (literal_of_drop hoptional hdefaults)) hothers hlasts hsettled
    refine ⟨store', (Runs.cons hcheck hruns).passes ?_ ?_, hkeeps,
      bound_of_promises hdeclared hplain hlength hfits hpositionals, hholds⟩
    · rw [hitems, append_assoc (k.params.positional _ _), cons_append]
      refine (prefix_cons_inj _).mpr (.trans ?_ (prefix_append _ _))
      rw [Code.writes_append, Code.writes_append]
      exact (prefix_append_right_inj _).mpr (hothers.map _)
    · rw [Code.length_writes, map_append, length_append, hpositional, length_map, length_map]

theorem binds (h : k.CompiledTo body) (hstrict : k.kind.isStrict = true)
    (hplain : k.params.isPlain = true) (hnames : k.params.names.Nodup)
    (hdefaults : ∀ o ∈ k.params.optional, o.value.default.value.isLiteral = true)
    (hframe : store.HasFrame f body args) (hfits : k.params.Fits (k.params.given args))
    (hknows : store.KnowsKeywords k.params args) :
    (∃ store', σ.Passes f body.code (k.params.positionalNames.length + 1) store store' ∧
      k.params.Bound body f args store') ∧
    (store.SuppliesKeywords k.params args →
      ∃ store', σ.Passes f body.code (k.params.names.length + 1) store store' ∧
        k.params.Bound body f args store') := by
  obtain ⟨c, keywords, rest, hlength, hkeywords, _, hruns⟩ := h.runs hstrict hplain hnames hframe
    hfits (fun o ho => hdefaults o (mem_of_mem_drop ho))
    (arityFault?_of_fits hfits hknows)
  constructor
  · obtain ⟨store', hpasses, _, hbound, _⟩ := hruns σ [] nil_prefix (by simp) (by simp)
    exact ⟨store', hpasses, hbound⟩
  · intro hsupplies
    have hsettled : ∀ q ∈ k.params.otherPromises keywords, q.Settled σ f store :=
      settled_others hframe.arguments hsupplies hkeywords
    obtain ⟨store', hpasses, _, hbound, _⟩ := hruns σ (k.params.otherPromises keywords)
      (k.params.binding_otherPromises keywords ▸ prefix_rfl) lasts_others hsettled
    refine ⟨store', ?_, hbound⟩
    rwa [← length_map (f := Promise.name), name_otherPromises hlength, ← length_append] at hpasses

end Callable.CompiledTo

/-- **Strict binding loses and duplicates nothing.** A method or lambda with plain parameters, all
different, refuses a number of positional arguments that does not fit before it has written
anything. Otherwise, unless a keyword is wrong, its parameters hold just these arguments when the
positional ones are bound, and they still do when all parameters are bound. -/
theorem Program.lower_binds {p : Program} {options : LowerOptions} {u : CodeUnit} {k : Callable}
    (h : p.lower options = .ok u) (hk : p.HasCallable k) (hstrict : k.kind.isStrict = true)
    (hplain : k.params.isPlain = true) (hnames : k.params.names.Nodup)
    (hdefaults : ∀ o ∈ k.params.optional, o.value.default.value.isLiteral = true) :
    ∃ id body, u.body? id = some body ∧ k.CompiledTo body ∧
      ∀ (σ : Setting) (store : Store) (f : FrameId) (args : List Value),
        store.HasFrame f body args →
        (¬k.params.Fits (k.params.given args) → ∀ depth stack,
          σ.Reaches (Setting.evaluating store depth stack f body.code)
            (Setting.raising store depth stack
              (.wrongCount (k.params.given args) k.params.arity))) ∧
        (k.params.Fits (k.params.given args) → store.KnowsKeywords k.params args →
          (∃ store', σ.Passes f body.code (k.params.positionalNames.length + 1) store store' ∧
            k.params.Bound body f args store') ∧
          (store.SuppliesKeywords k.params args →
            ∃ store', σ.Passes f body.code (k.params.names.length + 1) store store' ∧
              k.params.Bound body f args store')) := by
  obtain ⟨id, body, c, s, s', _, hbody, hcompilation⟩ := p.compiles_of_lower h hk
  have hcompiled : k.CompiledTo body := ⟨c, s, s', hcompilation⟩
  refine ⟨id, body, hbody, hcompiled, fun σ store f args hframe => ⟨?_, ?_⟩⟩
  · exact fun hfits => hcompiled.raises hstrict hplain hframe (arityFault?_of_not_fits hfits)
  · exact hcompiled.binds hstrict hplain hnames hdefaults hframe

/-- `a, b = [7], *c, d, k:`. -/
def Params.mixed : Params :=
  (((((Params.empty.require "a").withOptional "b" (Build.array [Build.integer 7])).withRest
    (some "c")).requireAfter "d").withKeyword "k" none)

def Program.mixedMethod : Program where
  body := [.bare (.define (.bare "m") .mixed [])]

/-- `m` with `a, b = [7], *c, d, k:` binds `1, 2, 3, 4, k: 0` as it should, and refuses `1`. -/
theorem Program.mixedMethod_binds :
    ∃ u id body, Program.mixedMethod.lower {} = .ok u ∧ u.body? id = some body ∧
      ∀ σ : Setting,
        let keywords : Store := { hashes := #[⟨[(.symbol "k", .int 0)]⟩] }
        let called (args : List Value) : Store := (keywords.newFrame {
          body := id, self := .nil, arguments := args, definee := Store.objectClass,
          slots := Store.blankSlots body.slots.length }).2
        let args := [.int 1, .int 2, .int 3, .int 4, .hash 0]
        (∃ store', σ.Passes 0 body.code 6 (called args) store' ∧
          Params.mixed.Bound body 0 args store') ∧
        σ.Reaches (Setting.evaluating (called [.int 1]) 0 [] 0 body.code)
          (Setting.raising (called [.int 1]) 0 [] (.wrongCount 1 Params.mixed.arity)) := by
  have hlower : Program.mixedMethod.lower {} = .ok (Program.mixedMethod.lowering {}).unit :=
    Program.lower_of_isEmpty (by decide +kernel)
  have hcallable : Program.mixedMethod.HasCallable ⟨.method, {}, .mixed, []⟩ :=
    ⟨_, _, ⟨_, mem_singleton_self _, _, .self _, rfl⟩, mem_singleton_self _⟩
  obtain ⟨id, body, hbody, _, hbinds⟩ := Program.lower_binds hlower hcallable rfl rfl (by decide)
    (by decide)
  refine ⟨_, id, body, hlower, hbody, fun σ => ?_⟩
  intro keywords called args
  have hframe : ∀ args, (called args).HasFrame 0 body args := fun args =>
    keywords.hasFrame_newFrame rfl
  have htable : ∀ args table, (called args).Carries args 2 table →
      args.getLast? = some (.hash 0) → table = ⟨[(.symbol "k", .int 0)]⟩ := by
    rintro args table ⟨id, hid, _, rfl⟩ hlast
    rw [hlast] at hid
    cases hid
    rfl
  have hfits : mixed.Fits (mixed.given args) := by
    constructor
    · decide
    · exact fun h => nomatch h
  have hknows : (called args).KnowsKeywords .mixed args := by
    intro _ _ table hcarries key hkey
    rw [htable args table hcarries rfl] at hkey
    exact ⟨_, mem_singleton_self _, mem_singleton.mp hkey⟩
  have hsupplies : (called args).SuppliesKeywords .mixed args := by
    intro k hk
    rw [mem_singleton.mp hk]
    exact ⟨_, .int 0, ⟨0, rfl, by decide, rfl⟩, rfl⟩
  constructor
  · exact ((hbinds σ _ 0 args (hframe args)).2 hfits hknows).2 hsupplies
  · refine (hbinds σ _ 0 [.int 1] (hframe _)).1 (fun h => ?_) 0 []
    exact absurd h.1 (by decide)

end BlockLang
