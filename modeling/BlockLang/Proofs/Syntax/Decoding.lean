import BlockLang.Proofs.Syntax.Abridging
import BlockLang.Proofs.Syntax.Placement

/-!
# Decoding undoes encoding

`Program.parse?` gives back the program that `Program.toJson` and `Json.render` wrote, also when
fields that hold their default were left out. Numbers with a point are the exception:
`Expr.Floatless` trees have none. The depth that a decoder has left is what the proof goes up on
(`Decode.Undoes`): a decoder undoes its encoder at one depth if all of them do below it.
-/

namespace BlockLang

open List

/-! ## Trees without floating-point literals -/

namespace Expr

/-- The expression is no floating-point literal, and nothing in it is. -/
def Floatless (e : Located Expr) : Prop :=
  ∀ around x, Within e around x → ∀ value, x.value ≠ .float value

theorem floatless_iff : Floatless e ↔
    (∀ value, e.value ≠ .float value) ∧ ∀ part ∈ e.value.parts.map (·.2), Floatless part :=
  forall_within

end Expr

@[simp] theorem Parts.map_snd_here (es : List (Located Expr)) : (Parts.here es).map (·.2) = es := by
  simp [Parts.here, Function.comp_def]

@[simp] theorem Parts.map_snd_inside (k : Enclosure) (es : List (Located Expr)) :
    (Parts.inside k es).map (·.2) = es := by
  simp [Parts.inside, Function.comp_def]

/-! ## Encoders of places and lists -/

theorem Expr.locatedJson_eq (e : Located Expr) :
    Expr.locatedJson e = Located.json e.span e.value.toJson := by
  rw [locatedJson]

theorem Target.locatedJson_eq (t : Located Target) :
    Target.locatedJson t = Located.json t.span t.value.toJson := by
  rw [locatedJson]

theorem Expr.listJson_eq_map (es : List (Located Expr)) :
    Expr.listJson es = es.map fun e => Located.json e.span e.value.toJson := by
  induction es with
  | nil => rw [listJson, map_nil]
  | cons e es ih => rw [listJson, ih, map_cons, locatedJson_eq]

theorem Expr.pairsJson_eq_map (pairs : List (Located Expr × Located Expr)) : Expr.pairsJson pairs =
      pairs.map fun p => .array [Expr.locatedJson p.1, Expr.locatedJson p.2] := by
  induction pairs with
  | nil => rw [pairsJson, map_nil]
  | cons p pairs ih => rw [pairsJson, ih, map_cons]

theorem Target.listJson_eq_map (ts : List (Located Target)) :
    Target.listJson ts = ts.map fun t => Located.json t.span t.value.toJson := by
  induction ts with
  | nil => rw [listJson, map_nil]
  | cons t ts ih => rw [listJson, ih, map_cons, locatedJson_eq]

theorem Target.scopeChildrenEach_eq_flatMap (ts : List (Located Target)) :
    Target.scopeChildrenEach ts = ts.flatMap (·.value.scopeChildren) := by
  induction ts with
  | nil => rw [scopeChildrenEach, flatMap_nil]
  | cons t ts ih => rw [scopeChildrenEach, ih, flatMap_cons]

/-- A pattern without its place. -/
def Pattern.toJson : Pattern → Json
  | .required name => .form "Required" (.text name)
  | .destructure targets => .form "Destructure" targets.toJson

theorem Pattern.listJson_eq_map (ps : List (Located Pattern)) :
    Pattern.listJson ps = ps.map fun p => Located.json p.span p.value.toJson := by
  induction ps with
  | nil => rw [listJson, map_nil]
  | cons p ps ih =>
    obtain ⟨span, name | targets⟩ := p <;> rw [listJson, ih, map_cons] <;> rfl

/-- A parameter with a default, without its place. -/
def OptionalParam.toJson (p : OptionalParam) : Json :=
  .record [("name", .text p.name), ("default", Expr.locatedJson p.default)]

theorem OptionalParam.listJson_eq_map (ps : List (Located OptionalParam)) :
    OptionalParam.listJson ps = ps.map fun p => Located.json p.span p.value.toJson := by
  induction ps with
  | nil => rw [listJson, map_nil]
  | cons p ps ih =>
    obtain ⟨span, name, value⟩ := p
    rw [listJson, ih, map_cons]
    rfl

/-- A keyword parameter without its place. -/
def KeywordParam.toJson (p : KeywordParam) : Json :=
  .record [("name", .text p.name), ("default", Expr.optionJson p.default)]

theorem KeywordParam.listJson_eq_map (ps : List (Located KeywordParam)) :
    KeywordParam.listJson ps = ps.map fun p => Located.json p.span p.value.toJson := by
  induction ps with
  | nil => rw [listJson, map_nil]
  | cons p ps ih =>
    obtain ⟨span, name, value⟩ := p
    rw [listJson, ih, map_cons]
    rfl

/-! ## Decoders without recursion -/

namespace Decode

open Json

attribute [local simp] isDefault defaults Expr.listJson_eq_map Target.listJson_eq_map
  Pattern.listJson_eq_map OptionalParam.listJson_eq_map KeywordParam.listJson_eq_map
  forall₂_cons_left_iff

theorem record_ne_null (members : List (String × Json)) : Json.record members ≠ .null := by
  simp [Json.record]

@[simp] theorem text_ne_null (s : String) : Json.text s ≠ .null := by simp [Json.text]

/-- The decoder reads the encoding, if the depth `n` is enough for it. -/
def ReadsAt {α : Type} (n : Nat) (read : Nat → Json → Option α) (full : Json) (value : α) : Prop :=
  full.depth ≤ n → Reads (read n) full value

/-- What is found of a field is what its reader needs, if the depth `n` is enough for it. -/
def Yields (names : List String) (n : Nat) (field : String × Json) (needed : Option Json → Prop) :
    Prop :=
  field.2.depth ≤ n →
    field.2.Integral ∧ ∀ slot, Found names field.1 field.2 slot → needed slot

namespace ReadsAt

variable {α β : Type} {n : Nat} {read : Nat → Json → Option α} {full : Json} {value : α}
  {names : List String} {name : String}

theorem shallow {read : Json → Option α} (h : Reads read full value) :
    ReadsAt n (fun _ => read) full value :=
  fun _ => h

theorem map (h : ReadsAt n read full value) (f : α → β) :
    ReadsAt n (fun n j => (read n j).bind fun a => some (f a)) full (f value) :=
  fun hdepth => (h hdepth).map f

theorem nullable (h : ReadsAt n read full value) (hfull : full ≠ .null) :
    ReadsAt n (fun n => Json.nullable (read n)) full (some value) :=
  fun hdepth => (h hdepth).nullable_some hfull

theorem form (h : ∀ m < n, ReadsAt m read full value)
    (hname : name ∉ defaults.map Prod.fst := by decide)
    (houter : ∀ m j, outer (m + 1) (.form name j) = read m j := by intros; rfl) :
    ReadsAt n outer (.form name full) value := by
  intro hdepth
  obtain ⟨k, rfl, hk⟩ := depth_form_le.mp hdepth
  refine (h k (Nat.lt_succ_self k) hk).form (fun j hdefault => hname ?_) (houter k)
  exact mem_map_of_mem hdefault.1

/-! ### Fields -/

theorem required (h : ReadsAt n read full value) (hneed : ¬ isDefault names name full) :
    Yields names n (name, full) fun slot => slot.bind (read n) = some value :=
  fun hdepth => ⟨(h hdepth).integral, fun _ hslot => hslot.required (h hdepth) hneed⟩

theorem withDefault {default : α} (h : ReadsAt n read full value)
    (hdefault : isDefault names name full → value = default) :
    Yields names n (name, full) fun slot => slot.elim (some default) (read n) = some value :=
  fun hdepth => ⟨(h hdepth).integral, fun _ hslot => hslot.withDefault (h hdepth) hdefault⟩

theorem orNull {value : Option α} (h : ReadsAt n (fun n => Json.nullable (read n)) full value)
    (hdefault : isDefault names name full → full = .null) :
    Yields names n (name, full) fun slot =>
      slot.elim (some none) (Json.nullable (read n)) = some value :=
  fun hdepth => ⟨(h hdepth).integral, fun _ hslot => hslot.nullable (h hdepth) hdefault⟩

theorem orEmpty {read : Nat → Json → Option (List α)} (h : ReadsAt n read full values)
    (hdefault : isDefault names name full → values = []) :
    Yields names n (name, full) fun slot => slot.elim (some []) (read n) = some values :=
  h.withDefault hdefault

theorem orFalse {read : Nat → Json → Option Bool} {value : Bool} (h : ReadsAt n read full value)
    (hdefault : isDefault names name full → value = false) :
    Yields names n (name, full) fun slot => slot.elim (some false) (read n) = some value :=
  h.withDefault hdefault

theorem record {fields : List (String × Json)} {needed : Nat → List (Option Json → Prop)}
    (hnames : (fields.map Prod.fst).Nodup)
    (h : ∀ m < n, List.Forall₂ (Yields (fields.map Prod.fst) m) fields (needed m))
    (hread : ∀ m slots, List.Forall₂ (fun needed slot => needed slot) (needed m) slots → ∀ j,
      fields? (fields.map Prod.fst) j = some ⟨false, slots⟩ → read
        (m + 1) j = some value) : ReadsAt n read (.record fields) value := by
  intro hdepth
  obtain ⟨k, rfl, hk⟩ := depth_record_le.mp hdepth
  have hall : ∀ {names : List String} {fields : List (String × Json)}
      {needed : List (Option Json → Prop)}, List.Forall₂ (Yields names k) fields needed →
      (∀ field ∈ fields, field.2.depth ≤ k) → (∀ field ∈ fields, field.2.Integral) ∧
        ∀ slots, List.Forall₂ (fun field slot => Found names field.1 field.2 slot) fields slots →
          List.Forall₂ (fun needed slot => needed slot) needed slots := by
    intro names fields needed hyields hk
    induction hyields with
    | nil => exact ⟨forall_mem_nil _, fun _ hslots => by cases hslots; exact .nil⟩
    | cons hfield _ ih =>
      obtain ⟨hfirst, hrest⟩ := forall_mem_cons.mp hk
      obtain ⟨hint, hneeded⟩ := hfield hfirst
      obtain ⟨hints, hall⟩ := ih hrest
      refine ⟨forall_mem_cons.mpr ⟨hint, hints⟩, fun _ hslots => ?_⟩
      cases hslots with
      | cons hslot hslots => exact .cons (hneeded _ hslot) (hall _ hslots)
  obtain ⟨hints, hneeded⟩ := hall (h k (Nat.lt_succ_self k)) hk
  exact .record _ rfl hnames hints fun slots hslots => hread k slots (hneeded slots hslots)

end ReadsAt

theorem reads_span (s : Span) (n : Nat) : ReadsAt n span? s.toJson s :=
  .record (by simp) (fun _ _ => .cons ((ReadsAt.shallow (.uint64 s.start)).required (by simp))
    (.cons ((ReadsAt.shallow (.uint64 s.stop)).required (by simp))
      (.cons ((ReadsAt.shallow (.uint64 s.file)).required (by simp)) .nil)))
        (by simp +contextual [span?])

theorem span_of_isDefault {names : List String} {s : Span} (h : isDefault names "span" s.toJson) :
    s = {} := by
  have hdepth : ∀ s : Span, s.toJson.depth ≤ 1 := fun _ => Nat.le_refl 1
  have hjson : s.toJson = ({} : Span).toJson := by simpa using h.1
  have hread := (reads_span s 1 (hdepth s)).eq_some (.same _)
  rw [hjson, (reads_span {} 1 (hdepth {})).eq_some (.same _)] at hread
  exact (Option.some.inj hread).symm

section Places

variable {α : Type} {read : Nat → Json → Option α} {place : Nat → Json → Option (Located α)}
  {n : Nat}

theorem reads_place (hplace : ∀ m j, place (m + 1) j = located? m (read m) j) {span : Span}
    {full : Json} {value : α} (hfull : full ≠ .null) (h : ∀ m < n, ReadsAt m read full value) :
    ReadsAt n place (Located.json span full) ⟨span, value⟩ := by
  refine .record (by simp) (fun m hm => .cons ((reads_span span m).withDefault span_of_isDefault)
    (.cons ((h m hm).required (by simp [hfull])) .nil)) ?_
  simp +contextual [hplace, located?]

theorem reads_places (hplace : ∀ m j, place (m + 1) j = located? m (read m) j)
    {places : Nat → Json → Option (List (Located α))}
    (hplaces : ∀ m items, places (m + 1) (.array items) = items.mapM (place m))
    {encode : α → Json} (hfull : ∀ a, encode a ≠ .null) {values : List (Located α)}
    (h : ∀ v ∈ values, ∀ m < n, ReadsAt m read (encode v.value) v.value) :
    ReadsAt n places (.array (values.map fun v => Located.json v.span (encode v.value)))
      values := by
  intro hdepth
  obtain ⟨k, rfl, hitems⟩ := depth_array_le.mp hdepth
  refine .array (fun v hv => ?_) (hplaces k)
  exact reads_place hplace (hfull v.value) (fun m hm => h v hv m (by omega))
    (hitems _ (mem_map_of_mem hv))

end Places

/-! ### Names in their place, and rest parameters -/

theorem reads_locatedText (b : Located String) (n : Nat) :
    ReadsAt n locatedText? (Located.json b.span (.text b.value)) b :=
  reads_place (fun _ _ => rfl) (text_ne_null _) fun _ _ => .shallow (.text b.value)

theorem reads_locatedTexts (bs : List (Located String)) (n : Nat) :
    ReadsAt n locatedTexts? (.array (bs.map fun b => Located.json b.span (.text b.value))) bs :=
  reads_places (fun _ _ => rfl) (fun _ _ => rfl) text_ne_null fun b _ _ _ =>
    .shallow (.text b.value)

theorem reads_optional {α : Type} {read : Nat → Json → Option α} {encode : α → Json}
    (hencode : ∀ a, encode a ≠ .null) {o : Option α} {n : Nat}
    (h : ∀ a, ReadsAt n read (encode a) a) :
    ReadsAt n (fun n => nullable (read n)) (.optional (o.map encode)) o := by
  cases o with
  | none => exact fun _ => .nullable_none
  | some a => exact (h a).nullable (hencode a)

theorem reads_optionalText (o : Option (Located String)) (n : Nat) :
    ReadsAt n (fun n => nullable (locatedText? n))
      (.optional (o.map fun b => Located.json b.span (.text b.value))) o :=
  reads_optional (fun _ => record_ne_null _) fun b => reads_locatedText b n

theorem reads_restParam (r : RestParam) (n : Nat) : ReadsAt n restParam? r.toJson r := by
  have hname (m : Nat) :
      ReadsAt m (fun _ => nullable text?) (.optional (r.name.map .text)) r.name :=
    reads_optional text_ne_null fun name => .shallow (.text name)
  exact .record (by simp) (fun m _ => .cons ((hname m).orNull (by simp)) .nil)
    (by simp +contextual [restParam?])

theorem reads_optionalRest (o : Option (Located RestParam)) (n : Nat) :
    ReadsAt n (fun n => nullable (locatedRest? n))
      (.optional (o.map fun r => Located.json r.span r.value.toJson)) o :=
  reads_optional (fun _ => record_ne_null _) fun r =>
    reads_place (fun _ _ => rfl) (record_ne_null _) fun m _ => reads_restParam r.value m

/-! ## Decoders of trees -/

/-- Nothing in the list has a floating-point literal. -/
abbrev AllFloatless (es : List (Located Expr)) : Prop := ∀ e ∈ es, Expr.Floatless e

/-- Below the depth `n`, decoders undo encoders. -/
structure Undoes (n : Nat) : Prop where
  expr : ∀ m < n, ∀ e, Expr.Floatless e → ReadsAt m expr? e.value.toJson e.value
  target : ∀ m < n, ∀ t, AllFloatless t.scopeChildren → ReadsAt m target? t.toJson t
  targets : ∀ m < n, ∀ ts, AllFloatless ts.scopeChildren → ReadsAt m targets? ts.toJson ts
  params : ∀ m < n, ∀ p, AllFloatless p.exprs → ReadsAt m params? p.toJson p

theorem exprJson_ne_null (e : Expr) : e.toJson ≠ .null := by
  cases e with
  | bool value => cases value <;> simp [Expr.toJson, Json.text]
  | _ => simp [Expr.toJson, Json.text, Json.form, Json.record]

@[simp] theorem locatedJson_ne_null (e : Located Expr) : Expr.locatedJson e ≠ .null := by
  rw [Expr.locatedJson_eq]
  exact record_ne_null _

theorem patternJson_ne_null (p : Pattern) : p.toJson ≠ .null := by
  cases p <;> exact record_ne_null _

theorem targetJson_ne_null (t : Target) : t.toJson ≠ .null := by
  cases t <;> simp [Target.toJson, Json.form, Json.record]

namespace Undoes

variable {n : Nat} (u : Undoes n)

include u

theorem below (hm : m < n) : Undoes m where
  expr l hl := u.expr l (by omega)
  target l hl := u.target l (by omega)
  targets l hl := u.targets l (by omega)
  params l hl := u.params l (by omega)

theorem form {α : Type} {read outer : Nat → Json → Option α} {name : String} {full : Json}
    {value : α} (h : ∀ m, Undoes m → ReadsAt m read full value)
    (hname : name ∉ defaults.map Prod.fst := by decide)
    (houter : ∀ m j, outer (m + 1) (.form name j) = read m j := by intros; rfl) :
    ReadsAt n outer (.form name full) value :=
  .form (fun m hm => h m (u.below hm)) hname houter

theorem record {α : Type} {read : Nat → Json → Option α} {value : α}
    {fields : List (String × Json)} {needed : Nat → List (Option Json → Prop)}
    (hnames : (fields.map Prod.fst).Nodup)
    (h : ∀ m, Undoes m → List.Forall₂ (Yields (fields.map Prod.fst) m) fields (needed m))
    (hread : ∀ m slots, List.Forall₂ (fun needed slot => needed slot) (needed m) slots → ∀ j,
      fields? (fields.map Prod.fst) j = some ⟨false, slots⟩ → read (m + 1) j = some value) :
    ReadsAt n read (.record fields) value :=
  .record hnames (fun m hm => h m (u.below hm)) hread

/-! ### Expressions in their place -/

theorem locatedExpr (he : Expr.Floatless e) : ReadsAt n locatedExpr? (Expr.locatedJson e) e := by
  rw [Expr.locatedJson_eq]
  exact reads_place (fun _ _ => rfl) (exprJson_ne_null _) fun l hl => u.expr l hl e he

theorem optionExpr (ho : AllFloatless o.toList) :
    ReadsAt n (fun n => nullable (locatedExpr? n)) (Expr.optionJson o) o := by
  cases o with
  | none => exact fun _ => .nullable_none
  | some e => exact (u.locatedExpr (ho e (by simp))).nullable (locatedJson_ne_null e)

theorem exprs {es : List (Located Expr)} (hes : AllFloatless es) :
    ReadsAt n exprs? (.array (Expr.listJson es)) es := by
  rw [Expr.listJson_eq_map]
  exact reads_places (fun _ _ => rfl) (fun _ _ => rfl) exprJson_ne_null fun e he l hl =>
    u.expr l hl e (hes e he)

theorem pair (hab : AllFloatless [a, b]) :
    ReadsAt n pair? (.array [Expr.locatedJson a, Expr.locatedJson b]) (a, b) := by
  intro hdepth
  obtain ⟨k, rfl, hitems⟩ := depth_array_le.mp hdepth
  have u := u.below (Nat.lt_succ_self k)
  have ha := u.locatedExpr (hab a (by simp)) (hitems _ (by simp))
  have hb := u.locatedExpr (hab b (by simp)) (hitems _ (by simp))
  refine ⟨.array (by simp [ha.integral, hb.integral]), fun hj => ?_⟩
  obtain ⟨_, rfl, _ | ⟨h0, _ | ⟨h1, _ | _⟩⟩⟩ := hj.of_array
  simp [pair?, ha.eq_some h0, hb.eq_some h1]

theorem pairs {pairs : List (Located Expr × Located Expr)}
    (hpairs : AllFloatless (pairs.flatMap fun p => [p.1, p.2])) :
    ReadsAt n pairs? (.array (Expr.pairsJson pairs)) pairs := by
  intro hdepth
  obtain ⟨k, rfl, hitems⟩ := depth_array_le.mp hdepth
  rw [Expr.pairsJson_eq_map] at hitems ⊢
  refine .array (fun p hp => (u.below (Nat.lt_succ_self k)).pair (fun e he => ?_)
    (hitems _ (mem_map_of_mem hp))) fun _ => rfl
  exact hpairs e (mem_flatMap.mpr ⟨p, hp, he⟩)

/-! ### Targets -/

theorem locatedTarget (ht : AllFloatless t.value.scopeChildren) :
    ReadsAt n locatedTarget? (Target.locatedJson t) t := by
  rw [Target.locatedJson_eq]
  exact reads_place (fun _ _ => rfl) (targetJson_ne_null _) fun l hl => u.target l hl t.value ht

theorem targetList {ts : List (Located Target)}
    (hts : AllFloatless (ts.flatMap (·.value.scopeChildren))) :
    ReadsAt n targetList? (.array (Target.listJson ts)) ts := by
  rw [Target.listJson_eq_map]
  exact reads_places (fun _ _ => rfl) (fun _ _ => rfl) targetJson_ne_null fun t ht l hl =>
    u.target l hl t.value fun e he => hts e (mem_flatMap.mpr ⟨t, ht, he⟩)

theorem restTarget {rest : Option RestTarget}
    (hrest : AllFloatless (RestTarget.scopeChildren rest)) :
    ReadsAt n (fun n => nullable (restTarget? n)) (RestTarget.optionJson rest) rest := by
  rcases rest with _ | target | _
  · exact fun _ => .nullable_none
  · exact (u.form (fun _ u => (u.locatedTarget hrest).map RestTarget.named)
     ).nullable
      (record_ne_null _)
  · exact fun _ => (Reads.bare (by cases n <;> rfl)).nullable_some (text_ne_null _)

theorem targets_step {ts : Targets} (hts : AllFloatless ts.scopeChildren) :
    ReadsAt n targets? ts.toJson ts := by
  obtain ⟨pre, rest, post⟩ := ts
  simp only [Targets.scopeChildren, Target.scopeChildrenEach_eq_flatMap, forall_mem_append] at hts
  exact u.record (by simp) (fun _ u => .cons ((u.targetList hts.1.1).orEmpty (by simp))
    (.cons ((u.restTarget hts.1.2).orNull (by simp))
      (.cons ((u.targetList hts.2).orEmpty (by simp)) .nil)))
    (by simp +contextual [targets?])

variable {args body : List (Located Expr)} {name : String} {block : Option BlockArg}

theorem indexTarget {receiver : Located Expr} (h : AllFloatless (receiver :: args)) :
    ReadsAt n indexTarget? (.record [("receiver", Expr.locatedJson receiver),
      ("args", .array (Expr.listJson args))]) (.index receiver args) := by
  rw [AllFloatless, forall_mem_cons] at h
  exact u.record (by simp) (fun _ u => .cons ((u.locatedExpr h.1).required (by simp))
    (.cons ((u.exprs h.2).required (by simp)) .nil))
    (by simp +contextual [indexTarget?])

theorem attributeTarget {receiver : Located Expr} (h : Expr.Floatless receiver) :
    ReadsAt n attributeTarget? (.record [("receiver", Expr.locatedJson receiver),
      ("name", .text name)]) (.attribute receiver name) :=
  u.record (by simp) (fun _ u => .cons ((u.locatedExpr h).required (by simp))
    (.cons ((ReadsAt.shallow (.text name)).required (by simp)) .nil))
      (by simp +contextual [attributeTarget?])

theorem target_step {t : Target} (ht : AllFloatless t.scopeChildren) :
    ReadsAt n target? t.toJson t := by
  cases t with
  | localVar name | instanceVar name | classVar name | globalVar name =>
    exact .form (fun _ _ => (ReadsAt.shallow (.text name)).map _)
  | index receiver args => exact u.form (fun _ u => u.indexTarget ht)
  | «attribute» receiver name =>
    exact u.form (fun _ u => u.attributeTarget (ht _ (.head _)))
  | nested targets =>
    exact .form (fun m hm => (u.targets m hm targets ht).map Target.nested) (by decide)
      fun _ _ => rfl

/-! ### Parameters -/

theorem pattern (hp : AllFloatless p.exprs) : ReadsAt n pattern? p.toJson p := by
  cases p with
  | required name =>
    exact .form (fun _ _ => (ReadsAt.shallow (.text name)).map Pattern.required) (by decide)
      fun _ _ => rfl
  | destructure targets =>
    exact .form (fun m hm => (u.targets m hm targets hp).map Pattern.destructure)
     

theorem patterns {ps : List (Located Pattern)} (hps : AllFloatless (ps.flatMap (·.value.exprs))) :
    ReadsAt n patterns? (.array (Pattern.listJson ps)) ps := by
  rw [Pattern.listJson_eq_map]
  exact reads_places (fun _ _ => rfl) (fun _ _ => rfl) patternJson_ne_null fun p hp l hl =>
    (u.below hl).pattern fun e he => hps e (mem_flatMap.mpr ⟨p, hp, he⟩)

theorem optionalParam {p : OptionalParam} (hp : Expr.Floatless p.default) :
    ReadsAt n optionalParam? p.toJson p := by
  obtain ⟨name, value⟩ := p
  exact u.record (by simp) (fun _ u => .cons ((ReadsAt.shallow (.text name)).required (by simp))
    (.cons ((u.locatedExpr hp).required (by simp)) .nil)) (by simp +contextual [optionalParam?])

theorem optionalParams {ps : List (Located OptionalParam)}
    (hps : AllFloatless (ps.map (·.value.default))) :
    ReadsAt n optionalParams? (.array (OptionalParam.listJson ps)) ps := by
  have hnull : ∀ p : OptionalParam, p.toJson ≠ .null := fun _ => record_ne_null _
  rw [OptionalParam.listJson_eq_map]
  exact reads_places (fun _ _ => rfl) (fun _ _ => rfl) hnull fun p hp l hl =>
    (u.below hl).optionalParam (hps _ (mem_map_of_mem hp))

theorem keywordParam {p : KeywordParam} (hp : AllFloatless p.default.toList) :
    ReadsAt n keywordParam? p.toJson p := by
  obtain ⟨name, value⟩ := p
  exact u.record (by simp) (fun _ u => .cons ((ReadsAt.shallow (.text name)).required (by simp))
    (.cons ((u.optionExpr hp).orNull (by simp)) .nil)) (by simp +contextual [keywordParam?])

theorem keywordParams {ps : List (Located KeywordParam)}
    (hps : AllFloatless (ps.flatMap (·.value.default.toList))) :
    ReadsAt n keywordParams? (.array (KeywordParam.listJson ps)) ps := by
  have hnull : ∀ p : KeywordParam, p.toJson ≠ .null := fun _ => record_ne_null _
  rw [KeywordParam.listJson_eq_map]
  exact reads_places (fun _ _ => rfl) (fun _ _ => rfl) hnull fun p hp l hl =>
    (u.below hl).keywordParam fun e he => hps e (mem_flatMap.mpr ⟨p, hp, he⟩)

theorem params_step {p : Params} (hp : AllFloatless p.exprs) : ReadsAt n params? p.toJson p := by
  obtain ⟨pre, optional, rest, post, keywords, keywordRest, block, blockLocals⟩ := p
  simp only [Params.exprs, forall_mem_append] at hp
  refine u.record (by simp) (fun m u => .cons ((u.patterns hp.1.1.1).orEmpty (by simp))
    (.cons ((u.optionalParams hp.1.1.2).orEmpty (by simp))
      (.cons ((reads_optionalRest rest m).orNull (by simp))
      (.cons ((u.patterns hp.1.2).orEmpty (by simp))
        (.cons ((u.keywordParams hp.2).orEmpty (by simp))
        (.cons ((reads_optionalRest keywordRest m).orNull (by simp))
          (.cons ((reads_optionalText block m).orNull (by simp))
          (.cons ((reads_locatedTexts blockLocals m).orEmpty (by simp)) .nil)))))))) ?_
  intro m slots hslots j hfields
  obtain _ | ⟨h₁, _ | ⟨h₂, _ | ⟨h₃, _ | ⟨h₄, _ | ⟨h₅, _ | ⟨h₆, _ | ⟨h₇, _ | ⟨h₈, _ | _⟩⟩⟩⟩⟩⟩⟩⟩ := hslots
  simp only [map_cons, map_nil] at hfields
  simp [params?, hfields, h₁, h₂, h₃, h₄, h₅, h₆, h₇, h₈]

/-! ### Blocks -/

omit u in
theorem params_of_isDefault {names : List String} {p : Params}
    (h : isDefault names "params" p.toJson) : p = .empty := by
  have hjson : p.toJson = Params.empty.toJson := by simpa using h.1
  obtain ⟨pre, optional, rest, post, keywords, keywordRest, block, blockLocals⟩ := p
  simp only [Params.toJson, Params.empty, Json.record, Pattern.listJson_eq_map,
    OptionalParam.listJson_eq_map, KeywordParam.listJson_eq_map, map_cons, map_nil,
    Option.map_none, object.injEq, List.cons.injEq, Prod.mk.injEq, array.injEq,
    map_eq_nil_iff, true_and, and_true] at hjson
  have hnone {α : Type} {encode : α → Json} (hencode : ∀ a, encode a ≠ .null) {o : Option α}
      (ho : Json.optional (o.map encode) = Json.optional none) : o = none := by
    cases o with
    | none => rfl
    | some a => exact absurd ho (hencode a)
  obtain ⟨rfl, rfl, hrest, rfl, rfl, hkeywordRest, hblock, rfl⟩ := hjson
  rw [Params.empty, hnone (fun _ => record_ne_null _) hrest,
    hnone (fun _ => record_ne_null _) hkeywordRest, hnone (fun _ => record_ne_null _) hblock]

theorem blockLiteral {params : Params} (h : AllFloatless (params.exprs ++ body)) :
    ReadsAt n blockLiteral? (.record [("params", params.toJson),
      ("body", .array (Expr.listJson body))]) ⟨params, body⟩ := by
  rw [AllFloatless, forall_mem_append] at h
  exact .record (by simp) (fun m hm => .cons ((u.params m hm params h.1).withDefault
    params_of_isDefault)
    (.cons (((u.below hm).exprs h.2).required (by simp)) .nil))
      (by simp +contextual [blockLiteral?])

theorem locatedBlock (hb : AllFloatless ((Parts.closure k b).map (·.2))) :
    ReadsAt n locatedBlock? (BlockLiteral.locatedJson b) b := by
  obtain ⟨span, params, body⟩ := b
  rw [BlockLiteral.locatedJson]
  rw [Parts.closure, Parts.callable, Parts.map_snd_inside] at hb
  exact reads_place (fun _ _ => rfl) (record_ne_null _) fun l hl => (u.below hl).blockLiteral hb

theorem blockArg {b : Option BlockArg} (hb : AllFloatless ((Parts.blockArg b).map (·.2))) :
    ReadsAt n (fun n => nullable (blockArg? n)) (BlockArg.optionJson b) b := by
  rcases b with _ | block | value
  · exact fun _ => .nullable_none
  · exact (u.form (fun _ u => (u.locatedBlock hb).map BlockArg.literal)
     ).nullable (record_ne_null _)
  · exact (u.form (fun _ u => (u.locatedExpr (hb value (.head _))).map BlockArg.pass)
     ).nullable
      (record_ne_null _)

/-! ### Expressions -/

theorem assign {target : Located Target} {value : Located Expr}
    (h : AllFloatless (target.value.scopeChildren ++ [value])) :
    ReadsAt n assign? (.record [("target", Target.locatedJson target),
      ("value", Expr.locatedJson value)]) (.assign target value) := by
  rw [AllFloatless, forall_mem_append, forall_mem_singleton] at h
  exact u.record (by simp) (fun _ u => .cons ((u.locatedTarget h.1).required (by simp))
    (.cons ((u.locatedExpr h.2).required (by simp)) .nil)) (by simp +contextual [assign?])

theorem multiAssign {targets : Targets} {value : Option (Located Expr)}
    (h : AllFloatless (targets.scopeChildren ++ value.toList)) :
    ReadsAt n multiAssign? (.record [("targets", targets.toJson),
      ("value", Expr.optionJson value)]) (.multiAssign targets value) := by
  rw [AllFloatless, forall_mem_append] at h
  exact .record (by simp) (fun m hm => .cons ((u.targets m hm targets h.1).required (by simp))
    (.cons (((u.below hm).optionExpr h.2).orNull (by simp)) .nil))
      (by simp +contextual [multiAssign?])

theorem call {receiver : Option (Located Expr)} {method : String}
    (h : AllFloatless (receiver.toList ++ args))
    (hb : AllFloatless ((Parts.blockArg block).map (·.2))) :
    ReadsAt n call? (.record [("receiver", Expr.optionJson receiver), ("method", .text method),
      ("args", .array (Expr.listJson args)), ("block", BlockArg.optionJson block)])
      (.call receiver method args block) := by
  rw [AllFloatless, forall_mem_append] at h
  exact u.record (by simp) (fun _ u => .cons ((u.optionExpr h.1).orNull (by simp))
    (.cons ((ReadsAt.shallow (.text method)).required (by simp))
      (.cons ((u.exprs h.2).orEmpty (by simp))
      (.cons ((u.blockArg hb).orNull (by simp)) .nil)))) (by simp +contextual [call?])

theorem super (h : AllFloatless args) (hb : AllFloatless ((Parts.blockArg block).map (·.2))) :
    ReadsAt n super? (.record [("args", .array (Expr.listJson args)),
      ("block", BlockArg.optionJson block)]) (.super args block) :=
  u.record (by simp) (fun _ u => .cons ((u.exprs h).orEmpty (by simp))
    (.cons ((u.blockArg hb).orNull (by simp)) .nil))
    (by simp +contextual [super?])

theorem bareSuper (hb : AllFloatless ((Parts.blockArg block).map (·.2))) :
    ReadsAt n bareSuper? (.record [("block", BlockArg.optionJson block)]) (.bareSuper block) :=
  u.record (by simp) (fun _ u => .cons ((u.blockArg hb).orNull (by simp)) .nil)
    (by simp +contextual [bareSuper?])

theorem define {name : Located String} {params : Params} (h : AllFloatless (params.exprs ++ body)) :
    ReadsAt n define? (.record [("name", Located.json name.span (.text name.value)),
      ("params", params.toJson), ("body", .array (Expr.listJson body))])
      (.define name params body) := by
  rw [AllFloatless, forall_mem_append] at h
  exact .record (by simp) (fun m hm =>
    .cons ((reads_locatedText name m).required (by simp [Located.json, Json.record]))
      (.cons ((u.params m hm params h.1).withDefault params_of_isDefault)
        (.cons (((u.below hm).exprs h.2).required (by simp)) .nil))) (by simp +contextual [define?])

theorem classDef {superclass : Option (Located Expr)} (hs : AllFloatless superclass.toList)
    (hb : AllFloatless body) :
    ReadsAt n classDef? (.record [("name", .text name), ("superclass", Expr.optionJson superclass),
      ("body", .array (Expr.listJson body))]) (.classDef name superclass body) :=
  u.record (by simp) (fun _ u => .cons ((ReadsAt.shallow (.text name)).required (by simp))
    (.cons ((u.optionExpr hs).orNull (by simp)) (.cons ((u.exprs hb).required (by simp)) .nil)))
    (by simp +contextual [classDef?])

theorem moduleDef (hb : AllFloatless body) :
    ReadsAt n moduleDef? (.record [("name", .text name), ("body", .array (Expr.listJson body))])
      (.moduleDef name body) :=
  u.record (by simp) (fun _ u => .cons ((ReadsAt.shallow (.text name)).required (by simp))
    (.cons ((u.exprs hb).required (by simp)) .nil)) (by simp +contextual [moduleDef?])

theorem ifElse {condition : Located Expr} {thenBranch elseBranch : List (Located Expr)}
    (h : AllFloatless (condition :: thenBranch ++ elseBranch)) :
    ReadsAt n ifElse? (.record [("condition", Expr.locatedJson condition),
      ("then_branch", .array (Expr.listJson thenBranch)),
      ("else_branch", .array (Expr.listJson elseBranch))])
      (.ifElse condition thenBranch elseBranch) := by
  rw [AllFloatless, forall_mem_append, forall_mem_cons] at h
  exact u.record (by simp) (fun _ u => .cons ((u.locatedExpr h.1.1).required (by simp))
    (.cons ((u.exprs h.1.2).required (by simp)) (.cons ((u.exprs h.2).orEmpty (by simp)) .nil)))
    (by simp +contextual [ifElse?])

theorem loop {condition : Located Expr} {bodyFirst negated : Bool}
    (h : AllFloatless (condition :: body)) :
    ReadsAt n loop? (.record [("condition", Expr.locatedJson condition),
      ("body", .array (Expr.listJson body)), ("do_while", .bool bodyFirst),
      ("until", .bool negated)]) (.loop condition body bodyFirst negated) := by
  rw [AllFloatless, forall_mem_cons] at h
  exact u.record (by simp) (fun _ u => .cons ((u.locatedExpr h.1).required (by simp))
    (.cons ((u.exprs h.2).required (by simp))
    (.cons ((ReadsAt.shallow (.bool bodyFirst)).orFalse (by simp))
      (.cons ((ReadsAt.shallow (.bool negated)).orFalse (by simp)) .nil))))
        (by simp +contextual [loop?])

theorem forEach {target : Located Target} {iterable : Located Expr} (hi : Expr.Floatless iterable)
    (h : AllFloatless (target.value.scopeChildren ++ body)) :
    ReadsAt n forEach? (.record [("target", Target.locatedJson target),
      ("iterable", Expr.locatedJson iterable), ("body", .array (Expr.listJson body))])
      (.forEach target iterable body) := by
  rw [AllFloatless, forall_mem_append] at h
  exact u.record (by simp) (fun _ u => .cons ((u.locatedTarget h.1).required (by simp))
    (.cons ((u.locatedExpr hi).required (by simp)) (.cons ((u.exprs h.2).required (by simp)) .nil)))
    (by simp +contextual [forEach?])

theorem expr_step {e : Located Expr} (he : Expr.Floatless e) :
    ReadsAt n expr? e.value.toJson e.value := by
  obtain ⟨hself, hparts⟩ := Expr.floatless_iff.mp he
  obtain ⟨span, value⟩ := e
  cases value <;> simp only [Expr.parts, Parts.callable, Parts.map_snd_here, Parts.map_snd_inside,
    map_append] at hparts
  case float value => exact absurd rfl (hself value)
  case nil | self | redo | retry => exact fun _ => .bare (by cases n <;> rfl)
  case bool value => cases value <;> exact fun _ => .bare (by cases n <;> rfl)
  case integer value =>
    exact .form (fun _ _ => (ReadsAt.shallow (.int64 value)).map Expr.integer) (by decide)
      fun _ _ => rfl
  case text name | symbol name | localVar name | bareName name | instanceVar name | classVar name |
      globalVar name | constant name =>
    exact .form (fun _ _ => (ReadsAt.shallow (.text name)).map _)
  case array items | yield items | sequence items =>
    exact u.form (fun _ u => (u.exprs hparts).map _)
  case hash pairs =>
    exact u.form (fun _ u => (u.pairs hparts).map Expr.hash)
  case splat inner | not inner =>
    exact u.form (fun _ u => (u.locatedExpr (hparts _ (.head _))).map _)
  case lambda literal =>
    exact u.form (fun _ u => (u.locatedBlock hparts).map Expr.lambda)
  case breakWith value | nextWith value | returnWith value =>
    exact u.form (fun _ u => (u.optionExpr hparts).map _)
  case and left right =>
    exact u.form (fun _ u => (u.pair hparts).map fun p => Expr.and p.1 p.2) (by decide)
      fun _ _ => rfl
  case or left right =>
    exact u.form (fun _ u => (u.pair hparts).map fun p => Expr.or p.1 p.2) (by decide)
      fun _ _ => rfl
  case assign target value => exact u.form (fun _ u => u.assign hparts)
  case multiAssign targets value =>
    exact u.form (fun _ u => u.multiAssign hparts)
  case define name params body =>
    exact u.form (fun _ u => u.define hparts)
  case ifElse condition thenBranch elseBranch =>
    exact u.form (fun _ u => u.ifElse hparts)
  case loop condition body bodyFirst negated =>
    exact u.form (fun _ u => u.loop hparts)
  case moduleDef name body =>
    exact u.form (fun _ u => u.moduleDef hparts)
  case bareSuper block => exact u.form (fun _ u => u.bareSuper hparts)
  all_goals obtain ⟨h0, h1⟩ := forall_mem_append.mp hparts
  case call receiver method args block =>
    exact u.form (fun _ u => u.call h0 h1)
  case super args block => exact u.form (fun _ u => u.super h0 h1)
  case classDef name superclass body =>
    exact u.form (fun _ u => u.classDef h0 h1)
  case forEach target iterable body =>
    exact u.form (fun _ u => u.forEach (h0 _ (.head _)) h1)

end Undoes

theorem undoes (n : Nat) : Undoes n := by
  induction n with
  | zero =>
    exact ⟨fun _ h => absurd h (Nat.not_lt_zero _), fun _ h => absurd h (Nat.not_lt_zero _),
      fun _ h => absurd h (Nat.not_lt_zero _), fun _ h => absurd h (Nat.not_lt_zero _)⟩
  | succ n u =>
    have below : ∀ m < n + 1, Undoes m := by
      intro m hm
      rcases Nat.lt_or_eq_of_le (Nat.le_of_lt_succ hm) with hlt | rfl
      · exact u.below hlt
      · exact u
    exact ⟨fun m hm e => (below m hm).expr_step, fun m hm t => (below m hm).target_step,
      fun m hm ts => (below m hm).targets_step, fun m hm p => (below m hm).params_step⟩

theorem reads_program (hp : AllFloatless p.body) (n : Nat) : ReadsAt n program? p.toJson p := by
  obtain ⟨body, span⟩ := p
  exact .record (by simp) (fun m _ => .cons (((undoes m).exprs hp).required (by simp))
    (.cons ((reads_span span m).withDefault span_of_isDefault) .nil))
    (by simp +contextual [program?])

end Decode

/-! ## Programs -/

namespace Program

/-- No expression of the program is a floating-point literal. -/
def Floatless (p : Program) : Prop :=
  ∀ around x, p.Has around x → ∀ value, x.value ≠ .float value

theorem floatless_iff {p : Program} : p.Floatless ↔ ∀ e ∈ p.body, Expr.Floatless e :=
  forall_has

/-- **Decoding undoes encoding**: a program that is not too deep is read back from its text, and
from that of every encoding that leaves out fields which hold their default. -/
theorem parse?_encoded (p : Program) (hp : p.Floatless) (hdepth : p.toJson.depth ≤ Json.maxDepth) :
    parse? p.toJson.render = some p ∧
      ∀ j, Json.Abridges p.toJson j → parse? j.render = some p := by
  have hread := Decode.reads_program (floatless_iff.mp hp) Json.maxDepth hdepth
  have habridged : ∀ j, Json.Abridges p.toJson j → parse? j.render = some p := by
    intro j hj
    have htext := Json.parse?_render (hread.integral.abridged hj)
    rw [parse?, htext]
    exact hread.eq_some hj
  exact ⟨habridged _ (.same _), habridged⟩

end Program

/-- `->(*) { puts }`, of which only the call knows its place. -/
def restLambda : Program where
  body := [{ value := .lambda { value :=
    ⟨⟨[], [], some { value := {} }, [], [], none, none, []⟩,
      [{ span := ⟨8, 12, 1⟩, value := .call none "puts" [] none }]⟩ } }]

/-- What is left of it when all that can be left out is. -/
def restLambdaShort : Json :=
  .record [("body", .array [.record [("value", .form "Lambda" (.record [("value", .record
    [("params", .record [("rest", .record [("value", .record [])])]),
      ("body", .array [.record [("span", Span.toJson ⟨8, 12, 1⟩),
        ("value", .form "Call" (.record [("method", .text "puts")]))]])])]))]])]

theorem restLambda_abridges : Json.Abridges restLambda.toJson restLambdaShort := by
  have hrest : Json.Abridges (Located.json {} (RestParam.toJson {}))
      (.record [("value", .record [])]) := by
    refine .object (.drop ?_ (.keep (.object (.drop ?_ .nil)) .nil))
    all_goals simp [Json.isDefault, Json.defaults, Json.optional]
  have hparams : Json.Abridges
      (Params.toJson ⟨[], [], some { value := {} }, [], [], none, none, []⟩)
      (.record [("rest", .record [("value", .record [])])]) := by
    refine .object (.drop ?_ (.drop ?_ (.keep hrest
      (.drop ?_ (.drop ?_ (.drop ?_ (.drop ?_ (.drop ?_ .nil))))))))
    all_goals simp [Json.isDefault, Json.defaults, Json.optional, Pattern.listJson_eq_map,
      OptionalParam.listJson_eq_map, KeywordParam.listJson_eq_map]
  have hcall : Json.Abridges (Expr.toJson (.call none "puts" [] none))
      (.form "Call" (.record [("method", .text "puts")])) := by
    refine .object (.keep (.object (.drop ?_ (.keep (.same _) (.drop ?_ (.drop ?_ .nil))))) .nil)
    all_goals simp [Json.isDefault, Json.defaults, Expr.optionJson, BlockArg.optionJson,
      Expr.listJson_eq_map]
  refine .object (.keep (.array (.cons (.object (.drop ?_ (.keep (.object (.keep (.object
    (.drop ?_ (.keep (.object (.keep hparams (.keep (.array (.cons (.object (.keep (.same _)
      (.keep hcall .nil))) .nil)) .nil))) .nil))) .nil)) .nil))) .nil)) (.drop ?_ .nil))
  all_goals simp [Json.isDefault, Json.defaults, restLambda]

theorem restLambda_floatless : restLambda.Floatless := by
  have hcall : Expr.Floatless { span := ⟨8, 12, 1⟩, value := .call none "puts" [] none } := by
    rw [Expr.floatless_iff]
    simp [Expr.parts, Parts.here, Parts.blockArg]
  rw [Program.floatless_iff, restLambda, forall_mem_singleton, Expr.floatless_iff]
  simpa [Expr.parts, Parts.closure, Parts.callable, Params.exprs] using hcall

theorem restLambda_parses :
    restLambda.Floatless ∧ restLambda.toJson.depth ≤ Json.maxDepth ∧
      Json.Abridges restLambda.toJson restLambdaShort ∧
      Program.parse? restLambda.toJson.render = some restLambda ∧
      Program.parse? restLambdaShort.render = some restLambda := by
  have hdepth : restLambda.toJson.depth ≤ Json.maxDepth := by decide +kernel
  obtain ⟨hfull, hshort⟩ := Program.parse?_encoded restLambda restLambda_floatless hdepth
  exact ⟨restLambda_floatless, hdepth, restLambda_abridges, hfull, hshort _ restLambda_abridges⟩

end BlockLang
