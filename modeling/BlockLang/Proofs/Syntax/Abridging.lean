import BlockLang.Proofs.Json.Reading
import BlockLang.Syntax.Decode
import BlockLang.Syntax.Encode
import Mathlib.Data.List.Forall2
import Mathlib.Data.List.Nodup

/-!
# Encodings with fields left out

A record may leave out a field that holds its default (`Json.isDefault`), at any depth:
`Json.Abridges` relates a full encoding to all that can be left of it. A reader `Reads` a full
encoding as a value if it gives that value for the encoding and for everything that it can be
abridged to. The lemmas below say so of the building blocks of readers, so that a decoder needs one
step for each of its fields.
-/

namespace BlockLang

open List

namespace Json

/-- The fields that may be left out, and what they hold then. -/
def defaults : List (String × Json) :=
  [("span", ({} : Span).toJson), ("params", Params.empty.toJson),
    ("pre", .array []), ("optional", .array []), ("post", .array []), ("keywords", .array []),
    ("block_locals", .array []), ("else_branch", .array []), ("args", .array []),
    ("receiver", .null), ("rest", .null), ("keyword_rest", .null), ("block", .null),
    ("superclass", .null), ("default", .null), ("name", .null), ("value", .null),
    ("do_while", .bool false), ("until", .bool false)]

/-- Whether a record with the fields `names` may leave out the field `name` when it holds `value`.
The indices of a target are not the arguments of a call: they have no default. -/
def isDefault (names : List String) (name : String) (value : Json) : Prop :=
  (name, value) ∈ defaults ∧ names ≠ ["receiver", "args"]

mutual

/-- The second value is the first, less some fields that hold their default. -/
inductive Abridges : Json → Json → Prop
  | same (j : Json) : Abridges j j
  | array {items found : List Json} :
      List.Forall₂ Abridges items found → Abridges (.array items) (.array found)
  | object {members found : List (JsonText × Json)} :
      Thins (members.filterMap (·.1)) members found → Abridges (.object members) (.object found)

/-- What can be left of the members of an object with the fields `names`. -/
inductive Thins : List String → List (JsonText × Json) → List (JsonText × Json) → Prop
  | nil : Thins names [] []
  | keep : Abridges full value → Thins names members found →
        Thins names ((name, full) :: members) ((name, value) :: found)
  | drop : isDefault names name full → Thins names members found →
        Thins names ((some name, full) :: members) found

end

mutual

/-- How deep arrays and objects nest. -/
def depth : Json → Nat
  | .array items => depthOfItems items + 1
  | .object members => depthOfMembers members + 1
  | _ => 0

def depthOfItems : List Json → Nat
  | [] => 0
  | item :: items => max item.depth (depthOfItems items)

def depthOfMembers : List (JsonText × Json) → Nat
  | [] => 0
  | (_, value) :: members => max value.depth (depthOfMembers members)

end

variable {items : List Json} {n : Nat} {members found : List (JsonText × Json)}
  {names : List String}

theorem depthOfItems_le : depthOfItems items ≤ n ↔ ∀ x ∈ items, x.depth ≤ n := by
  induction items with
  | nil => simp [depthOfItems]
  | cons item items ih => rw [depthOfItems, Nat.max_le, ih, forall_mem_cons]

theorem depthOfMembers_le : depthOfMembers members ≤ n ↔ ∀ m ∈ members, m.2.depth ≤ n := by
  induction members with
  | nil => simp [depthOfMembers]
  | cons m members ih => rw [depthOfMembers, Nat.max_le, ih, forall_mem_cons]

theorem depth_array_le : (array items).depth ≤ n ↔ ∃ k, n = k + 1 ∧ ∀ x ∈ items, x.depth ≤ k := by
  cases n with
  | zero => simp [depth]
  | succ n => simp [depth, depthOfItems_le]

theorem depth_record_le {members : List (String × Json)} :
    (record members).depth ≤ n ↔ ∃ k, n = k + 1 ∧ ∀ m ∈ members, m.2.depth ≤ k := by
  cases n with
  | zero => simp [record, depth]
  | succ n => simp only [record, depth, Nat.add_le_add_iff_right, depthOfMembers_le,
      forall_mem_map, Nat.add_right_cancel_iff, exists_eq_left']

theorem depth_form_le {name : String} :
    (form name contents).depth ≤ n ↔ ∃ k, n = k + 1 ∧ contents.depth ≤ k := by
  simp [form, depth_record_le]

/-! ## What an abridged value can be -/

theorem Abridges.of_array (h : Abridges (.array items) j) :
    ∃ found, j = .array found ∧ List.Forall₂ Abridges items found := by
  cases h with
  | same => exact ⟨items, rfl, forall₂_same.mpr fun x _ => .same x⟩
  | array hitems => exact ⟨_, rfl, hitems⟩

theorem Thins.refl (names : List String) (members : List (JsonText × Json)) :
    Thins names members members := by
  induction members with
  | nil => exact .nil
  | cons m members ih => exact .keep (.same m.2) ih

theorem Abridges.of_object (h : Abridges (.object members) j) :
    ∃ found, j = .object found ∧ Thins (members.filterMap (·.1)) members found := by
  cases h with
  | same => exact ⟨members, rfl, .refl _ members⟩
  | object hmembers => exact ⟨_, rfl, hmembers⟩

theorem Thins.exists_of_mem (h : Thins names members found) (hm : m ∈ found) :
    ∃ full ∈ members, full.1 = m.1 ∧ Abridges full.2 m.2 := by
  induction members generalizing found with
  | nil => cases h; cases hm
  | cons first members ih =>
    cases h with
    | keep hvalue hrest =>
      rcases mem_cons.mp hm with rfl | hm
      · exact ⟨_, .head _, rfl, hvalue⟩
      · obtain ⟨full, hfull, hleft⟩ := ih hrest hm
        exact ⟨full, .tail _ hfull, hleft⟩
    | drop _ hrest =>
      obtain ⟨full, hfull, hleft⟩ := ih hrest hm
      exact ⟨full, .tail _ hfull, hleft⟩

theorem Abridges.exists_of_mem {found : List Json} (h : List.Forall₂ Abridges items found)
    (hx : x ∈ found) : ∃ item ∈ items, Abridges item x := by
  induction h with
  | nil => cases hx
  | cons hitem _ ih =>
    rcases mem_cons.mp hx with rfl | hx
    · exact ⟨_, .head _, hitem⟩
    · obtain ⟨item, hmem, hleft⟩ := ih hx
      exact ⟨item, .tail _ hmem, hleft⟩

/-- Numbers stay what they are. -/
theorem Integral.abridged {full : Json} (hfull : full.Integral) :
    ∀ {j : Json}, Abridges full j → j.Integral := by
  induction hfull with
  | null => rintro _ ⟨⟩; exact .null
  | bool value => rintro _ ⟨⟩; exact .bool value
  | int i => rintro _ ⟨⟩; exact .int i
  | string text => rintro _ ⟨⟩; exact .string text
  | array _ ih =>
    intro j h
    obtain ⟨found, rfl, hitems⟩ := h.of_array
    refine .array fun x hx => ?_
    obtain ⟨item, hitem, hx⟩ := Abridges.exists_of_mem hitems hx
    exact ih item hitem hx
  | object _ ih =>
    intro j h
    obtain ⟨found, rfl, hmembers⟩ := h.of_object
    refine .object fun m hm => ?_
    obtain ⟨full, hfull, -, hm⟩ := hmembers.exists_of_mem hm
    exact ih full hfull hm

/-! ## The fields of an abridged record -/

/-- How a field is found in an abridged record: abridged itself, or not at all. -/
def Found (names : List String) (name : String) (full : Json) : Option Json → Prop
  | some value => Abridges full value
  | none => isDefault names name full

/-- The members of a record. -/
abbrev named (full : List (String × Json)) : List (JsonText × Json) :=
  full.map fun m => (some m.1, m.2)

theorem Thins.sublist (h : Thins names members found) :
    (found.map Prod.fst).Sublist (members.map Prod.fst) := by
  induction members generalizing found with
  | nil => cases h; exact .slnil
  | cons first members ih =>
    cases h with
    | keep _ hrest => exact (ih hrest).cons_cons _
    | drop _ hrest => exact (ih hrest).cons _

theorem Thins.lookup {full : List (String × Json)} (hnames : (full.map Prod.fst).Nodup)
    (h : Thins names (named full) found) :
    List.Forall₂ (fun m slot => Found names m.1 m.2 slot) full
      (full.map fun m => found.lookup (some m.1)) := by
  induction full generalizing found with
  | nil => exact .nil
  | cons first full ih =>
    rw [map_cons, nodup_cons] at hnames
    have hother : ∀ m ∈ full, m.1 ≠ first.1 := fun m hm heq =>
      hnames.1 (heq ▸ mem_map_of_mem hm)
    cases h with
    | @keep _ value _ _ found _ hvalue hrest =>
      refine .cons (by simpa [Found] using hvalue) ?_
      have hlookup : ∀ m ∈ full,
          ((some first.1, value) :: found).lookup (some m.1) = found.lookup (some m.1) := by
        intro m hm
        have hne : (some m.1 == some first.1) = false := by simpa using hother m hm
        rw [lookup_cons, hne]
      rw [map_congr_left hlookup]
      exact ih hnames.2 hrest
    | drop hdefault hrest =>
      refine .cons ?_ (ih hnames.2 hrest)
      have hnone : found.lookup (some first.1) = none := by
        rw [lookup_eq_none_iff]
        intro m hm
        obtain ⟨other, hmem, hname⟩ := mem_map.mp (hrest.sublist.subset (mem_map_of_mem hm))
        obtain ⟨full, hfull, rfl⟩ := mem_map.mp hmem
        rw [← hname]
        simpa using (hother full hfull).symm
      simpa only [hnone, Found] using hdefault

theorem fields?_of_thins {full : List (String × Json)} (hnames : (full.map Prod.fst).Nodup)
    (h : Thins (full.map Prod.fst) (named full) found) :
    fields? (full.map Prod.fst) (.object found) =
      some ⟨false, full.map fun m => found.lookup (some m.1)⟩ := by
  have hsub : (found.map Prod.fst).Sublist (full.map fun m => some m.1) := by
    simpa [Function.comp_def] using h.sublist
  have hsome : found.any (fun m => m.1.isNone) = false := by
    rw [any_eq_false]
    intro m hm
    obtain ⟨_, _, hname⟩ := mem_map.mp (hsub.subset (mem_map_of_mem hm))
    simp [← hname]
  have hnodup : (found.map Prod.fst).Nodup := by
    refine hsub.nodup ?_
    simpa [Function.comp_def] using hnames.map (f := some) fun _ _ => Option.some.inj
  have hrepeats : repeats (full.map Prod.fst) found = false := by
    rw [repeats, any_eq_false]
    intro name _
    have hcount := nodup_iff_count_le_one.mp hnodup (some name)
    rw [List.count, countP_map, countP_eq_length_filter] at hcount
    simpa [Function.comp_def] using hcount
  simp [fields?, hsome, hrepeats, Function.comp_def]

end Json

/-! ## Readers of abridged values -/

open Json

/-- The reader gives `value` for the full encoding and for all that it can be abridged to. -/
structure Reads {α : Type} (read : Json → Option α) (full : Json) (value : α) : Prop where
  integral : full.Integral
  eq_some : ∀ {j : Json}, Abridges full j → read j = some value

namespace Reads

variable {α β : Type} {read : Json → Option α} {full : Json} {value : α}

theorem text (s : String) : Reads Json.text? (.text s) s :=
  ⟨.string s, by rintro _ ⟨⟩; rfl⟩

theorem bool (b : Bool) : Reads Json.bool? (.bool b) b :=
  ⟨.bool b, by rintro _ ⟨⟩; rfl⟩

theorem int64 (i : Int64) : Reads Json.int64? (.int i.toInt) i :=
  ⟨.int _, by rintro _ ⟨⟩; exact Numeral.toInt64?_ofInt i⟩

theorem uint64 (n : UInt64) : Reads Json.uint64? (.nat n.toNat) n := by
  refine ⟨?_, by rintro _ ⟨⟩; exact Numeral.toUInt64?_ofNat n⟩
  rw [Json.nat, Numeral.ofNat_eq_ofInt]
  exact .int _

theorem nullable_none : Reads (nullable read) .null none :=
  ⟨.null, by rintro _ ⟨⟩; rfl⟩

theorem nullable_some (h : Reads read full value) (hfull : full ≠ .null) :
    Reads (nullable read) full (some value) := by
  refine ⟨h.integral, fun {j} hj => ?_⟩
  have hnull : j ≠ .null := by
    rintro rfl
    cases hj
    exact hfull rfl
  rw [nullable, h.eq_some hj, Option.map_some]
  exact hnull

theorem mapM {found : List Json} (h : ∀ v ∈ values, Reads read (encode v) v)
    (hfound : List.Forall₂ Abridges (values.map encode) found) : found.mapM read = some values := by
  induction values generalizing found with
  | nil => cases hfound; rfl
  | cons v values ih =>
    cases hfound with
    | cons hfirst hrest =>
      have hvalues := ih (fun v hv => h v (.tail _ hv)) hrest
      simp [mapM_cons, (h v (.head _)).eq_some hfirst, hvalues]

theorem array (h : ∀ v ∈ values, Reads read (encode v) v)
    (hreader : ∀ found, reader (.array found) = found.mapM read) :
    Reads reader (.array (values.map encode)) values := by
  refine ⟨.array (forall_mem_map.mpr fun v hv => (h v hv).integral), fun hj => ?_⟩
  obtain ⟨found, rfl, hfound⟩ := hj.of_array
  rw [hreader, mapM h hfound]

theorem record {full : List (String × Json)} (names : List String)
    (hfull : full.map Prod.fst = names) (hnames : names.Nodup) (hint : ∀ m ∈ full, m.2.Integral)
    (h : ∀ slots, List.Forall₂ (fun m slot => Found names m.1 m.2 slot) full slots →
      ∀ j, fields? names j = some ⟨false, slots⟩ → read j = some value) :
    Reads read (.record full) value := by
  refine ⟨.object (forall_mem_map.mpr hint), fun {j} hj => ?_⟩
  obtain ⟨found, rfl, hfound⟩ := hj.of_object
  have hthins : Thins (full.map Prod.fst) (named full) found := by
    simpa [Function.comp_def, filterMap_map] using hfound
  subst hfull
  exact h _ (hthins.lookup hnames) _ (fields?_of_thins hnames hthins)

theorem bare {name : String} (hread : read (.text name) = some value) :
    Reads read (.text name) value :=
  ⟨.string name, by rintro _ ⟨⟩; exact hread⟩

theorem form {name : String} (h : Reads read contents value)
    (hname : ∀ j, ¬ isDefault [name] name j) (houter : ∀ j, outer (.form name j) = read j) :
    Reads outer (.form name contents) value := by
  refine ⟨.object (by simpa using h.integral), fun {j} hj => ?_⟩
  obtain ⟨found, rfl, hfound⟩ := hj.of_object
  cases hfound with
  | keep hcontents hrest =>
    cases hrest
    exact (houter _).trans (h.eq_some hcontents)
  | drop hdefault => exact absurd hdefault (hname _)

theorem map (h : Reads read full value) (f : α → β) :
    Reads (fun j => (read j).bind fun a => some (f a)) full (f value) :=
  ⟨h.integral, fun hj => by rw [h.eq_some hj, Option.bind_some]⟩

end Reads

namespace Json

section Fields

variable {α : Type} (slots : List (Option Json)) (i : Nat) (read : Json → Option α)

@[simp] theorem Fields.required_mk :
    Fields.required ⟨false, slots⟩ i read = (slots[i]?).join.bind read := rfl

@[simp] theorem Fields.withDefault_mk (default : α) :
    Fields.withDefault ⟨false, slots⟩ i default read =
      (slots[i]?).join.elim (some default) read := by
  rw [Fields.withDefault]
  cases (slots[i]?).join <;> rfl

@[simp] theorem Fields.optional_mk : Fields.optional ⟨false, slots⟩ i read =
      (slots[i]?).join.elim (some none) (nullable read) :=
  Fields.withDefault_mk slots i (nullable read) none

end Fields

namespace Found

variable {α : Type} {read : Json → Option α} {names : List String} {name : String} {full : Json}
  {value default : α} {slot : Option Json}

theorem required (h : Found names name full slot) (hread : Reads read full value)
    (hneed : ¬ isDefault names name full) : slot.bind read = some value := by
  cases slot with
  | none => exact absurd h hneed
  | some j => exact hread.eq_some h

/-- A field that is not there holds the default. -/
theorem withDefault (h : Found names name full slot) (hread : Reads read full value)
    (hdefault : isDefault names name full → value = default) :
    slot.elim (some default) read = some value := by
  cases slot with
  | none => exact congrArg some (hdefault h).symm
  | some j => exact hread.eq_some h

theorem nullable {value : Option α} (h : Found names name full slot)
    (hread : Reads (Json.nullable read) full value)
    (hdefault : isDefault names name full → full = .null) :
    slot.elim (some none) (Json.nullable read) = some value := by
  refine h.withDefault hread fun hmissing => ?_
  have hnull := hread.eq_some (.same full)
  rw [hdefault hmissing] at hnull
  exact (Option.some.inj hnull).symm

end Found

end Json

end BlockLang
