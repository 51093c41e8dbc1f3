import BlockLang.Proofs.Value.Depth
import Mathlib.Order.WellFoundedSet
import Mathlib.Logic.Relation

/-!
# Arrays and hashes inside each other

An array contains its items and a hash its values. To show a value is to show what it contains, and
to compare two is to compare what they contain, so both have an end just where there is an end to
going into containers. **A value can be shown if and only if it leads to no container that contains
itself** (`Store.isSome_inspect?_iff`, `Store.isSome_lines?_iff`), and two values can be compared if
that holds of one of them (`Store.isSome_equal?`).

A store in which nothing contains itself is acyclic. It stays so when one container gets new contents
that do not lead to it (`Store.Acyclic.add`), be it a container that is there or a new one.
-/

namespace BlockLang

open List

theorem Table.mem_values_of_get? {κ α : Type} [BEq κ] {table : Table κ α} {key : κ} {a : α}
    (h : table.get? key = some a) : a ∈ table.values := by
  obtain ⟨entries⟩ := table
  change entries.lookup key = some a at h
  show a ∈ entries.map Prod.snd
  induction entries with
  | nil => cases h
  | cons entry entries ih =>
    rw [lookup_cons] at h
    split at h
    · cases h
      exact mem_cons_self
    · exact mem_cons_of_mem _ (ih h)

def Value.isContainer : Value → Bool
  | .array _ | .hash _ => true
  | _ => false

namespace Store

/-- What a value contains, itself and not through something else. -/
def contents (s : Store) : Value → List Value
  | .array id => (s.array id).toList
  | .hash id => (s.hash id).values
  | _ => []

/-- The second value is one of the contents of the first. -/
def Contains (s : Store) (v w : Value) : Prop := w ∈ s.contents v

/-- The second value is the first, or inside of it. -/
def Leads (s : Store) : Value → Value → Prop := Relation.ReflTransGen s.Contains

/-- The value contains itself, perhaps through others. -/
def Loops (s : Store) (v : Value) : Prop := Relation.TransGen s.Contains v v

/-- The value is one that contains itself, or one of these is inside of it. -/
def Knotted (s : Store) (v : Value) : Prop := ∃ w, s.Leads v w ∧ s.Loops w

/-- Nothing contains itself. -/
def Acyclic (s : Store) : Prop := ∀ v, ¬ s.Loops v

/-- There is an end to going into the value. -/
def Ends (s : Store) (v : Value) : Prop := Acc (fun w v => s.Contains v w) v

variable {s t : Store} {v w : Value}

theorem contents_of_isContainer (h : v.isContainer = false) : s.contents v = [] := by
  cases v with
  | array | hash => cases h
  | _ => rfl

theorem Acyclic.not_knotted (h : s.Acyclic) (v : Value) : ¬ s.Knotted v :=
  fun ⟨w, _, hloop⟩ => h w hloop

/-! ## Going into containers -/

theorem Ends.of_contains (h : s.Ends v) (hw : s.Contains v w) : s.Ends w := h.inv hw

theorem Ends.of_leads (h : s.Ends v) (hw : s.Leads v w) : s.Ends w := by
  induction hw with
  | refl => exact h
  | tail _ hnext ih => exact ih.of_contains hnext

theorem Ends.not_loops (h : s.Ends v) : ¬ s.Loops v := by
  induction h with
  | intro v _ ih =>
    intro hloop
    obtain ⟨w, hvw, hwv⟩ := Relation.TransGen.head'_iff.mp hloop
    exact ih w hvw (Relation.TransGen.tail' hwv hvw)

theorem contents_of_not_mem (harray : v ∉ s.allArrays) (hhash : v ∉ s.allHashes) :
    s.contents v = [] := by
  cases v with
  | array id => simp [contents, array_of_not_mem harray]
  | hash id => simp [contents, hash_of_not_mem hhash, Table.values]
  | _ => rfl

/-- The way into a value that leads to no loop has an end, as there are only so many containers. -/
theorem ends_of_not_knotted (h : ¬ s.Knotted v) : s.Ends v := by
  classical
  -- being inside, for what leads to no loop
  let below (w v : Value) : Prop := Relation.TransGen s.Contains v w ∧ ¬ s.Knotted v
  have hirrefl : Std.Irrefl below := ⟨fun v ⟨hloop, hv⟩ => hv ⟨v, .refl, hloop⟩⟩
  have htrans : IsTrans Value below := ⟨fun _ _ _ hab hbc => ⟨hbc.1.trans hab.1, hbc.2⟩⟩
  have hstrict : IsStrictOrder Value below := {}
  let containers : Set Value := ↑(s.allArrays ∪ s.allHashes)
  have hwf : containers.WellFoundedOn below := (Finset.finite_toSet _).wellFoundedOn
  have hempty : ∀ {v}, v ∉ containers → s.Ends v := by
    intro v hv
    have hnot : v ∉ s.allArrays ∧ v ∉ s.allHashes := by simpa [containers] using hv
    refine .intro v fun w hw => ?_
    rw [Contains, contents_of_not_mem hnot.1 hnot.2] at hw
    cases hw
  have hin : ∀ {v}, v ∈ containers → ¬ s.Knotted v → s.Ends v := by
    intro v hmem
    refine hwf.induction (P := fun v => ¬ s.Knotted v → s.Ends v) hmem fun v _ ih hv =>
      .intro v fun w hw => ?_
    have hwv : ¬ s.Knotted w := fun ⟨x, hwx, hx⟩ => hv ⟨x, .head hw hwx, hx⟩
    by_cases hmem : w ∈ containers
    · exact ih w hmem ⟨.single hw, hv⟩ hwv
    · exact hempty hmem
  by_cases hv : v ∈ containers
  · exact hin hv h
  · exact hempty hv

theorem ends_iff : s.Ends v ↔ ¬ s.Knotted v :=
  ⟨fun h ⟨_, hvw, hw⟩ => (h.of_leads hvw).not_loops hw, ends_of_not_knotted⟩

/-! ## Acyclic stores -/

theorem Acyclic.add (h : s.Acyclic) (c : Value)
    (hadd : ∀ v w, t.Contains v w → s.Contains v w ∨ v = c ∧ ¬ s.Leads w c) : t.Acyclic := by
  -- a way that goes into the new contents does not come back to the container, and so does not go
  -- into them again
  have hway : ∀ {a b}, Relation.TransGen t.Contains a b → Relation.TransGen s.Contains a b ∨
      ∃ w, ¬ s.Leads w c ∧ s.Leads a c ∧ s.Leads w b := by
    intro a b hab
    induction hab with
    | single hab =>
      rcases hadd _ _ hab with hold | ⟨rfl, hnew⟩
      · exact .inl (.single hold)
      · exact .inr ⟨_, hnew, .refl, .refl⟩
    | tail _ hab ih =>
      rcases hadd _ _ hab with hold | ⟨rfl, hnew⟩
      · rcases ih with hway | ⟨w, hw, hac, hwb⟩
        · exact .inl (hway.tail hold)
        · exact .inr ⟨w, hw, hac, hwb.tail hold⟩
      · rcases ih with hway | ⟨w, hw, _, hwb⟩
        · exact .inr ⟨_, hnew, hway.to_reflTransGen, .refl⟩
        · exact absurd hwb hw
  intro v hloop
  rcases hway hloop with hloop | ⟨w, hw, hvc, hwv⟩
  · exact h v hloop
  · exact hw (hwv.trans hvc)

/-! ## Values as text -/

theorem isSome_mapM {α β : Type} {f : α → Option β} {xs : List α} :
    (xs.mapM f).isSome = true ↔ ∀ x ∈ xs, (f x).isSome = true := by
  induction xs with
  | nil => simp
  | cons x xs ih =>
    rw [mapM_cons, forall_mem_cons, ← ih]
    cases f x with
    | none => simp
    | some b => cases xs.mapM f <;> simp

theorem isSome_inspectWithin_succ (n : Nat) (v : Value) : (s.inspectWithin (n + 1) v).isSome = true ↔
    ∀ w ∈ s.contents v, (s.inspectWithin n w).isSome = true := by
  cases v with
  | array id =>
    rw [contents, ← isSome_mapM]
    simp only [inspectWithin]
    cases (s.array id).toList.mapM (s.inspectWithin n) <;> simp
  | hash id =>
    have hparts : ∀ {part : Key × Value → Option String}, (do
        let parts ← (s.hash id).entries.mapM part
        some ("\x7b" ++ ", ".intercalate parts ++ "\x7d")).isSome = true ↔
        ∀ entry ∈ (s.hash id).entries, (part entry).isSome = true := by
      intro part
      rw [← isSome_mapM]
      cases (s.hash id).entries.mapM part <;> simp
    rw [contents, Table.values, forall_mem_map]
    refine hparts.trans (forall₂_congr fun entry _ => ?_)
    obtain ⟨key, value⟩ := entry
    cases hshown : s.inspectWithin n value <;> cases key <;> simp [hshown]
  | bool b => cases b <;> simp [inspectWithin, contents]
  | _ => simp [inspectWithin, contents]

theorem isSome_inspect?_step (v : Value) : (s.inspect? v).isSome = true ↔
    ∀ w ∈ s.contents v, (s.inspect? w).isSome = true := by
  have hdeeper : s.inspect? v = s.inspectWithin (s.containers + 2) v :=
    (s.inspectWithin_eq (by omega) v).symm
  rw [hdeeper]
  exact isSome_inspectWithin_succ _ v

theorem ends_of_inspectWithin : ∀ {v : Value}, (s.inspectWithin n v).isSome = true →
    s.Ends v := by
  induction n with
  | zero =>
    intro v hv
    refine .intro v fun w hw => ?_
    cases v with
    | array | hash => simp [inspectWithin] at hv
    | _ => cases hw
  | succ n ih =>
    intro v hv
    exact .intro v fun w hw => ih ((isSome_inspectWithin_succ n v).mp hv w hw)

/-- A value can be shown if it leads to nothing that contains itself, and only then. -/
theorem isSome_inspect?_iff : (s.inspect? v).isSome = true ↔ ¬ s.Knotted v := by
  rw [← ends_iff]
  refine ⟨ends_of_inspectWithin, fun h => ?_⟩
  induction h with
  | intro v _ ih => exact (isSome_inspect?_step v).mpr ih

theorem ends_of_contents (h : s.contents v = []) : s.Ends v := by
  refine .intro v fun w hw => ?_
  rw [Contains, h] at hw
  cases hw

theorem isSome_display?_iff : (s.display? v).isSome = true ↔ ¬ s.Knotted v := by
  cases v with
  | nil | text | symbol => exact iff_of_true rfl (ends_iff.mp (ends_of_contents rfl))
  | _ => exact isSome_inspect?_iff

theorem isSome_linesWithin_array (n : Nat) (id : ArrayId) :
    (s.linesWithin (n + 1) (.array id)).isSome = true ↔
      ∀ w ∈ s.contents (.array id), (s.linesWithin n w).isSome = true := by
  rw [contents, ← isSome_mapM]
  simp only [linesWithin]
  split
  · rename_i hempty
    rw [List.isEmpty_iff.mp hempty]
    simp
  · cases (s.array id).toList.mapM (s.linesWithin n) <;> simp

theorem linesWithin_eq_display (hv : ∀ id, v ≠ .array id) (n : Nat) :
    s.linesWithin n v = (s.display? v).map (· ++ "\n") := by
  cases v with
  | array id => exact absurd rfl (hv id)
  | _ => cases n <;> rfl

theorem ends_of_linesWithin : ∀ {v : Value}, (s.linesWithin n v).isSome = true →
    s.Ends v := by
  have hplain : ∀ {n v}, (∀ id, v ≠ .array id) → (s.linesWithin n v).isSome = true →
      s.Ends v := by
    intro n v hne hv
    rw [linesWithin_eq_display hne, Option.isSome_map] at hv
    exact ends_iff.mpr (isSome_display?_iff.mp hv)
  induction n with
  | zero =>
    intro v hv
    cases v with
    | array => simp [linesWithin] at hv
    | _ => exact hplain (by simp) hv
  | succ n ih =>
    intro v hv
    cases v with
    | array id =>
      exact .intro _ fun w hw => ih ((isSome_linesWithin_array n id).mp hv w hw)
    | _ => exact hplain (by simp) hv

theorem isSome_lines?_iff : (s.lines? v).isSome = true ↔ ¬ s.Knotted v := by
  rw [← ends_iff]
  refine ⟨ends_of_linesWithin, fun h => ?_⟩
  induction h with
  | intro v hends ih =>
    cases v with
    | array id =>
      rw [← s.linesWithin_eq (show s.containers < s.containers + 2 by omega)]
      exact (isSome_linesWithin_array _ id).mpr ih
    | _ =>
      rw [lines?, linesWithin_eq_display (by simp), Option.isSome_map]
      exact isSome_display?_iff.mpr (ends_iff.mp (.intro _ hends))

/-! ## Equality -/

theorem isSome_allEqual (h : ∀ pair ∈ pairs, (equal pair.1 pair.2).isSome = true) :
    (allEqual equal pairs).isSome = true := by
  induction pairs with
  | nil => rfl
  | cons pair pairs ih =>
    obtain ⟨a, b⟩ := pair
    have hpairs := forall_mem_cons.mp h
    obtain ⟨answer, hab⟩ := Option.isSome_iff_exists.mp hpairs.1
    rw [allEqual, hab]
    cases answer with
    | true => exact ih hpairs.2
    | false => rfl

theorem isSome_entriesEqual
    (h : ∀ key a b, (key, a) ∈ entries → other.get? key = some b → (equal a b).isSome = true) :
    (entriesEqual equal other entries).isSome = true := by
  induction entries with
  | nil => rfl
  | cons entry entries ih =>
    obtain ⟨key, a⟩ := entry
    rw [entriesEqual]
    cases hb : other.get? key with
    | none => rfl
    | some b =>
      obtain ⟨answer, hab⟩ := Option.isSome_iff_exists.mp (h key a b mem_cons_self hb)
      simp only [hab]
      cases answer with
      | true => exact ih fun key a b hmem => h key a b (mem_cons_of_mem _ hmem)
      | false => rfl

theorem isSome_equal?_of_contents
    (h : ∀ a ∈ s.contents v, ∀ b ∈ s.contents w, (s.equal? a b).isSome = true) :
    (s.equal? v w).isSome = true := by
  rw [← s.equalWithin_eq (show s.containerPairs < s.containerPairs + 2 by omega)]
  show (s.comparison (s.containerPairs + 1 + 1) (v, w)).isSome = true
  revert h
  generalize hpair : (v, w) = pair
  induction pair using comparison_cases with
  | arrays a b =>
    cases hpair
    intro h
    rw [comparison_arrays_succ]
    split
    · rfl
    · split
      · rfl
      · exact isSome_allEqual fun pair hmem =>
          h _ (of_mem_zip hmem).1 _ (of_mem_zip hmem).2
  | hashes a b =>
    cases hpair
    intro h
    rw [comparison_hashes_succ]
    split
    · rfl
    · split
      · rfl
      · refine isSome_entriesEqual fun key a b hmem hget => ?_
        exact h a (mem_map_of_mem hmem) b (Table.mem_values_of_get? hget)
  | plain v w harrays hhashes =>
    intro _
    rw [s.comparison_of_plain harrays hhashes _ 0]
    cases v <;> cases w <;>
      first | rfl | exact absurd rfl (harrays _ _) | exact absurd rfl (hhashes _ _)

/-- Two values can be compared if one of them leads to nothing that contains itself. -/
theorem isSome_equal? (h : ¬ s.Knotted v ∨ ¬ s.Knotted w) : (s.equal? v w).isSome = true := by
  rw [← ends_iff, ← ends_iff] at h
  rcases h with h | h
  · induction h generalizing w with
    | intro v _ ih => exact isSome_equal?_of_contents fun a ha b _ => ih a ha
  · induction h generalizing v with
    | intro w _ ih => exact isSome_equal?_of_contents fun a _ b hb => ih b hb

end Store

end BlockLang
