import BlockLang.Value.Equality
import Mathlib.Data.Finset.Card
import Mathlib.Data.Finset.Image
import Mathlib.Data.Finset.Prod
import Mathlib.Order.Monotone.Basic

/-!
# How deep it takes to look

Values are shown and compared down to a depth, and the depth that is looked to is the number of
containers, or of pairs of them. Two stores with the same values in them may well have different
numbers of containers. **They show and compare the values alike** if looking deeper than there are
containers makes no difference, and that is what this file is about (`Store.inspectWithin_eq`,
`Store.linesWithin_eq`, `Store.equalWithin_eq`).

A look that is one level deeper is made of looks at the parts, and an answer is never taken back
(`Deepening`). So as long as a deeper look makes a difference there are more containers with an
answer than before, and at some point there are no more left.
-/

namespace BlockLang

/-! ## Looking deeper and deeper -/

/-- Answers that are kept when looking deeper, where a look depends on the looks one level less deep
and on nothing else. -/
structure Deepening {α β : Type} (look : Nat → α → Option β) : Prop where
  keeps : ∀ n x b, look n x = some b → look (n + 1) x = some b
  next : ∀ n m, look n = look m → look (n + 1) = look (m + 1)

namespace Deepening

variable {α β : Type} {look : Nat → α → Option β}

theorem keeps_le (h : Deepening look) (hle : n ≤ m) (hx : look n x = some b) :
    look m x = some b := by
  induction hle with
  | refl => exact hx
  | step _ ih => exact h.keeps _ x b ih

/-- If only the things of `S` need more than one level, there is nothing new below as many levels
as `S` has things. -/
theorem settles (h : Deepening look) (S : Finset α)
    (hS : ∀ x, x ∉ S → ∀ n, look (n + 1) x = look 1 x) (hn : S.card < n) (hm : S.card < m) :
    look n = look m := by
  classical
  let answered (k : Nat) : Finset α := S.filter fun x => (look (k + 1) x).isSome
  have hmore : ∀ {j k : Nat}, j ≤ k → answered j ⊆ answered k := by
    intro j k hle x hx
    obtain ⟨hxS, hsome⟩ := Finset.mem_filter.mp hx
    obtain ⟨b, hb⟩ := Option.isSome_iff_exists.mp hsome
    refine Finset.mem_filter.mpr ⟨hxS, Option.isSome_iff_exists.mpr ⟨b, ?_⟩⟩
    exact h.keeps_le (Nat.succ_le_succ hle) hb
  -- a level at which nothing gets an answer is one at which nothing changes
  have hsame : ∀ k, (answered k).card = (answered (k + 1)).card → look (k + 1) = look (k + 2) := by
    intro k hcard
    have heq := Finset.eq_of_subset_of_card_le (hmore (Nat.le_succ k)) (Nat.le_of_eq hcard.symm)
    funext x
    by_cases hxS : x ∈ S
    · cases hx : look (k + 1) x with
      | some b => exact (h.keeps _ x b hx).symm
      | none =>
        have hnot : x ∉ answered (k + 1) := by
          rw [← heq]
          simp [answered, hx]
        cases hx' : look (k + 2) x with
        | none => rfl
        | some b => exact absurd (Finset.mem_filter.mpr ⟨hxS, by simp [hx']⟩) hnot
    · rw [hS x hxS k, hS x hxS (k + 1)]
  have hstop : ∀ k, (answered k).card = (answered (k + 1)).card →
      (answered (k + 1)).card = (answered (k + 2)).card := by
    intro k hcard
    have hlook : look (k + 2) = look (k + 3) := h.next _ _ (hsame k hcard)
    show (S.filter fun x => (look (k + 2) x).isSome).card =
      (S.filter fun x => (look (k + 3) x).isSome).card
    rw [hlook]
  have hlast : look (S.card + 1) = look (S.card + 2) := by
    refine hsame _ (Nat.stabilises_of_monotone (f := fun k => (answered k).card) ?_ ?_ hstop
      (Nat.le_succ _)).symm
    · exact fun j k hle => Finset.card_le_card (hmore hle)
    · exact fun k => Finset.card_le_card (Finset.filter_subset _ S)
  have hfrom : ∀ k, look (S.card + 1 + k) = look (S.card + 1) := by
    intro k
    induction k with
    | zero => rfl
    | succ k ih => exact (h.next _ _ ih).trans hlast.symm
  obtain ⟨j, rfl⟩ := Nat.exists_eq_add_of_le hn
  obtain ⟨k, rfl⟩ := Nat.exists_eq_add_of_le hm
  exact (hfrom j).trans (hfrom k).symm

end Deepening

theorem mapM_keeps {α β : Type} {f g : α → Option β} (h : ∀ x b, f x = some b → g x = some b) :
    ∀ {xs : List α} {bs : List β}, xs.mapM f = some bs → xs.mapM g = some bs
  | [], _, hbs => hbs
  | x :: xs, bs, hbs => by
    rw [List.mapM_cons] at hbs ⊢
    obtain ⟨b, hb, hrest⟩ := Option.bind_eq_some_iff.mp hbs
    obtain ⟨rest, hxs, hpure⟩ := Option.bind_eq_some_iff.mp hrest
    rw [h x b hb, mapM_keeps h hxs]
    exact hpure

namespace Store

/-! ## Values as text -/

theorem deepening_inspectWithin (s : Store) : Deepening s.inspectWithin where
  keeps n := by
    induction n with
    | zero =>
      intro v text hv
      cases v with
      | array | hash => simp [inspectWithin] at hv
      | bool b => cases b <;> exact hv
      | _ => exact hv
    | succ n ih =>
      intro v text hv
      cases v with
      | array id =>
        simp only [inspectWithin] at hv ⊢
        obtain ⟨parts, hparts, htext⟩ := Option.bind_eq_some_iff.mp hv
        exact Option.bind_eq_some_iff.mpr ⟨parts, mapM_keeps ih hparts, htext⟩
      | hash id =>
        simp only [inspectWithin] at hv ⊢
        obtain ⟨parts, hparts, htext⟩ := Option.bind_eq_some_iff.mp hv
        refine Option.bind_eq_some_iff.mpr ⟨parts, mapM_keeps (fun entry part hpart => ?_) hparts,
          htext⟩
        obtain ⟨shown, hshown, hpart⟩ := Option.bind_eq_some_iff.mp hpart
        exact Option.bind_eq_some_iff.mpr ⟨shown, ih _ _ hshown, hpart⟩
      | bool b => cases b <;> exact hv
      | _ => exact hv
  next n m hlook := by
    funext v
    cases v with
    | array id | hash id => simp only [inspectWithin, hlook]
    | bool b => cases b <;> rfl
    | _ => rfl

/-- The arrays of a store, as values. -/
def allArrays (s : Store) : Finset Value :=
  (Finset.range s.arrays.size).map ⟨.array, fun _ _ => Value.array.inj⟩

def allHashes (s : Store) : Finset Value :=
  (Finset.range s.hashes.size).map ⟨.hash, fun _ _ => Value.hash.inj⟩

theorem card_allArrays (s : Store) : s.allArrays.card = s.arrays.size :=
  (Finset.card_map _).trans (Finset.card_range _)

theorem card_allHashes (s : Store) : s.allHashes.card = s.hashes.size :=
  (Finset.card_map _).trans (Finset.card_range _)

theorem array_of_not_mem {s : Store} {id : ArrayId} (h : .array id ∉ s.allArrays) :
    s.array id = #[] := by
  have hle : s.arrays.size ≤ id := Nat.le_of_not_lt fun hlt =>
    h (Finset.mem_map_of_mem ⟨Value.array, _⟩ (Finset.mem_range.mpr hlt))
  simp [Store.array, Array.getD_eq_getD_getElem?, Array.getElem?_eq_none hle]

theorem hash_of_not_mem {s : Store} {id : HashId} (h : .hash id ∉ s.allHashes) :
    s.hash id = {} := by
  have hle : s.hashes.size ≤ id := Nat.le_of_not_lt fun hlt =>
    h (Finset.mem_map_of_mem ⟨Value.hash, _⟩ (Finset.mem_range.mpr hlt))
  simp [Store.hash, Array.getD_eq_getD_getElem?, Array.getElem?_eq_none hle]

/-- Looking deeper than there are containers shows nothing more. -/
theorem inspectWithin_eq (s : Store) (hn : s.containers < n) (v : Value) :
    s.inspectWithin n v = s.inspect? v := by
  classical
  have hcard : (s.allArrays ∪ s.allHashes).card ≤ s.containers := by
    refine Nat.le_trans (Finset.card_union_le _ _) ?_
    rw [card_allArrays, card_allHashes]
    exact Nat.le_refl _
  refine congrFun (s.deepening_inspectWithin.settles (s.allArrays ∪ s.allHashes) (fun v hv n => ?_)
    (Nat.lt_of_le_of_lt hcard hn) (Nat.lt_succ_of_le hcard)) v
  rw [Finset.mem_union, not_or] at hv
  cases v with
  | array id => simp [inspectWithin, array_of_not_mem hv.1]
  | hash id => simp [inspectWithin, hash_of_not_mem hv.2]
  | bool b => cases b <;> rfl
  | _ => rfl

theorem deepening_linesWithin (s : Store) : Deepening s.linesWithin where
  keeps n := by
    induction n with
    | zero =>
      intro v text hv
      cases v with
      | array => simp [linesWithin] at hv
      | _ => exact hv
    | succ n ih =>
      intro v text hv
      cases v with
      | array id =>
        simp only [linesWithin] at hv ⊢
        split at hv
        · rw [if_pos ‹_›]
          exact hv
        · rw [if_neg ‹_›]
          obtain ⟨parts, hparts, htext⟩ := Option.bind_eq_some_iff.mp hv
          exact Option.bind_eq_some_iff.mpr ⟨parts, mapM_keeps ih hparts, htext⟩
      | _ => exact hv
  next n m hlook := by
    funext v
    cases v with
    | array id => simp only [linesWithin, hlook]
    | _ => rfl

theorem linesWithin_eq (s : Store) (hn : s.containers < n) (v : Value) :
    s.linesWithin n v = s.lines? v := by
  have hcard : s.allArrays.card ≤ s.containers := by
    rw [card_allArrays]
    exact Nat.le_add_right _ _
  refine congrFun (s.deepening_linesWithin.settles s.allArrays (fun v hv n => ?_)
    (Nat.lt_of_le_of_lt hcard hn) (Nat.lt_succ_of_le hcard)) v
  cases v with
  | array id => simp [linesWithin, array_of_not_mem hv]
  | _ => rfl

/-! ## Equality -/

/-- A comparison of two values as a look at a pair. -/
def comparison (s : Store) (n : Nat) (pair : Value × Value) : Option Bool :=
  s.equalWithin n pair.1 pair.2

theorem allEqual_keeps {f g : Value → Value → Option Bool}
    (h : ∀ a b answer, f a b = some answer → g a b = some answer) :
    ∀ {pairs : List (Value × Value)} {answer : Bool},
      allEqual f pairs = some answer → allEqual g pairs = some answer
  | [], _, hall => hall
  | (a, b) :: rest, answer, hall => by
    rw [allEqual] at hall ⊢
    cases hab : f a b with
    | none => simp [hab] at hall
    | some first =>
      rw [hab] at hall
      rw [h a b first hab]
      cases first with
      | false => exact hall
      | true => exact allEqual_keeps h hall

theorem entriesEqual_keeps {f g : Value → Value → Option Bool} {other : Table Key Value}
    (h : ∀ a b answer, f a b = some answer → g a b = some answer) :
    ∀ {entries : List (Key × Value)} {answer : Bool},
      entriesEqual f other entries = some answer → entriesEqual g other entries = some answer
  | [], _, hall => hall
  | (key, a) :: rest, answer, hall => by
    rw [entriesEqual] at hall ⊢
    cases hkey : other.get? key with
    | none =>
      rw [hkey] at hall
      exact hall
    | some b =>
      simp only [hkey] at hall ⊢
      cases hab : f a b with
      | none => simp [hab] at hall
      | some first =>
        rw [hab] at hall
        rw [h a b first hab]
        cases first with
        | false => exact hall
        | true => exact entriesEqual_keeps h hall

theorem comparison_arrays_succ (s : Store) (n : Nat) (a b : ArrayId) :
    s.comparison (n + 1) (.array a, .array b) = if a == b then some true
      else if (s.array a).size != (s.array b).size then some false
      else allEqual (fun v w => s.comparison n (v, w))
        ((s.array a).toList.zip (s.array b).toList) := rfl

theorem comparison_hashes_succ (s : Store) (n : Nat) (a b : HashId) :
    s.comparison (n + 1) (.hash a, .hash b) = if a == b then some true
      else if (s.hash a).size != (s.hash b).size then some false
      else entriesEqual (fun v w => s.comparison n (v, w)) (s.hash b) (s.hash a).entries := rfl

theorem comparison_of_plain (s : Store) (harrays : ∀ a b, (v, w) ≠ (.array a, .array b))
    (hhashes : ∀ a b, (v, w) ≠ (.hash a, .hash b)) (n m : Nat) :
    s.comparison n (v, w) = s.comparison m (v, w) := by
  have hzero : ∀ n, s.comparison n (v, w) = s.comparison 0 (v, w) := by
    intro n
    cases v with
    | array a =>
      cases w with
      | array b => exact absurd rfl (harrays a b)
      | _ => cases n <;> rfl
    | hash a =>
      cases w with
      | hash b => exact absurd rfl (hhashes a b)
      | _ => cases n <;> rfl
    | _ => cases w <;> cases n <;> rfl
  exact (hzero n).trans (hzero m).symm

theorem comparison_cases {motive : Value × Value → Prop}
    (arrays : ∀ a b, motive (.array a, .array b)) (hashes : ∀ a b, motive (.hash a, .hash b))
    (plain : ∀ v w, (∀ a b, (v, w) ≠ (.array a, .array b)) →
      (∀ a b, (v, w) ≠ (.hash a, .hash b)) → motive (v, w)) (pair : Value × Value) :
    motive pair := by
  obtain ⟨v, w⟩ := pair
  by_cases harrays : ∃ a b, (v, w) = (.array a, .array b)
  · obtain ⟨a, b, heq⟩ := harrays
    exact heq ▸ arrays a b
  · by_cases hhashes : ∃ a b, (v, w) = (.hash a, .hash b)
    · obtain ⟨a, b, heq⟩ := hhashes
      exact heq ▸ hashes a b
    · exact plain v w (fun a b heq => harrays ⟨a, b, heq⟩) fun a b heq => hhashes ⟨a, b, heq⟩

/-- Containers are compared when they are two and as large. -/
theorem guarded_keeps [Decidable same] [Decidable differ] {look : Option Bool}
    (h : look = some answer → look' = some answer) :
    (if same then some true else if differ then some false else look) = some answer →
      (if same then some true else if differ then some false else look') = some answer := by
  split
  · exact id
  · split
    · exact id
    · exact h

theorem deepening_comparison (s : Store) : Deepening s.comparison where
  keeps n := by
    induction n with
    | zero =>
      intro pair answer
      induction pair using comparison_cases with
      | arrays a b => exact guarded_keeps nofun
      | hashes a b => exact guarded_keeps nofun
      | plain v w harrays hhashes =>
        intro h
        rwa [s.comparison_of_plain harrays hhashes 1 0]
    | succ n ih =>
      intro pair answer
      induction pair using comparison_cases with
      | arrays a b => exact guarded_keeps (allEqual_keeps fun v w => ih (v, w))
      | hashes a b => exact guarded_keeps (entriesEqual_keeps fun v w => ih (v, w))
      | plain v w harrays hhashes =>
        intro h
        rwa [s.comparison_of_plain harrays hhashes (n + 1 + 1) (n + 1)]
  next n m hlook := by
    funext pair
    induction pair using comparison_cases with
    | arrays a b => simp only [comparison_arrays_succ, hlook]
    | hashes a b => simp only [comparison_hashes_succ, hlook]
    | plain v w harrays hhashes => exact s.comparison_of_plain harrays hhashes _ _

/-- Comparing deeper than there are pairs of containers finds no other answer. -/
theorem equalWithin_eq (s : Store) (hn : s.containerPairs < n) (v w : Value) :
    s.equalWithin n v w = s.equal? v w := by
  classical
  let pairs := s.allArrays ×ˢ s.allArrays ∪ s.allHashes ×ˢ s.allHashes
  have hcard : pairs.card ≤ s.containerPairs := by
    refine Nat.le_trans (Finset.card_union_le _ _) ?_
    rw [Finset.card_product, Finset.card_product, card_allArrays, card_allHashes]
    exact Nat.le_refl _
  refine congrFun (s.deepening_comparison.settles pairs (fun pair hpair n => ?_)
    (Nat.lt_of_le_of_lt hcard hn) (Nat.lt_succ_of_le hcard)) (v, w)
  rw [Finset.mem_union, Finset.mem_product, Finset.mem_product, not_or] at hpair
  induction pair using comparison_cases with
  | arrays a b =>
    -- one of the two is not there, so either the sizes differ or both are empty
    rw [comparison_arrays_succ, comparison_arrays_succ]
    rcases Classical.not_and_iff_not_or_not.mp hpair.1 with h | h <;>
      simp only [array_of_not_mem h, Array.toList_empty, List.zip_nil_left, List.zip_nil_right,
        allEqual]
  | hashes a b =>
    rw [comparison_hashes_succ, comparison_hashes_succ]
    rcases Classical.not_and_iff_not_or_not.mp hpair.2 with h | h
    · simp only [hash_of_not_mem h, entriesEqual]
    · split
      · rfl
      · split
        · rfl
        · rename_i hsize
          rw [hash_of_not_mem h] at hsize
          have hempty : (s.hash a).entries = [] := by
            simpa [Table.size] using hsize
          simp only [hempty, entriesEqual]
  | plain v w harrays hhashes => exact s.comparison_of_plain harrays hhashes _ _

end Store

end BlockLang
