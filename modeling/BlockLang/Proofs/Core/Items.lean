import BlockLang.Proofs.Core.Tame
import Mathlib.Algebra.Group.Int.Defs

/-!
# Items of arrays, read and written

What `array[start, count]` and `array[i] = v` do to the store, for all words of 64 bits.

A slice has exactly the items from its start on, as many as it was asked for or as there are
(`IsStretch`), in an array that nothing knew before. The end of a slice is counted with 64 bits:
a count that leads beyond them stops the run, however few items there are to take.

A write is refused before the array is touched, or it is made and can be read back at the same
index. That index may be negative: then the position is counted from the end, and the end is where
it was.
-/

namespace BlockLang

/-- `part` has the items at the positions from `first` up to, but without, `stop`. -/
structure IsStretch (items part : Array Value) (first stop : Nat) : Prop where
  size : part.size = stop - first
  item : ∀ i < part.size, part[i]? = items[first + i]?

theorem isStretch_extract (items : Array Value) (first stop : Nat) :
    IsStretch items (items.extract first stop) first (min stop items.size) where
  size := Array.size_extract
  item i hi := by
    rw [Array.size_extract] at hi
    rw [Array.getElem?_extract, if_pos hi]

theorem size_setGrowing_eq_max (items : Array Value) (i : Nat) (v : Value) :
    (setGrowing items i v).size = max items.size (i + 1) := by
  unfold setGrowing
  split
  · rw [Array.set!_eq_setIfInBounds, Array.size_setIfInBounds]
    omega
  · rw [Array.size_push, Array.size_append, Array.size_replicate]
    omega

theorem getElem?_setGrowing (items : Array Value) (i j : Nat) (v : Value) :
    (setGrowing items i v)[j]? =
      if j = i then some v else if items.size ≤ j ∧ j < i then some .nil else items[j]? := by
  unfold setGrowing
  split
  next hlt =>
    rw [Array.set!_eq_setIfInBounds, Array.getElem?_setIfInBounds]
    by_cases heq : j = i
    · rw [if_pos heq.symm, if_pos heq, if_pos (heq ▸ hlt)]
    · rw [if_neg (Ne.symm heq), if_neg heq, if_neg (by omega)]
  next hle =>
    have hsize : items.size + (i - items.size) = i := by omega
    rw [Array.getElem?_push, Array.size_append, Array.size_replicate, hsize, Array.getElem?_append,
      Array.getElem?_replicate]
    -- the old items, then the places that are filled up, then nothing
    by_cases heq : j = i
    · rw [if_pos heq, if_pos heq]
    rw [if_neg heq, if_neg heq]
    by_cases hold : j < items.size
    · rw [if_pos hold, if_neg (by omega)]
    rw [if_neg hold, Array.getElem?_eq_none (Nat.le_of_not_lt hold)]
    by_cases hpad : j < i
    · rw [if_pos (by omega), if_pos (by omega)]
    · rw [if_neg (by omega), if_neg (by omega)]

/-- The position that an index has is the same after a write that was allowed there. -/
theorem position_setGrowing {size p : Nat} {i : Int} (h : position size i = p) :
    position (max size (p + 1)) i = p := by
  unfold position at h ⊢
  split at h <;> omega

theorem itemAt_of_position {items : Array Value} {i : Int} {p : Nat}
    (h : position items.size i = p) : itemAt items i = items.getD p .nil := by
  have hp : ¬(p : Int) < 0 := by omega
  simp only [itemAt, h, if_neg hp, Int.toNat_natCast]

namespace Store

variable {s : Store} {id : ArrayId}

theorem array_modifyArray_self (h : id < s.arrays.size) (f : Array Value → Array Value) :
    (s.modifyArray id f).array id = f (s.array id) := by
  simp only [modifyArray, array, Array.getD_eq_getD_getElem?, Array.getElem?_modify,
    Array.getElem?_eq_getElem h]
  rfl

theorem array_modifyArray_ne (h : other ≠ id) (f : Array Value → Array Value) :
    (s.modifyArray id f).array other = s.array other := by
  simp [modifyArray, array, Array.getD_eq_getD_getElem?, Array.getElem?_modify, h.symm]

/-- `v` was written at a position of an array, and nothing else was done. -/
structure WritesItem (s s' : Store) (id : ArrayId) (p : Nat) (v : Value) : Prop where
  size : (s'.array id).size = max (s.array id).size (p + 1)
  written : (s'.array id)[p]? = some v
  kept : ∀ j < (s.array id).size, j ≠ p → (s'.array id)[j]? = (s.array id)[j]?
  padded : ∀ j < p, (s.array id).size ≤ j → (s'.array id)[j]? = some .nil
  others : ∀ other ≠ id, s'.array other = s.array other
  same : s' = { s with arrays := s'.arrays }

theorem writesItem_setGrowing (h : id < s.arrays.size) (p : Nat) (v : Value) :
    s.WritesItem (s.modifyArray id fun items => setGrowing items p v) id p v where
  size := by rw [array_modifyArray_self h, size_setGrowing_eq_max]
  written := by rw [array_modifyArray_self h, getElem?_setGrowing, if_pos rfl]
  kept j hj hne := by
    rw [array_modifyArray_self h, getElem?_setGrowing, if_neg hne, if_neg (by omega)]
  padded j hj hsize := by
    rw [array_modifyArray_self h, getElem?_setGrowing, if_neg (by omega), if_pos ⟨hsize, hj⟩]
  others _ hne := array_modifyArray_ne hne _
  same := rfl

end Store

namespace Core

variable {caller : Frame} {block : Option ClosureId} {s t : Store} {id : ArrayId}

/-- What an array answers to is not looked for among the methods of every value. -/
theorem run_arrayMethod (h : (arrayMethod id name args).run.run s = (r, t)) (hr : r ≠ .ok none) :
    (method caller (.array id) name args block).run.run s = (r, t) := by
  rw [method, run_bind, typedMethod, h]
  rcases r with trouble | _ | reply
  · rfl
  · exact absurd rfl hr
  · rfl

theorem run_readItems (h : (readItems (s.array id) args).run.run s = (r, t)) (hr : r ≠ .ok none) :
    (method caller (.array id) "[]" args block).run.run s = (r, t) := by
  refine run_arrayMethod ?_ hr
  simp only [arrayMethod, items, run_bind]
  exact h

/-! ## Slices -/

theorem run_slice (start count : Int64) :
    (method caller (.array id) "[]" [.int start, .int count] block).run.run s =
      match itemsFrom (s.array id) start count with
      | .error c => (.error (.crash c), s)
      | .ok none => (.ok (some (.value .nil)), s)
      | .ok (some part) =>
        (.ok (some (.value (.array s.arrays.size))), { s with arrays := s.arrays.push part }) := by
  have hread : readItems (s.array id) [.int start, .int count] =
      match itemsFrom (s.array id) start count with
      | .error c => crash c
      | .ok none => answer .nil
      | .ok (some part) => answerArray part := rfl
  rcases hfrom : itemsFrom (s.array id) start count with c | _ | part
  all_goals
    rw [hfrom] at hread
    exact run_readItems (by rw [hread]; rfl) (by simp)

/-- **A slice is exact, or too long to be counted.** It is nil outside of the array and for a
negative count. Otherwise it is a new array of the items from its start on, up to the exact sum of
start and count or to the end, provided that the sum has 64 bits; if not, the run is stopped. -/
theorem slice_exact (caller : Frame) (block : Option ClosureId) (s : Store) (id : ArrayId)
    (start count : Int64) :
    let size := (s.array id).size
    let first := position size start.toInt
    let run := (method caller (.array id) "[]" [.int start, .int count] block).run.run s
    (first < 0 ∨ size < first ∨ count.toInt < 0 → run = (.ok (some (.value .nil)), s)) ∧
    (0 ≤ first → first ≤ size → 0 ≤ count.toInt →
      (first + count.toInt < 2 ^ 63 → ∃ part,
        IsStretch (s.array id) part first.toNat (min (first + count.toInt) size).toNat ∧
        run = (.ok (some (.value (.array s.arrays.size))),
          { s with arrays := s.arrays.push part })) ∧
      (2 ^ 63 ≤ first + count.toInt → run = (.error (.crash .sliceTooLong), s))) := by
  intro size first run
  have hcount : count < 0 ↔ count.toInt < 0 := Int64.lt_iff_toInt_lt
  have hmax : Int64.maxValue.toInt = 2 ^ 63 - 1 := rfl
  have hrun : run = _ := run_slice start count
  unfold itemsFrom at hrun
  refine ⟨fun hout => ?_, fun hlow hhigh hcounted => ⟨fun hfits => ?_, fun hlong => ?_⟩⟩
  · rwa [if_pos (by rwa [hcount])] at hrun
  · have hinside : ¬(first < 0 ∨ size < first ∨ count < 0) := by rw [hcount]; omega
    have hcounted : ¬Int64.maxValue.toInt < first + count.toInt := by omega
    rw [if_neg hinside, if_neg hcounted] at hrun
    have hpart := isStretch_extract (s.array id) first.toNat (first + count.toInt).toNat
    refine ⟨_, ?_, hrun⟩
    rwa [show (min (first + count.toInt) size).toNat =
      min (first + count.toInt).toNat size by omega]
  · have hinside : ¬(first < 0 ∨ size < first ∨ count < 0) := by rw [hcount]; omega
    have hbeyond : Int64.maxValue.toInt < first + count.toInt := by omega
    rwa [if_neg hinside, if_pos hbeyond] at hrun

/-- A store with `[1, 2, 3]`. -/
def threeItems : Store := { arrays := #[#[.int 1, .int 2, .int 3]] }

theorem slice_exact_back : 0 ≤ position 3 (-2) ∧ position 3 (-2) + 5 < 2 ^ 63 ∧ ∃ part,
    IsStretch (threeItems.array 0) part 1 3 ∧
      (method default (.array 0) "[]" [.int (-2), .int 5] none).run.run threeItems =
        (.ok (some (.value (.array 1))),
          { threeItems with arrays := threeItems.arrays.push part }) :=
  ⟨by decide, by decide, ((slice_exact default none threeItems 0 (-2) 5).2 (by decide) (by decide)
    (by decide)).1 (by decide)⟩

/-- `[1, 2, 3][1, 9223372036854775807]` stops the run, although there are two items to take. -/
theorem slice_too_long :
    (method default (.array 0) "[]" [.int 1, .int 9223372036854775807] none).run.run threeItems =
      (.error (.crash .sliceTooLong), threeItems) := by
  rw [run_slice]
  rfl

/-! ## Writes -/

theorem run_writeItem (i : Int64) (v : Value) :
    (method caller (.array id) "[]=" [.int i, v] block).run.run s =
      match writePosition (s.array id).size i with
      | .error f => (.error (.fault f), s)
      | .ok p => (.ok (some (.value v)), s.modifyArray id fun items => setGrowing items p v) := by
  have hwrite : writeItem id [.int i, v] = (do
      let p ← ofFault (writePosition (← items id).size i)
      modify (·.modifyArray id fun items => setGrowing items p v)
      answer v) := by
    simp [writeItem, expectArgs, intArg]
  have hitems : (items id).run.run s = (.ok (s.array id), s) := rfl
  rcases hposition : writePosition (s.array id).size i with f | p
  all_goals
    refine run_arrayMethod ?_ (by simp)
    simp only [arrayMethod, hwrite, run_bind, hitems, hposition]
    rfl

theorem run_readItem {i : Int64} {p : Nat} (h : position (s.array id).size i.toInt = p) :
    (method caller (.array id) "[]" [.int i] block).run.run s =
      (.ok (some (.value ((s.array id).getD p .nil))), s) := by
  rw [← itemAt_of_position h]
  exact run_readItems rfl (by simp)

/-- **A write is refused, or can be read back.** It is refused, and the store stays as it is, before
the front of the array and more than `2 ^ 20` places beyond its end. Otherwise the value is at its
position, and what reads the same index of the array reads the value. -/
theorem write_reads_back (caller : Frame) (block : Option ClosureId) {s : Store} {id : ArrayId}
    (hid : id < s.arrays.size) (i : Int64) (v : Value) :
    let size := (s.array id).size
    let p := position size i.toInt
    let run := (method caller (.array id) "[]=" [.int i, v] block).run.run s
    (p < 0 ∨ size + 2 ^ 20 < p → ∃ f : Fault, f.kind = "Range" ∧ run = (.error (.fault f), s)) ∧
    (0 ≤ p → p ≤ size + 2 ^ 20 → ∃ s', run = (.ok (some (.value v)), s') ∧
      s.WritesItem s' id p.toNat v ∧
      ∀ caller block, (method caller (.array id) "[]" [.int i] block).run.run s' =
        (.ok (some (.value v)), s')) := by
  intro size p run
  have hrun : run = _ := run_writeItem i v
  have hgrowth : maxGrowth = 2 ^ 20 := rfl
  unfold writePosition at hrun
  refine ⟨fun hout => ?_, fun hlow hhigh => ?_⟩
  · by_cases hlow : p < 0
    · rw [if_pos hlow] at hrun
      exact ⟨_, rfl, hrun⟩
    · rw [if_neg hlow, if_pos (by rw [hgrowth]; exact hout.resolve_left hlow)] at hrun
      exact ⟨_, rfl, hrun⟩
  · have hfront : ¬p < 0 := by omega
    have hend : ¬(size : Int) + maxGrowth < p := by omega
    rw [if_neg hfront, if_neg hend] at hrun
    have hwrites := Store.writesItem_setGrowing hid p.toNat v
    refine ⟨_, hrun, hwrites, fun caller block => ?_⟩
    have hposition : position size i.toInt = p.toNat := (Int.toNat_of_nonneg hlow).symm
    rw [run_readItem (hwrites.size ▸ position_setGrowing hposition), Array.getD_eq_getD_getElem?,
      hwrites.written]
    rfl

theorem write_reads_back_beyond : 0 < threeItems.arrays.size ∧ ∃ s',
    (method default (.array 0) "[]=" [.int 5, .int 7] none).run.run threeItems =
      (.ok (some (.value (.int 7))), s') ∧ threeItems.WritesItem s' 0 5 (.int 7) := by
  have hid : 0 < threeItems.arrays.size := by decide
  obtain ⟨s', hrun, hwrites, -⟩ :=
    (write_reads_back default none hid 5 (.int 7)).2 (by decide) (by decide)
  exact ⟨hid, s', hrun, hwrites⟩

end Core

end BlockLang
