import BlockLang.Code.Listing
import BlockLang.Proofs.Code.Parts

/-!
# Listings as outlines

A listing is written by a recursion of its own, which decides for every kind of code what its parts
are, and parentheses are closed by going back to the line that was written last. The walk through
the code is another recursion, on `Code.children`. Read from top to bottom the listing is that walk:
`Code.rows` are the pieces of code that the lines are about, in the order of `Code.walk`, and
`outline` writes each of them on a line of its own. A line ends with as many parentheses as there
are forms that end on it (`closings`).

**The lines of a listing are the outline of its rows** (`Code.lines_eq_outline`). That the printer
goes to the same parts in the same order is `Code.lines_eq`, the only place where both recursions
are taken case by case.

That a line stays one line, and that the other parentheses stand in names and texts, is read off the
labels. The text of a line is put together from pieces (`Piece`), and each kind of piece has its own
reason not to bring a parenthesis or a line break (`Code.count_opening`).
-/

namespace BlockLang

open List

/-! ## Labels -/

namespace Piece

/-- The names in a piece. -/
def nameList : Piece → List String
  | name t => [t]
  | names ts => ts
  | reference l => [l.name]
  | arity a => a.keywords
  | _ => []

/-- The text between quotes. -/
def literals : Piece → List String
  | quoted t => [Text.quoted t]
  | _ => []

end Piece

namespace Code

def isForm (c : Code) : Bool := c.label.isForm

/-- The line without indentation and closing parentheses. -/
def opening (c : Code) : String := (if c.isForm then "(" else "") ++ c.label.text

/-- The names in the line of a piece of code. -/
def names (c : Code) : List String := c.label.pieces.flatMap Piece.nameList

/-- The texts between quotes. -/
def literals (c : Code) : List String := c.label.pieces.flatMap Piece.literals

/-! ## Rows -/

/-- The walk through the code: a visit, and then the walks through the direct parts. -/
def walk (c : Code) : List Code := c :: c.children.attach.flatMap fun ⟨part, _⟩ => part.walk
termination_by sizeOf c
decreasing_by exact sizeOf_lt_of_mem_children ‹_›

/-- The walk, with the level of every visit. -/
def levels (c : Code) (level : Nat) : List (Nat × Code) :=
  (level, c) :: c.children.attach.flatMap fun ⟨part, _⟩ => part.levels (level + 1)
termination_by sizeOf c
decreasing_by exact sizeOf_lt_of_mem_children ‹_›

/-- What a call without a receiver shows in its place. -/
def implied : Code → List Code
  | .call none _ _ _ => [.self]
  | _ => []

/-- What the lines of the listing are about. -/
def rows (c : Code) (level : Nat) : List (Nat × Code) :=
  (c.levels level).flatMap fun (level, part) =>
    (level, part) :: part.implied.map fun receiver => (level + 1, receiver)

/-- The number of lines. -/
def height (c : Code) : Nat := (c.rows 0).length

/-- How many of the forms have their last line at `j`. -/
def closings : List (Nat × Code) → Nat → Nat
  | [], _ => 0
  | (_, c) :: rest, j =>
    (if c.isForm && c.height == j + 1 then 1 else 0) + if j = 0 then 0 else closings rest (j - 1)

/-- A line for every row. -/
def outline (rows : List (Nat × Code)) : List String :=
  rows.mapIdx fun j (level, c) =>
    indent level ++ c.opening ++ String.ofList (replicate (closings rows j) ')')

variable {c part : Code} {level j : Nat} {xs ys : List (Nat × Code)}

theorem flatMap_children {α : Type} (c : Code) (f : Code → List α) :
    (c.children.attach.flatMap fun part => f part.1) = c.children.flatMap f := by
  rw [← flatMap_map, attach_map_subtype_val]

theorem walk_eq (c : Code) : c.walk = c.preorder := by
  induction c using inductionOnChildren with
  | h c ih =>
    rw [walk, preorder_eq, flatMap_children c walk, flatMap_def, flatMap_def]
    exact congrArg (c :: flatten ·) (map_congr_left ih)

theorem levels_eq (c : Code) (level : Nat) :
    c.levels level = (level, c) :: c.children.flatMap fun part => part.levels (level + 1) := by
  rw [levels, flatMap_children c fun part => part.levels (level + 1)]

theorem map_snd_levels (c : Code) : ∀ level, (c.levels level).map Prod.snd = c.walk := by
  induction c using inductionOnChildren with
  | h c ih =>
    intro level
    rw [levels_eq, walk, flatMap_children c walk, map_cons, map_flatMap, flatMap_def, flatMap_def]
    exact congrArg (c :: flatten ·) (map_congr_left fun part hpart => ih part hpart (level + 1))

theorem rows_eq (c : Code) (level : Nat) :
    c.rows level = (level, c) :: (c.implied.map (fun receiver => (level + 1, receiver)) ++
      c.children.flatMap fun part => part.rows (level + 1)) := by
  rw [rows, levels_eq, flatMap_cons, flatMap_assoc]
  rfl

theorem length_rows (c : Code) : ∀ level, (c.rows level).length = c.height := by
  have hsame : ∀ level level', (c.rows level).length = (c.rows level').length := by
    induction c using inductionOnChildren with
    | h c ih =>
      intro level level'
      rw [rows_eq, rows_eq c level']
      simp only [length_cons, length_append, length_map, length_flatMap]
      congr 3
      exact map_congr_left fun part hpart => ih part hpart _ _
  exact fun level => hsame level 0

theorem linesEach_eq (level : Nat) :
    ∀ codes : List Code, linesEach codes level = codes.map fun c => c.lines level
  | [] => rfl
  | c :: rest => by rw [linesEach, linesEach_eq level rest, map_cons]

theorem linesPairs_eq (level : Nat) : ∀ pairs : List (Code × Code), linesPairs pairs level =
    (pairs.flatMap fun (key, value) => [key, value]).map fun c => c.lines level
  | [] => rfl
  | (key, value) :: rest => by simp [linesPairs, linesPairs_eq level rest]

theorem linesOption_eq (c : Option Code) (level : Nat) :
    linesOption c level = c.toList.map fun c => c.lines level := by
  cases c <;> simp [linesOption]

/-- The printer goes to the parts that the walk goes to. -/
theorem lines_eq (c : Code) (level : Nat) : c.lines level =
    nested level c ((c.implied ++ c.children).map fun part => part.lines (level + 1)) := by
  cases c with
  | call receiver =>
    cases receiver <;> simp [lines, linesEach_eq, linesOption_eq, implied, children]
  | _ => simp [lines, linesEach_eq, linesPairs_eq, linesOption_eq, implied, children]

theorem children_of_not_isForm (h : c.isForm = false) : c.children = [] ∧ c.implied = [] := by
  cases c <;> first
    | exact ⟨rfl, rfl⟩
    | cases h

/-! ## Forms that end -/

/-- Every row is followed by the rows of its parts. -/
def Ended : List (Nat × Code) → Prop
  | [] => True
  | (level, c) :: rest => c.rows level <+: (level, c) :: rest ∧ Ended rest

theorem Ended.append (hx : Ended xs) (hy : Ended ys) : Ended (xs ++ ys) := by
  induction xs with
  | nil => exact hy
  | cons row xs ih =>
    exact ⟨hx.1.trans (prefix_append (row :: xs) ys), ih hx.2⟩

theorem Ended.flatMap {parts : List Code} {f : Code → List (Nat × Code)}
    (h : ∀ part ∈ parts, Ended (f part)) : Ended (parts.flatMap f) := by
  induction parts with
  | nil => exact trivial
  | cons part parts ih =>
    rw [flatMap_cons]
    exact (h part mem_cons_self).append (ih fun part hpart => h part (mem_cons_of_mem _ hpart))

theorem ended_implied (c : Code) (level : Nat) :
    Ended (c.implied.map fun receiver => (level, receiver)) := by
  unfold implied
  split
  · exact ⟨(rows_eq .self level).symm ▸ prefix_rfl, trivial⟩
  · exact trivial

theorem ended_rows (c : Code) : ∀ level, Ended (c.rows level) := by
  induction c using inductionOnChildren with
  | h c ih =>
    intro level
    rw [rows_eq]
    exact ⟨(rows_eq c level).symm ▸ prefix_rfl,
      (ended_implied c _).append (.flatMap fun part hpart => ih part hpart _)⟩

/-- The rows of a part stand together, from its own row on. -/
theorem Ended.within (h : Ended (xs ++ row :: ys)) : row.2.rows row.1 <+: row :: ys := by
  induction xs with
  | nil => exact h.1
  | cons _ xs ih => exact ih h.2

theorem Ended.height_le (h : Ended (row :: xs)) : row.2.height ≤ xs.length + 1 := by
  rw [← length_rows row.2 row.1]
  exact h.1.length_le

theorem closings_append : ∀ (xs ys : List (Nat × Code)) (j : Nat), closings (xs ++ ys) j =
    closings xs j + if j < xs.length then 0 else closings ys (j - xs.length)
  | [], ys, j => by simp [closings]
  | (_, c) :: xs, ys, j => by
    cases j with
    | zero => simp [closings]
    | succ j =>
      have ih := closings_append xs ys j
      simp only [cons_append, closings, Nat.add_one_sub_one, ih, length_cons, Nat.add_lt_add_iff_right,
        Nat.add_sub_add_right]
      simp [Nat.add_assoc]

theorem Ended.closings (h : Ended xs) (hj : xs.length ≤ j) : closings xs j = 0 := by
  induction xs generalizing j with
  | nil => rfl
  | cons row xs ih =>
    have hrow := h.height_le
    rw [length_cons] at hj
    have hnot : ¬ row.2.height = j + 1 := by omega
    simp [Code.closings, hnot, ih h.2 (by omega : xs.length ≤ j - 1)]

theorem outline_append (h : Ended xs) : outline (xs ++ ys) = outline xs ++ outline ys := by
  unfold outline
  rw [mapIdx_append]
  congr 1
  · refine mapIdx_eq_mapIdx_iff.mpr fun j hj => ?_
    rw [closings_append, if_pos hj, Nat.add_zero]
  · refine mapIdx_eq_mapIdx_iff.mpr fun j hj => ?_
    rw [closings_append, if_neg (by omega), h.closings (by omega), Nat.zero_add,
      Nat.add_sub_cancel]

theorem outline_flatMap {parts : List Code} {f : Code → List (Nat × Code)}
    (h : ∀ part ∈ parts, Ended (f part)) :
    outline (parts.flatMap f) = parts.flatMap fun part => outline (f part) := by
  induction parts with
  | nil => rfl
  | cons part parts ih =>
    rw [flatMap_cons, flatMap_cons, outline_append (h part mem_cons_self),
      ih fun part hpart => h part (mem_cons_of_mem _ hpart)]

theorem closeLast_eq : ∀ lines : List String, closeLast lines =
    lines.mapIdx fun j line => if j + 1 = lines.length then line ++ ")" else line
  | [] => rfl
  | [last] => rfl
  | line :: next :: rest => by
    rw [closeLast, closeLast_eq (next :: rest), mapIdx_cons]
    · simp only [length_cons, Nat.add_right_cancel_iff]
      simp
    · simp

/-- A form closes one parenthesis more on the last line. -/
theorem outline_cons (hform : c.isForm = true) (hheight : c.height = xs.length + 1) :
    outline ((level, c) :: xs) = closeLast ((indent level ++ c.opening) :: outline xs) := by
  rw [closeLast_eq, mapIdx_cons, outline, mapIdx_cons, outline, mapIdx_mapIdx]
  simp only [closings, hform, hheight, length_cons, length_mapIdx, Bool.true_and, beq_iff_eq,
    Nat.add_right_cancel_iff, Nat.add_one_sub_one, Nat.add_one_ne_zero, if_false, if_true,
    Nat.add_zero, Nat.zero_add]
  congr 1
  · by_cases hlast : xs.length = 0
    · simp [hlast]
    · simp [hlast]
  · refine mapIdx_eq_mapIdx_iff.mpr fun j hj => ?_
    by_cases hlast : xs.length = j + 1
    · simp [hlast, Nat.add_comm 1, replicate_succ', String.append_assoc]
    · simp [hlast, Ne.symm hlast]

theorem nested_eq (hform : c.isForm = true) (parts : List (List String)) :
    nested level c parts = closeLast ((indent level ++ c.opening) :: parts.flatten) := by
  have hlabel : c.label.isForm = true := hform
  cases parts with
  | nil => simp [nested, hlabel, opening, hform, closeLast, String.append_assoc]
  | cons => simp [nested, hlabel, opening, hform, String.append_assoc]

theorem lines_eq_outline (c : Code) : ∀ level, c.lines level = outline (c.rows level) := by
  induction c using inductionOnChildren with
  | h c ih =>
    intro level
    have hlength := c.length_rows level
    have hparts : (c.children.map fun part => part.lines (level + 1)).flatten =
        outline (c.children.flatMap fun part => part.rows (level + 1)) := by
      rw [outline_flatMap fun part _ => part.ended_rows _, flatMap_def]
      exact congrArg flatten (map_congr_left fun part hpart => ih part hpart _)
    have himplied : (c.implied.map fun part => part.lines (level + 1)).flatten =
        outline (c.implied.map fun receiver => (level + 1, receiver)) := by
      unfold implied
      split
      · simp [lines, nested, outline, closings, isForm, opening, label]
      · rfl
    rw [rows_eq] at hlength ⊢
    rw [lines_eq]
    cases hform : c.isForm with
    | false =>
      obtain ⟨hchildren, hnone⟩ := children_of_not_isForm hform
      rw [hchildren, hnone]
      have hlabel : c.label.isForm = false := hform
      simp [nested, hlabel, outline, closings, hform, opening]
    | true =>
      rw [outline_cons hform hlength.symm, outline_append (ended_implied c _), ← himplied, ← hparts,
        nested_eq hform, map_append, flatten_append]

/-! ### Balance -/

/-- How many parentheses the first lines close. -/
def closedBy (xs : List (Nat × Code)) : Nat → Nat
  | 0 => 0
  | n + 1 => closedBy xs n + closings xs n

theorem closedBy_cons (row : Nat × Code) (xs : List (Nat × Code)) (n : Nat) :
    closedBy (row :: xs) (n + 1) =
      (if row.2.isForm && row.2.height ≤ n + 1 then 1 else 0) + closedBy xs n := by
  have hpos : 0 < row.2.height := by
    rw [← row.2.length_rows 0, rows_eq]
    exact Nat.succ_pos _
  induction n with
  | zero =>
    have : row.2.height = 1 ↔ row.2.height ≤ 1 := by omega
    simp [closedBy, closings, this]
  | succ n ih =>
    rw [closedBy, ih, closedBy]
    simp only [closings, Nat.add_one_ne_zero, if_false, Nat.add_one_sub_one]
    cases row.2.isForm with
    | false => simp
    | true =>
      simp only [Bool.true_and, decide_eq_true_eq, beq_iff_eq]
      split <;> split <;> split <;> omega

theorem closedBy_le (xs : List (Nat × Code)) (n : Nat) :
    closedBy xs n ≤ (xs.take n).countP (·.2.isForm) := by
  induction xs generalizing n with
  | nil =>
    induction n with
    | zero => exact Nat.le_refl 0
    | succ n ih => simpa [closedBy, closings] using ih
  | cons row xs ih =>
    cases n with
    | zero => exact Nat.le_refl 0
    | succ n =>
      rw [closedBy_cons, take_succ_cons, countP_cons]
      have := ih n
      cases row.2.isForm with
      | false => simpa using this
      | true =>
        simp only [Bool.true_and, decide_eq_true_eq, if_true]
        split <;> omega

theorem Ended.closedBy (h : Ended xs) : closedBy xs xs.length = xs.countP (·.2.isForm) := by
  induction xs with
  | nil => rfl
  | cons row xs ih =>
    rw [length_cons, closedBy_cons, countP_cons, ih h.2]
    simp [h.height_le, Nat.add_comm]

end Code

namespace Piece

/-! ## Marks in labels -/

/-- The characters that lines and forms begin and end with. -/
def marks : List Char := ['(', ')', '\n']

variable {mark : Char}

theorem mem_marks : mark ∈ marks ↔ mark = '(' ∨ mark = ')' ∨ mark = '\n' := by
  simp [marks]

theorem count_intercalate {separator : String} (h : separator.toList.count mark = 0) :
    ∀ texts : List String, (separator.intercalate texts).toList.count mark =
      (texts.flatMap String.toList).count mark
  | [] => by simp
  | [only] => by simp
  | first :: next :: texts => by
    have ih := count_intercalate h (next :: texts)
    simp only [String.toList_intercalate, map_cons, intercalate_cons_cons, count_append,
      flatMap_cons] at ih ⊢
    omega

theorem not_mem_toDigits (hmark : mark ∈ marks) (n : Nat) : mark ∉ Nat.toDigits 10 n := by
  intro hmem
  have hdigit := Nat.isDigit_of_mem_toDigits (by decide) (by decide) hmem
  have hnot : mark.isDigit = false := by
    rcases mem_marks.mp hmark with rfl | rfl | rfl <;> decide
  rw [hnot] at hdigit
  cases hdigit

theorem count_toDigits (hmark : mark ∈ marks) (n : Nat) : (Nat.toDigits 10 n).count mark = 0 :=
  count_eq_zero.mpr (not_mem_toDigits hmark n)

theorem count_signed (hmark : mark ∈ marks) (negative : Bool) (h : digits.toList.count mark = 0) :
    (if negative then "-" ++ digits else digits).toList.count mark = 0 := by
  have hminus : '-' ≠ mark := by
    rcases mem_marks.mp hmark with rfl | rfl | rfl <;> decide
  cases negative <;> simp [h, hminus]

theorem count_int (hmark : mark ∈ marks) : ∀ i : Int, i.repr.toList.count mark = 0
  | .ofNat n => by
    show n.repr.toList.count mark = 0
    rw [Nat.toList_repr, count_toDigits hmark]
  | .negSucc n => by
    refine count_signed hmark true ?_
    rw [Nat.toList_repr, count_toDigits hmark]

theorem count_scientific (hmark : mark ∈ marks) (x : Decimal.Scientific)
    (layout : Decimal.Layout) : (x.render layout).toList.count mark = 0 := by
  have hdigits := not_mem_toDigits hmark
  have htake : ∀ n k, mark ∉ (Nat.toDigits 10 n).take k := fun n k hmem =>
    hdigits n (mem_of_mem_take hmem)
  have hdrop : ∀ n k, mark ∉ (Nat.toDigits 10 n).drop k := fun n k hmem =>
    hdigits n (mem_of_mem_drop hmem)
  have hchars : mark ∉ ['0', '.', 'e', '-'] := by
    rcases mem_marks.mp hmark with rfl | rfl | rfl <;> decide
  simp only [mem_cons, not_or] at hchars
  have hpositional : ∀ places, mark ∉ (x.positional places).toList := by
    intro places
    simp [Decimal.Scientific.positional, hdigits, htake, hdrop, hchars, Decimal.zeros,
      apply_ite String.toList, apply_ite (mark ∈ ·)]
  have hexponential : mark ∉ x.exponential.toList := by
    have htail := hdrop x.coefficient 1
    rw [drop_one] at htail
    simp [Decimal.Scientific.exponential, hdigits, htake, htail, hchars, Decimal.digitsText,
      apply_ite String.toList, apply_ite (mark ∈ ·)]
  refine count_eq_zero.mpr ?_
  unfold Decimal.Scientific.render
  split
  · exact hpositional _
  · split
    · exact hpositional _
    · exact hexponential

theorem count_number (hmark : mark ∈ marks) (layout : Decimal.Layout) (x : Float) :
    (Decimal.render layout x).toList.count mark = 0 := by
  have hchars : mark ∉ ['0', '.'] := by
    rcases mem_marks.mp hmark with rfl | rfl | rfl <;> decide
  simp only [mem_cons, not_or] at hchars
  unfold Decimal.render
  split
  · rcases mem_marks.mp hmark with rfl | rfl | rfl <;> decide
  · refine count_signed hmark _ ?_
    rcases mem_marks.mp hmark with rfl | rfl | rfl <;> decide
  · refine count_signed hmark _ (count_eq_zero.mpr ?_)
    split <;> simp [Decimal.zeros, hchars]
  · exact count_signed hmark _ (count_scientific hmark _ _)

theorem count_local (hmark : mark ∈ marks) (l : Local) :
    l.text.toList.count mark = l.name.toList.count mark := by
  have hdigits := count_toDigits hmark
  have htext : ∀ text : String, toString text = text := fun _ => rfl
  rcases mem_marks.mp hmark with rfl | rfl | rfl <;> unfold Local.text <;> cases l.kind <;>
    simp [htext, hdigits]

theorem count_arity (hmark : mark ∈ marks) (a : Arity) :
    a.text.toList.count mark = (a.keywords.flatMap String.toList).count mark := by
  have hdigits := count_toDigits hmark
  have hcomma : ", ".toList.count mark = 0 := by
    rcases mem_marks.mp hmark with rfl | rfl | rfl <;> decide
  have hlist := count_intercalate hcomma a.keywords
  have htext : ∀ text : String, toString text = text := fun _ => rfl
  rw [mem_marks] at hmark
  unfold Arity.text
  by_cases hkeywords : a.keywords = []
  · rcases hmark with rfl | rfl | rfl <;> cases a.hasKeywordRest <;> cases a.maximum? <;>
      simp [hdigits, htext, hkeywords, apply_ite String.toList, apply_ite (count _)]
  · rcases hmark with rfl | rfl | rfl <;> cases a.hasKeywordRest <;> cases a.maximum? <;>
      simp [hdigits, htext, hkeywords, hlist, -String.toList_intercalate, apply_ite String.toList,
        apply_ite (count _)]

/-- Fixed text brings no mark; the other kinds of pieces are looked at one by one. -/
def isUnmarked : Piece → Bool
  | fixed fixedText => fixedText.toList.all (· ∉ marks)
  | _ => true

theorem count_piece (hmark : mark ∈ marks) (p : Piece) (h : p.isUnmarked = true) :
    p.text.toList.count mark =
      ((p.nameList ++ p.literals).flatMap String.toList).count mark := by
  cases p with
  | fixed =>
    refine count_eq_zero.mpr fun hmem => ?_
    simpa [hmark] using all_eq_true.mp h mark hmem
  | name | quoted => simp [text, nameList, literals]
  | names texts =>
    have hspace : " ".toList.count mark = 0 := by
      rcases mem_marks.mp hmark with rfl | rfl | rfl <;> decide
    simpa only [text, nameList, literals, append_nil] using count_intercalate hspace texts
  | reference l =>
    simpa only [text, nameList, literals, append_nil, flatMap_singleton] using count_local hmark l
  | arity a => simpa only [text, nameList, literals, append_nil] using count_arity hmark a
  | nat n =>
    show n.repr.toList.count mark = 0
    rw [Nat.toList_repr, count_toDigits hmark]
  | int i => exact count_int hmark i
  | float x => exact count_number hmark _ x

theorem count_pieces (hmark : mark ∈ marks) : ∀ pieces : List Piece,
    pieces.all isUnmarked = true →
      (String.join (pieces.map text)).toList.count mark =
        ((pieces.flatMap nameList ++ pieces.flatMap literals).flatMap String.toList).count mark
  | [], _ => rfl
  | p :: rest, h => by
    obtain ⟨hp, hrest⟩ := Bool.and_eq_true_iff.mp h
    have hfirst := count_piece hmark p hp
    have ih := count_pieces hmark rest hrest
    simp only [String.toList_join, map_cons, flatMap_cons, count_append,
      flatMap_append] at hfirst ih ⊢
    omega

end Piece

namespace Code

variable {c : Code} {level : Nat} {xs : List (Nat × Code)} {mark : Char}

theorem isUnmarked_label (c : Code) : c.label.pieces.all Piece.isUnmarked = true := by
  cases c with
  | bool value | «super» _ _ value | closure _ value | openClass _ _ value | loop _ _ value
  | optionalArgument _ _ value => cases value <;> rfl
  | argument _ missing => cases missing <;> rfl
  | splatCast _ onNil => cases onNil <;> rfl
  | _ => rfl

/-- A form opens one parenthesis, and the other marks are those of names and texts. -/
theorem count_opening (hmark : mark ∈ Piece.marks) (c : Code) : c.opening.toList.count mark =
    (if c.isForm && mark == '(' then 1 else 0) +
      ((c.names ++ c.literals).flatMap String.toList).count mark := by
  have hpieces := Piece.count_pieces hmark c.label.pieces (isUnmarked_label c)
  have hfirst : (if c.isForm then "(" else "").toList.count mark =
      if c.isForm && mark == '(' then 1 else 0 := by
    rcases Piece.mem_marks.mp hmark with rfl | rfl | rfl <;> cases c.isForm <;> decide
  rw [opening, String.toList_append, count_append, hfirst, Label.text, hpieces, names, literals]

theorem newline_not_mem_toDigits (n : Nat) : '\n' ∉ Nat.toDigits 16 n := by
  induction n using Nat.strongRecOn with
  | ind n ih =>
    have hdigit : ∀ k < 16, '\n' ≠ Nat.digitChar k := by decide
    rw [Nat.toDigits_eq_if (by decide)]
    split
    · simp [hdigit n ‹_›]
    · simp [hdigit (n % 16) (Nat.mod_lt n (by decide)), ih (n / 16) (by omega)]

theorem newline_not_mem_quoted (value : String) : '\n' ∉ (Text.quoted value).toList := by
  have hchar : ∀ c, '\n' ∉ (Text.quoteChar c).toList := by
    intro c
    unfold Text.quoteChar
    split
    case h_7 hnot _ _ _ =>
      split
      · simp [Text.hexText, newline_not_mem_toDigits]
      · simpa [eq_comm] using hnot
    all_goals decide
  simp [Text.quoted, hchar]

theorem mem_walk_of_mem_rows (h : row ∈ c.rows level) : row.2 ∈ c.walk ∨ row.2 = .self := by
  obtain ⟨whole, hwhole, hrow⟩ := mem_flatMap.mp h
  rw [← c.map_snd_levels level]
  rcases mem_cons.mp hrow with rfl | hrow
  · exact Or.inl (mem_map_of_mem hwhole)
  · obtain ⟨receiver, hreceiver, rfl⟩ := mem_map.mp hrow
    right
    unfold implied at hreceiver
    split at hreceiver
    · exact mem_singleton.mp hreceiver
    · cases hreceiver

theorem newline_not_mem_literals (c : Code) : ∀ text ∈ c.literals, '\n' ∉ text.toList := by
  intro text htext
  obtain ⟨piece, -, hpiece⟩ := mem_flatMap.mp htext
  cases piece with
  | quoted value =>
    rw [mem_singleton.mp hpiece]
    exact newline_not_mem_quoted value
  | _ => cases hpiece

/-- Lines stay lines: a line break of a text stands between quotes. -/
theorem newline_not_mem_outline (h : ∀ row ∈ xs, ∀ name ∈ row.2.names, '\n' ∉ name.toList) :
    ∀ line ∈ outline xs, '\n' ∉ line.toList := by
  intro line hline
  obtain ⟨j, hj, rfl⟩ := mem_mapIdx.mp hline
  have hopening : '\n' ∉ (xs[j]).2.opening.toList := by
    rw [← count_eq_zero, count_opening (by decide)]
    refine Nat.add_eq_zero_iff.mpr ⟨by simp, count_eq_zero.mpr fun hmem => ?_⟩
    obtain ⟨text, htext, hmem⟩ := mem_flatMap.mp hmem
    rcases mem_append.mp htext with hname | hliteral
    · exact h _ (getElem_mem hj) text hname hmem
    · exact newline_not_mem_literals _ text hliteral hmem
  have hindent : '\n' ∉ (indent (xs[j]).1).toList := by
    simp [indent]
  simp [hopening, hindent]

theorem isCountable_iff : c.isCountable = true ↔
    ∀ arity, .checkArity arity ∈ c.walk → arity.isCountable = true := by
  rw [isCountable, all_eq_true, walk_eq]
  refine ⟨fun h arity harity => h _ harity, fun h part hpart => ?_⟩
  split
  · exact h _ hpart
  · rfl

/-- **A listing is an outline of the code**: a line for every part in the order of the walk, with
the lines of its own parts after it and its parenthesis closed on the last of them. The printer says
for every kind of code which parts it shows, and the walk asks for the children: they go to the same
parts in the same order. Every line is one line, and its parentheses are those of the outline and
those inside names and quoted texts. -/
theorem listing?_outlines (c : Code) (level : Nat)
    (hnames : ∀ part ∈ c.walk, ∀ name ∈ part.names, '\n' ∉ name.toList)
    (hcounts : ∀ arity, .checkArity arity ∈ c.walk → arity.isCountable = true) :
    (∃ text, c.listing? level = some text ∧
      text.toList = (outline (c.rows level)).flatMap fun line => line.toList ++ ['\n']) ∧
    (∀ line ∈ outline (c.rows level), '\n' ∉ line.toList) ∧
    (c.levels level).map Prod.snd = c.walk ∧
    (∀ before row after, c.rows level = before ++ row :: after →
      row.2.rows row.1 <+: row :: after) ∧
    (∀ n, closedBy (c.rows level) n ≤ ((c.rows level).take n).countP (·.2.isForm)) ∧
    closedBy (c.rows level) (c.rows level).length = (c.rows level).countP (·.2.isForm) ∧
    ∀ part ∈ c.walk, ∀ mark ∈ ['(', ')'], part.opening.toList.count mark =
      (if part.isForm && mark == '(' then 1 else 0) +
        ((part.names ++ part.literals).flatMap String.toList).count mark := by
  have hended := c.ended_rows level
  refine ⟨⟨c.listing level, if_pos (isCountable_iff.mpr hcounts), ?_⟩,
    newline_not_mem_outline fun row hrow => ?_, c.map_snd_levels level,
    fun before row after hrows => (hrows ▸ hended).within, closedBy_le _, hended.closedBy,
    fun part _ mark hmark => count_opening (mem_append_left ['\n'] hmark) part⟩
  · rw [listing, lines_eq_outline]
    simp [flatMap_map]
  · rcases mem_walk_of_mem_rows hrow with hpart | hself
    · exact hnames _ hpart
    · rw [hself]
      exact forall_mem_nil _

/-- A call whose text argument would break its line, after a check of its own arguments. -/
def brokenText : Code :=
  .sequence [.checkArity { pre := 1 },
    .call none "f" [.text ")\n", .array []] (some (.closure 0 false))]

theorem brokenText_outlined : (∀ part ∈ brokenText.walk, ∀ name ∈ part.names, '\n' ∉ name.toList) ∧
    brokenText.listing? 0 = some
      "(seq\n  (check-arity 1)\n  (call f\n    self\n    \")\\n\"\n    (array)\n    (proc body0)))\n" ∧
    ∀ line ∈ outline (brokenText.rows 0), '\n' ∉ line.toList :=
  have hnames : ∀ part ∈ brokenText.walk, ∀ name ∈ part.names, '\n' ∉ name.toList := by
    rw [walk_eq]
    decide
  have hcounts : ∀ arity, .checkArity arity ∈ brokenText.walk → arity.isCountable = true :=
    isCountable_iff.mp (by decide)
  ⟨hnames, by decide, (listing?_outlines brokenText 0 hnames hcounts).2.1⟩

end Code

end BlockLang
