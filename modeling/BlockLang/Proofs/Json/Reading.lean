import BlockLang.Json.Reader
import BlockLang.Json.Writer

/-!
# Text that is read back

`Json.parse?` gives back every value that `Json.render` writes, as long as its numbers are integers
(`Json.Integral`). Each reader of `Json.Reader` is followed through what the writer put there and
stops where the writer stopped: a number ends where something comes that cannot belong to it
(`Reader.Stops`), a string at its quote, a list at its bracket. The bound on the recursion is the
length of the text.
-/

namespace BlockLang

open List

/-! ## Digits -/

namespace Numeral

theorem digitsValue_toDigits (n : Nat) : digitsValue (Nat.toDigits 10 n) = n := by
  have h : digitsValue (Nat.toDigits 10 n) = Nat.ofDigitChars 10 (Nat.toDigits 10 n) 0 := by
    simp [digitsValue, Nat.ofDigitChars, Nat.mul_comm]
  rw [h, Nat.ofDigitChars_toDigits (by decide) (by decide)]

theorem toDigits_head (hn : 0 < n) : ∃ d ds, Nat.toDigits 10 n = d :: ds ∧ d ≠ '0' := by
  induction n using Nat.strongRecOn with
  | ind n ih =>
    have hdigit : ∀ m < 10, 0 < m → Nat.digitChar m ≠ '0' := by decide
    by_cases hlt : n < 10
    · exact ⟨n.digitChar, [], Nat.toDigits_of_lt_base hlt, hdigit n hlt hn⟩
    · obtain ⟨d, ds, hds, hd⟩ := ih (n / 10) (by omega) (by omega)
      refine ⟨d, ds ++ [(n % 10).digitChar], ?_, hd⟩
      rw [Nat.toDigits_of_base_le (by decide) (by omega), hds, cons_append]

theorem toInt?_ofInt (i : Int) : (ofInt i).toInt? = some i := by
  by_cases hi : i < 0
  · obtain ⟨m, hm⟩ : ∃ m, i.natAbs = m + 1 := ⟨i.natAbs - 1, by omega⟩
    have hvalue : -((m : Int) + 1) = i := by omega
    simp [toInt?, ofInt, hi, digitsValue_toDigits, hm, hvalue]
  · have hvalue : (i.natAbs : Int) = i := by omega
    simp only [toInt?, ofInt, hi, digitsValue_toDigits, decide_false, isEmpty_nil,
      Option.isNone_none, Bool.and_self, if_true, hvalue]

theorem ofNat_eq_ofInt (n : Nat) : ofNat n = ofInt n := by
  simp [ofNat, ofInt]

theorem toInt64?_ofInt (i : Int64) : (ofInt i.toInt).toInt64? = some i := by
  have hrange : Int64.minValue.toInt ≤ i.toInt ∧ i.toInt ≤ Int64.maxValue.toInt :=
    ⟨i.minValue_le_toInt, i.toInt_le⟩
  simp only [toInt64?, toInt?_ofInt, int64?, Option.bind_eq_bind, Option.bind_some, if_pos hrange,
    Int64.ofInt_toInt]

theorem toUInt64?_ofNat (n : UInt64) : (ofNat n.toNat).toUInt64? = some n := by
  -- `UInt64.size` stays a variable: its value is too large to compute with.
  have hrange (size : Nat) (hsize : n.toNat < size) :
      (if 0 ≤ (n.toNat : Int) ∧ (n.toNat : Int) < size then
        some (UInt64.ofNat (n.toNat : Int).toNat) else none) = some n := by
    rw [if_pos ⟨Int.natCast_nonneg _, Int.ofNat_lt.mpr hsize⟩, Int.toNat_natCast,
      UInt64.ofNat_toNat]
  rw [toUInt64?, ofNat_eq_ofInt, toInt?_ofInt, Option.bind_eq_bind, Option.bind_some]
  exact hrange UInt64.size n.toNat_lt_size

end Numeral

namespace Json.Reader

/-! ## Numbers -/

/-- What comes next cannot belong to a number. -/
def Stops (cs : List Char) : Prop :=
  ∀ c ∈ cs.head?, c.isDigit = false ∧ c ≠ '.' ∧ c ≠ 'e' ∧ c ≠ 'E'

theorem stops_nil : Stops [] := by simp [Stops]

theorem stops_cons {c : Char} {cs : List Char}
    (h : c.isDigit = false ∧ c ≠ '.' ∧ c ≠ 'e' ∧ c ≠ 'E') : Stops (c :: cs) := by
  simpa [Stops] using h

variable {rest : List Char}

theorem digits?_append (hds : ∀ c ∈ d :: ds, c.isDigit = true) (hrest : Stops rest) :
    digits? (d :: ds ++ rest) = some (d :: ds, rest) := by
  have htake : rest.takeWhile Char.isDigit = [] := by
    cases rest with
    | nil => rfl
    | cons c cs => simp [(hrest c rfl).1]
  have hdrop : rest.dropWhile Char.isDigit = rest := by
    cases rest with
    | nil => rfl
    | cons c cs => simp [(hrest c rfl).1]
  rw [digits?, takeWhile_append_of_pos hds, htake, dropWhile_append_of_pos hds, hdrop]
  simp

theorem whole?_toDigits (n : Nat) (hrest : Stops rest) :
    whole? (Nat.toDigits 10 n ++ rest) = some (Nat.toDigits 10 n, rest) := by
  rcases Nat.eq_zero_or_pos n with rfl | hn
  · cases rest with
    | nil => rfl
    | cons c cs => simp [whole?, (hrest c rfl).1]
  · obtain ⟨d, ds, hds, hd⟩ := Numeral.toDigits_head hn
    have hdigits : ∀ c ∈ d :: ds, c.isDigit = true := fun c hc =>
      Nat.isDigit_of_mem_toDigits (by decide) (by decide) (hds ▸ hc)
    rw [hds, cons_append, whole?]
    · exact digits?_append hdigits hrest
    · rintro _ ⟨⟩
      exact hd rfl

theorem fraction?_of_stops (hrest : Stops rest) : fraction? rest = some ([], rest) := by
  rw [fraction?]
  rintro cs rfl
  exact (hrest '.' rfl).2.1 rfl

theorem exponent?_of_stops (hrest : Stops rest) : exponent? rest = some (none, rest) := by
  rw [exponent?]
  · rintro cs rfl
    exact (hrest 'e' rfl).2.2.1 rfl
  · rintro cs rfl
    exact (hrest 'E' rfl).2.2.2 rfl

/-- The characters of an integer. -/
def intChars (i : Int) : List Char :=
  (if i < 0 then ['-'] else []) ++ Nat.toDigits 10 i.natAbs

theorem toList_render_ofInt (i : Int) : (Numeral.ofInt i).render.toList = intChars i := by
  by_cases hi : i < 0 <;> simp [Numeral.render, Numeral.ofInt, intChars, hi]

theorem toDigits_eq_cons (n : Nat) :
    ∃ d ds, Nat.toDigits 10 n = d :: ds ∧ d.isDigit = true := by
  obtain ⟨d, ds, hds⟩ := exists_cons_of_ne_nil (Nat.toDigits_ne_nil (n := n) (b := 10))
  exact ⟨d, ds, hds, Nat.isDigit_of_mem_toDigits (by decide) (by decide) (hds ▸ mem_cons_self)⟩

theorem intChars_head (i : Int) :
    ∃ c cs, intChars i = c :: cs ∧ (c = '-' ∨ c.isDigit = true) := by
  by_cases hi : i < 0
  · exact ⟨'-', _, by simp [intChars, hi]; rfl, .inl rfl⟩
  · obtain ⟨d, ds, hds, hd⟩ := toDigits_eq_cons i.natAbs
    exact ⟨d, ds, by simp [intChars, hi, hds], .inr hd⟩

theorem sign_intChars (i : Int) :
    sign (intChars i ++ rest) = (decide (i < 0), Nat.toDigits 10 i.natAbs ++ rest) := by
  by_cases hi : i < 0
  · simp [intChars, hi, sign]
  · obtain ⟨d, ds, hds, hd⟩ := toDigits_eq_cons i.natAbs
    simp only [intChars, hi, hds, if_false, nil_append, cons_append, decide_false]
    rw [sign]
    rintro _ ⟨⟩
    exact absurd hd (by decide)

theorem numeral?_intChars (i : Int) (hrest : Stops rest) :
    numeral? (intChars i ++ rest) = some (.ofInt i, rest) := by
  simp [numeral?, sign_intChars, whole?_toDigits _ hrest, fraction?_of_stops hrest,
    exponent?_of_stops hrest, Numeral.ofInt]

/-! ## Strings -/

theorem hexDigit?_hexDigit : ∀ n < 16, hexDigit? (hexDigit n) = some n := by decide

/-- How a character reads: as itself, or as the number of an escape. -/
def pieceOf (c : Char) : Piece :=
  if c.toNat < 0x20 ∧ c ∉ ['\n', '\r', '\t', '\x08', '\x0c'] then .unit c.toNat else .char c

theorem pieces?_quoteChar (c : Char) (cs : List Char) :
    pieces? (quoteChar c ++ cs) = (pieces? cs).map fun (ps, cs) => (pieceOf c :: ps, cs) := by
  unfold quoteChar
  split
  iterate 7 rfl
  case _ hquote hslash hn hr ht hb hf =>
    split
    case isTrue hlow =>
      have hhigh := hexDigit?_hexDigit (c.toNat / 16) (by omega)
      have hunit := hexDigit?_hexDigit (c.toNat % 16) (by omega)
      have hpiece : pieceOf c = .unit c.toNat := by simp_all [pieceOf]
      have hvalue : hex4? '0' '0' (hexDigit (c.toNat / 16)) (hexDigit (c.toNat % 16)) =
          some c.toNat := by
        simp only [hex4?, hhigh, hunit, show hexDigit? '0' = some 0 from rfl,
          Option.bind_eq_bind, Option.bind_some, Option.some.injEq]
        omega
      simp [pieces?, hvalue, hpiece]
    case isFalse hlow =>
      have hpiece : pieceOf c = .char c := by simp [pieceOf, hlow]
      rw [singleton_append, pieces?, if_neg hlow, hpiece]
      · exact hquote
      · exact fun _ _ _ _ _ hc _ => hslash hc
      · exact fun _ _ hc _ => hslash hc

theorem pieces?_quote (s : List Char) (rest : List Char) :
    pieces? (s.flatMap quoteChar ++ '"' :: rest) = some (s.map pieceOf, rest) := by
  induction s with
  | nil => rfl
  | cons c s ih =>
    rw [flatMap_cons, append_assoc, pieces?_quoteChar, ih]
    rfl

theorem characters?_unit (ps : List Piece) (hhigh : isHighHalf n = false)
    (hlow : isLowHalf n = false) :
    characters? (.unit n :: ps) = (characters? ps).map (Char.ofNat n :: ·) := by
  rcases ps with _ | ⟨_ | _, _⟩ <;> simp [characters?, hhigh, hlow]

/-- An escape that the writer makes is no half of a surrogate pair, so every piece is the character
that it came from. -/
theorem characters?_pieceOf (s : List Char) : characters? (s.map pieceOf) = some s := by
  induction s with
  | nil => rfl
  | cons c s ih =>
    rw [map_cons, pieceOf]
    split
    case isTrue hescape =>
      have hhigh : isHighHalf c.toNat = false := by simp [isHighHalf]; omega
      have hlow : isLowHalf c.toNat = false := by simp [isLowHalf]; omega
      rw [characters?_unit _ hhigh hlow, ih, Option.map_some, Char.ofNat_toNat]
    case isFalse =>
      rw [characters?, ih, Option.map_some]

/-- A string with its quotes, as it is read once the first of them is gone. -/
theorem quote_string? (text : JsonText) (rest : List Char) :
    ∃ cs, (quote text).toList ++ rest = '"' :: cs ∧ string? cs = some (text, rest) := by
  cases text with
  | none => exact ⟨_, rfl, rfl⟩
  | some s =>
    refine ⟨s.toList.flatMap quoteChar ++ '"' :: rest, by simp [quote], ?_⟩
    simp [string?, pieces?_quote, characters?_pieceOf]

end Reader

/-! ## Values -/

/-- All numbers in the value are integers, written without point and exponent. -/
inductive Integral : Json → Prop
  | null : Integral .null
  | bool (value : Bool) : Integral (.bool value)
  | int (i : Int) : Integral (.int i)
  | string (text : JsonText) : Integral (.string text)
  | array {items : List Json} : (∀ x ∈ items, Integral x) → Integral (.array items)
  | object {members : List (JsonText × Json)} :
      (∀ m ∈ members, Integral m.2) → Integral (.object members)

/-- Texts with commas between them. -/
def joined (parts : List String) : List Char := (",".intercalate parts).toList

theorem toList_render_array (items : List Json) :
    (array items).render.toList = '[' :: (joined (renderItems items) ++ [']']) := by
  simp [render, enclose, joined]

theorem toList_render_object (members : List (JsonText × Json)) :
    (object members).render.toList = '\x7b' :: (joined (renderMembers members) ++ ['\x7d']) := by
  simp [render, enclose, joined]

theorem joined_singleton (part : String) : joined [part] = part.toList := by
  simp [joined]

theorem joined_cons_cons (part next : String) (parts : List String) :
    joined (part :: next :: parts) = part.toList ++ ',' :: joined (next :: parts) := by
  simp [joined, String.intercalate_cons_cons]

theorem joined_items (item next : Json) (items : List Json) :
    joined (renderItems (item :: next :: items)) =
      item.render.toList ++ ',' :: joined (renderItems (next :: items)) := by
  rw [renderItems, renderItems, joined_cons_cons]

/-- A member of an object, as it is written. -/
def memberChars (m : JsonText × Json) : List Char :=
  (quote m.1).toList ++ ':' :: m.2.render.toList

theorem joined_member (m : JsonText × Json) : joined (renderMembers [m]) = memberChars m := by
  simp [renderMembers, joined_singleton, memberChars]

theorem joined_members (m next : JsonText × Json) (members : List (JsonText × Json)) :
    joined (renderMembers (m :: next :: members)) =
      memberChars m ++ ',' :: joined (renderMembers (next :: members)) := by
  rw [renderMembers, renderMembers, joined_cons_cons]
  simp [memberChars]

namespace Reader

variable {fuel : Nat} {c : Char} {cs rest : List Char} {m : JsonText × Json}

/-- A value is read back from what is written of it, whatever comes after. -/
def ReadsBack (j : Json) : Prop :=
  ∀ (fuel : Nat) (rest : List Char), Stops rest → j.render.toList.length < fuel →
    value? fuel (j.render.toList ++ rest) = some (j, rest)

theorem isBlank_of_number (hc : c = '-' ∨ c.isDigit = true) : isBlank c = false := by
  rw [Bool.eq_false_iff]
  intro hblank
  simp only [isBlank, Bool.or_eq_true, beq_iff_eq] at hblank
  rcases hblank with ((rfl | rfl) | rfl) | rfl <;> exact absurd hc (by decide)

/-- The text of a value does not start with a blank or with the end of a list. -/
theorem render_head {j : Json} (hj : j.Integral) :
    ∃ c cs, j.render.toList = c :: cs ∧ isBlank c = false ∧ c ≠ ']' := by
  cases hj with
  | null => exact ⟨'n', _, rfl, rfl, by decide⟩
  | bool value =>
    cases value with
    | false => exact ⟨'f', _, rfl, rfl, by decide⟩
    | true => exact ⟨'t', _, rfl, rfl, by decide⟩
  | int i =>
    obtain ⟨c, cs, hcs, hc⟩ := intChars_head i
    refine ⟨c, cs, (toList_render_ofInt i).trans hcs, isBlank_of_number hc, ?_⟩
    rintro rfl
    exact absurd hc (by decide)
  | string text =>
    obtain ⟨cs, hcs, -⟩ := quote_string? text []
    exact ⟨'"', cs, by simpa [render] using hcs, rfl, by decide⟩
  | array _ => exact ⟨'[', _, by simp [render, enclose]; rfl, rfl, by decide⟩
  | object _ => exact ⟨'\x7b', _, by simp [render, enclose]; rfl, rfl, by decide⟩

theorem joined_head (hitem : item.Integral) (items : List Json) :
    ∃ c cs, joined (renderItems (item :: items)) = c :: cs ∧ isBlank c = false ∧ c ≠ ']' := by
  obtain ⟨c, cs, hcs, hc⟩ := render_head hitem
  cases items with
  | nil => exact ⟨c, cs, by simp [renderItems, joined_singleton, hcs], hc⟩
  | cons next items => exact ⟨c, _, by rw [joined_items, hcs]; rfl, hc⟩

theorem joined_members_head (m : JsonText × Json) (members : List (JsonText × Json)) :
    ∃ cs, joined (renderMembers (m :: members)) = '"' :: cs := by
  cases members with
  | nil =>
    obtain ⟨cs, hcs, -⟩ := quote_string? m.1 (':' :: m.2.render.toList)
    exact ⟨cs, by rw [joined_member, memberChars, hcs]⟩
  | cons next members =>
    obtain ⟨cs, hcs, -⟩ := quote_string? m.1
      (':' :: (m.2.render.toList ++ ',' :: joined (renderMembers (next :: members))))
    exact ⟨cs, by rw [joined_members, memberChars, append_assoc, cons_append, hcs]⟩

theorem skipBlank_cons (hc : isBlank c = false) : skipBlank (c :: cs) = c :: cs := by
  simp [skipBlank, hc]

/-- What starts with a sign or a digit can only be a number. -/
theorem value?_number (hc : c = '-' ∨ c.isDigit = true) (n : Nat) :
    value? (n + 1) (c :: cs) = (numeral? (c :: cs)).map fun (m, cs) => (.number m, cs) := by
  rw [value?, skipBlank_cons (isBlank_of_number hc)]
  split
  case h_7 => rfl
  all_goals
    next heq =>
      obtain ⟨rfl, -⟩ := List.cons.inj heq
      exact absurd hc (by decide)

theorem value?_array {c : Char} {cs : List Char} (hblank : isBlank c = false) (hc : c ≠ ']')
    (n : Nat) :
    value? (n + 1) ('[' :: c :: cs) =
      (items? n (c :: cs)).map fun (items, cs) => (.array items, cs) := by
  have hopen : skipBlank ('[' :: c :: cs) = '[' :: c :: cs := rfl
  simp only [value?, hopen, skipBlank_cons hblank]
  split
  · simp_all
  · rfl

theorem value?_object (n : Nat) : value? (n + 1) ('\x7b' :: '"' :: cs) =
      (members? n ('"' :: cs)).map fun (members, cs) => (.object members, cs) := rfl

theorem items?_joined (hback : ∀ x ∈ item :: items, ReadsBack x) (fuel : Nat) (rest : List Char)
    (hfuel : (joined (renderItems (item :: items))).length < fuel) :
    items? (fuel + 1) (joined (renderItems (item :: items)) ++ ']' :: rest) =
      some (item :: items, rest) := by
  induction items generalizing item fuel with
  | nil =>
    rw [renderItems, renderItems, joined_singleton] at hfuel ⊢
    have hitem := hback item (.head _) fuel (']' :: rest) (stops_cons (by decide)) hfuel
    rw [items?, hitem]
    rfl
  | cons next items ih =>
    rw [joined_items] at hfuel ⊢
    rw [length_append, length_cons] at hfuel
    obtain ⟨fuel, rfl⟩ : ∃ k, fuel = k + 1 := ⟨fuel - 1, by omega⟩
    have hitem := hback item (.head _) (fuel + 1)
      (',' :: (joined (renderItems (next :: items)) ++ ']' :: rest))
      (stops_cons (by decide)) (by omega)
    have hitems := ih (fun x hx => hback x (.tail _ hx)) fuel (by omega)
    rw [append_assoc, cons_append, items?, hitem]
    simp [skipBlank, isBlank, hitems]

theorem member_parts (hback : ReadsBack m.2) (hrest : Stops rest)
    (hfuel : (memberChars m).length < fuel) :
    ∃ name value, memberChars m ++ rest = '"' :: name ∧
      string? name = some (m.1, ':' :: value) ∧ value? fuel value = some (m.2, rest) := by
  obtain ⟨cs, hcs, hname⟩ := quote_string? m.1 (':' :: (m.2.render.toList ++ rest))
  refine ⟨cs, m.2.render.toList ++ rest, ?_, hname, hback fuel rest hrest ?_⟩
  · rw [memberChars, append_assoc, cons_append, hcs]
  · rw [memberChars, length_append, length_cons] at hfuel
    omega

theorem members?_comma (hback : ReadsBack m.2) (hfuel : (memberChars m).length < fuel) :
    members? (fuel + 1) (memberChars m ++ ',' :: rest) =
      (members? fuel rest).bind fun read => some (m :: read.1, read.2) := by
  have hstop : Stops (',' :: rest) := stops_cons (by decide)
  obtain ⟨name, value, hquote, hname, hvalue⟩ := member_parts hback hstop hfuel
  rw [hquote]
  simp [members?, skipBlank, isBlank, hname, hvalue]

theorem members?_brace (hback : ReadsBack m.2) (hfuel : (memberChars m).length < fuel) :
    members? (fuel + 1) (memberChars m ++ '\x7d' :: rest) = some ([m], rest) := by
  have hstop : Stops ('\x7d' :: rest) := stops_cons (by decide)
  obtain ⟨name, value, hquote, hname, hvalue⟩ := member_parts hback hstop hfuel
  rw [hquote]
  simp [members?, skipBlank, isBlank, hname, hvalue]

theorem members?_joined (hback : ∀ x ∈ m :: members, ReadsBack x.2) (fuel : Nat)
    (rest : List Char) (hfuel : (joined (renderMembers (m :: members))).length < fuel) :
    members? (fuel + 1) (joined (renderMembers (m :: members)) ++ '\x7d' :: rest) =
      some (m :: members, rest) := by
  induction members generalizing m fuel with
  | nil =>
    rw [joined_member] at hfuel ⊢
    exact members?_brace (hback m (.head _)) hfuel
  | cons next members ih =>
    rw [joined_members] at hfuel ⊢
    rw [length_append, length_cons] at hfuel
    obtain ⟨fuel, rfl⟩ : ∃ k, fuel = k + 1 := ⟨fuel - 1, by omega⟩
    have hmembers := ih (fun x hx => hback x (.tail _ hx)) fuel (by omega)
    rw [append_assoc, cons_append, members?_comma (hback m (.head _)) (by omega),
      hmembers, Option.bind_some]

theorem readsBack (hj : j.Integral) : ReadsBack j := by
  induction hj with
    (intro fuel rest hrest hfuel; obtain ⟨fuel, rfl⟩ : ∃ k, fuel = k + 1 := ⟨fuel - 1, by omega⟩)
  | null => rfl
  | bool value => cases value <;> rfl
  | int i =>
    obtain ⟨c, cs, hcs, hc⟩ := intChars_head i
    have hread := numeral?_intChars i hrest
    rw [hcs, cons_append] at hread
    rw [show (int i).render.toList = c :: cs from (toList_render_ofInt i).trans hcs,
      cons_append, value?_number hc, hread]
    rfl
  | string text =>
    obtain ⟨cs, hcs, hread⟩ := quote_string? text rest
    have hopen : skipBlank ('"' :: cs) = '"' :: cs := rfl
    simp [render, hcs, value?, hopen, hread]
  | @array items hitems ih =>
    cases items with
    | nil => rfl
    | cons item items =>
      rw [toList_render_array] at hfuel ⊢
      rw [length_cons, length_append, length_singleton] at hfuel
      obtain ⟨fuel, rfl⟩ : ∃ k, fuel = k + 1 := ⟨fuel - 1, by omega⟩
      obtain ⟨c, cs, hcs, hblank, hc⟩ := joined_head (hitems item (.head _)) items
      have hread := items?_joined ih fuel rest (by omega)
      rw [hcs, cons_append] at hread
      simp only [hcs, cons_append, append_assoc, nil_append]
      rw [value?_array hblank hc, hread, Option.map_some]
  | @object members _ ih =>
    cases members with
    | nil => rfl
    | cons m members =>
      rw [toList_render_object] at hfuel ⊢
      rw [length_cons, length_append, length_singleton] at hfuel
      obtain ⟨fuel, rfl⟩ : ∃ k, fuel = k + 1 := ⟨fuel - 1, by omega⟩
      obtain ⟨cs, hcs⟩ := joined_members_head m members
      have hread := members?_joined ih fuel rest (by omega)
      rw [hcs, cons_append] at hread
      simp only [hcs, cons_append, append_assoc, nil_append]
      rw [value?_object, hread, Option.map_some]

end Reader

/-- **Reading undoes writing**, for values whose numbers are integers. -/
theorem parse?_render (hj : j.Integral) : parse? j.render = some j := by
  have hread := Reader.readsBack hj (j.render.toList.length + 1) [] Reader.stops_nil
    (Nat.lt_succ_self _)
  rw [append_nil] at hread
  rw [parse?, hread, Option.bind_eq_bind, Option.bind_some]
  rfl

end Json

end BlockLang
