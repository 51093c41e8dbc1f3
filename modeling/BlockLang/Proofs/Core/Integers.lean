import BlockLang.Core.Method
import Mathlib.Algebra.Group.Int.Defs

/-!
# Arithmetic of integers

What the arithmetic methods of an integer answer, beside exact arithmetic (`exactResult?`).
**The answer is the exact result wherever that has 64 bits, and overflow is raised where it has
not**; it is also raised in two places where the exact result may fit (`isRefused`). **Quotient and
remainder by floor belong together**, and are found with words of 64 bits that never overflow on
the way (`FoundInWords`).
-/

namespace BlockLang

theorem fitInt_toInt (i : Int64) : fitInt i.toInt = .ok i := by
  have h : Int64.minValue.toInt ≤ i.toInt ∧ i.toInt ≤ Int64.maxValue.toInt :=
    ⟨Int64.minValue_le_toInt i, Int64.toInt_le i⟩
  rw [fitInt, int64?, if_pos h, Int64.ofInt_toInt]

theorem fitInt_of_forall_ne (h : ∀ i : Int64, i.toInt ≠ x) :
    fitInt x = .error .integerOverflow := by
  rw [fitInt, int64?, if_neg]
  rintro ⟨hmin, hmax⟩
  exact h (Int64.ofInt x) (Int64.toInt_ofInt_of_le hmin (Int.lt_add_one_of_le hmax))

/-! ## Powers -/

theorem pow_two_add {a : Int} (h : a.natAbs ≤ 1) (n : Nat) : a ^ (2 + n) = a ^ (2 + n % 2) := by
  have hcube : a * a * a = a := by
    obtain rfl | rfl | rfl : a = -1 ∨ a = 0 ∨ a = 1 := by omega
    all_goals rfl
  induction n using Nat.strongRecOn with
  | ind n ih =>
    match n with
    | 0 | 1 => rfl
    | n + 2 =>
      calc a ^ (2 + (n + 2)) = a ^ (1 + n) * (a * a * a) := by
            rw [show 2 + (n + 2) = 1 + n + 1 + 1 + 1 by omega, Int.pow_succ, Int.pow_succ,
              Int.pow_succ, Int.mul_assoc, Int.mul_assoc, Int.mul_assoc]
        _ = a ^ (2 + n) := by rw [hcube, ← Int.pow_succ, Nat.succ_eq_add_one, Nat.add_right_comm]
        _ = a ^ (2 + (n + 2) % 2) := by rw [ih n (by omega), Nat.add_mod_right]

theorem power_eq (a : Int64) {b : Nat} (hb : b ≤ maxExponent) :
    power a b = fitInt (a.toInt ^ b) := by
  rw [power, if_neg (Nat.not_lt.mpr hb)]
  split
  next hsmall =>
    rcases Nat.lt_or_ge b 2 with hlt | hge
    · rw [Nat.min_eq_left (by omega)]
      rfl
    · obtain ⟨n, rfl⟩ := Nat.exists_eq_add_of_le hge
      rw [Nat.min_eq_right (by omega), Nat.add_mod_left]
      exact congrArg fitInt (pow_two_add hsmall n).symm
  next hlarge =>
    split
    next hge =>
      refine (fitInt_of_forall_ne fun i hi => ?_).symm
      have hpow : 2 ^ 64 ≤ i.toInt.natAbs := by
        rw [hi, Int.natAbs_pow]
        exact Nat.le_trans (Nat.pow_le_pow_left (by omega) 64) (Nat.pow_le_pow_right (by omega) hge)
      have hmin := Int64.le_toInt i
      have hmax := Int64.toInt_lt i
      omega
    next => rfl

/-! ## Division -/

/-- The quotient goes down and the remainder takes the divisor's sign. -/
structure DividesByFloor (a b q r : Int64) : Prop where
  sum : a.toInt = b.toInt * q.toInt + r.toInt
  sign : r = 0 ∨ (r < 0 ↔ b < 0)
  small : r.toInt.natAbs < b.toInt.natAbs

/-- Quotient and remainder are those that go towards zero, put right where there is a remainder
and the signs differ. Each operation on words is the one on integers. -/
structure FoundInWords (a b q r : Int64) : Prop where
  quotient : (a / b).toInt = a.toInt.tdiv b.toInt
  remainder : (a % b).toInt = a.toInt.tmod b.toInt
  lowered : a % b ≠ 0 → (a < 0 ↔ ¬ b < 0) → (a / b - 1).toInt = (a / b).toInt - 1
  raised : a % b ≠ 0 → (a % b < 0 ↔ ¬ b < 0) → (a % b + b).toInt = (a % b).toInt + b.toInt
  quotient_eq : q = if a % b ≠ 0 ∧ (a < 0 ↔ ¬ b < 0) then a / b - 1 else a / b
  remainder_eq : r = if a % b ≠ 0 ∧ (a % b < 0 ↔ ¬ b < 0) then a % b + b else a % b

theorem toInt_eq_zero {i : Int64} : i.toInt = 0 ↔ i = 0 := Int64.toInt_inj (y := 0)

theorem lt_zero_iff {i : Int64} : i < 0 ↔ i.toInt < 0 := Int64.lt_iff_toInt_lt

theorem exists_foundInWords {a b : Int64} (hb : b ≠ 0) (h : ¬(a = Int64.minValue ∧ b = -1)) :
    ∃ q r, FoundInWords a b q r := by
  have hquotient : (a / b).toInt = a.toInt.tdiv b.toInt := by
    by_cases ha : a = Int64.minValue
    · exact Int64.toInt_div_of_ne_right a b fun hb => h ⟨ha, hb⟩
    · exact Int64.toInt_div_of_ne_left a b ha
  have hbounds (i : Int64) : -2 ^ 63 ≤ i.toInt ∧ i.toInt < 2 ^ 63 := ⟨i.le_toInt, i.toInt_lt⟩
  refine ⟨_, _, hquotient, Int64.toInt_mod a b, fun hr _ => ?_, fun _ hsign => ?_, rfl, rfl⟩
  · -- A divisor that leaves a remainder is at least 2, so the quotient is far from the ends.
    have htwo : 2 ≤ b.toInt.natAbs := by
      rw [ne_eq, ← toInt_eq_zero, Int64.toInt_mod, ← Int.natAbs_eq_zero, Int.natAbs_tmod] at hr
      refine Nat.le_of_not_lt fun hlt => hr ?_
      have hone : b.toInt.natAbs = 1 := by
        rw [ne_eq, ← toInt_eq_zero] at hb
        omega
      rw [hone, Nat.mod_one]
    have hsmall : (a / b).toInt.natAbs ≤ a.toInt.natAbs / 2 := by
      rw [hquotient, Int.natAbs_tdiv]
      exact Nat.div_le_div_left htwo (by decide)
    have ha := hbounds a
    rw [Int64.toInt_sub, show (1 : Int64).toInt = 1 from rfl]
    exact Int.bmod_eq_of_le (by omega) (by omega)
  · have hr := hbounds (a % b)
    have hb := hbounds b
    simp only [lt_zero_iff] at hsign
    rw [Int64.toInt_add]
    exact Int.bmod_eq_of_le (by omega) (by omega)

/-- The remainder towards zero has the sign of the dividend, so both tests of signs agree. -/
theorem FoundInWords.dividesByFloor {a b : Int64} (h : FoundInWords a b q r) (hb : b ≠ 0) :
    DividesByFloor a b q r := by
  have hsum := Int.mul_tdiv_add_tmod a.toInt b.toInt
  have hsmall : (a.toInt.tmod b.toInt).natAbs < b.toInt.natAbs := by
    rw [Int.natAbs_tmod]
    rw [ne_eq, ← toInt_eq_zero] at hb
    exact Nat.mod_lt _ (by omega)
  have hpos : 0 ≤ a.toInt → 0 ≤ a.toInt.tmod b.toInt := Int.tmod_nonneg b.toInt
  have hneg : a.toInt ≤ 0 → a.toInt.tmod b.toInt ≤ 0 := by
    intro ha
    have := Int.tmod_nonneg b.toInt (Int.neg_nonneg_of_nonpos ha)
    rw [Int.neg_tmod] at this
    omega
  have htests : a % b ≠ 0 → (a % b < 0 ↔ a < 0) := by
    intro hr
    rw [ne_eq, ← toInt_eq_zero, h.remainder] at hr
    rw [lt_zero_iff, lt_zero_iff, h.remainder]
    omega
  by_cases hput : a % b ≠ 0 ∧ (a < 0 ↔ ¬b < 0)
  · have hr : r.toInt = a.toInt.tmod b.toInt + b.toInt := by
      rw [h.remainder_eq, if_pos ⟨hput.1, (htests hput.1).trans hput.2⟩,
        h.raised hput.1 ((htests hput.1).trans hput.2), h.remainder]
    have hq : q.toInt = a.toInt.tdiv b.toInt - 1 := by
      rw [h.quotient_eq, if_pos hput, h.lowered hput.1 hput.2, h.quotient]
    have hr0 : a.toInt.tmod b.toInt ≠ 0 := by
      rw [← h.remainder, ne_eq, toInt_eq_zero]
      exact hput.1
    have hsigns := hput.2
    rw [lt_zero_iff, lt_zero_iff] at hsigns
    refine ⟨?_, .inr ?_, ?_⟩
    · rw [hq, hr, Int.mul_sub]
      omega
    · rw [lt_zero_iff, lt_zero_iff, hr]
      omega
    · rw [hr]
      omega
  · have hr : r.toInt = a.toInt.tmod b.toInt := by
      rw [h.remainder_eq, if_neg (fun hr => hput ⟨hr.1, (htests hr.1).symm.trans hr.2⟩),
        h.remainder]
    have hq : q.toInt = a.toInt.tdiv b.toInt := by
      rw [h.quotient_eq, if_neg hput, h.quotient]
    refine ⟨by rw [hq, hr, hsum], ?_, by rw [hr]; exact hsmall⟩
    by_cases hzero : a % b = 0
    · left
      rw [← toInt_eq_zero, hr, ← h.remainder, toInt_eq_zero]
      exact hzero
    · right
      have hsigns : ¬(a < 0 ↔ ¬b < 0) := fun hsigns => hput ⟨hzero, hsigns⟩
      rw [← toInt_eq_zero, h.remainder] at hzero
      rw [lt_zero_iff, lt_zero_iff] at hsigns ⊢
      rw [hr]
      omega

theorem DividesByFloor.eq {a b q r : Int64} (h : DividesByFloor a b q r) :
    a.toInt.fdiv b.toInt = q.toInt ∧ a.toInt.fmod b.toInt = r.toInt := by
  have hsign := h.sign
  have hsmall := h.small
  rw [← toInt_eq_zero, lt_zero_iff, lt_zero_iff] at hsign
  have hsum : r.toInt + b.toInt * q.toInt = a.toInt := by rw [h.sum, Int.add_comm]
  rcases Int.lt_or_lt_of_ne (show b.toInt ≠ 0 by omega) with hb | hb
  · exact (Int.fdiv_fmod_unique' hb).mpr ⟨hsum, by omega, by omega⟩
  · exact (Int.fdiv_fmod_unique hb).mpr ⟨hsum, by omega, by omega⟩

/-! ## Arithmetic methods -/

/-- The exact result of an arithmetic method of an integer. -/
def exactResult? (a : Int) : String → List Int → Option Int
  | "+", [b] => some (a + b)
  | "-", [b] => some (a - b)
  | "*", [b] => some (a * b)
  | "/", [b] => if b = 0 then none else some (a.fdiv b)
  | "%", [b] => if b = 0 then none else some (a.fmod b)
  | "**", [b] => if b < 0 then none else some (a ^ b.toNat)
  | "-@", [] => some (-a)
  | "abs", [] => some a.natAbs
  | "succ", [] => some (a + 1)
  | "pred", [] => some (a - 1)
  | _, _ => none

/-- Where overflow is raised whatever the exact result is: the remainder fails with the quotient,
and exponents have 32 bits. -/
def isRefused (a : Int64) : String → List Int64 → Bool
  | "%", [b] => a == Int64.minValue && b == -1
  | "**", [b] => 2 ^ 32 ≤ b.toInt
  | _, _ => false

namespace Core

/-- The method answers with the integer, or raises the fault, and leaves the store alone. -/
def Gives (method : Core (Option Reply)) (result : Except Fault Int64) : Prop :=
  ∀ s, method.run.run s = (match result with
    | .ok i => .ok (some (.value (.int i)))
    | .error f => .error (.fault f), s)

variable {a b : Int64} {name : String} {caller : Frame} {block : Option ClosureId}
  {result : Except Fault Int64}

theorem gives_operator
    (h : (Operator.ofName? name).map (Operator.onIntegers a b) = some (.int <$> result)) :
    Gives (method caller (.int a) name [.int b] block) result := by
  intro s
  obtain ⟨op, hop, h⟩ := Option.map_eq_some_iff.mp h
  cases result with
  | ok i =>
    replace h : op.onIntegers a b = .ok (.int i) := h
    simp only [method, typedMethod, numberMethod, hop, binary, h]
    rfl
  | error f =>
    replace h : op.onIntegers a b = .error f := h
    simp only [method, typedMethod, numberMethod, hop, binary, h]
    rfl

theorem gives_intMethod (h : intMethod a name [] = do answer (.int (← ofFault (fitInt x)))) :
    Gives (method caller (.int a) name [] block) (fitInt x) := by
  intro s
  simp only [method, typedMethod, numberMethod, h]
  cases fitInt x with
  | ok i => rfl
  | error f => rfl

theorem gives_quotient : Gives (method caller (.int a) "/" [.int b] block) (floorDiv a b) :=
  gives_operator rfl

theorem gives_remainder : Gives (method caller (.int a) "%" [.int b] block) (floorMod a b) :=
  gives_operator rfl

theorem divided_eq {x : Int64} (hb : b ≠ 0) (h : ¬(a = Int64.minValue ∧ b = -1)) :
    divided a b x = .ok x := by
  rw [divided, if_neg hb, if_neg h]

/-- What the words give is exact. -/
theorem floorDiv_eq (hb : b ≠ 0) : floorDiv a b = fitInt (a.toInt.fdiv b.toInt) := by
  by_cases h : a = Int64.minValue ∧ b = -1
  · obtain ⟨rfl, rfl⟩ := h
    rfl
  · obtain ⟨q, r, hfound⟩ := exists_foundInWords hb h
    rw [(hfound.dividesByFloor hb).eq.1, fitInt_toInt, hfound.quotient_eq]
    exact divided_eq hb h

theorem floorMod_eq (hb : b ≠ 0) (h : ¬(a = Int64.minValue ∧ b = -1)) :
    floorMod a b = fitInt (a.toInt.fmod b.toInt) := by
  obtain ⟨q, r, hfound⟩ := exists_foundInWords hb h
  rw [(hfound.dividesByFloor hb).eq.2, fitInt_toInt, hfound.remainder_eq]
  exact divided_eq hb h

theorem onIntegers_pow (hb : ¬b.toInt < 0) : Operator.pow.onIntegers a b =
    .int <$> if 2 ^ 32 ≤ b.toInt then .error .integerOverflow else fitInt (a.toInt ^ b.toInt.toNat) := by
  have hnonneg : 0 ≤ b := Int64.le_iff_toInt_le.mpr (Int.not_lt.mp hb)
  rw [Operator.onIntegers, if_pos hnonneg]
  split
  next hlarge =>
    have hexponent : maxExponent < b.toInt.toNat := by
      have : maxExponent = 2 ^ 32 - 1 := rfl
      omega
    rw [power, if_pos hexponent]
  next hsmall =>
    have hexponent : b.toInt.toNat ≤ maxExponent := by
      have : maxExponent = 2 ^ 32 - 1 := rfl
      omega
    rw [power_eq a hexponent]

theorem gives_exact (hx : exactResult? a.toInt name (args.map (·.toInt)) = some x) :
    Gives (method caller (.int a) name (args.map .int) block)
      (if isRefused a name args then .error .integerOverflow else fitInt x) := by
  unfold exactResult? at hx
  split at hx
  case h_1 hargs | h_2 hargs | h_3 hargs =>
    obtain ⟨b, rfl, rfl⟩ := List.map_eq_singleton_iff.mp hargs
    cases hx
    exact gives_operator rfl
  case h_4 hargs =>
    obtain ⟨b, rfl, rfl⟩ := List.map_eq_singleton_iff.mp hargs
    obtain ⟨hb, hx⟩ := Option.ite_none_left_eq_some.mp hx
    cases hx
    exact floorDiv_eq (fun hzero => hb (toInt_eq_zero.mpr hzero)) ▸ gives_quotient
  case h_5 hargs =>
    obtain ⟨b, rfl, rfl⟩ := List.map_eq_singleton_iff.mp hargs
    obtain ⟨hb, hx⟩ := Option.ite_none_left_eq_some.mp hx
    cases hx
    by_cases h : a = Int64.minValue ∧ b = -1
    · obtain ⟨rfl, rfl⟩ := h
      exact gives_remainder
    · have hrefused : isRefused a "%" [b] = false := by
        rw [isRefused, ← Bool.not_eq_true, Bool.and_eq_true, beq_iff_eq, beq_iff_eq]
        exact h
      rw [hrefused, ← floorMod_eq (fun hzero => hb (toInt_eq_zero.mpr hzero)) h]
      exact gives_remainder
  case h_6 hargs =>
    obtain ⟨b, rfl, rfl⟩ := List.map_eq_singleton_iff.mp hargs
    obtain ⟨hb, hx⟩ := Option.ite_none_left_eq_some.mp hx
    cases hx
    refine gives_operator (congrArg some ?_)
    rw [onIntegers_pow hb]
    simp [isRefused]
  case h_7 hargs | h_8 hargs | h_9 hargs | h_10 hargs =>
    cases List.map_eq_nil_iff.mp hargs
    cases hx
    exact gives_intMethod rfl
  case h_11 => cases hx

/-- **Overflow where it must be.** An arithmetic method answers with the exact result if that has 64
bits, and raises a range error if it has not. The calls that are refused raise one as well. -/
theorem arithmetic_exact (caller : Frame) (block : Option ClosureId) {args : List Int64} {x : Int}
    (hx : exactResult? a.toInt name (args.map (·.toInt)) = some x) :
    (∀ i : Int64, i.toInt = x → isRefused a name args = false →
      Gives (method caller (.int a) name (args.map .int) block) (.ok i)) ∧
    ((∀ i : Int64, i.toInt ≠ x) ∨ isRefused a name args = true →
      ∃ f : Fault, f.kind = "Range" ∧ f.detail = "integer overflow" ∧
        Gives (method caller (.int a) name (args.map .int) block) (.error f)) := by
  have hgives : Gives (method caller (.int a) name (args.map .int) block) _ := gives_exact hx
  constructor
  · rintro i rfl hrefused
    rwa [hrefused, fitInt_toInt] at hgives
  · intro h
    refine ⟨.integerOverflow, rfl, rfl, ?_⟩
    split at hgives
    · exact hgives
    · rename_i hnot
      rwa [fitInt_of_forall_ne (h.resolve_right hnot)] at hgives

theorem arithmetic_exact_pow : exactResult? (-2) "**" [63] = some (-9223372036854775808) ∧
    Gives (method default (.int (-2)) "**" [.int 63] none) (.ok Int64.minValue) :=
  ⟨rfl, (@arithmetic_exact (-2) "**" default none [63] _ rfl).1 _ rfl rfl⟩

/-- The remainder of the least integer by -1 is 0, and is refused; so is a power of 1. -/
theorem arithmetic_refused :
    (exactResult? Int64.minValue.toInt "%" [-1] = some 0 ∧
      Gives (method default (.int Int64.minValue) "%" [.int (-1)] none) (.error .integerOverflow)) ∧
    (exactResult? 1 "**" [4294967296] = some 1 ∧
      Gives (method default (.int 1) "**" [.int 4294967296] none) (.error .integerOverflow)) :=
  ⟨⟨rfl, fun _ => rfl⟩, congrArg some Int.one_pow, fun _ => rfl⟩

/-- **Quotient and remainder belong together.** Both fail for a divisor of 0, and the quotient of
the least integer by -1 is out of range. Otherwise both are there and the dividend is what they say;
words of 64 bits give them without overflow on the way. -/
theorem quotient_remainder (caller : Frame) (block : Option ClosureId) (a b : Int64) :
    (b = 0 → ∃ f : Fault, f.kind = "ZeroDivision" ∧
      Gives (method caller (.int a) "/" [.int b] block) (.error f) ∧
      Gives (method caller (.int a) "%" [.int b] block) (.error f)) ∧
    (a = Int64.minValue → b = -1 → ∃ f : Fault, f.kind = "Range" ∧
      Gives (method caller (.int a) "/" [.int b] block) (.error f)) ∧
    (b ≠ 0 → ¬(a = Int64.minValue ∧ b = -1) → ∃ q r,
      Gives (method caller (.int a) "/" [.int b] block) (.ok q) ∧
      Gives (method caller (.int a) "%" [.int b] block) (.ok r) ∧
      DividesByFloor a b q r ∧ FoundInWords a b q r) := by
  refine ⟨?_, ?_, fun hb h => ?_⟩
  · rintro rfl
    have hzero {x : Int64} : divided a 0 x = .error .divisionByZero := if_pos rfl
    have hquotient : floorDiv a 0 = .error .divisionByZero := hzero
    have hremainder : floorMod a 0 = .error .divisionByZero := hzero
    exact ⟨.divisionByZero, rfl, hquotient ▸ gives_quotient, hremainder ▸ gives_remainder⟩
  · rintro rfl rfl
    exact ⟨.integerOverflow, rfl, gives_quotient⟩
  · obtain ⟨q, r, hfound⟩ := exists_foundInWords hb h
    have hdivides := hfound.dividesByFloor hb
    have hquotient : floorDiv a b = .ok q := hfound.quotient_eq ▸ divided_eq hb h
    have hremainder : floorMod a b = .ok r := hfound.remainder_eq ▸ divided_eq hb h
    exact ⟨q, r, hquotient ▸ gives_quotient, hremainder ▸ gives_remainder, hdivides, hfound⟩

end Core

end BlockLang
