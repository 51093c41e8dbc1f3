import BlockLang.Proofs.Lowering.Exact
import BlockLang.Proofs.Machine.Reach

/-!
# Literals

A literal is written down as the value that it stands for: a number, a text, or an array or hash of
literals. `Store.Shows` says that a value is the one that is written, without a look at the code
that makes it. **A lowered literal gives the value that it shows** (`Expr.literal_gives`), whatever
it is run in, and does no more than to add arrays and hashes to the store.
-/

namespace BlockLang

open Store Lower

/-! ## Stores that only have more data -/

/-- The arrays and hashes of the first store are as they were. -/
structure Store.Retains (s t : Store) : Prop where
  arrays : ∀ {id : ArrayId} {items : Array Value}, s.arrays[id]? = some items →
    t.arrays[id]? = some items
  hashes : ∀ {id : HashId} {entries : Table Key Value}, s.hashes[id]? = some entries →
    t.hashes[id]? = some entries

/-- Arrays and hashes are added, and everything else stays as it is. -/
structure Store.Adds (s t : Store) : Prop extends Store.Retains s t where
  rest : t = { s with arrays := t.arrays, hashes := t.hashes }

namespace Store

variable {s t u : Store}

theorem Retains.refl : s.Retains s := ⟨id, id⟩

theorem Retains.trans (h : s.Retains t) (h' : t.Retains u) : s.Retains u :=
  ⟨fun hi => h'.arrays (h.arrays hi), fun hi => h'.hashes (h.hashes hi)⟩

theorem Adds.refl : s.Adds s := ⟨.refl, rfl⟩

theorem Adds.trans (h : s.Adds t) (h' : t.Adds u) : s.Adds u := by
  refine ⟨h.toRetains.trans h'.toRetains, ?_⟩
  rw [h'.rest, h.rest]

theorem Adds.frames (h : s.Adds t) : t.frames = s.frames := by rw [h.rest]

theorem Adds.frame (h : s.Adds t) (f : FrameId) : t.frame f = s.frame f := by
  rw [Store.frame, h.frames, Store.frame]

theorem adds_newArray (items : Array Value) : s.Adds (s.newArray items).2 := by
  refine ⟨⟨fun {id old} hi => ?_, id⟩, rfl⟩
  have hlt : id < s.arrays.size := (Array.getElem?_eq_some_iff.mp hi).1
  rw [newArray, Array.getElem?_push, if_neg (Nat.ne_of_lt hlt)]
  exact hi

theorem adds_newHash (entries : Table Key Value) : s.Adds (s.newHash entries).2 := by
  refine ⟨⟨id, fun {id old} hi => ?_⟩, rfl⟩
  have hlt : id < s.hashes.size := (Array.getElem?_eq_some_iff.mp hi).1
  rw [newHash, Array.getElem?_push, if_neg (Nat.ne_of_lt hlt)]
  exact hi

theorem arrays_newArray (items : Array Value) :
    (s.newArray items).2.arrays[s.arrays.size]? = some items := Array.getElem?_push_size

theorem hashes_newHash (entries : Table Key Value) :
    (s.newHash entries).2.hashes[s.hashes.size]? = some entries := Array.getElem?_push_size

theorem array_of_arrays {id : ArrayId} (h : s.arrays[id]? = some items) : s.array id = items := by
  rw [array, Array.getD_eq_getD_getElem?, h]
  rfl

end Store

/-! ## Literals and what they show -/

/-- The key of a hash that is written down. -/
def Expr.key? : Expr → Option Key
  | .nil => some .nil
  | .bool value => some (.bool value)
  | .integer value => some (.int value)
  | .text value => some (.text value)
  | .symbol name => some (.symbol name)
  | _ => none

mutual

/-- A number, text, symbol, truth value or nil, or an array or hash of literals. -/
def Expr.isLiteral : Expr → Bool
  | .nil | .bool _ | .integer _ | .float _ | .text _ | .symbol _ => true
  | .array items => Expr.areLiterals items
  | .hash entries => Expr.areLiteralPairs entries
  | _ => false

def Expr.areLiterals : List (Located Expr) → Bool
  | [] => true
  | ⟨_, e⟩ :: rest => e.isLiteral && Expr.areLiterals rest

def Expr.areLiteralPairs : List (Located Expr × Located Expr) → Bool
  | [] => true
  | (⟨_, key⟩, ⟨_, value⟩) :: rest =>
    key.key?.isSome && value.isLiteral && Expr.areLiteralPairs rest

end

mutual

/-- The value is the one that is written down. -/
def Store.Shows (s : Store) : Expr → Value → Prop
  | .nil, v => v = .nil
  | .bool value, v => v = .bool value
  | .integer value, v => v = .int value
  | .float value, v => v = .float value
  | .text value, v => v = .text value
  | .symbol name, v => v = .symbol name
  | .array items, v =>
    ∃ id values, v = .array id ∧ s.arrays[id]? = some values ∧ s.ShowsEach items values.toList
  | .hash entries, v =>
    ∃ id table, v = .hash id ∧ s.hashes[id]? = some table ∧ s.ShowsPairs entries {} table
  | _, _ => False

def Store.ShowsEach (s : Store) : List (Located Expr) → List Value → Prop
  | [], values => values = []
  | ⟨_, e⟩ :: rest, values =>
    ∃ v more, values = v :: more ∧ s.Shows e v ∧ s.ShowsEach rest more

/-- The table is `done` with the pairs put into it one after the other. -/
def Store.ShowsPairs (s : Store) :
    List (Located Expr × Located Expr) → Table Key Value → Table Key Value → Prop
  | [], done, table => table = done
  | (⟨_, key⟩, ⟨_, value⟩) :: rest, done, table =>
    ∃ k v, key.key? = some k ∧ s.Shows value v ∧ s.ShowsPairs rest (done.insert k v) table

end

mutual

theorem Store.Shows.mono {s t : Store} (h : s.Retains t) :
    ∀ {e : Expr} {v : Value}, s.Shows e v → t.Shows e v
  | .nil, _, hv | .bool _, _, hv | .integer _, _, hv | .float _, _, hv | .text _, _, hv
  | .symbol _, _, hv => hv
  | .array _, _, ⟨id, values, hv, hid, hitems⟩ =>
    ⟨id, values, hv, h.arrays hid, ShowsEach.mono h hitems⟩
  | .hash _, _, ⟨id, table, hv, hid, hpairs⟩ =>
    ⟨id, table, hv, h.hashes hid, ShowsPairs.mono h hpairs⟩

theorem Store.ShowsEach.mono {s t : Store} (h : s.Retains t) :
    ∀ {es : List (Located Expr)} {values : List Value}, s.ShowsEach es values →
      t.ShowsEach es values
  | [], _, hv => hv
  | ⟨_, _⟩ :: _, _, ⟨v, more, heq, hv, hmore⟩ =>
    ⟨v, more, heq, Shows.mono h hv, ShowsEach.mono h hmore⟩

theorem Store.ShowsPairs.mono {s t : Store} (h : s.Retains t) :
    ∀ {pairs : List (Located Expr × Located Expr)} {done table : Table Key Value},
      s.ShowsPairs pairs done table → t.ShowsPairs pairs done table
  | [], _, _, hv => hv
  | (⟨_, _⟩, ⟨_, _⟩) :: _, _, _, ⟨k, v, hk, hv, hmore⟩ =>
    ⟨k, v, hk, Shows.mono h hv, ShowsPairs.mono h hmore⟩

end

/-! ## Running literals -/

variable {c : Context} {s s' : LoweringState} {code : Code}

theorem Expr.key_gives (hk : key.key? = some k) (h : expr ⟨span, key⟩ c s = .ok code s') :
    s' = s ∧ ∀ (σ : Setting) (f : FrameId) (store : Store),
      ∃ v, σ.Gives f code store store v ∧ Key.ofValue? v = some k := by
  cases key with
  | nil | bool _ | integer _ | text _ | symbol _ =>
    cases h
    exact ⟨rfl, fun σ f store => ⟨_, .now fun _ _ => rfl, hk⟩⟩
  | _ => cases hk

/-- A literal is no splat, so it is lowered the same wherever it stands. -/
theorem Expr.args_literal (he : e.isLiteral = true) : args (⟨span, e⟩ :: rest) = (do
      let first ← expr ⟨span, e⟩
      let rest ← args rest
      return first :: rest) := by
  cases e with
  | splat _ => cases he
  | _ => rfl

theorem Setting.operands_cons {σ : Setting} (h : ∀ inner, code ≠ .splat inner) :
    σ.operands store depth stack f purpose done (code :: rest) =
      evaluating store depth (.operand f purpose done false rest :: stack) f code := by
  cases code with
  | splat inner => exact absurd rfl (h inner)
  | _ => rfl

mutual

theorem Expr.literal_gives : ∀ {e : Expr} {span : Span} {s s' : LoweringState} {code : Code},
    e.isLiteral = true → expr ⟨span, e⟩ c s = .ok code s' →
    (s' = s ∧ ∀ inner, code ≠ .splat inner) ∧ ∀ (σ : Setting) (f : FrameId) (store : Store),
      ∃ store' v, σ.Gives f code store store' v ∧ store.Adds store' ∧ store'.Shows e v
  | .nil, _, _, _, _, _, h | .bool _, _, _, _, _, _, h | .integer _, _, _, _, _, _, h
  | .float _, _, _, _, _, _, h | .text _, _, _, _, _, _, h | .symbol _, _, _, _, _, _, h => by
    cases h
    exact ⟨⟨rfl, fun _ => nofun⟩, fun σ f store => ⟨store, _, .now fun _ _ => rfl, .refl, rfl⟩⟩
  | .array items, _, s, s', code, he, h => by
    obtain ⟨codes, s₁, hargs, hcode⟩ := ok_of_bind h
    cases hcode
    obtain ⟨rfl, hgives⟩ := Expr.literals_give he hargs
    refine ⟨⟨rfl, fun _ => nofun⟩, fun σ f store => ?_⟩
    obtain ⟨store', values, hadds, hshows, hrun⟩ := hgives σ f store
    refine ⟨_, _, fun depth stack => .head rfl (hrun depth stack []),
      hadds.trans (adds_newArray _), _, _, rfl, arrays_newArray _, ?_⟩
    exact hshows.mono (adds_newArray _).toRetains
  | .hash pairs, _, s, s', code, he, h => by
    obtain ⟨codes, s₁, hpairs, hcode⟩ := ok_of_bind h
    cases hcode
    obtain ⟨rfl, hgives⟩ := Expr.literalPairs_give he hpairs
    refine ⟨⟨rfl, fun _ => nofun⟩, fun σ f store => ?_⟩
    obtain ⟨store', table, hadds, hshows, hrun⟩ := hgives σ f store {}
    refine ⟨_, _, fun depth stack => .head rfl (hrun depth stack),
      hadds.trans (adds_newHash _), _, _, rfl, hashes_newHash _, ?_⟩
    exact hshows.mono (adds_newHash _).toRetains

theorem Expr.literals_give : ∀ {es : List (Located Expr)} {s s' : LoweringState}
    {codes : List Code}, Expr.areLiterals es = true → args es c s = .ok codes s' →
    s' = s ∧ ∀ (σ : Setting) (f : FrameId) (store : Store), ∃ store' values,
      store.Adds store' ∧ store'.ShowsEach es values ∧ ∀ depth stack done,
        σ.Reaches (σ.operands store depth stack f .array done codes)
          (Setting.givingNew depth stack (store'.newArray (done ++ values).toArray))
  | [], _, _, _, _, h => by
    cases h
    refine ⟨rfl, fun σ f store => ⟨store, [], .refl, rfl, fun depth stack done => ?_⟩⟩
    rw [List.append_nil]
    exact .refl
  | ⟨_, e⟩ :: rest, s, s', codes, he, h => by
    obtain ⟨he, hrest⟩ := Bool.and_eq_true_iff.mp he
    rw [Expr.args_literal he] at h
    obtain ⟨code, s₁, hcode, h⟩ := ok_of_bind h
    obtain ⟨more, s₂, hcodes, h⟩ := ok_of_bind h
    cases h
    obtain ⟨⟨rfl, hsplat⟩, hfirst⟩ := Expr.literal_gives he hcode
    obtain ⟨rfl, hmore⟩ := Expr.literals_give hrest hcodes
    refine ⟨rfl, fun σ f store => ?_⟩
    obtain ⟨store₁, v, hgives, hadds₁, hv⟩ := hfirst σ f store
    obtain ⟨store₂, values, hadds₂, hvalues, hrun⟩ := hmore σ f store₁
    refine ⟨store₂, v :: values, hadds₁.trans hadds₂,
      ⟨v, values, rfl, hv.mono hadds₂.toRetains, hvalues⟩, fun depth stack done => ?_⟩
    rw [Setting.operands_cons hsplat, List.append_cons]
    exact (hgives depth _).trans (.head rfl (hrun depth stack _))

theorem Expr.literalPairs_give : ∀ {es : List (Located Expr × Located Expr)}
    {s s' : LoweringState} {codes : List (Code × Code)}, Expr.areLiteralPairs es = true →
    pairs es c s = .ok codes s' →
    s' = s ∧ ∀ (σ : Setting) (f : FrameId) (store : Store) (done : Table Key Value),
      ∃ store' table, store.Adds store' ∧ store'.ShowsPairs es done table ∧ ∀ depth stack,
        σ.Reaches (Setting.entries store depth stack f done codes)
          (Setting.givingNew depth stack (store'.newHash table))
  | [], _, _, _, _, h => by
    cases h
    exact ⟨rfl, fun σ f store done => ⟨store, done, .refl, rfl, fun depth stack => .refl⟩⟩
  | (⟨_, key⟩, ⟨_, value⟩) :: rest, s, s', codes, he, h => by
    obtain ⟨he, hrest⟩ := Bool.and_eq_true_iff.mp he
    obtain ⟨hkey, he⟩ := Bool.and_eq_true_iff.mp he
    obtain ⟨k, hk⟩ := Option.isSome_iff_exists.mp hkey
    obtain ⟨keyCode, s₁, hkeyCode, h⟩ := ok_of_bind h
    obtain ⟨code, s₂, hcode, h⟩ := ok_of_bind h
    obtain ⟨more, s₃, hcodes, h⟩ := ok_of_bind h
    cases h
    obtain ⟨rfl, hkeyRun⟩ := Expr.key_gives hk hkeyCode
    obtain ⟨⟨rfl, _⟩, hfirst⟩ := Expr.literal_gives he hcode
    obtain ⟨rfl, hmore⟩ := Expr.literalPairs_give hrest hcodes
    refine ⟨rfl, fun σ f store done => ?_⟩
    obtain ⟨kv, hkeyGives, hkv⟩ := hkeyRun σ f store
    obtain ⟨store₁, v, hgives, hadds₁, hv⟩ := hfirst σ f store
    obtain ⟨store₂, table, hadds₂, htable, hrun⟩ := hmore σ f store₁ (done.insert k v)
    refine ⟨store₂, table, hadds₁.trans hadds₂, ⟨k, v, hk, hv.mono hadds₂.toRetains, htable⟩,
      fun depth stack => ?_⟩
    refine (hkeyGives depth _).trans (.head rfl ((hgives depth _).trans (.head ?_ (hrun depth _))))
    simp only [Setting.step, Setting.giving, Setting.resume, hkv]

end

end BlockLang
