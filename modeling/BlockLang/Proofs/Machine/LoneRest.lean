import BlockLang.Proofs.Machine.Destructuring

/-!
# A lone rest

`*a = value` is taken apart along its code (`Setting.Returns`). The variable holds an array at the
end, except where an object was asked for one and answered nil: then the variable holds nil
(`Setting.declining_rest`).
-/

namespace BlockLang

open List Setting Lower

namespace Lower

variable {c : Context} {t t' : LoweringState} {right code : Code}

theorem assign_localVar {span : Span} {name : String}
    (h : assign ⟨span, .localVar name⟩ right c t = .ok code t') :
    ∃ l, l.name = name ∧ code = .writeLocal l right := by
  obtain ⟨l, t₁, hl, h⟩ := ok_of_bind h
  cases h
  cases hl
  exact ⟨_, Scopes.name_answer (r := .assigned name) (s := t.scopes) (k := c.scope) rfl, rfl⟩

theorem keepingRight_eq {assign : Code → Lower Code}
    (h : keepingRight right assign c t = .ok code t') :
    let temp := (t.scopes.addTemp c.scope "rhs").1
    ∃ assignment, assign (.readLocal temp) c (t.addTemp c.scope "rhs") = .ok assignment t' ∧
      code = .elidable (.ofItems (.writeLocal temp right :: Code.elideResults assignment.items))
        (.readLocal temp) := by
  obtain ⟨temp, t₁, htemp, h⟩ := ok_of_bind h
  obtain ⟨assignment, t₂, hassignment, h⟩ := ok_of_bind h
  cases h
  cases htemp
  refine ⟨assignment, hassignment, ?_⟩
  rw [Code.join_writeLocal, flatMap_singleton]

end Lower

theorem Store.Finds.written {s : Store} {f : FrameId} (h : s.Finds u f codes)
    (hl : .variable l ∈ codes.flatMap Code.mentions) (howner : s.frameOf f l = .ok owner)
    (v : Value) :
    Resolves u (s.setSlot owner l.slot v) f l owner ∧
      (s.setSlot owner l.slot v).slot owner l.slot = v := by
  obtain ⟨found, hfound⟩ := h l hl
  rw [Store.frameOf, hfound.found] at howner
  cases howner
  refine ⟨(hfound.writes (P := fun _ => True) v trivial).resolves hfound, ?_⟩
  rw [Store.slot_setSlot v hfound.inRange hfound.slot_lt, if_pos rfl]

/-- The right side of the assignment gives an object, and the object is asked for the array that
the variable is to get and answers nil. -/
def Setting.Refuses (σ : Setting) (m : Machine) (f : FrameId) (l : Local) (onNil : NilAsArray)
    (right : Code) : Prop :=
  ∃ temp s depth object n,
    let last := .sequence f [.readLocal temp] :: m.stack
    let waiting := .writeLocal f temp ::
      .sequence f [.writeLocal l (.splatCast (.readLocal temp) onNil)] :: last
    σ.Inside waiting (evaluating m.store m.depth waiting f right) (giving s depth waiting object) ∧
      σ.Inside m.stack m n ∧ σ.Declines f object (.writeLocal f l :: last) n

/-- **A lone rest gets an array, if no object refuses.** Whatever the right side of `*a = value`
does: when the assignment has its value, the variable holds an array; or it holds nil, and the value
of the right side is an object that was asked for an array and has answered nil. A literal array is
never asked. -/
theorem Program.lower_fillsRest {p : Program} {options : LowerOptions} {σ : Setting}
    (h : p.lower options = .ok σ.unit) {turns : List Turn} {events : List Event}
    {session : Session} (hplay : σ.unit.play σ.capture {} turns = some (events, session))
    {m : Machine} {f : FrameId} {code : Code} (hm : σ.Reaches (σ.start session) m)
    (hcontrol : m.control = .eval f code) {span place : Span} {name : String}
    {value : Located Expr} {c : Context} {t t' : LoweringState}
    (hcode : Lower.expr ⟨span, .multiAssign ⟨[], some (.named ⟨place, .localVar name⟩), []⟩
      (some value)⟩ c t = .ok code t') {s : Store} {v : Value}
    (hreturns : σ.Returns m.stack m s v) :
    ∃ l owner, l.name = name ∧ .variable l ∈ code.mentions ∧ Resolves σ.unit s f l owner ∧
      ((s.slot owner l.slot).IsArray ∨ s.slot owner l.slot = .nil ∧ value.value.isArray = false ∧
        ∃ right t₁, Lower.expr value c t = .ok right t₁ ∧ σ.Refuses m f l c.onNil right) := by
  have hu := lower_wellScoped h
  have hsound := Sound.reached hu hplay hm
  -- the variable is the last that is written
  suffices hlast : ∃ s₁ depth₁ below l owner w, σ.Reaches m (giving s₁ depth₁ below w) ∧
      l.name = name ∧ .variable l ∈ code.mentions ∧ s₁.frameOf f l = .ok owner ∧
      s = s₁.setSlot owner l.slot w ∧ (w.IsArray ∨ w = .nil ∧ value.value.isArray = false ∧
        ∃ right t₁, Lower.expr value c t = .ok right t₁ ∧ σ.Refuses m f l c.onNil right) by
    obtain ⟨s₁, depth₁, below, l, owner, w, hreached, hname, hmention, howner, rfl, hw⟩ := hlast
    have hfinds : s₁.Finds σ.unit f [code] := hsound.finds hu hcontrol hreached
    obtain ⟨hl, hslot⟩ := hfinds.written (by rwa [flatMap_singleton]) howner w
    exact ⟨l, owner, hname, hmention, hl, by rwa [hslot]⟩
  have hown : ∀ l value, Mention.variable l ∈ (Code.writeLocal l value).mentions := by
    intro l value
    rw [Code.mentions_eq]
    exact mem_append_left _ (mem_singleton_self _)
  obtain ⟨store, depth, stack, control⟩ := m
  cases hcontrol
  obtain ⟨right, t₁, _, hright, hform, hcode⟩ := multiAssign_form hcode rfl
  cases hform with
  | whole hliteral =>
    obtain ⟨l, hname, rfl⟩ := assign_localVar hcode
    obtain ⟨s₁, depth₁, owner, hin, howner, rfl⟩ := Returns.writeLocal hreturns
    refine ⟨s₁, depth₁, _, l, owner, v, .head rfl hin.reaches, hname, hown l _, howner, rfl, ?_⟩
    exact .inl (expr_isArray hright hliteral ⟨depth₁, hin⟩)
  | rest hliteral =>
    obtain ⟨assignment, hassignment, rfl⟩ := keepingRight_eq hcode
    obtain ⟨l, hname, rfl⟩ := assign_localVar hassignment
    obtain ⟨s₀, depth₀, object, hgave, _, hrest⟩ := Returns.keepingRight rfl hreturns
    rcases hrest with ⟨_, hnone⟩ | ⟨next, more, depth₂, w, heq, hreaches, hassigns⟩
    · cases hnone
    · cases heq
      obtain ⟨s₁, depth₁, owner, hin, howner, rfl⟩ := hassigns.writeLocal
      refine ⟨s₁, depth₁, _, l, owner, w, hreaches.reaches.trans (.head rfl hin.reaches), hname, ?_,
        howner, rfl, ?_⟩
      · refine Code.mem_mentions_child mem_cons_self _ ?_
        exact Code.mem_mentions_child (mem_cons_of_mem _ mem_cons_self) _ (hown l _)
      · obtain ⟨s₂, depth₃, kept, hread, hcast⟩ := Returns.first ⟨depth₁, hin⟩ rfl
          fun _ _ _ _ => rfl
        rcases Returns.cast hcast with harray | ⟨hnil, hdeclines⟩
        · exact .inl harray
        · -- what is asked was read from the hidden variable, which holds the value of the right side
          obtain ⟨home, hhome, rfl, hkept⟩ := Returns.readLocal ⟨_, hread⟩
          cases hhome.symm.trans (Store.frameOf_self _ _ rfl)
          have hfinds := hsound.finds hu rfl (.head rfl (.head rfl (.head rfl hgave.reaches)))
          obtain rfl : kept = object := by
            refine hkept.trans (hfinds.written ?_ (Store.frameOf_self _ _ rfl) object).2
            rw [flatMap_singleton]
            exact Code.mem_mentions_child mem_cons_self _
              (Code.mem_mentions_child mem_cons_self _ (hown _ _))
          refine .inr ⟨hnil, hliteral, _, _, hright, _, _, _, _, _, hgave, hreaches.trans ?_,
            hdeclines⟩
          refine .eval (.eval (.trans (hread.outer [_, _, _] rfl)
            (.cons (fun hback => ?_) rfl .start)))
          exact ne_append_cons [_, _] hback.1.symm
  | spread hother => exact (hother _ rfl).elim

/-- `*a = 5`. -/
def Build.fiveAsRest : Located Expr :=
  multiAssign ⟨[], some (.named (localTarget "a")), []⟩ (integer 5)

def Program.fiveAsRest : Program where
  body := [Build.fiveAsRest]

def Setting.fiveAsRest : Setting := .of Program.fiveAsRest

/-- `a` holds an array in the end. -/
theorem Setting.fiveAsRest_fills : Program.fiveAsRest.lower {} = .ok fiveAsRest.unit ∧
    ∃ s v l owner, fiveAsRest.Returns [] (fiveAsRest.start {}) s v ∧ l.name = "a" ∧
      Resolves fiveAsRest.unit s 0 l owner ∧ (s.slot owner l.slot).IsArray := by
  have hlower : Program.fiveAsRest.lower {} = .ok fiveAsRest.unit :=
    Program.lower_of_setting rfl (by decide +kernel)
  let c : Context := { options := {}, scope := 0, kind := .topLevel, scopeName := mainName }
  let t : LoweringState := { scopes := (({} : Scopes).addRoot .topLevel).2, nextBody := 1 }
  have hσ := Eq.refl fiveAsRest
  conv at hσ => rhs; cbv
  have hstart := Eq.refl (fiveAsRest.start {})
  conv at hstart => rhs; rw [hσ]; cbv
  have hcode := Eq.refl (expr Build.fiveAsRest c t)
  conv at hcode => rhs; cbv
  have hn := Eq.refl (fiveAsRest.after 13 (fiveAsRest.start {}))
  conv at hn => rhs; rw [hσ]; cbv
  have hreturns : fiveAsRest.Returns [] (fiveAsRest.start {}) _ _ := ⟨_, inside_of_reaches ⟨13, hn⟩⟩
  obtain ⟨l, owner, hname, _, hfound, harray | ⟨hnil, _⟩⟩ := Program.lower_fillsRest hlower
    CodeUnit.play_nil ⟨0, congrArg some hstart⟩ rfl hcode (hstart ▸ hreturns)
  · exact ⟨hlower, _, _, l, owner, hreturns, hname, hfound, harray⟩
  · obtain rfl : owner = 0 := Nat.lt_one_iff.mp hfound.inRange
    have hslot : l.slot < 2 := hfound.slot_lt
    rcases Nat.le_one_iff_eq_zero_or_eq_one.mp (Nat.le_of_lt_succ hslot) with hslot | hslot
    all_goals
      rw [hslot] at hnil
      cases hnil

/-- `class Empty def to_ary() nil end end`, and `*a = Empty.new`: is there something in `a`? -/
def Program.declining : Program where
  body := [
    Build.classDef "Empty" none [Build.define "to_ary" Params.empty [Build.nil]],
    Build.multiAssign ⟨[], some (.named (Build.localTarget "a")), []⟩
      (Build.call (Build.constant "Empty") "new" []),
    Build.ifElse (Build.localVar "a") [Build.symbol "array"] [Build.symbol "nothing"]]

def Setting.declining : Setting := .of Program.declining

/-- The rest of `declining` is nil, and no array. -/
theorem Setting.declining_rest : Program.declining.lower {} = .ok declining.unit ∧
    ∃ left, declining.runFor 100 (declining.start {}) =
      some (.value (.symbol "nothing"), left) := by
  constructor
  · exact Program.lower_of_setting rfl (by decide +kernel)
  · have hσ := Eq.refl declining
    conv at hσ => rhs; cbv
    have hrun := Eq.refl (declining.runFor 100 (declining.start {}))
    conv at hrun => rhs; rw [hσ]; cbv
    exact ⟨_, hrun⟩

end BlockLang
