import BlockLang.Proofs.Machine.Leaving

/-!
# Going on with a loop or closure

A `next` ends one turn of a loop or closure, and a `redo` starts the turn again. Neither carries an
identity: the machine takes it to the innermost loop body or closure on the stack. Lowering refuses
those that stand in neither a closure nor a loop, so one should expect that they never get further
than the body that they are written in.

But the *condition* of a loop is not a turn of it, and lowering lets a `next` stand there. In a
closure it goes on with the closure. Outside of one there may be nothing in the body that it could
go on with (`Body.strays`). Whether a `next` is such a stray is seen from the stack: the condition of
a loop of its own frame is being evaluated, and no turn has begun since (`Machine.IsStray`). **Any
other `next` or `redo` goes on with a loop or closure of its own frame, and without strays no run
ends because of one** (`Program.lower_goesOn`). A loop that has a `next` in its condition shows that a
run can end because of a stray (`Setting.strayNext_escapes`).

The invariant is that everything on the stack is covered by what is below it (`Machine.GoesOn`). One
inversion of steps (`Moves`) shows that every step keeps it.
-/

namespace BlockLang

open List Setting

/-! ## Code outside of the bodies of loops -/

namespace Code

/-- A `next` or `redo`. -/
def goesOn : Code → Bool
  | .nextWith _ | .redo => true
  | _ => false

/-- The condition of a loop. -/
def condition? : Code → Option Code
  | .loop condition _ _ _ => some condition
  | _ => none

/-- The direct parts, without the body of a loop; its condition is among them if tests count. -/
def outerParts (tests : Bool) (c : Code) : List Code :=
  c.condition?.elim c.children fun condition => if tests then [condition] else []

/-- The code and its parts outside of the bodies of loops, and outside of their conditions as well
unless tests count. -/
def outside (tests : Bool) (c : Code) : List Code :=
  c.fold fun c parts =>
    c :: (if c.condition?.isSome then parts.take (if tests then 1 else 0) else parts).flatten

variable {tests : Bool}

theorem outside_eq (c : Code) :
    c.outside tests = c :: (c.outerParts tests).flatMap (outside tests) := by
  unfold outside
  rw [fold_eq]
  cases c with
  | loop => cases tests <;> rfl
  | _ => rfl

theorem self_mem_outside (c : Code) : c ∈ c.outside tests := by
  rw [outside_eq]
  exact mem_cons_self

variable {c part : Code}

theorem mem_children_of_outerParts (h : part ∈ c.outerParts tests) : part ∈ c.children := by
  cases c with
  | loop condition body bodyFirst id =>
    cases tests with
    | true =>
      rw [mem_singleton.mp h]
      exact mem_cons_self
    | false => cases h
  | _ => exact h

/-- Where tests do not count there are fewer parts. -/
theorem outerParts_of_apart (h : part ∈ c.outerParts false) : part ∈ c.outerParts tests := by
  cases c with
  | loop => cases h
  | _ => exact h

theorem outside_of_mem_outerParts {inner : Code} (hpart : part ∈ c.outside tests)
    (hinner : inner ∈ part.outerParts tests) : inner ∈ c.outside tests := by
  induction c using inductionOnChildren with
  | h c ih =>
    rw [outside_eq] at hpart ⊢
    refine mem_cons_of_mem _ ?_
    rcases mem_cons.mp hpart with rfl | hpart
    · exact mem_flatMap.mpr ⟨inner, hinner, self_mem_outside inner⟩
    · obtain ⟨child, hchild, hpart⟩ := mem_flatMap.mp hpart
      have hmem := ih child (mem_children_of_outerParts hchild) hpart
      exact mem_flatMap.mpr ⟨child, hchild, hmem⟩

theorem WellPlaced.outside (h : WellPlaced r p c) (hpart : part ∈ c.outside tests) :
    ∃ q, WellPlaced r q part ∧ (q.inside = p.inside ∨ tests = true ∧
      ∃ loop ∈ c.outside tests, ∃ condition ∈ loop.condition?, part ∈ condition.outside tests) := by
  induction h with
  | @intro p c hadmits hparts ih =>
    have hself : c ∈ c.outside tests := self_mem_outside c
    rw [outside_eq] at hpart
    rcases mem_cons.mp hpart with rfl | hpart
    · exact ⟨p, ⟨hadmits, hparts⟩, Or.inl rfl⟩
    · obtain ⟨child, hchild, hinner⟩ := mem_flatMap.mp hpart
      have hchildren := mem_children_of_outerParts hchild
      rw [← map_snd_partsAt p c] at hchildren
      obtain ⟨⟨q, child⟩, hmem, rfl⟩ := mem_map.mp hchildren
      obtain ⟨q', hplaced, hinside⟩ := ih q child hmem hinner
      refine ⟨q', hplaced, ?_⟩
      rcases site_of_mem_partsAt hmem with ⟨caught, rfl⟩ | ⟨condition, body, bodyFirst, id, rfl, rfl⟩
      · refine hinside.imp id fun ⟨htests, outer, houter, hcondition⟩ =>
          ⟨htests, outer, ?_, hcondition⟩
        rw [outside_eq]
        exact mem_cons_of_mem _ (mem_flatMap.mpr ⟨child, hchild, houter⟩)
      · -- the part is in the condition, for the body of the loop is not outside
        cases tests with
        | true =>
          cases mem_singleton.mp hchild
          exact Or.inr ⟨rfl, _, hself, _, rfl, hinner⟩
        | false => cases hchild

end Code

/-- The `next`s and `redo`s in conditions of loops, where the body has nothing that they could go
on with. -/
def Body.strays (b : Body) : List Code :=
  if b.kind.isClosure then []
  else ((b.code.outside true).flatMap fun c =>
    c.condition?.elim [] (Code.outside true)).filter Code.goesOn

variable {c : Code} {f : FrameId}

/-- Outside of closures and of the bodies of loops a `next` or `redo` stands in a condition. -/
theorem CodeUnit.ExitsPlaced.in_condition {u : CodeUnit} {tests : Bool} (hx : u.ExitsPlaced)
    (hb : u.body? b = some body) (hkind : body.kind.isClosure = false)
    (hc : c ∈ body.code.outside tests) (hgoes : c.goesOn = true) :
    tests = true ∧ ∃ loop ∈ body.code.outside tests, ∃ condition ∈ loop.condition?,
      c ∈ condition.outside tests := by
  obtain ⟨q, hplaced, hinside | hcondition⟩ := (hx.placed hb).outside hc
  · have hin : q.inside = true := by
      have hadmits := hplaced.admits
      cases c with
      | nextWith | redo => exact hadmits
      | _ => cases hgoes
    rw [hinside] at hin
    exact absurd (hkind.symm.trans hin) (by simp)
  · exact hcondition

/-- Outside of closures and of the bodies of loops there are no others. -/
theorem CodeUnit.ExitsPlaced.mem_strays {u : CodeUnit} (hx : u.ExitsPlaced)
    (hb : u.body? b = some body) (hkind : body.kind.isClosure = false)
    (hc : c ∈ body.code.outside true) (hgoes : c.goesOn = true) : c ∈ body.strays := by
  obtain ⟨_, loop, hloop, condition, hcondition, hmem⟩ := hx.in_condition hb hkind hc hgoes
  unfold Body.strays
  rw [if_neg (by simp [hkind])]
  refine mem_filter.mpr ⟨mem_flatMap.mpr ⟨loop, hloop, ?_⟩, hgoes⟩
  rw [Option.mem_def.mp hcondition]
  exact hmem

/-! ## What there is to go on with -/

/-- It is neither the end of a method or closure nor the body of a loop. -/
def Cont.isSide (k : Cont) : Bool := !k.isEnd && k.turns?.isNone

/-- The frame of the loop or closure that an exit goes on with, if it is not beyond a method. -/
def turnsTo : List Cont → Option FrameId
  | [] => none
  | k :: below => if k.isSide then turnsTo below else k.turns?

theorem turnsTo_cons {k : Cont} (hk : k.isSide = true) (stack : List Cont) :
    turnsTo (k :: stack) = turnsTo stack := by
  rw [turnsTo, if_pos hk]

theorem turnsTo_append (h : ∀ k ∈ attendants, k.isSide = true) (stack : List Cont) :
    turnsTo (attendants ++ stack) = turnsTo stack := by
  induction attendants with
  | nil => rfl
  | cons k rest ih =>
    obtain ⟨hk, hrest⟩ := forall_mem_cons.mp h
    rw [cons_append, turnsTo_cons hk, ih hrest]

theorem exists_of_turnsTo {stack : List Cont} (h : turnsTo stack = some f) :
    ∃ above k below, stack = above ++ k :: below ∧ k.turns? = some f ∧
      ∀ k' ∈ above, k'.isSide = true := by
  induction stack with
  | nil => cases h
  | cons k stack ih =>
    cases hk : k.isSide with
    | true =>
      rw [turnsTo_cons hk] at h
      obtain ⟨above, k', below, rfl, hturns, habove⟩ := ih h
      exact ⟨k :: above, k', below, rfl, hturns, forall_mem_cons.mpr ⟨hk, habove⟩⟩
    | false =>
      rw [turnsTo, if_neg (by simp [hk])] at h
      exact ⟨[], k, stack, rfl, h, forall_mem_nil _⟩

/-- Such an exit goes past everything else. -/
theorem Cont.lets_of_isSide {k : Cont} (hk : k.isSide = true) (he : e.goesOn = true) : k.Lets e :=
    by
  intro s depth stack
  cases k with
  | method | closure | loopBody => cases hk
  | catchBreak =>
    cases e with
    | nextWith | redo => rfl
    | _ => cases he
  | _ => rfl

section

variable {u : CodeUnit} {s t : Store} {stack : List Cont} {f : FrameId} {c : Code}

/-- The code stands outside of the bodies of loops, in a body that is no closure; and outside of
conditions as well, unless tests count. -/
def Loose (tests : Bool) (u : CodeUnit) (s : Store) (f : FrameId) (c : Code) : Prop :=
  f < s.frames.size ∧ ∃ body, u.body? (s.frame f).body = some body ∧
    body.kind.isClosure = false ∧ c ∈ body.code.outside tests

variable {tests : Bool}

theorem Loose.part {part : Code} (h : Loose tests u s f c) (hpart : part ∈ c.outerParts tests) :
    Loose tests u s f part := by
  obtain ⟨hf, body, hb, hkind, hc⟩ := h
  exact ⟨hf, body, hb, hkind, Code.outside_of_mem_outerParts hc hpart⟩

theorem Loose.grow (h : Loose tests u s f c) (hst : s.Grows t) : Loose tests u t f c := by
  obtain ⟨hf, body, hb, hbody⟩ := h
  exact ⟨Nat.lt_of_lt_of_le hf hst.size, body, by rw [hst.body f hf]; exact hb, hbody⟩

theorem Loose.newFrame (hb : u.body? new.body = some body) (hkind : body.kind.isClosure = false) :
    Loose tests u (t.newFrame new).2 t.frames.size body.code := by
  refine ⟨?_, body, ?_, hkind, Code.self_mem_outside _⟩
  · rw [Store.size_newFrame]
    exact Nat.lt_succ_self _
  · rw [Store.frame_newFrame_self]
    exact hb

/-- The code is part of a condition that a loop of the frame waits for, and since then no turn has
begun and nothing has been called. -/
def Tested (stack : List Cont) (f : FrameId) (c : Code) : Prop :=
  ∃ above condition body below, stack = above ++ .loopTest f condition body :: below ∧
    (∀ k ∈ above, k.isSide = true) ∧ c ∈ condition.outside true

theorem Tested.append (h : Tested stack f c) (hside : ∀ k ∈ aside, k.isSide = true) :
    Tested (aside ++ stack) f c := by
  obtain ⟨above, condition, body, below, rfl, habove, hc⟩ := h
  exact ⟨aside ++ above, condition, body, below, (append_assoc ..).symm,
    forall_mem_append.mpr ⟨hside, habove⟩, hc⟩

/-- On the stack the code has something of its own frame to go on with, unless it is loose. -/
def Held (u : CodeUnit) (s : Store) (stack : List Cont) (f : FrameId) (c : Code) : Prop :=
  turnsTo stack = some f ∨ Loose true u s f c

theorem Held.grow (h : Held u s stack f c) (hst : s.Grows t) : Held u t stack f c :=
  h.imp id fun h => h.grow hst

theorem Held.append (h : Held u s stack f c) (hside : ∀ k ∈ aside, k.isSide = true) :
    Held u s (aside ++ stack) f c :=
  h.imp (turnsTo_append hside stack ▸ ·) id

/-- And code that is loose stands in no loop at all, or is part of a condition under test. -/
def Covered (u : CodeUnit) (s : Store) (stack : List Cont) (f : FrameId) (c : Code) : Prop :=
  turnsTo stack = some f ∨ Loose true u s f c ∧ (Tested stack f c ∨ Loose false u s f c)

namespace Covered

theorem part {part : Code} (h : Covered u s stack f c) (hpart : part ∈ c.outerParts false) :
    Covered u s stack f part := by
  refine h.imp id fun ⟨hloose, hwhere⟩ =>
    ⟨hloose.part (Code.outerParts_of_apart hpart), hwhere.imp ?_ fun h => h.part hpart⟩
  rintro ⟨above, condition, body, below, rfl, habove, hc⟩
  exact ⟨above, condition, body, below, rfl, habove,
    Code.outside_of_mem_outerParts hc (Code.outerParts_of_apart hpart)⟩

theorem grow (h : Covered u s stack f c) (hst : s.Grows t) : Covered u t stack f c :=
  h.imp id fun ⟨hloose, hwhere⟩ => ⟨hloose.grow hst, hwhere.imp id fun h => h.grow hst⟩

theorem push {k : Cont} (h : Covered u s stack f c) (hk : k.isSide = true) :
    Covered u s (k :: stack) f c :=
  h.imp (turnsTo_cons hk stack ▸ ·) fun ⟨hloose, hwhere⟩ =>
    ⟨hloose, hwhere.imp (fun h => h.append (forall_mem_singleton.mpr hk)) id⟩

theorem held (h : Covered u s stack f c) : Held u s stack f c := h.imp id And.left

theorem condition {condition body : Code} {id : BreakId}
    (h : Covered u s stack f (.loop condition body bodyFirst id)) : Held u s stack f condition :=
  h.held.imp (fun h => h) fun h => h.part mem_cons_self

theorem newFrame (hb : u.body? new.body = some body) (hkind : body.kind.isClosure = false) :
    Covered u (t.newFrame new).2 stack t.frames.size body.code :=
  Or.inr ⟨.newFrame hb hkind, Or.inr (.newFrame hb hkind)⟩

end Covered

/-- What the continuation holds is covered by the stack below it. A loop goes on with its body by
itself. -/
def Cont.Covered (u : CodeUnit) (s : Store) (below : List Cont) : Cont → Prop
  | .loopTest f condition _ | .loopBody f condition _ => Held u s below f condition
  | .nextWith => ∃ f value, BlockLang.Covered u s below f (.nextWith value)
  | k => ∀ f ∈ k.frame?, ∀ c ∈ k.codes, BlockLang.Covered u s below f c

variable {k : Cont}

theorem Cont.Covered.grow (h : k.Covered u s stack) (hst : s.Grows t) : k.Covered u t stack := by
  cases k with
  | loopTest | loopBody => exact Held.grow h hst
  | nextWith =>
    obtain ⟨f, value, h⟩ := h
    exact ⟨f, value, h.grow hst⟩
  | _ => exact fun f hf c hc => (h f hf c hc).grow hst

/-- Everything on the stack is covered by what is below it. -/
def Covers (u : CodeUnit) (s : Store) : List Cont → Prop
  | [] => True
  | k :: below => k.Covered u s below ∧ Covers u s below

theorem Covers.grow (h : Covers u s stack) (hst : s.Grows t) : Covers u t stack := by
  induction stack with
  | nil => trivial
  | cons k stack ih => exact ⟨h.1.grow hst, ih h.2⟩

/-- What a step starts from is covered. -/
def Cause.Covered (u : CodeUnit) (s : Store) (stack : List Cont) : Cause → Prop
  | .code f c => BlockLang.Covered u s stack f c
  | .value k => k.Covered u s stack
  | .call => True

namespace Cause.Covered

variable {cause : Cause}

theorem codes (h : cause.Covered u s stack) (hloop : cause.loop? = none)
    (hf : cause.frame? = some f) (hc : c ∈ cause.codes) : BlockLang.Covered u s stack f c := by
  cases cause with
  | code g whole =>
    cases hf
    refine BlockLang.Covered.part h ?_
    cases whole with
    | loop => cases hloop
    | _ => exact hc
  | value k =>
    cases k with
    | loopTest | loopBody => cases hloop
    | nextWith => cases hf
    | _ => exact h f hf c hc
  | call => cases hf

theorem items (h : cause.Covered u s stack) {items : List Code}
    (hitems : cause.items? = some (f, items)) : ∀ c ∈ items, BlockLang.Covered u s stack f c := by
  unfold Cause.items? at hitems
  split at hitems <;> cases hitems <;> exact fun c hc => h.codes rfl rfl hc

theorem condition (h : cause.Covered u s stack) {condition body : Code} {catches : List Cont}
    (hloop : cause.loop? = some (f, condition, body, catches)) :
    Held u s stack f condition ∧
      ∀ k ∈ catches, k.isSide = true ∧ ∀ below, k.Covered u s below := by
  unfold Cause.loop? at hloop
  split at hloop <;> cases hloop
  · exact ⟨BlockLang.Covered.condition h, forall_mem_singleton.mpr ⟨rfl, fun _ => nofun⟩⟩
  · exact ⟨h, forall_mem_nil _⟩
  · exact ⟨h, forall_mem_nil _⟩

end Cause.Covered

/-! ## Every step keeps it -/

/-- Whatever the machine is to run is covered, and so is an exit that it is on its way with. -/
structure Machine.GoesOn (u : CodeUnit) (m : Machine) : Prop where
  stack : Covers u m.store m.stack
  control : ∀ f c, m.control = .eval f c → Covered u m.store m.stack f c
  exit : ∀ e, m.control = .leave e → e.goesOn = true →
    ∃ f c, c.goesOn = true ∧ Held u m.store m.stack f c
  raised : ∀ fault, m.control = .leave (.raise fault) → fault.isEscape = false

namespace Machine.GoesOn

variable {cause : Cause} {m m' : Machine} {depth : Nat} {σ : Setting}

theorem evaluating (hc : Covered u s stack f c) (hstack : Covers u s stack) :
    (evaluating s depth stack f c).GoesOn u := by
  refine ⟨hstack, fun g c' h => ?_, nofun, nofun⟩
  cases h
  exact hc

theorem giving (hstack : Covers u s stack) (v : Value) :
    (giving s depth stack v).GoesOn u :=
  ⟨hstack, nofun, nofun, nofun⟩

theorem raising (hstack : Covers u s stack) (hfault : fault.isEscape = false) :
    (raising s depth stack fault).GoesOn u := by
  refine ⟨hstack, nofun, fun e h he => ?_, fun fault' h => ?_⟩
  · cases h
    cases he
  · cases h
    exact hfault

/-- A condition is under test while it is evaluated. -/
theorem loopTest (hcondition : Held u s stack f condition) (hstack : Covers u s stack) :
    (loopTest s depth stack f condition body).GoesOn u := by
  refine evaluating ?_ ⟨hcondition, hstack⟩
  refine hcondition.imp (fun h => h) fun hloose => ⟨hloose, Or.inl ?_⟩
  exact ⟨[], condition, body, stack, rfl, forall_mem_nil _, Code.self_mem_outside condition⟩

theorem loopBody (hcondition : Held u s stack f condition) (hstack : Covers u s stack) :
    (loopBody s depth stack f condition body).GoesOn u :=
  evaluating (Or.inl rfl) ⟨hcondition, hstack⟩

end Machine.GoesOn

theorem Covers.append (h : ∀ k ∈ aside, ∀ below, k.Covered u s below)
    (hstack : Covers u s stack) : Covers u s (aside ++ stack) := by
  induction aside with
  | nil => exact hstack
  | cons k rest ih =>
    obtain ⟨hk, hrest⟩ := forall_mem_cons.mp h
    exact ⟨hk _, ih hrest⟩

theorem Cont.covered_of_isAttendant (hk : k.isAttendant = true) (below : List Cont) :
    k.Covered u s below := by
  cases k with
  | construct | iterate => exact nofun
  | _ => cases hk

theorem Cont.covered_of_first? {part : Code} (h : c.first? f = some (part, k))
    (hc : BlockLang.Covered u s stack f c) :
    k.isSide = true ∧ k.Covered u s stack ∧ BlockLang.Covered u s stack f part := by
  have hparts : ∀ other ∈ c.children, BlockLang.Covered u s stack f other := by
    intro other hother
    refine hc.part ?_
    cases c with
    | loop => cases h
    | _ => exact hother
  obtain ⟨hpart, hcodes⟩ := Code.mem_children_of_first? h
  refine ⟨?_, ?_, hparts part hpart⟩
  · unfold Code.first? at h
    split at h <;> cases h <;> rfl
  · cases k with
    | nextWith =>
      refine ⟨f, part, ?_⟩
      unfold Code.first? at h
      split at h <;> cases h
      exact hc
    | loopTest | loopBody =>
      unfold Code.first? at h
      split at h <;> cases h
    | _ =>
      intro g hg other hother
      rw [Code.frame_of_first? h hg]
      exact hparts other (hcodes other hother)

theorem Cont.covered_of_isWalk (hk : k.isWalk = true)
    (h : ∀ f ∈ k.frame?, ∀ c ∈ k.codes, BlockLang.Covered u s stack f c) :
    k.isSide = true ∧ k.Covered u s stack := by
  cases k with
  | operand | hashKey | hashValue | callBlock | superBlock => exact ⟨rfl, h⟩
  | _ => cases hk

namespace Machine.GoesOn

variable {cause : Cause} {m m' : Machine} {σ : Setting}

theorem moves (h : Moves u cause s stack m) (hcause : cause.Covered u s stack)
    (hstack : Covers u s stack) : m.GoesOn u := by
  have hold : Covers u m.store stack := hstack.grow h.grows
  have hbelow : ∀ {attendants : List Cont}, (∀ k ∈ attendants, k.isAttendant = true) →
      Covers u m.store (attendants ++ stack) :=
    fun hattendants => hold.append fun k hk => Cont.covered_of_isAttendant (hattendants k hk)
  cases h with
  | calm _ hcalm =>
    refine ⟨hold, fun f c h => ?_, fun e h => ?_, fun fault h => ?_⟩ <;>
    · cases h
      cases hcalm
  | raise _ hattendants hraises =>
    exact raising (hbelow hattendants) (Cause.isEscape_of_raises hraises)
  | @leave e _ hleaves =>
    refine ⟨hold, nofun, fun e' h he => ?_, fun fault h => ?_⟩
    · cases h
      unfold Cause.Leaves at hleaves
      split at hleaves
      · exact ⟨_, _, rfl, Covered.held hcause⟩
      · cases he
      · obtain ⟨f, value, hcovered⟩ := hcause
        exact ⟨f, .nextWith value, rfl, hcovered.held⟩
      · cases he
      · cases he
      · cases hleaves
    · cases h
      unfold Cause.Leaves at hleaves
      split at hleaves <;> contradiction
  | write => exact giving hold _
  | @ask _ k f v hk =>
    refine ⟨⟨?_, hold⟩, nofun, nofun, nofun⟩
    cases k with
    | castAnswer | guardAnswer => exact nofun
    | _ => cases hk
  | tail hloop hf hc => exact evaluating (hcause.codes hloop hf hc) hold
  | first heq hfirst =>
    subst heq
    obtain ⟨hside, hk, hpart⟩ := Cont.covered_of_first? hfirst hcause
    exact evaluating (hpart.push hside) ⟨hk, hold⟩
  | @walk f part t _ k hst hloop hf hk hkf hcodes hpart =>
    have hgrow : s.Grows t := .of_frames_eq hst
    have hheld : ∀ g ∈ k.frame?, ∀ c ∈ k.codes, Covered u t stack g c := by
      intro g hg c hc
      cases hkf.symm.trans hg
      exact (hcause.codes hloop hf (hcodes c hc)).grow hgrow
    obtain ⟨hside, hk⟩ := Cont.covered_of_isWalk hk hheld
    have hcovered : Covered u s stack f part := by
      rcases hpart with hpart | hpart
      · exact hcause.codes hloop hf hpart
      · exact (hcause.codes hloop hf hpart).part mem_cons_self
    exact evaluating ((hcovered.grow hgrow).push hside) ⟨hk, hold⟩
  | @item f c rest _ hitems _ =>
    obtain ⟨hc, hrest⟩ := forall_mem_cons.mp (hcause.items hitems)
    refine evaluating (hc.push rfl) ⟨?_, hold⟩
    rintro g ⟨⟩ other hother
    exact hrest other hother
  | test hloop =>
    obtain ⟨hcondition, hcatches⟩ := hcause.condition hloop
    exact loopTest (hcondition.append fun k hk => (hcatches k hk).1)
      (hold.append fun k hk => (hcatches k hk).2)
  | turn hloop =>
    obtain ⟨hcondition, hcatches⟩ := hcause.condition hloop
    exact loopBody (hcondition.append fun k hk => (hcatches k hk).1)
      (hold.append fun k hk => (hcatches k hk).2)
  | method hst hb hkind hslots hattendants =>
    refine evaluating (.newFrame hb ?_) ⟨nofun, hbelow hattendants⟩
    rw [hkind]
    rfl
  | closure hst hb hslots hattendants =>
    exact evaluating (Or.inl rfl) ⟨nofun, hbelow hattendants⟩
  | opening hst hb hkind => exact evaluating (.newFrame hb hkind) hold

theorem meets {depth : Nat} (h : e.Meets k s stack m)
    (hm : (leaving s depth (k :: stack) e).GoesOn u) : m.GoesOn u := by
  obtain ⟨hk, hstack⟩ := hm.stack
  cases h with
  | @pass depth hturns =>
    refine ⟨hstack, nofun, fun e' h he => ?_, fun fault h => hm.raised fault ?_⟩
    · cases h
      obtain ⟨f, c, hc, hheld⟩ := hm.exit e rfl he
      refine ⟨f, c, hc, hheld.imp (fun hto => ?_) id⟩
      -- what has been passed is no loop and no closure, and were it a method there would be nothing
      change (if k.isSide then turnsTo stack else k.turns?) = some f at hto
      split at hto
      · exact hto
      · rw [hturns he] at hto
        cases hto
    · cases h
      rfl
  | stop => exact giving hstack _
  | test heq =>
    subst heq
    exact loopTest hk hstack
  | turn heq =>
    subst heq
    exact loopBody hk hstack
  | restart heq =>
    subst heq
    exact evaluating (Or.inl rfl) ⟨hk, hstack⟩

theorem step (h : m.GoesOn σ.unit) (hadvances : σ.Advances m m') : m'.GoesOn σ.unit := by
  cases hadvances with
  | code hmoves => exact moves hmoves (h.control _ _ rfl) h.stack
  | value hmoves => exact moves hmoves h.stack.1 h.stack.2
  | call hmoves => exact moves hmoves trivial h.stack
  | exit hmeets => exact meets hmeets h

theorem start (hu : σ.unit.WellScoped) (session : Session) : (σ.start session).GoesOn σ.unit := by
  obtain ⟨body, hb, hkind⟩ := hu.main
  unfold Setting.start
  rw [hb]
  refine evaluating (.newFrame ?_ ?_) trivial
  · rw [hu.id hb]
    exact hb
  · rw [hkind]
    rfl

end Machine.GoesOn

end

/-! ## Where exits go -/

namespace Setting

variable {σ : Setting}

/-- Going on: after a `next` a loop has its next turn, and a closure has its value; after a `redo`
both start over. -/
def goOn? (s : Store) (depth : Nat) (below : List Cont) : Exit → Cont → Option Machine
  | .nextWith _, .loopBody f condition body => some (loopTest s depth below f condition body)
  | .nextWith v, .closure _ _ => some (giving s (depth - 1) below v)
  | .redo, .loopBody f condition body => some (loopBody s depth below f condition body)
  | .redo, .closure f body => some (evaluating s depth (.closure f body :: below) f body.code)
  | _, _ => none

/-- The exit goes on with a loop or closure of the frame, and ends no method and no closure on its
way. -/
def GoesOn (σ : Setting) (f : FrameId) (e : Exit) (stack : List Cont) : Prop :=
  ∃ above k below, stack = above ++ k :: below ∧ k.turns? = some f ∧
    (∀ k' ∈ above, k'.isEnd = false) ∧
    ∀ s depth, ∃ m, goOn? s depth below e k = some m ∧ σ.Reaches (leaving s depth stack e) m

theorem goOn?_of_turns? {k : Cont} (hk : k.turns? = some f) (he : e.goesOn = true) (s : Store)
    (depth : Nat) (below : List Cont) :
    goOn? s depth below e k = some (unwind s depth below e k) := by
  cases k with
  | loopBody | closure =>
    cases e with
    | nextWith | redo => rfl
    | _ => cases he
  | _ => cases hk

theorem goesOn_of_turnsTo {stack : List Cont} (h : turnsTo stack = some f)
    (he : e.goesOn = true) : σ.GoesOn f e stack := by
  obtain ⟨above, k, below, rfl, hk, hside⟩ := exists_of_turnsTo h
  have hends : ∀ k' ∈ above, k'.isEnd = false := fun k' hk' =>
    Bool.not_eq_true' _ ▸ (Bool.and_eq_true_iff.mp (hside k' hk')).1
  refine ⟨above, k, below, rfl, hk, hends, fun s depth => ⟨_, goOn?_of_turns? hk he s depth below, ?_⟩⟩
  have hpast : σ.Reaches (leaving s depth (above ++ k :: below) e)
      (leaving s (depth - activations above) (k :: below) e) :=
    reaches_leave (fun k' hk' => Cont.lets_of_isSide (hside k' hk') he) s (k :: below) depth
  have hcount : activations above = 0 :=
    countP_eq_zero.mpr fun k' hk' => by simp [hends k' hk']
  rw [hcount, Nat.sub_zero] at hpast
  exact hpast.trans (.single rfl)

end Setting

theorem Held.turnsTo {u : CodeUnit} (hx : u.ExitsPlaced)
    (hnone : ∀ b body, u.body? b = some body → body.strays = []) {s : Store} {stack : List Cont}
    (h : Held u s stack f c) (hc : c.goesOn = true) : BlockLang.turnsTo stack = some f := by
  rcases h with hto | ⟨_, body, hb, hkind, hmem⟩
  · exact hto
  · have hstray := hx.mem_strays hb hkind hmem hc
    rw [hnone _ body hb] at hstray
    cases hstray

/-- The fault of a run that ends is not that of an exit that should have gone on. -/
theorem Machine.GoesOn.fault_of_done {σ : Setting} (hx : σ.unit.ExitsPlaced)
    (hnone : ∀ b body, σ.unit.body? b = some body → body.strays = []) {m : Machine}
    (h : m.GoesOn σ.unit) (hdone : σ.step m = .done (.fault fault) left) :
    fault ≠ .nextEscaped ∧ fault ≠ .redoEscaped := by
  obtain ⟨s, depth, stack, control⟩ := m
  cases control with
  | eval | call | halt => cases hdone
  | give v => cases stack <;> cases hdone
  | leave e =>
    cases stack with
    | cons => cases hdone
    | nil =>
      have hstays : e.goesOn = false := by
        refine Bool.eq_false_iff.mpr fun he => ?_
        obtain ⟨f, c, hc, hheld⟩ := h.exit e rfl he
        cases hheld.turnsTo hx hnone hc
      cases e with
      | nextWith | redo => cases hstays
      | raise raised =>
        have hescape := h.raised raised rfl
        cases hdone
        constructor <;>
        · rintro rfl
          cases hescape
      | returnWith id v =>
        have hconclude : σ.conclude (.returnWith id v) = .fault fault := (Step.done.inj hdone).1
        unfold conclude at hconclude
        simp only at hconclude
        split at hconclude <;> cases hconclude
        exact ⟨nofun, nofun⟩
      | breakWith | retry =>
        cases hdone
        exact ⟨nofun, nofun⟩

/-- The code of the frame that is run is a stray where it stands: its body is no closure, the
condition of a loop of the frame is being evaluated, the code is part of it, no turn has begun and
nothing has been called since, and there is no turn further down that it could go on with. -/
def Machine.IsStray (u : CodeUnit) (m : Machine) (f : FrameId) (c : Code) : Prop :=
  (∃ body, u.body? (m.store.frame f).body = some body ∧ body.kind.isClosure = false ∧
    c ∈ body.strays) ∧
  turnsTo m.stack ≠ some f ∧ Tested m.stack f c

/-- Code that is to go on is covered by something to go on with, or is a stray. -/
theorem Covered.isStray {u : CodeUnit} (hx : u.ExitsPlaced) {m : Machine}
    (h : Covered u m.store m.stack f c) (hc : c.goesOn = true)
    (hnone : BlockLang.turnsTo m.stack ≠ some f) : m.IsStray u f c := by
  rcases h with hto | ⟨⟨_, body, hb, hkind, hmem⟩, htested | ⟨_, body', hb', hkind', hapart⟩⟩
  · exact absurd hto hnone
  · exact ⟨⟨body, hb, hkind, hx.mem_strays hb hkind hmem hc⟩, hnone, htested⟩
  · -- apart from loops there is none
    cases (hx.in_condition hb' hkind' hapart hc).1

/-- **What goes on goes on in its own body.** In every run of a lowered program: where a `redo` is
run, or a `next` has its value, it goes on with a loop or closure of its own frame and ends nothing
else, unless it is a stray where it stands. And if no body has strays, no exit that is to go on ever
comes to the end of a method or of the run, and no run ends because of one. -/
theorem Program.lower_goesOn {p : Program} {options : LowerOptions} {σ : Setting}
    (h : p.lower options = .ok σ.unit) {turns : List Turn} {events : List Event}
    {session : Session} (hplay : σ.unit.play σ.capture {} turns = some (events, session)) :
    (∀ n m f c, σ.after n (σ.start session) = some m → m.control = .eval f c →
      c.goesOn = true →
        (∀ e, e.goesOn = true → σ.GoesOn f e m.stack) ∨ m.IsStray σ.unit f c) ∧
    ((∀ b body, σ.unit.body? b = some body → body.strays = []) →
      (∀ n m e, σ.after n (σ.start session) = some m → m.control = .leave e →
        e.goesOn = true → ∃ f, σ.GoesOn f e m.stack) ∧
      ∀ n fault left, σ.runFor n (σ.start session) = some (.fault fault, left) →
        fault ≠ .nextEscaped ∧ fault ≠ .redoEscaped) := by
  have hu := lower_wellScoped h
  have hx := exits_of_lower h
  have hs := hu.play (Store.lexical_initial hu) hplay
  have hgoes : ∀ {n m}, σ.after n (σ.start session) = some m → m.GoesOn σ.unit := fun hm =>
    keeps_after hu (fun _ _ h => h.step) (Machine.GoesOn.start hu session)
      (Sound.start hu hs) hm
  refine ⟨fun n m f c hm hcontrol hc => ?_, fun hnone => ⟨fun n m e hm hcontrol he => ?_, ?_⟩⟩
  · by_cases hto : turnsTo m.stack = some f
    · exact Or.inl fun e he => goesOn_of_turnsTo hto he
    · exact Or.inr (((hgoes hm).control f c hcontrol).isStray hx hc hto)
  · obtain ⟨f, c, hc, hheld⟩ := (hgoes hm).exit e hcontrol he
    exact ⟨f, goesOn_of_turnsTo (hheld.turnsTo hx hnone hc) he⟩
  · intro n fault left hrun
    obtain ⟨k, m, hm, hdone⟩ := exists_of_runFor hrun
    exact (hgoes hm).fault_of_done hx hnone hdone

/-- `x = 0; while x == 0; x = 1; [5].each { |y| next }; next; end; :done` -/
def Program.nextTurns : Program where
  body := [
    Build.assign "x" (Build.integer 0),
    Build.whileLoop (Build.call (Build.localVar "x") "==" [Build.integer 0]) [
      Build.assign "x" (Build.integer 1),
      Build.callWithBlock (some (Build.array [Build.integer 5])) "each" []
        (Build.block (Params.empty.require "y") [Build.nextWith none]),
      Build.nextWith none],
    Build.symbol "done"]

def Setting.nextTurns : Setting := .of Program.nextTurns

theorem Program.nextTurns_lower : nextTurns.lower {} = .ok Setting.nextTurns.unit :=
  lower_of_setting rfl (by decide +kernel)

/-- The `next` of the block in `nextTurns` is run while the block, the loop around it and an
iteration are pending, and goes on with the block. No body has strays, so no run ends because of
it. -/
theorem Setting.nextTurns_goesOn : Program.nextTurns.lower {} = .ok nextTurns.unit ∧
    nextTurns.unit.play nextTurns.capture {} [] = some ([], {}) ∧
    (∃ m c, nextTurns.after 32 (nextTurns.start {}) = some m ∧ m.control = .eval 1 c ∧
      c.goesOn = true ∧ nextTurns.GoesOn 1 (.nextWith .nil) m.stack) ∧
    (∀ b body, nextTurns.unit.body? b = some body → body.strays = []) ∧
    ∀ n fault left, nextTurns.runFor n (nextTurns.start {}) = some (.fault fault, left) →
      fault ≠ .nextEscaped ∧ fault ≠ .redoEscaped := by
  have hgoes := Program.lower_goesOn Program.nextTurns_lower CodeUnit.play_nil
  have hnone : ∀ b body, nextTurns.unit.body? b = some body → body.strays = [] := by
    have hall : nextTurns.unit.bodies.all (·.strays.isEmpty) = true := by
      decide +kernel
    intro b body hb
    obtain ⟨hlt, hb⟩ := Array.getElem?_eq_some_iff.mp hb
    exact List.isEmpty_iff.mp (hb ▸ Array.all_eq_true.mp hall b hlt)
  refine ⟨Program.nextTurns_lower, rfl, ?_, hnone, (hgoes.2 hnone).2⟩
  have hσ := Eq.refl nextTurns
  conv at hσ => rhs; cbv
  have hm := Eq.refl (nextTurns.after 32 (nextTurns.start {}))
  conv at hm => rhs; rw [hσ]; cbv
  refine ⟨_, _, hm, rfl, rfl, ?_⟩
  rcases hgoes.1 32 _ 1 _ hm rfl rfl with hgoesOn | ⟨⟨body, hb, _, hstray⟩, _⟩
  · exact hgoesOn _ rfl
  · rw [hnone _ body hb] at hstray
    cases hstray

/-- `x = 0; while (if x == 0; x = 1; next; end; false); end; :done` -/
def Program.strayNext : Program where
  body := [
    Build.assign "x" (Build.integer 0),
    Build.whileLoop (Build.sequence [
      Build.ifElse (Build.call (Build.localVar "x") "==" [Build.integer 0])
        [Build.assign "x" (Build.integer 1), Build.nextWith none] [],
      Build.bool false]) [],
    Build.symbol "done"]

def Setting.strayNext : Setting := .of Program.strayNext

/-- The `next` of `strayNext` is accepted, and ends the run. -/
theorem Setting.strayNext_escapes : Program.strayNext.lower {} = .ok strayNext.unit ∧
    strayNext.Finishes (strayNext.start {}) (.fault .nextEscaped) := by
  constructor
  · exact Program.lower_of_setting rfl (by decide +kernel)
  · have hσ := Eq.refl strayNext
    conv at hσ => rhs; cbv
    have hrun := Eq.refl (strayNext.runFor 100 (strayNext.start {}))
    conv at hrun => rhs; rw [hσ]; cbv
    exact ⟨100, _, hrun⟩

end BlockLang
