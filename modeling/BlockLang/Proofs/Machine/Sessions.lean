import BlockLang.Proofs.Lowering.References
import BlockLang.Proofs.Machine.Steps

/-!
# Runs of a lowered program

A program is run again and again in one session, each time with a limit to the depth of calls, and
what it has written is taken in between (`CodeUnit.play`). A run is looked at step by step
(`Setting.after`), so that what is said here is said of runs that never end as well.

**No run of a lowered program refers to something that is not there**
(`Program.lower_resolves`): a variable that is read or written is in the frame that its level leads
to, in the slot that has its name, and a frame never gets more slots than its body has; and none of
the faults of a wrong reference is ever raised.
-/

namespace BlockLang

variable {m : Machine} {u : CodeUnit}

/-! ## Steps and turns -/

/-- The machine after `n` steps, if the run has not ended before. -/
def Setting.after (σ : Setting) : Nat → Machine → Option Machine
  | 0, m => some m
  | n + 1, m =>
    match σ.step m with
    | .next m => σ.after n m
    | .done _ _ => none

/-- What is done with a session. -/
inductive Turn where
  /-- The program is run, and has to end within so many steps. -/
  | run (maxDepth steps : Nat)
  | takeOutput

/-- What is seen of a turn. -/
inductive Event where
  | outcome (o : Outcome)
  | output (text : String)

namespace CodeUnit

variable (u : CodeUnit) (capture : Capture)

def turn (session : Session) : Turn → Option (Event × Session)
  | .run maxDepth steps =>
    let σ : Setting := { unit := u, maxDepth, capture }
    (σ.runFor steps (σ.start session)).map fun (outcome, session) => (.outcome outcome, session)
  | .takeOutput =>
    let (output, session) := session.takeOutput
    some (.output output, session)

/-- One turn after the other, as long as the runs end. -/
def play (session : Session) : List Turn → Option (List Event × Session)
  | [] => some ([], session)
  | t :: rest => do
    let (event, session) ← u.turn capture session t
    let (events, session) ← play session rest
    some (event :: events, session)

end CodeUnit

/-! ## Sound runs -/

theorem Store.lexical_initial (hu : u.WellScoped) : Store.initial.Lexical u := by
  obtain ⟨body, hb, hkind⟩ := hu.main
  have hroot : body.kind.isClosure = false := by
    rw [hkind]
    rfl
  refine ⟨fun f hf => ?_, fun f hf => ?_, fun c => ?_, fun c name b hm => ?_⟩
  · exact absurd hf (Nat.not_lt_zero f)
  · exact absurd hf (Nat.not_lt_zero f)
  · -- a closure that is not there is one of the program
    have hmain : u.body? 0 = some body := hu.first ▸ hb
    exact .root hu hmain hroot fun heq => by simp [hkind] at heq
  · have hnone : (Store.initial.classInfo c).methods = {} := by
      cases c <;> rfl
    rw [hnone] at hm
    simp [Table.get?] at hm

namespace Sound

variable {σ : Setting} (hu : σ.unit.WellScoped)

include hu

theorem start (hs : session.store.Lexical σ.unit) : Sound σ.unit (σ.start session) := by
  obtain ⟨body, hb, hkind⟩ := hu.main
  have hready : Ready σ.unit session.store [] := ⟨hs, by simp⟩
  have hid : σ.unit.body? body.id = some body := by
    rw [hu.id hb]
    exact hb
  have hroot : body.kind.isClosure = false := by
    rw [hkind]
    rfl
  have hplaced : Placed σ.unit session.store body.id none none :=
    .root hu hid hroot fun heq => by simp [hkind] at heq
  unfold Setting.start
  rw [hb]
  refine .enter hu (hready.newFrame hplaced hid rfl) ?_ ?_
  · rw [Store.size_newFrame]
    exact Nat.lt_succ_self _
  · exact (congrArg (fun new => σ.unit.body? (Frame.body new)) (Store.frame_newFrame_self _)).trans hid

theorem after {n : Nat} : ∀ {m m' : Machine}, Sound σ.unit m → σ.after n m = some m' →
    Sound σ.unit m' := by
  induction n with
  | zero =>
    intro m m' h hafter
    cases hafter
    exact h
  | succ n ih =>
    intro m m' h hafter
    have hstep := h.step hu
    unfold Setting.after at hafter
    split at hafter
    · rename_i hnext
      rw [hnext] at hstep
      exact ih hstep hafter
    · cases hafter

theorem runFor {n : Nat} : ∀ {m : Machine} {outcome : Outcome} {session : Session},
    Sound σ.unit m → σ.runFor n m = some (outcome, session) →
      outcome.Plain ∧ session.store.Lexical σ.unit := by
  induction n with
  | zero =>
    intro m outcome session _ hrun
    cases hrun
  | succ n ih =>
    intro m outcome session h hrun
    have hstep := h.step hu
    unfold Setting.runFor at hrun
    split at hrun
    · rename_i hnext
      rw [hnext] at hstep
      exact ih hstep hrun
    · rename_i hdone
      rw [hdone] at hstep
      cases hrun
      exact hstep

end Sound

namespace CodeUnit.WellScoped

variable {u : CodeUnit} (hu : u.WellScoped) {capture : Capture}

include hu

theorem turn (hs : session.store.Lexical u)
    (hturn : u.turn capture session t = some (event, next)) : next.store.Lexical u := by
  cases t with
  | run maxDepth steps =>
    obtain ⟨⟨outcome, left⟩, hrun, heq⟩ := Option.map_eq_some_iff.mp hturn
    cases heq
    exact (Sound.runFor hu (Sound.start hu hs) hrun).2
  | takeOutput =>
    cases hturn
    exact hs.update rfl rfl fun _ _ _ => Or.inl

theorem play {turns : List Turn} : ∀ {session left : Session} {events : List Event},
    session.store.Lexical u → u.play capture session turns = some (events, left) →
      left.store.Lexical u := by
  induction turns with
  | nil =>
    intro session left events hs hplay
    cases hplay
    exact hs
  | cons t rest ih =>
    intro session left events hs hplay
    obtain ⟨⟨event, next⟩, hturn, hplay⟩ := Option.bind_eq_some_iff.mp hplay
    obtain ⟨⟨events, last⟩, hrest, hplay⟩ := Option.bind_eq_some_iff.mp hplay
    cases hplay
    exact ih (hu.turn hs hturn) hrest

end CodeUnit.WellScoped

/-! ## Variables -/

/-- The next step reads or writes the variable, for code that runs in the frame. -/
def Machine.Accesses (m : Machine) (f : FrameId) (l : Local) : Prop :=
  m.control = .eval f (.readLocal l) ∨
    ∃ v rest, m.control = .give v ∧ m.stack = .writeLocal f l :: rest

theorem Sound.holds_of_accesses (h : Sound u m) (ha : m.Accesses f l) :
    Holds u m.store f [.variable l] := by
  cases h with
  | steady h hc =>
    rcases ha with hread | ⟨v, rest, _, hstack⟩
    · cases hread
      exact Holds.own hc
    · cases hstack
      exact h.top
  | entering | checking | refused =>
    -- the machine is at a check, and not at a variable
    rcases ha with hread | ⟨v, rest, hgive, _⟩
    · cases hread
    · cases hgive

theorem Sound.isInternal_of_raise (h : Sound u m) (hraise : m.control = .leave (.raise fault)) :
    fault.isInternal = false := by
  cases h with
  | steady _ hc =>
    cases hraise
    exact hc
  | entering | checking => contradiction
  | refused _ hf =>
    cases hraise
    exact hf

/-- **A variable is where its reference says.** In every run of a lowered program, however the
session went before and however many steps it has taken: code that reads or writes a variable
refers to it, `level` links lead from its frame to a frame of the body that many bodies outward, the
slot of that body has the variable's name, and the frame has the slots of its body and keeps their
number when the variable is written. None of the faults of a wrong reference is raised, nor is one
the outcome. -/
theorem Program.lower_resolves {p : Program} {options : LowerOptions} {σ : Setting}
    (h : p.lower options = .ok σ.unit) {turns : List Turn} {events : List Event}
    {session : Session} (hplay : σ.unit.play σ.capture {} turns = some (events, session))
    (n : Nat) :
    (∀ m, σ.after n (σ.start session) = some m →
      (∀ f l, m.Accesses f l →
        (∃ body, σ.unit.body? (m.store.frame f).body = some body ∧ body.code.Refers l) ∧
        ∃ owner, Resolves σ.unit m.store f l owner ∧ ∀ v,
          ((m.store.setSlot owner l.slot v).frame owner).slots.size =
            (m.store.frame owner).slots.size) ∧
      ∀ fault, m.control = .leave (.raise fault) → fault.isInternal = false) ∧
    ∀ fault left, σ.runFor n (σ.start session) = some (.fault fault, left) →
      fault.isInternal = false := by
  have hu := lower_wellScoped h
  have hs := hu.play (Store.lexical_initial hu) hplay
  have hstart := Sound.start hu hs
  refine ⟨fun m hm => ?_, fun fault left hrun => ?_⟩
  · have hsound := Sound.after hu hstart hm
    refine ⟨fun f l ha => ?_, fun fault hraise => hsound.isInternal_of_raise hraise⟩
    have hholds := hsound.holds_of_accesses ha
    obtain ⟨body, hb, hl⟩ := hholds.mentioned _ List.mem_cons_self
    obtain ⟨owner, howner⟩ := hholds.resolves hu hsound.lexical
    refine ⟨⟨body, hb, Code.refers_iff.mpr hl⟩, owner, howner, fun v => ?_⟩
    rw [Store.frame_setSlot _ _ _ _ howner.inRange, if_pos rfl]
    exact size_setGrowing howner.slot_lt v
  · exact (Sound.runFor hu hstart hrun).1 fault rfl

theorem CodeUnit.play_nil {u : CodeUnit} : u.play capture session [] = some ([], session) := rfl

/-- The program with the usual limits. -/
def Setting.of (p : Program) : Setting where
  unit := (p.lowering {}).unit
  maxDepth := defaultMaxDepth

/-- `x = 1; (-> { -> { x } }).call.call`. -/
def Program.nestedCalls : Program where
  body := [Build.assign "x" (Build.integer 1),
    Build.call (Build.call
      (Build.lambda Params.empty [Build.lambda Params.empty [Build.localVar "x"]]) "call" [])
      "call" []]

def Setting.nestedCalls : Setting := .of Program.nestedCalls

theorem Program.lower_of_setting {σ : Setting} {p : Program} {options : LowerOptions}
    (hσ : σ = ⟨(p.lowering options).unit, maxDepth, capture⟩)
    (h : (p.lowering options).mistakes.isEmpty = true) : p.lower options = .ok σ.unit :=
  hσ ▸ lower_of_isEmpty h

theorem Program.nestedCalls_lower : nestedCalls.lower {} = .ok Setting.nestedCalls.unit :=
  lower_of_setting rfl (by decide +kernel)

/-- The variable that the next step reads. -/
def Machine.reads? (m : Machine) : Option (FrameId × Local) :=
  match m.control with
  | .eval f (.readLocal l) => some (f, l)
  | _ => none

theorem Machine.accesses_of_reads? (h : m.reads? = some (f, l)) : m.Accesses f l := by
  unfold reads? at h
  split at h
  · cases h
    exact Or.inl ‹_›
  · cases h

/-- In the second run of `nestedCalls` the inner lambda finds `x` two frames outward. -/
theorem Setting.nestedCalls_resolves : Program.nestedCalls.lower {} = .ok nestedCalls.unit ∧
    ∃ events session m f l owner, nestedCalls.unit.play nestedCalls.capture {}
        [.run 2 100, .takeOutput] = some (events, session) ∧
      nestedCalls.after 20 (nestedCalls.start session) = some m ∧ m.Accesses f l ∧ l.level = 2 ∧
      Resolves nestedCalls.unit m.store f l owner := by
  refine ⟨Program.nestedCalls_lower, ?_⟩
  have hplayed : (nestedCalls.unit.play nestedCalls.capture {} [.run 2 100, .takeOutput]).any
      (fun played => (nestedCalls.after 20 (nestedCalls.start played.2)).any fun m =>
        m.reads?.any fun read => read.2.level == 2) = true := by
    decide +kernel
  obtain ⟨⟨events, session⟩, hplay, hafter⟩ := (Option.any_eq_true _ _).mp hplayed
  obtain ⟨m, hm, hreads⟩ := (Option.any_eq_true _ _).mp hafter
  obtain ⟨⟨f, l⟩, hread, hlevel⟩ := (Option.any_eq_true _ _).mp hreads
  have ha := Machine.accesses_of_reads? hread
  obtain ⟨_, owner, howner, _⟩ :=
    ((Program.lower_resolves Program.nestedCalls_lower hplay 20).1 m hm).1 f l ha
  exact ⟨events, session, m, f, l, owner, hplay, hm, ha, beq_iff_eq.mp hlevel, howner⟩

end BlockLang
