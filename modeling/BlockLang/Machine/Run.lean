import BlockLang.Machine.Step

/-!
# Runs

A run takes steps until there is an outcome. What a program leaves in the store is there for the
next run of the session.
-/

namespace BlockLang

namespace Setting

/-- The machine at the start of a program. -/
def start (σ : Setting) : Session → Machine
  | ⟨store, depth⟩ =>
    match σ.unit.body? σ.unit.main with
    | none => ⟨store, depth, [], .leave (.raise (.unknownBody σ.unit.main))⟩
    | some body =>
      let (frame, store) := store.newFrame {
        body := body.id, self := Store.mainObject, definee := Store.objectClass,
        slots := Store.blankSlots body.slots.length }
      ⟨store, depth, [], .eval frame body.code⟩

/-- At most `n` steps. -/
def runFor (σ : Setting) : Nat → Machine → Option (Outcome × Session)
  | 0, _ => none
  | n + 1, m =>
    match σ.step m with
    | .next m => σ.runFor n m
    | .done outcome session => some (outcome, session)

/-- More steps than any run can take in a lifetime. -/
def budget : Nat := Nat.pow 2 62

/-- Runs the program of the unit. -/
def run (σ : Setting) (session : Session) : Option (Outcome × Session) :=
  σ.runFor budget (σ.start session)

end Setting

/-- How deep calls can be nested unless more is asked for. -/
def defaultMaxDepth : Nat := 16

/-- How deep calls can be nested by the command line. -/
def commandMaxDepth : Nat := 2000

/-- What was written since the last time, and the session without it. -/
def Session.takeOutput (s : Session) : String × Session :=
  (s.store.output, { s with store := { s.store with output := "" } })

end BlockLang
