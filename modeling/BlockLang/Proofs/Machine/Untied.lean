import Mathlib
import BlockLang.Proofs.Machine.Tidy

/-!
# Runs in which nothing is put into itself

A program can put an array into itself, and then the array can neither be shown nor, in general, be
compared (`Setting.selfPush_loops`). It can do so only with a core method that is called to put
something into its receiver that leads to the receiver (`CoreCall.Ties`). **As long as no such call
is made, nothing contains itself, so that every value can be shown and compared, and no run shows or
compares without end** (`CodeUnit.shows_all`).
-/

namespace BlockLang

open Store Setting

theorem Setting.control_of_crash {σ : Setting} (h : σ.step m = .done (.crash c) left) :
    m.control = .halt c := by
  obtain ⟨store, depth, stack, control⟩ := m
  cases control with
  | eval | call => cases h
  | give v => cases stack <;> cases h
  | leave e =>
    cases stack with
    | nil =>
      have houtcome : σ.conclude e = .crash c := (Step.done.inj h).1
      unfold conclude at houtcome
      split at houtcome
      · split at houtcome <;> cases houtcome
      · cases houtcome
    | cons => cases h
  | halt c' =>
    cases stack <;> cases h <;> rfl

/-! ## Sessions -/

/-- The machines of a session in which no core method puts something into itself. The unit is run
again and again, with any limits, and what was written may be taken in between. -/
inductive CodeUnit.Untied (u : CodeUnit) (capture : Capture) : Setting → Machine → Prop
  | first (maxDepth : Nat) :
      Untied u capture ⟨u, maxDepth, capture⟩ (Setting.start ⟨u, maxDepth, capture⟩ {})
  | next {σ : Setting} {m m' : Machine} : Untied u capture σ m → NoTie m.coreCall? →
      σ.step m = .next m' → Untied u capture σ m'
  | again {σ : Setting} {m : Machine} {outcome : Outcome} {left session : Session} (maxDepth : Nat) :
      Untied u capture σ m → σ.step m = .done outcome left →
      session = left ∨ session = left.takeOutput.2 →
      Untied u capture ⟨u, maxDepth, capture⟩ (Setting.start ⟨u, maxDepth, capture⟩ session)

namespace CodeUnit

variable {u : CodeUnit} {capture : Capture} {σ : Setting}

theorem Untied.tidy (h : u.Untied capture σ m) : m.Tidy ⟨.initial, True⟩ := by
  induction h with
  | first maxDepth => exact tidy_start _ (.initial True)
  | next _ hno hstep ih => exact tidy_step ih (fun _ => hno) hstep
  | again maxDepth _ hdone hsession ih =>
    refine tidy_start _ ?_
    cases session_of_done hdone
    rcases hsession with rfl | rfl
    · exact ih.store
    · exact ih.store.write _

theorem Untied.after {n : Nat} : ∀ {m m' : Machine}, u.Untied capture σ m →
    (∀ k < n, ∀ m₁, σ.after k m = some m₁ → NoTie m₁.coreCall?) → σ.after n m = some m' →
    u.Untied capture σ m' := by
  induction n with
  | zero =>
    intro m m' h _ hafter
    cases hafter
    exact h
  | succ n ih =>
    intro m m' h hno hafter
    unfold Setting.after at hafter
    split at hafter
    · rename_i m₁ hstep
      refine ih (h.next (hno 0 (Nat.succ_pos n) m rfl) hstep) (fun k hk m₂ hm₂ => ?_) hafter
      refine hno (k + 1) (Nat.succ_lt_succ hk) m₂ ?_
      rw [Setting.after, hstep]
      exact hm₂
    · cases hafter

/-- **A value can be shown if and only if it leads to nothing that contains itself**, and two values
can be compared if one of them does not. **As long as no core method puts into an array or hash
something that leads to it, nothing contains itself**, so every value can be shown and compared, and
the run does not end because something cannot. -/
theorem shows_all (u : CodeUnit) (capture : Capture) :
    (∀ (s : Store) (v w : Value), ((s.inspect? v).isSome = true ↔ ¬ s.Knotted v) ∧
      ((s.display? v).isSome = true ↔ ¬ s.Knotted v) ∧
      ((s.lines? v).isSome = true ↔ ¬ s.Knotted v) ∧
      (¬ s.Knotted v ∨ ¬ s.Knotted w → (s.equal? v w).isSome = true)) ∧
    ∀ {σ : Setting} {m : Machine}, u.Untied capture σ m → m.store.Acyclic ∧
      (∀ v w, (m.store.inspect? v).isSome = true ∧ (m.store.display? v).isSome = true ∧
        (m.store.lines? v).isSome = true ∧ (m.store.equal? v w).isSome = true) ∧
      ∀ left, σ.step m ≠ .done (.crash .endlessValue) left := by
  refine ⟨fun s v w => ⟨isSome_inspect?_iff, isSome_display?_iff,
    isSome_lines?_iff, isSome_equal?⟩, fun {σ m} h => ?_⟩
  have htidy := h.tidy
  have hacyclic := htidy.store.acyclic trivial
  have hknot := hacyclic.not_knotted
  refine ⟨hacyclic, fun v w => ⟨isSome_inspect?_iff.mpr (hknot v),
    isSome_display?_iff.mpr (hknot v), isSome_lines?_iff.mpr (hknot v),
    isSome_equal? (.inl (hknot v))⟩, fun left hdone => ?_⟩
  have hends := htidy.ends trivial
  rw [control_of_crash hdone] at hends
  cases hends

end CodeUnit

/-! ## Two programs -/

/-- Fills an array of an array and a hash, and shows it. -/
def Program.fills : Program where
  body := [
    Build.assign "a" (Build.array [
      Build.array [Build.integer 1], Build.keywords [("k", Build.array [Build.integer 2])]]),
    Build.call (Build.call (Build.localVar "a") "first" []) "push" [Build.integer 3],
    Build.call (Build.localVar "a") "inspect" []]

def Setting.fills : Setting := .of Program.fills

/-- What the next step puts into a container is no container. -/
def Machine.storesPlain (m : Machine) : Bool :=
  m.coreCall?.all fun call => (stored call.receiver call.name call.args).all (!·.isContainer)

theorem Machine.noTie_of_storesPlain {m : Machine} (h : m.storesPlain = true) :
    NoTie m.coreCall? := by
  intro call hcall ⟨v, hv, hlead⟩
  rw [storesPlain, hcall] at h
  have hplain : v.isContainer = false := by simpa using List.all_eq_true.mp h v hv
  rw [eq_of_leads (contents_of_isContainer hplain) hlead] at hplain
  rw [stored_of_isContainer hplain] at hv
  cases hv

/-- In the run of `fills` something is put into an array that is in another one, and the other one
can be shown. -/
theorem Setting.fills_shown : Program.fills.lower {} = .ok fills.unit ∧
    ∃ m, fills.after 31 (fills.start {}) = some m ∧ (m.store.array 0).size = 2 ∧
      m.store.Acyclic ∧ (m.store.inspect? (.array 2)).isSome = true := by
  constructor
  · exact Program.lower_of_setting rfl (by decide +kernel)
  · have hafter : (fills.after 31 (fills.start {})).any (fun m => (m.store.array 0).size == 2) = true := by
      decide +kernel
    have hplain : (List.range 31).all (fun k =>
        (fills.after k (fills.start {})).all Machine.storesPlain) = true := by
      decide +kernel
    obtain ⟨m, hm, hsize⟩ := (Option.any_eq_true _ _).mp hafter
    have hno : ∀ k < 31, ∀ m₁, fills.after k (fills.start {}) = some m₁ →
        NoTie m₁.coreCall? := by
      intro k hk m₁ hm₁
      have hm₁' := List.all_eq_true.mp hplain k (List.mem_range.mpr hk)
      rw [hm₁] at hm₁'
      exact Machine.noTie_of_storesPlain hm₁'
    have hfirst : fills.unit.Untied fills.capture fills (fills.start {}) := .first _
    have huntied : fills.unit.Untied fills.capture fills m := hfirst.after hno hm
    obtain ⟨hacyclic, hshown, _⟩ := (CodeUnit.shows_all fills.unit fills.capture).2 huntied
    exact ⟨m, hm, beq_iff_eq.mp hsize, hacyclic, (hshown (.array 2) .nil).1⟩

/-- Puts an array into itself. -/
def Program.selfPush : Program where
  body := [
    Build.assign "a" (Build.array []),
    Build.call (Build.localVar "a") "push" [Build.localVar "a"],
    Build.call (Build.call (Build.localVar "a") "first" []) "==" [Build.localVar "a"]]

def Setting.selfPush : Setting := .of Program.selfPush

/-- The array of `selfPush` contains itself and is equal to its item, and it cannot be shown. -/
theorem Setting.selfPush_loops : Program.selfPush.lower {} = .ok selfPush.unit ∧
    ∃ left, selfPush.runFor 100 (selfPush.start {}) = some (.value (.bool true), left) ∧
      ¬ left.store.Acyclic ∧ left.store.inspect? (.array 0) = none ∧
      left.store.lines? (.array 0) = none := by
  constructor
  · exact Program.lower_of_setting rfl (by decide +kernel)
  · have hσ := Eq.refl selfPush
    conv at hσ => rhs; cbv
    have hrun := Eq.refl (selfPush.runFor 100 (selfPush.start {}))
    conv at hrun => rhs; rw [hσ]; cbv
    refine ⟨_, hrun, ?_⟩
    generalize hleft : Session.store _ = s
    have hloop : s.Loops (.array 0) := .single (hleft ▸ .head _)
    have hknot : s.Knotted (.array 0) := ⟨_, .refl, hloop⟩
    have hnone {text : Option String} (hiff : text.isSome = true ↔ ¬ s.Knotted (.array 0)) :
        text = none :=
      Option.not_isSome_iff_eq_none.mp fun h => hiff.mp h hknot
    exact ⟨fun h => h _ hloop, hnone isSome_inspect?_iff, hnone isSome_lines?_iff⟩

end BlockLang
